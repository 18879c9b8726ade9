import JosVmx.Kern.BootCheck

/-!
# The virtual page table

A page directory that is its own page table at `PDX(VPT)` shows its page tables at `vpt` and
itself at `vpd`: the processor reads the directory at the first level of a walk and again at the
second. `entry.S` computes `vpd` with a shift macro of the assembler, which computes with 64-bit
numbers and keeps the sign in a shift to the right.

## Main definitions

* `SelfMapped` — the entry of the directory for itself
* `translate` — the physical address that a linear address is translated to

## Main results

* `selfMap_window` — what the two windows show
* `Kern.bootMemInit_selfMapped` — `boot_mem_init` sets the entry
-/

namespace JosVmx

/-! ### The symbols of `entry.S` -/

/-- `SRL` of the assembler. -/
def srl (val : BitVec 64) (shamt : ℕ) : BitVec 64 :=
  val.sshiftRight shamt &&& ~~~((-1#64) <<< (32 - shamt))

/-- The symbol `vpd`, with the constant `VPT` as the assembler holds it. -/
def vpdOf (vptConst : BitVec 64) : Word := (vptConst + srl vptConst 10).setWidth 32

/-! ### Translation -/

/-- The physical address that a linear address is translated to. -/
def translate (m : Mem) (pgdir : ℕ) (la : Word) : Option Word :=
  (walk m pgdir (vpage la)).map fun entries => pteAddr entries.2 ||| (la &&& 0xFFF#32)

/-- A user program can access the address: both levels allow it. -/
def UserAccess (m : Mem) (pgdir : ℕ) (la : Word) : Prop :=
  ∃ pde pte, walk m pgdir (vpage la) = some (pde, pte) ∧ pde &&& pteU ≠ 0#32 ∧
    pte &&& pteU ≠ 0#32

/-- The entry `PDX(VPT)` of the directory is its own address for the kernel. -/
def SelfMapped (m : Mem) (pgdir : ℕ) : Prop := m pgdir (pdx vpt) = page2pa pgdir ||| pteW ||| pteP

/-- The address of `vpt[i]`, and of `vpd[i]` behind another symbol. -/
def wordAddr (array : Word) (i : ℕ) : Word := array + BitVec.ofNat 32 (4 * i)

variable {m : Mem} {pgdir : ℕ} {la : Word}

/-! ### The addresses in the window -/

/-- **The shift macro** imitates a logical shift of a 32-bit number, whatever its high half is. -/
theorem srl_eq (v : BitVec 64) {n : ℕ} (hn : n ≤ 32) :
    (srl v n).setWidth 32 = v.setWidth 32 >>> n := by
  apply BitVec.eq_of_getLsbD_eq
  intro i hi
  have hmask : (~~~((-1#64) <<< (32 - n))).getLsbD i = decide (i < 32 - n) := by
    have hones : -1#64 = BitVec.allOnes 64 := by decide
    rw [hones, BitVec.getLsbD_not, BitVec.getLsbD_shiftLeft,
      BitVec.getLsbD_allOnes]
    by_cases hlow : i < 32 - n
    · simp [hlow]
      omega
    · have hlt : i - (32 - n) < 64 := by omega
      simp [hlow, hlt]
  have hbit : (v.sshiftRight n).getLsbD i = v.getLsbD (n + i) := by
    have hlt : n + i < 64 := by omega
    rw [BitVec.getLsbD_sshiftRight, if_pos hlt, decide_eq_false (by omega), Bool.not_false,
      Bool.true_and]
  rw [BitVec.getLsbD_setWidth, srl, BitVec.getLsbD_and, hmask, hbit, BitVec.getLsbD_ushiftRight,
    BitVec.getLsbD_setWidth, decide_eq_true hi, Bool.true_and, Bool.and_comm]
  congr 1
  rw [decide_eq_decide]
  omega

theorem vpdOf_eq {v : BitVec 64} (hv : v.setWidth 32 = vpt) : vpdOf v = vpt + (vpt >>> 10) := by
  rw [vpdOf, BitVec.setWidth_add _ _ (by decide), srl_eq v (by decide), hv]

theorem toNat_offset (a : Word) : (a &&& 0xFFF#32).toNat = a.toNat % 4096 := by
  rw [BitVec.toNat_and]
  exact Nat.and_two_pow_sub_one_eq_mod a.toNat 12

/-- The address of word `i` of the window. -/
theorem toNat_wordAddr {i : ℕ} (hi : i < 2 ^ 20) :
    (wordAddr vpt i).toNat = 959 * 2 ^ 22 + 4 * i := by
  have hvpt : vpt.toNat = 959 * 2 ^ 22 := by decide
  rw [wordAddr, BitVec.toNat_add, hvpt, BitVec.toNat_ofNat]
  omega

/-- Word `d` behind `vpd` is that of the directory's own page in the window. -/
theorem wordAddr_vpd {v : BitVec 64} (hv : v.setWidth 32 = vpt) (d : ℕ) :
    wordAddr (vpdOf v) d = wordAddr vpt (959 * 1024 + d) := by
  have hshift : vpt >>> 10 = BitVec.ofNat 32 (4 * (959 * 1024)) := by decide
  rw [vpdOf_eq hv, wordAddr, wordAddr, hshift, BitVec.add_assoc, ← BitVec.ofNat_add, Nat.mul_add]

/-- **A word of the window**: the directory is read as its own page table. -/
theorem walk_window (hpgdir : pgdir < 2 ^ 20) (hself : SelfMapped m pgdir) {a : Word}
    (ha : pdx a = pdx vpt) :
    walk m pgdir (vpage a) = if present (m pgdir (ptx a)) then
      some (page2pa pgdir ||| pteW ||| pteP, m pgdir (ptx a)) else none := by
  have hpresent : present (page2pa pgdir ||| pteW ||| pteP) := by
    have hor := present_or (page2pa pgdir ||| pteW) 0#32
    rwa [BitVec.or_zero] at hor
  have hframe : frameOf (page2pa pgdir ||| pteW ||| pteP) = pgdir := by
    rw [BitVec.or_assoc]
    exact frameOf_page2pa_or hpgdir (by decide)
  rw [walk, vpage, ha, hself, if_pos hpresent, hframe]

/-- Word `i` of the window is entry `i % 1024` of the table in entry `i / 1024`. -/
theorem translate_window (hpgdir : pgdir < 2 ^ 20) (hself : SelfMapped m pgdir) {i : ℕ}
    (hi : i < 2 ^ 20) {d : Fin 1024} (hd : d.val = i / 1024) (hpresent : present (m pgdir d)) :
    translate m pgdir (wordAddr vpt i) =
      some (pteAddr (m pgdir d) + BitVec.ofNat 32 (4 * (i % 1024))) := by
  have haddr := toNat_wordAddr hi
  have hpdx : pdx (wordAddr vpt i) = pdx vpt := by
    rw [Fin.ext_iff, val_pdx, haddr]
    have hvpt : (pdx vpt).val = 959 := by decide
    omega
  have hptx : ptx (wordAddr vpt i) = d := by
    rw [Fin.ext_iff, val_ptx, haddr]
    omega
  have hoffset : (wordAddr vpt i &&& 0xFFF#32).toNat = 4 * (i % 1024) := by
    rw [toNat_offset, haddr]
    omega
  rw [translate, walk_window hpgdir hself hpdx, hptx, if_pos hpresent, Option.map_some]
  have hframe := frameOf_lt (m pgdir d)
  -- the offset is below a page, so nothing is carried
  rw [Option.some_inj, pteAddr_eq_page2pa, ← BitVec.toNat_inj,
    toNat_page2pa_or hframe (by omega), hoffset, BitVec.toNat_add, toNat_page2pa hframe,
    BitVec.toNat_ofNat]
  omega

/-- The kernel has the window for itself. -/
theorem not_userAccess (hpgdir : pgdir < 2 ^ 20) (hself : SelfMapped m pgdir) {a : Word}
    (ha : pdx a = pdx vpt) : ¬ UserAccess m pgdir a := by
  rintro ⟨pde, pte, hwalk, huser, -⟩
  have hkernel : (page2pa pgdir ||| pteW ||| pteP) &&& pteU = 0#32 := by
    have honly : Kern.KernelOnly (page2pa pgdir ||| (pteW ||| pteP)) :=
      Kern.kernelOnly_of_aligned (Kern.page2pa_aligned hpgdir) (by decide)
    rw [← BitVec.or_assoc] at honly
    exact honly.2
  rw [walk_window hpgdir hself ha] at hwalk
  split at hwalk
  · rw [Option.some_inj, Prod.mk.injEq] at hwalk
    exact huser (hwalk.1 ▸ hkernel)
  · exact absurd hwalk (by simp)

/-! ### The windows -/

/-- **The self-mapped page directory** shows every page table entry at `vpt` and itself at `vpd`,
to the kernel alone. -/
theorem selfMap_window (hpgdir : pgdir < 2 ^ 20) (hself : SelfMapped m pgdir) :
    (∀ la, present (m pgdir (pdx la)) →
      translate m pgdir (wordAddr vpt (pgnum la).toNat) =
        some (pteAddr (m pgdir (pdx la)) + BitVec.ofNat 32 (4 * (ptx la).val))) ∧
    (∀ v : BitVec 64, v.setWidth 32 = vpt → ∀ d : Fin 1024,
      translate m pgdir (wordAddr (vpdOf v) d.val) =
        some (page2pa pgdir + BitVec.ofNat 32 (4 * d.val))) ∧
    (∀ la, ¬ UserAccess m pgdir (wordAddr vpt (pgnum la).toNat)) ∧
    ∀ v : BitVec 64, v.setWidth 32 = vpt → ∀ d : Fin 1024,
      ¬ UserAccess m pgdir (wordAddr (vpdOf v) d.val) := by
  have hvpt : (pdx vpt).val = 959 := by decide
  -- every entry of the window lies under the one directory entry of `VPT`
  have hwindow {i : ℕ} (hi : i < 2 ^ 20) : pdx (wordAddr vpt i) = pdx vpt := by
    rw [Fin.ext_iff, val_pdx, toNat_wordAddr hi]
    omega
  refine ⟨fun la hla => ?_, fun v hv d => ?_, fun la => ?_, fun v hv d => ?_⟩
  · have hd : (pdx la).val = (pgnum la).toNat / 1024 := by
      rw [val_pdx, toNat_pgnum]
      omega
    rw [translate_window hpgdir hself (pgnum_lt la) hd hla, val_ptx, toNat_pgnum]
  · have hd := d.isLt
    have hslot : (pdx vpt).val = (959 * 1024 + d.val) / 1024 := by omega
    have hpresent : present (m pgdir (pdx vpt)) := by
      have hor := present_or (page2pa pgdir ||| pteW) 0#32
      rwa [BitVec.or_zero, ← hself] at hor
    have hindex : (959 * 1024 + d.val) % 1024 = d.val := by omega
    have haddr : pteAddr (m pgdir (pdx vpt)) = page2pa pgdir := by
      rw [hself, BitVec.or_assoc]
      exact pteAddr_page2pa_or hpgdir (by decide)
    rw [wordAddr_vpd hv, translate_window hpgdir hself (by omega) hslot hpresent, hindex, haddr]
  · exact not_userAccess hpgdir hself (hwindow (pgnum_lt la))
  · have hd := d.isLt
    rw [wordAddr_vpd hv]
    exact not_userAccess hpgdir hself (hwindow (by omega))

/-- A directory in frame 3 with nothing but the entry for itself. -/
theorem selfMap_window_only :
    translate (fun f d => if f = 3 ∧ d = pdx vpt then 0x3003#32 else 0#32) 3 0xEFFBFEFC#32 =
      some 0x3EFC#32 := by
  have h := @selfMap_window (fun f d => if f = 3 ∧ d = pdx vpt then 0x3003#32 else 0#32) 3
    (by decide) (if_pos ⟨rfl, rfl⟩)
  exact h.1 0xEFFBF000#32 (by decide)

namespace Kern

/-- `boot_mem_init` sets the entry. -/
theorem bootMemInit_selfMapped {b : Boot} (hs : b.Sufficient) :
    ∃ s, bootMemInit b = .ok s ∧ s.kernPgdir < 2 ^ 20 ∧ SelfMapped s.mem s.kernPgdir := by
  obtain ⟨s, hinit, hstage, -⟩ := bootMemInit_ok hs
  have hle := b.firstFree_le hs
  refine ⟨s, hinit, ?_, ?_⟩
  · rw [hstage.kernPgdir]
    omega
  · rw [SelfMapped, hstage.kernPgdir, hstage.pgdir, Boot.mappedPde, if_neg (by decide), if_pos rfl,
      Boot.selfPde]

end Kern

end JosVmx
