import JosVmx.Kern.BootLayout

/-!
# The address space after boot

What the processor sees through the page directory that `boot_mem_init` has set up.
The 64 tables of physical memory are filled completely, so the assertions of
`boot_mem_check` hold for every content of memory. The table of the kernel stack comes
from `boot_alloc`, which does not clear it, and only its last eight entries are written;
the others translate addresses below the stack with whatever memory held there.

## Main results

* `Kern.boot_low_space` — nothing else is mapped below `KERNBASE` exactly when no word
  that memory held in the first 1016 entries of that table is present
* `Kern.boot_segments` — segments are mapped completely, the assertions hold, and all
  mapped kernel addresses are the kernel's alone exactly when every such present word
  says so
-/

namespace JosVmx

open Lib

namespace Kern

variable {b : Boot} {s s' : Kern} {f : ℕ}

/-! ### Entries -/

/-- The entry is writable and not user-accessible. -/
def KernelOnly (pte : Word) : Prop := pte &&& pteW ≠ 0#32 ∧ pte &&& pteU = 0#32

instance (pte : Word) : Decidable (KernelOnly pte) := inferInstanceAs (Decidable (_ ∧ _))

theorem eq_page2pa {a : Word} (h : a.toNat % 4096 = 0) : a = page2pa (a.toNat / 4096) := by
  have hlt := a.isLt
  rw [← BitVec.toNat_inj, toNat_page2pa (by omega)]
  omega

/-- The flags of an entry made of an aligned address and flags are the flags. -/
theorem and_flag_of_aligned {a flags mask : Word} (h : a.toNat % 4096 = 0)
    (hmask : mask = pteW ∨ mask = pteU) : (a ||| flags) &&& mask = flags &&& mask := by
  have hlow (k : ℕ) (hk : k < 12) : a.getLsbD k = false := by
    rw [BitVec.getLsbD, Nat.testBit_eq_decide_div_mod_eq, decide_eq_false_iff_not]
    interval_cases k <;> omega
  apply BitVec.eq_of_getLsbD_eq
  intro k hk
  rcases hmask with rfl | rfl
  · rcases Nat.lt_or_ge k 12 with hlt | hge
    · simp [hlow k hlt]
    · have hbit : pteW.getLsbD k = false := by interval_cases k <;> rfl
      simp [hbit]
  · rcases Nat.lt_or_ge k 12 with hlt | hge
    · simp [hlow k hlt]
    · have hbit : pteU.getLsbD k = false := by interval_cases k <;> rfl
      simp [hbit]

theorem kernelOnly_of_aligned {a flags : Word} (h : a.toNat % 4096 = 0) (hf : KernelOnly flags) :
    KernelOnly (a ||| flags) := by
  rwa [KernelOnly, and_flag_of_aligned h (.inl rfl), and_flag_of_aligned h (.inr rfl)]

theorem page2pa_aligned {f : ℕ} (hf : f < 2 ^ 20) : (page2pa f).toNat % 4096 = 0 := by
  rw [toNat_page2pa hf]
  omega

theorem kernelOnly_tablePde (hf : f < 2 ^ 20) : KernelOnly (Boot.tablePde f) := by
  rw [Boot.tablePde, BitVec.or_assoc]
  exact kernelOnly_of_aligned (page2pa_aligned hf) (by decide)

theorem present_tablePde : present (Boot.tablePde f) := present_or _ _

/-- The address that round `j` maps. -/
theorem segPte_aligned {pa : Word} (hpa : pa.toNat % 4096 = 0) (j : ℕ) :
    (pa + BitVec.ofNat 32 (4096 * j)).toNat % 4096 = 0 := by
  rw [BitVec.toNat_add, BitVec.toNat_ofNat]
  omega

theorem kernelOnly_segPte {pa : Word} (hpa : pa.toNat % 4096 = 0) (j : ℕ) :
    KernelOnly (segPte pa pteW j) := by
  rw [segPte, BitVec.or_assoc]
  exact kernelOnly_of_aligned (segPte_aligned hpa j) (by decide)

theorem present_segPte (pa perm : Word) (j : ℕ) : present (segPte pa perm j) := present_or _ _

theorem pteAddr_segPte {pa : Word} (hpa : pa.toNat % 4096 = 0) (j : ℕ) :
    pteAddr (segPte pa pteW j) = pa + BitVec.ofNat 32 (4096 * j) := by
  have halign := segPte_aligned hpa j
  rw [segPte, BitVec.or_assoc, eq_page2pa halign]
  refine pteAddr_page2pa_or ?_ (by decide)
  have hlt := (pa + BitVec.ofNat 32 (4096 * j)).isLt
  omega

theorem stackPa_aligned : b.stackPa.toNat % 4096 = 0 := by
  have hge : 983296 * 4096 ≤ b.bootstack.toNat := b.bootstack_ge
  have halign := b.bootstack_aligned
  have hval : kernbase.toNat = 983040 * 4096 := by decide
  have hbase : kernbase ≤ b.bootstack := by
    rw [BitVec.le_def, hval]
    omega
  rw [Boot.stackPa, BitVec.toNat_sub_of_le hbase, hval]
  omega

/-! ### The walk -/

/-- The entries of the page directory, slot by slot. -/
theorem mappedPde_cases (d : Fin 1024) :
    (d.val < 958 ∧ b.mappedPde d = 0#32) ∨
    (d = Boot.stackSlot ∧ b.mappedPde d = Boot.tablePde (b.firstFree + 1)) ∨
    (d = pdx vpt ∧ b.mappedPde d = b.selfPde) ∨
    (960 ≤ d.val ∧ b.mappedPde d = Boot.tablePde (b.firstFree + 2 + (d.val - 960))) := by
  have hstack : Boot.stackSlot.val = 958 := rfl
  have hvpt := val_pdx_vpt
  rw [Boot.mappedPde]
  split_ifs with h₁ h₂ h₃
  · exact .inr (.inl ⟨h₁, rfl⟩)
  · exact .inr (.inr (.inl ⟨h₂, rfl⟩))
  · exact .inr (.inr (.inr ⟨h₃, rfl⟩))
  · rw [Fin.ext_iff] at h₁ h₂
    exact .inl ⟨by omega, rfl⟩

/-- The walk in the directory slot of the kernel stack reads the stack's table. -/
theorem PhysStage.walk_stack (hs : b.Sufficient) (h : PhysStage b f s) (t : Fin 1024) :
    walk s.mem s.kernPgdir (Boot.stackSlot, t) =
      if present (b.stackPte t) then some (Boot.tablePde (b.firstFree + 1), b.stackPte t)
      else none := by
  have hle := b.firstFree_le hs
  have hpde : s.mem b.firstFree Boot.stackSlot = Boot.tablePde (b.firstFree + 1) := by
    rw [h.pgdir, Boot.mappedPde, if_pos rfl]
  rw [walk, h.kernPgdir, hpde, if_pos present_tablePde, frameOf_tablePde (by omega), h.stack]

theorem PhysStage.walk_phys (hs : b.Sufficient) (h : PhysStage b f s) {d : Fin 1024}
    (hd : 960 ≤ d.val) (t : Fin 1024) :
    walk s.mem s.kernPgdir (d, t) = some (Boot.tablePde (b.firstFree + 2 + (d.val - 960)),
      segPte 0#32 pteW ((d.val - 960) * 1024 + t.val)) := by
  have hle := b.firstFree_le hs
  have hlt := d.isLt
  have hpde : s.mem b.firstFree d = Boot.tablePde (b.firstFree + 2 + (d.val - 960)) := by
    have hstack : Boot.stackSlot.val = 958 := rfl
    have hvpt := val_pdx_vpt
    rcases mappedPde_cases (b := b) d with ⟨hd', -⟩ | ⟨rfl, -⟩ | ⟨rfl, -⟩ | ⟨-, hpde⟩
    · omega
    · omega
    · omega
    · rw [h.pgdir, hpde]
  rw [walk_of_present] <;> rw [h.kernPgdir, hpde]
  · rw [frameOf_tablePde (by omega), h.phys _ _ (by omega)]
  · exact present_tablePde
  · rw [frameOf_tablePde (by omega), h.phys _ _ (by omega)]
    exact present_or _ _

/-- Below the kernel stack's table there is no page table. -/
theorem PhysStage.walk_low (h : PhysStage b f s) {d : Fin 1024} (hd : d.val < 958)
    (t : Fin 1024) : walk s.mem s.kernPgdir (d, t) = none := by
  have hstack : Boot.stackSlot.val = 958 := rfl
  have hvpt := val_pdx_vpt
  refine walk_of_pde ?_
  change ¬ present (s.mem s.kernPgdir d)
  rcases mappedPde_cases (b := b) d with ⟨-, hpde⟩ | ⟨rfl, -⟩ | ⟨rfl, -⟩ | ⟨hd', -⟩
  · rw [h.kernPgdir, h.pgdir, hpde]
    exact not_present_zero
  · omega
  · omega
  · omega

/-- The self-map shows the page directory as a page table. -/
theorem PhysStage.walk_vpt (hs : b.Sufficient) (h : PhysStage b f s) (t : Fin 1024) :
    walk s.mem s.kernPgdir (pdx vpt, t) =
      if present (b.mappedPde t) then some (b.selfPde, b.mappedPde t) else none := by
  have hle := b.firstFree_le hs
  have hpde : s.mem b.firstFree (pdx vpt) = b.selfPde := by
    rw [h.pgdir, Boot.mappedPde, if_neg (by decide), if_pos rfl]
  have hself : frameOf b.selfPde = b.firstFree := by
    rw [Boot.selfPde, BitVec.or_assoc]
    exact frameOf_page2pa_or (by omega) (by decide)
  have hpresent : present b.selfPde := by
    have hor := present_or (page2pa b.firstFree ||| pteW) 0#32
    rwa [BitVec.or_zero] at hor
  rw [walk, h.kernPgdir, hpde, if_pos hpresent, hself, h.pgdir]

/-! ### The assertions of `boot_mem_check` -/

theorem kassert_ok {x : Bool} (h : x = true) (text : String) : kassert x text = .ok () := by
  rw [kassert, h, if_pos rfl]

theorem checkVa2pa_of_walk {la pde pte : Word} (h : PhysStage b f s)
    (hframe : frameOf (b.mappedPde (pdx la)) < b.i386MemDetect.toNat)
    (hwalk : walk s.mem s.kernPgdir (vpage la) = some (pde, pte)) :
    s.checkVa2pa s.kernPgdir la = .ok (pteAddr pte) := by
  rw [checkVa2pa_eq, hwalk]
  intro _
  rw [h.kernPgdir, h.pgdir, h.npages]
  exact hframe

theorem checkPhys_ok (hs : b.Sufficient) (h : PhysStage b f s) {j : ℕ} (hj : j < 65536) :
    s.checkPhys (BitVec.ofNat 32 (4096 * j)) = .ok () := by
  have hsuff : b.firstFree + 66 ≤ b.i386MemDetect.toNat := hs
  have hle := b.firstFree_le hs
  obtain ⟨hpdx, hptx⟩ := segAddr_phys hj
  have hd : 960 ≤ (pdx (segAddr kernbase j)).val := by omega
  have hwalk := h.walk_phys hs hd (ptx (segAddr kernbase j))
  have hj' :
      ((pdx (segAddr kernbase j)).val - 960) * 1024 + (ptx (segAddr kernbase j)).val = j := by
    omega
  rw [hj'] at hwalk
  have hframe : frameOf (b.mappedPde (pdx (segAddr kernbase j))) < b.i386MemDetect.toNat := by
    have hstack : Boot.stackSlot.val = 958 := rfl
    have hvpt := val_pdx_vpt
    rcases mappedPde_cases (b := b) (pdx (segAddr kernbase j)) with
      ⟨hlt, -⟩ | ⟨heq, -⟩ | ⟨heq, -⟩ | ⟨-, hpde⟩
    · omega
    · rw [heq] at hd
      omega
    · rw [heq] at hd
      omega
    · rw [hpde, frameOf_tablePde (by omega)]
      omega
  have hcheck := checkVa2pa_of_walk h hframe hwalk
  rw [pteAddr_segPte (by decide), BitVec.zero_add, segAddr] at hcheck
  rw [checkPhys, hcheck, ok_bind, kassert_ok (decide_eq_true rfl)]

theorem checkStack_ok (hs : b.Sufficient) (h : PhysStage b f s) {j : ℕ} (hj : j < 8) :
    s.checkStack b.bootstack (BitVec.ofNat 32 (4096 * j)) = .ok () := by
  have hsuff : b.firstFree + 66 ≤ b.i386MemDetect.toNat := hs
  have hle := b.firstFree_le hs
  obtain ⟨hpdx, hptx⟩ := segAddr_stack hj
  have hpte : b.stackPte (ptx (segAddr stackBase j)) = segPte b.stackPa pteW j := by
    rw [Boot.stackPte, if_pos (by omega), hptx, Nat.add_sub_cancel_left]
  have hwalk := h.walk_stack hs (ptx (segAddr stackBase j))
  rw [hpte, if_pos (present_segPte b.stackPa pteW j), ← hpdx] at hwalk
  have hframe : frameOf (b.mappedPde (pdx (segAddr stackBase j))) < b.i386MemDetect.toNat := by
    rw [hpdx, Boot.mappedPde, if_pos rfl, frameOf_tablePde (by omega)]
    omega
  have hcheck := checkVa2pa_of_walk h hframe hwalk
  rw [pteAddr_segPte stackPa_aligned, segAddr] at hcheck
  rw [checkStack, hcheck, ok_bind, Boot.paddr_bootstack, ok_bind, kassert_ok (decide_eq_true rfl)]

theorem checkPde_ok (h : PhysStage b f s) (d : Fin 1024) : s.checkPde d = .ok () := by
  have hslot : (pdx kernbase).val = 960 := by decide
  have hstack : pdx (kstacktop - 1#32) = Boot.stackSlot := by decide
  have hself : b.selfPde ≠ 0#32 := by
    have hor := present_or (page2pa b.firstFree ||| pteW) 0#32
    rw [BitVec.or_zero] at hor
    exact ne_zero_of_present hor
  have htable {g : ℕ} : Boot.tablePde g ≠ 0#32 := ne_zero_of_present present_tablePde
  rw [checkPde, h.kernPgdir, h.pgdir, hstack]
  rcases mappedPde_cases (b := b) d with ⟨hd, hpde⟩ | ⟨rfl, hpde⟩ | ⟨rfl, hpde⟩ | ⟨hd, hpde⟩
  · have hvpt : d ≠ pdx vpt := by
      rintro rfl
      have := val_pdx_vpt
      omega
    have hne : d ≠ Boot.stackSlot := by
      rintro rfl
      exact absurd hd (by decide)
    rw [if_neg (not_or.mpr ⟨hvpt, hne⟩), if_neg (by rw [Fin.le_def]; omega), hpde]
    exact kassert_ok rfl _
  · rw [if_pos (.inr rfl)]
    exact kassert_ok (decide_eq_true (hpde ▸ htable)) _
  · rw [if_pos (.inl rfl)]
    exact kassert_ok (decide_eq_true (hpde ▸ hself)) _
  · have hassert : kassert (decide (b.mappedPde d ≠ 0#32)) "kern_pgdir[i]" = .ok () :=
      kassert_ok (decide_eq_true (hpde ▸ htable)) _
    rw [hassert, if_pos (show pdx kernbase ≤ d by rw [Fin.le_def]; omega), ite_self]

theorem forM_ok {α : Type} {g : α → Except Fault Unit} (h : ∀ a, g a = .ok ()) (l : List α) :
    l.forM g = .ok () := by
  induction l with
  | nil => rfl
  | cons a l ih =>
    change (g a >>= fun _ => l.forM g) = _
    rw [h a, ok_bind, ih]

/-- Every assertion of `boot_mem_check` holds. -/
theorem bootMemCheck_ok (hs : b.Sufficient) (h : PhysStage b f s) :
    s.bootMemCheck b.bootstack = .ok () := by
  have hphys : forLoop Fault.diverge (fun i => decide (kernbase + i ≠ 0#32)) (· + pgsize)
      (fun i _ => s.checkPhys i) pageRounds 0#32 () = .ok () := by
    refine forLoop_check (n := 65536) (by decide) (fun j hj => ?_) (by rw [iterate_pgsize]; decide)
      (fun j hj => by rw [iterate_pgsize]; exact checkPhys_ok hs h hj)
    have hbase : kernbase.toNat = 983040 * 4096 := by decide
    rw [iterate_pgsize, decide_eq_true_eq, ne_eq, ← BitVec.toNat_inj, BitVec.toNat_add,
      BitVec.toNat_ofNat, BitVec.toNat_ofNat, hbase]
    omega
  have hstack : forLoop Fault.diverge (fun i => decide (i < kstksize)) (· + pgsize)
      (fun i _ => s.checkStack b.bootstack i) pageRounds 0#32 () = .ok () := by
    refine forLoop_check (n := 8) (by decide) (fun j hj => ?_) (by rw [iterate_pgsize]; decide)
      (fun j hj => by rw [iterate_pgsize]; exact checkStack_ok hs h hj)
    have hsize : kstksize.toNat = 8 * 4096 := by decide
    rw [iterate_pgsize, decide_eq_true_eq, BitVec.lt_def, BitVec.toNat_ofNat, hsize]
    omega
  rw [bootMemCheck, hphys, ok_bind, hstack, ok_bind]
  exact forM_ok (checkPde_ok h) _

/-- `boot_mem_init` ends, with the page tables as they were when it checked them. -/
theorem bootMemInit_ok (hs : b.Sufficient) :
    ∃ s, bootMemInit b = .ok s ∧ PhysStage b b.bootEnd s ∧
      ∀ q, s.pages q = ⟨⟨none, .null⟩, 0#16⟩ := by
  have hle := b.firstFree_le hs
  obtain ⟨-, -, s₃, -, -, -, -, -, h₃, hmap⟩ := bootMap_ok hs
  obtain ⟨s₄, hpages, h₄, hclear⟩ := bootPages_ok hs h₃
  -- the mapping of address 0 is taken back
  obtain ⟨s₅, hs₅⟩ : ∃ s₅, s₅ = (s₄.store s₄.kernPgdir 0 (s₄.mem s₄.kernPgdir (pdx kernbase))).store
    s₄.kernPgdir 0 0#32 := ⟨_, rfl⟩
  -- the entry was zero before, so both stores leave the memory as it was
  have hmem (g : ℕ) (t : Fin 1024) : s₅.mem g t = s₄.mem g t := by
    have hlow : s₄.mem b.firstFree 0 = 0#32 := h₄.pgdir 0
    rw [hs₅]
    change ((s₄.mem.set s₄.kernPgdir 0 _).set s₄.kernPgdir 0 0#32) g t = _
    rw [Mem.set_set, Mem.set]
    split_ifs with h
    · rw [h.1, h.2, h₄.kernPgdir, hlow]
    · rfl
  have hframe := (bootFrame_store s₄ s₄.kernPgdir 0 (s₄.mem s₄.kernPgdir (pdx kernbase))).trans
    (bootFrame_store _ s₄.kernPgdir 0 0#32)
  rw [← hs₅] at hframe
  have hstage : BootStage b b.bootEnd s₅ := h₄.toBootStage.of_frame hframe (by
    rw [hs₅, bootNext_store, bootNext_store]
    exact h₄.next)
  refine ⟨s₅, ?_, ⟨hstage, ?_, ?_, ?_⟩, ?_⟩
  · rw [bootMemInit, hmap, ok_bind, hpages, ok_bind, bootMemCheck_ok hs h₄, ok_bind, hs₅]
    rfl
  · exact fun d => (hmem _ _).trans (h₄.pgdir d)
  · exact fun t => (hmem _ _).trans (h₄.stack t)
  · exact fun k t hk => (hmem _ _).trans (h₄.phys k t hk)
  · intro q
    rw [hframe.eq]
    exact hclear q

/-! ### The address space below `KERNBASE` -/

/-- Below `KERNBASE` exactly the kernel stack and the self-map are mapped. -/
structure LowSpace (s : Kern) : Prop where
  /-- stack overflow faults -/
  guard : ∀ la, kstacktop - ptsize ≤ la → la < kstacktop - kstksize →
    walk s.mem s.kernPgdir (vpage la) = none
  only : ∀ la, la < kernbase → walk s.mem s.kernPgdir (vpage la) ≠ none →
    (kstacktop - kstksize ≤ la ∧ la < kstacktop) ∨ vpt ≤ la
  stack : ∀ la, kstacktop - kstksize ≤ la → la < kstacktop →
    walk s.mem s.kernPgdir (vpage la) ≠ none
  /-- the window shows the page directory as a page table -/
  window : ∀ la, vpt ≤ la → la < kernbase → walk s.mem s.kernPgdir (vpage la) =
    if present (s.mem s.kernPgdir (ptx la)) then
      some (s.mem s.kernPgdir (pdx vpt), s.mem s.kernPgdir (ptx la))
    else none

section Ranges

variable (la : Word)

theorem guard_iff : kstacktop - ptsize ≤ la ∧ la < kstacktop - kstksize ↔
    pdx la = Boot.stackSlot ∧ (ptx la).val < 1016 := by
  have hlow : (kstacktop - ptsize).toNat = 958 * 4194304 := by decide
  have hhigh : (kstacktop - kstksize).toNat = 982008 * 4096 := by decide
  have hslot : Boot.stackSlot.val = 958 := rfl
  rw [BitVec.le_def, BitVec.lt_def, hlow, hhigh, Fin.ext_iff, val_pdx, val_ptx, hslot]
  omega

theorem stack_iff : kstacktop - kstksize ≤ la ∧ la < kstacktop ↔
    pdx la = Boot.stackSlot ∧ 1016 ≤ (ptx la).val := by
  have hlow : (kstacktop - kstksize).toNat = 982008 * 4096 := by decide
  have hhigh : kstacktop.toNat = 959 * 4194304 := by decide
  have hslot : Boot.stackSlot.val = 958 := rfl
  rw [BitVec.le_def, BitVec.lt_def, hlow, hhigh, Fin.ext_iff, val_pdx, val_ptx, hslot]
  omega

theorem window_iff : vpt ≤ la ∧ la < kernbase ↔ pdx la = pdx vpt := by
  have hlow : vpt.toNat = 959 * 4194304 := by decide
  have hhigh : kernbase.toNat = 960 * 4194304 := by decide
  rw [BitVec.le_def, BitVec.lt_def, hlow, hhigh, Fin.ext_iff, val_pdx_vpt, val_pdx]
  omega

theorem kernbase_le_iff : kernbase ≤ la ↔ 960 ≤ (pdx la).val := by
  have hbase : kernbase.toNat = 960 * 4194304 := by decide
  rw [BitVec.le_def, hbase, val_pdx]
  omega

/-- Every address lies below the stack's table, in it, in the self-map, or above. -/
theorem pdx_cases : (pdx la).val < 958 ∨ pdx la = Boot.stackSlot ∨ pdx la = pdx vpt ∨
    960 ≤ (pdx la).val := by
  have hslot : Boot.stackSlot.val = 958 := rfl
  rw [Fin.ext_iff, Fin.ext_iff, val_pdx_vpt, hslot]
  omega

end Ranges

theorem present_stackPte {t : Fin 1024} (ht : 1016 ≤ t.val) : present (b.stackPte t) := by
  rw [Boot.stackPte, if_pos ht]
  exact present_segPte b.stackPa pteW _

theorem stackPte_of_lt {t : Fin 1024} (ht : t.val < 1016) :
    b.stackPte t = b.ram (b.firstFree + 1) t := if_neg (Nat.not_le.mpr ht)

end Kern

/-- No word that memory held in the entries of the stack's table below the stack is
present. -/
def Boot.GuardClean (b : Boot) : Prop :=
  ∀ t : Fin 1024, t.val < 1016 → ¬ present (b.ram (b.firstFree + 1) t)

/-- Every such word is not present or writable and not user-accessible. -/
def Boot.GuardKernelOnly (b : Boot) : Prop :=
  ∀ t : Fin 1024, t.val < 1016 → present (b.ram (b.firstFree + 1) t) →
    Kern.KernelOnly (b.ram (b.firstFree + 1) t)

namespace Kern

variable {b : Boot} {s : Kern} {f : ℕ}

theorem PhysStage.lowSpace_iff (hs : b.Sufficient) (h : PhysStage b f s) :
    LowSpace s ↔ b.GuardClean := by
  constructor
  · intro hlow t ht hp
    -- the address that entry `t` translates
    obtain ⟨la, hla⟩ := exists_vpage (Boot.stackSlot, t)
    obtain ⟨hpdx, hptx⟩ := Prod.mk.inj hla
    have hrange := (guard_iff la).mpr ⟨hpdx, hptx ▸ ht⟩
    have hnone := hlow.guard la hrange.1 hrange.2
    rw [hla, h.walk_stack hs, stackPte_of_lt ht, if_pos hp] at hnone
    exact absurd hnone (by simp)
  · intro hclean
    have hguard (la : Word) (hpdx : pdx la = Boot.stackSlot) (ht : (ptx la).val < 1016) :
        walk s.mem s.kernPgdir (vpage la) = none := by
      rw [vpage, hpdx, h.walk_stack hs, stackPte_of_lt ht, if_neg (hclean _ ht)]
    refine ⟨?_, ?_, ?_, ?_⟩
    · intro la hge hlt
      obtain ⟨hpdx, ht⟩ := (guard_iff la).mp ⟨hge, hlt⟩
      exact hguard la hpdx ht
    · intro la hlt hmapped
      -- below, in the stack's slot, in the window, above
      rcases pdx_cases la with hd | hd | hd | hd
      · exact absurd (h.walk_low hd _) hmapped
      · rcases Nat.lt_or_ge (ptx la).val 1016 with ht | ht
        · exact absurd (hguard la hd ht) hmapped
        · exact .inl ((stack_iff la).mpr ⟨hd, ht⟩)
      · exact .inr ((window_iff la).mpr hd).1
      · exact absurd ((kernbase_le_iff la).mpr hd) (BitVec.not_le.mpr hlt)
    · intro la hge hlt
      obtain ⟨hpdx, ht⟩ := (stack_iff la).mp ⟨hge, hlt⟩
      rw [vpage, hpdx, h.walk_stack hs, if_pos (present_stackPte ht)]
      simp
    · intro la hge hlt
      have hpdx := (window_iff la).mp ⟨hge, hlt⟩
      have hvpt : b.mappedPde (pdx vpt) = b.selfPde := by
        rw [Boot.mappedPde, if_neg (by decide), if_pos rfl]
      rw [vpage, hpdx, h.walk_vpt hs, h.kernPgdir, h.pgdir, h.pgdir, hvpt]

/-- **The space below the kernel.** Whatever the memory holds and however large it is, if
it is large enough then `boot_mem_init` ends, and the kernel stack and the self-map are
the only translations below `KERNBASE` exactly when the guard entries of the stack's
table happen to be clean. -/
theorem boot_low_space (b : Boot) (hs : b.Sufficient) :
    ∃ s, bootMemInit b = .ok s ∧ (LowSpace s ↔ b.GuardClean) := by
  obtain ⟨s, hrun, h, -⟩ := bootMemInit_ok hs
  exact ⟨s, hrun, h.lowSpace_iff hs⟩

/-- A machine with 16 megabytes of extended memory whose memory holds the word `w`
everywhere. -/
def filledBoot (w : Word) : Boot where
  cmos r := if r = 0x18 then 0x40#8 else 0#8
  ram _ _ := w
  endSym := 0xF0112345#32
  bootstack := 0xF0108000#32
  bootstack_aligned := by decide
  bootstack_ge := by decide
  bootstack_le := by decide

theorem filledBoot_sufficient (w : Word) : (filledBoot w).Sufficient := by
  change (filledBoot 0#32).Sufficient
  decide

theorem boot_low_space_clean :
    ∃ s, bootMemInit (filledBoot 0#32) = .ok s ∧ (LowSpace s ↔ (filledBoot 0#32).GuardClean) :=
  boot_low_space (filledBoot 0#32) (filledBoot_sufficient _)

/-- With ones left in memory the guard pages below the stack are mapped. -/
theorem not_lowSpace_filled :
    (filledBoot 0xFFFFFFFF#32).Sufficient ∧
      ∃ s, bootMemInit (filledBoot 0xFFFFFFFF#32) = .ok s ∧ ¬ LowSpace s := by
  have hs := filledBoot_sufficient 0xFFFFFFFF#32
  obtain ⟨s, hrun, h, -⟩ := bootMemInit_ok hs
  refine ⟨hs, s, hrun, fun hlow => ?_⟩
  exact (h.lowSpace_iff hs).mp hlow 0 (by decide) (by decide)

/-! ### The permissions of kernel addresses -/

/-- The address translates, with entries for the kernel alone at both levels. -/
def MappedKernelOnly (s : Kern) (la : Word) : Prop :=
  ∃ pde pte, walk s.mem s.kernPgdir (vpage la) = some (pde, pte) ∧ KernelOnly pde ∧ KernelOnly pte

/-- Every mapped address above `ULIM` is writable and not user-accessible at both
levels. -/
def KernelPermissions (s : Kern) : Prop :=
  ∀ la, ulim ≤ la → walk s.mem s.kernPgdir (vpage la) ≠ none → s.MappedKernelOnly la

theorem PhysStage.mappedKernelOnly_stack (hs : b.Sufficient) (h : PhysStage b f s) {la : Word}
    (hge : kstacktop - kstksize ≤ la) (hlt : la < kstacktop) : s.MappedKernelOnly la := by
  have hle := b.firstFree_le hs
  obtain ⟨hpdx, ht⟩ := (stack_iff la).mp ⟨hge, hlt⟩
  refine ⟨Boot.tablePde (b.firstFree + 1), b.stackPte (ptx la), ?_,
    kernelOnly_tablePde (by omega), ?_⟩
  · rw [vpage, hpdx, h.walk_stack hs, if_pos (present_stackPte ht)]
  · rw [Boot.stackPte, if_pos ht]
    exact kernelOnly_segPte stackPa_aligned _

theorem PhysStage.mappedKernelOnly_phys (hs : b.Sufficient) (h : PhysStage b f s) {la : Word}
    (hge : kernbase ≤ la) : s.MappedKernelOnly la := by
  have hle := b.firstFree_le hs
  have hd := (kernbase_le_iff la).mp hge
  have hlt := (pdx la).isLt
  exact ⟨_, _, h.walk_phys hs hd _, kernelOnly_tablePde (by omega),
    kernelOnly_segPte (by decide) _⟩

theorem kernelOnly_selfPde (hs : b.Sufficient) : KernelOnly b.selfPde := by
  have hle := b.firstFree_le hs
  rw [Boot.selfPde, BitVec.or_assoc]
  exact kernelOnly_of_aligned (page2pa_aligned (by omega)) (by decide)

/-- The self-map makes page tables accessible to the kernel alone. -/
theorem kernelOnly_mappedPde (hs : b.Sufficient) {d : Fin 1024} (hp : present (b.mappedPde d)) :
    KernelOnly (b.mappedPde d) := by
  have hle := b.firstFree_le hs
  have hlt := d.isLt
  rcases mappedPde_cases (b := b) d with ⟨-, hpde⟩ | ⟨-, hpde⟩ | ⟨-, hpde⟩ | ⟨-, hpde⟩
  · rw [hpde] at hp
    exact absurd hp not_present_zero
  · rw [hpde]
    exact kernelOnly_tablePde (by omega)
  · rw [hpde]
    exact kernelOnly_selfPde hs
  · rw [hpde]
    exact kernelOnly_tablePde (by omega)

theorem PhysStage.kernelPermissions_iff (hs : b.Sufficient) (h : PhysStage b f s) :
    KernelPermissions s ↔ b.GuardKernelOnly := by
  have hle := b.firstFree_le hs
  constructor
  · intro hperm t ht hp
    obtain ⟨la, hla⟩ := exists_vpage (Boot.stackSlot, t)
    obtain ⟨hpdx, hptx⟩ := Prod.mk.inj hla
    -- what the guard entry maps is mapped above `ulim`
    have hwalk := h.walk_stack hs t
    rw [stackPte_of_lt ht, if_pos hp, ← hla] at hwalk
    have hge : ulim ≤ la := ((guard_iff la).mpr ⟨hpdx, hptx ▸ ht⟩).1
    obtain ⟨pde, pte, hwalk', -, hpte⟩ := hperm la hge (by simp [hwalk])
    rw [hwalk, Option.some_inj, Prod.mk.injEq] at hwalk'
    rw [hwalk'.2]
    exact hpte
  · intro hclean la hge hmapped
    rcases pdx_cases la with hd | hd | hd | hd
    · exact absurd (h.walk_low hd _) hmapped
    · rcases Nat.lt_or_ge (ptx la).val 1016 with ht | ht
      · have hwalk := h.walk_stack hs (ptx la)
        rw [stackPte_of_lt ht, ← hd] at hwalk
        split_ifs at hwalk with hp
        · exact ⟨_, _, hwalk, kernelOnly_tablePde (by omega), hclean _ ht hp⟩
        · exact absurd hwalk hmapped
      · obtain ⟨hlow, hhigh⟩ := (stack_iff la).mpr ⟨hd, ht⟩
        exact h.mappedKernelOnly_stack hs hlow hhigh
    · have hwalk := h.walk_vpt hs (ptx la)
      rw [← hd] at hwalk
      split_ifs at hwalk with hp
      · exact ⟨_, _, hwalk, kernelOnly_selfPde hs, kernelOnly_mappedPde hs hp⟩
      · exact absurd hwalk hmapped
    · exact h.mappedKernelOnly_phys hs ((kernbase_le_iff la).mpr hd)

/-- **Segments.** `boot_map_segment` maps its whole range and leaves the rest of the
tables that were there alone. After the two calls of `boot_mem_init` every assertion of
`boot_mem_check` holds, and the two segments are writable and not user-accessible at
both levels; every mapped kernel address is so exactly when the entries that nothing has
written happen to be. -/
theorem boot_segments (b : Boot) (hs : b.Sufficient) :
    (∀ (s : Kern) (la size pa perm : Word), s.SegmentReady la size → pa.toNat % 4096 = 0 →
      perm.toNat < 4096 →
      ∃ s', s.bootMapSegment la size pa perm = .ok s' ∧ MapsRange s s' la size pa perm) ∧
    ∃ s s', bootMap b = .ok s ∧ s.bootMemCheck b.bootstack = .ok () ∧
      s.bootPages = .ok s' ∧ s'.bootMemCheck b.bootstack = .ok () ∧
      (∀ la, kstacktop - kstksize ≤ la ∧ la < kstacktop ∨ kernbase ≤ la → s.MappedKernelOnly la) ∧
      (KernelPermissions s ↔ b.GuardKernelOnly) := by
  constructor
  · intro s la size pa perm hready _ hperm
    obtain ⟨s', hrun, hmap⟩ := bootMapSegment_ok pa perm hready hperm
    exact ⟨s', hrun, hmap.mapsRange hready hperm⟩
  · obtain ⟨-, -, s, -, -, -, -, -, h, hmap⟩ := bootMap_ok hs
    obtain ⟨s', hpages, h', -⟩ := bootPages_ok hs h
    refine ⟨s, s', hmap, bootMemCheck_ok hs h, hpages, bootMemCheck_ok hs h', ?_,
      h.kernelPermissions_iff hs⟩
    rintro la (⟨hge, hlt⟩ | hge)
    · exact h.mappedKernelOnly_stack hs hge hlt
    · exact h.mappedKernelOnly_phys hs hge

theorem boot_segments_clean :
    (∀ (s : Kern) (la size pa perm : Word), s.SegmentReady la size → pa.toNat % 4096 = 0 →
      perm.toNat < 4096 →
      ∃ s', s.bootMapSegment la size pa perm = .ok s' ∧ MapsRange s s' la size pa perm) ∧
    ∃ s s', bootMap (filledBoot 0#32) = .ok s ∧
      s.bootMemCheck (filledBoot 0#32).bootstack = .ok () ∧
      s.bootPages = .ok s' ∧ s'.bootMemCheck (filledBoot 0#32).bootstack = .ok () ∧
      (∀ la, kstacktop - kstksize ≤ la ∧ la < kstacktop ∨ kernbase ≤ la → s.MappedKernelOnly la) ∧
      (KernelPermissions s ↔ (filledBoot 0#32).GuardKernelOnly) :=
  boot_segments (filledBoot 0#32) (filledBoot_sufficient _)

/-- With ones left in memory the guard pages are accessible to user programs. -/
theorem not_kernelPermissions_filled :
    (filledBoot 0xFFFFFFFF#32).Sufficient ∧
      ∃ s, bootMap (filledBoot 0xFFFFFFFF#32) = .ok s ∧ ¬ KernelPermissions s := by
  have hs := filledBoot_sufficient 0xFFFFFFFF#32
  obtain ⟨-, -, s, -, -, -, -, -, h, hmap⟩ := bootMap_ok hs
  refine ⟨hs, s, hmap, fun hperm => ?_⟩
  have hkernel := (h.kernelPermissions_iff hs).mp hperm 0 (by decide) (by decide)
  exact absurd hkernel (by decide)

end Kern

end JosVmx
