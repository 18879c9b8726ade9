import JosVmx.Boot.Mkbootdisk
import JosVmx.Inc.Mmu
import JosVmx.Lib.ByteMem

/-!
# Loading a segment

`readseg` of `boot/main.c` reads whole sectors from the boot disk into memory, from the one that
holds the start of a segment's file part on, and clears the rest of the segment. The kernel image
starts at sector 1, and addresses lose their high eight bits.

## Main results

* `Boot.boot_layout` — from a disk that `mkbootdisk` has written, the boot loader reads what is in
  the kernel file
-/

namespace JosVmx.Boot

open Lib

/-! ### The functions of the source -/

/-- The number of the sector that the drive gets: the bytes written to the ports `0x1F3` to
`0x1F5` and the low four bits of that written to `0x1F6`. -/
def portsLba (offset : Word) : ℕ :=
  let drive : Byte := (offset >>> 24 ||| 0xE0#32).setWidth 8
  (offset.setWidth 8).toNat + 2 ^ 8 * ((offset >>> 8).setWidth 8).toNat +
    2 ^ 16 * ((offset >>> 16).setWidth 8).toNat + 2 ^ 24 * (drive &&& 0x0F#8).toNat

/-- The bit of port `0x1F6` that selects the second drive. -/
def portsSlave (offset : Word) : Bool :=
  let drive : Byte := (offset >>> 24 ||| 0xE0#32).setWidth 8
  drive.getLsbD 4

/-- `readsect`. -/
def readsect (disk : List Byte) (dst offset : Word) (mem : ByteMem 32) :
    Except DiskFault (ByteMem 32) :=
  if portsSlave offset then .error .drive
  else if 512 * (portsLba offset + 1) ≤ disk.length then
    -- `insl(0x1F0, dst, SECTSIZE/4)`
    .ok fun a => if (a - dst).toNat < sectsize then
      disk.getD (512 * portsLba offset + (a - dst).toNat) 0#8 else mem a
  else .error (.sector (portsLba offset))

/-- The variables of the loop that reads sectors. -/
structure ReadLoop where
  va : Word
  offset : Word
  mem : ByteMem 32

/-- A round of `while (va < end_va)`. -/
def readRound (disk : List Byte) (endVa : Word) (s : ReadLoop) :
    Except DiskFault (Option ReadLoop) :=
  if s.va < endVa then do
    let mem ← readsect disk s.va s.offset s.mem
    .ok (some ⟨s.va + 512#32, s.offset + 1#32, mem⟩)
  else .ok none

/-- A round of `while (end_va < memsz)`. -/
def clearRound (memsz : Word) (s : Word × ByteMem 32) :
    Except DiskFault (Option (Word × ByteMem 32)) :=
  if s.1 < memsz then .ok (some (s.1 + 1#32, Function.update s.2 s.1 0#8)) else .ok none

/-- `readseg`. -/
def readseg (disk : List Byte) (va filesz memsz offset : Word) (mem : ByteMem 32) :
    Except DiskFault (ByteMem 32) := do
  let va := va &&& 0xFFFFFF#32
  let endVa := va + filesz
  let memsz := memsz + va
  let va := va &&& ~~~511#32
  let offset := offset / 512#32 + 1#32
  let s ← whileLoop .diverge (readRound disk endVa) (2 ^ 23 + 1) ⟨va, offset, mem⟩
  let s ← whileLoop .diverge (clearRound memsz) (2 ^ 32) (endVa, s.mem)
  .ok s.2

/-! ### Reading sectors -/

variable {disk : List Byte} {mem : ByteMem 32} {va endVa offset : Word}

theorem drive_low (x : Word) : ((x ||| 0xE0#32).setWidth 8 &&& 0x0F#8).toNat = x.toNat % 16 := by
  have hnone : (0xE0#32).setWidth 8 &&& 0x0F#8 = 0#8 := by decide
  rw [BitVec.setWidth_or, BitVec.and_or_distrib_right, hnone, BitVec.or_zero, BitVec.toNat_and,
    BitVec.toNat_setWidth]
  refine (Nat.and_two_pow_sub_one_eq_mod _ 4).trans ?_
  omega

/-- Numbers of 28 bits reach the drive. -/
theorem portsLba_eq (h : offset.toNat < 2 ^ 28) : portsLba offset = offset.toNat := by
  simp only [portsLba, drive_low, BitVec.toNat_setWidth, BitVec.toNat_ushiftRight,
    Nat.shiftRight_eq_div_pow]
  omega

theorem portsSlave_eq (h : offset.toNat < 2 ^ 28) : portsSlave offset = false := by
  have hbit : offset.toNat.testBit 28 = false := Nat.testBit_lt_two_pow h
  rw [BitVec.testBit_toNat, BitVec.getLsbD_eq_getElem (by decide)] at hbit
  simp [portsSlave, hbit]

/-- A sector of the disk is read to the 512 bytes at `dst`. -/
theorem readsect_ok (dst : Word) (hlba : offset.toNat < 2 ^ 28)
    (hdisk : 512 * (offset.toNat + 1) ≤ disk.length) (mem : ByteMem 32) :
    readsect disk dst offset mem = .ok fun a => if (a - dst).toNat < 512 then
      disk.getD (512 * offset.toNat + (a - dst).toNat) 0#8 else mem a := by
  rw [readsect, portsSlave_eq hlba, portsLba_eq hlba, if_neg Bool.false_ne_true, if_pos hdisk]
  rfl

/-- The memory after the bytes of the disk from `src` on have been read to the addresses from `lo`
up to `hi`. -/
def loaded (disk : List Byte) (src lo hi : ℕ) (mem : ByteMem 32) : ByteMem 32 := fun a =>
  if lo ≤ a.toNat ∧ a.toNat < hi then disk.getD (src + (a.toNat - lo)) 0#8 else mem a

theorem loaded_empty (disk : List Byte) (src lo : ℕ) (mem : ByteMem 32) :
    loaded disk src lo lo mem = mem :=
  funext fun _ => if_neg fun h => absurd h.1 (Nat.not_le.mpr h.2)

/-- One more sector. -/
theorem loaded_sector {src lo hi : ℕ} {dst : Word} (hdst : dst.toNat = hi) (hlo : lo ≤ hi)
    (hhi : hi + 512 < 2 ^ 32) :
    (fun a => if (a - dst).toNat < 512 then
      disk.getD (src + (hi - lo) + (a - dst).toNat) 0#8 else loaded disk src lo hi mem a) =
      loaded disk src lo (hi + 512) mem := by
  funext a
  have ha := a.isLt
  simp only [loaded]
  by_cases hin : (a - dst).toNat < 512
  · have hsub : (a - dst).toNat = a.toNat - hi ∧ hi ≤ a.toNat := by bv_omega
    rw [if_pos hin, if_pos (by omega), hsub.1]
    congr 1
    omega
  · rw [if_neg hin]
    by_cases hbefore : lo ≤ a.toNat ∧ a.toNat < hi
    · rw [if_pos hbefore, if_pos (by omega)]
    · rw [if_neg hbefore, if_neg (by bv_omega)]

/-- The loop reads the sectors from `va` up to the one where the file part ends. -/
theorem readLoop_ok {lo last : ℕ} (hva : va.toNat = lo) (hlo : lo ≤ endVa.toNat)
    (hlast : last = lo + (endVa.toNat - lo + 511) / 512 * 512) (hround : last < 2 ^ 32)
    (hlba : offset.toNat < 2 ^ 24) (hdisk : 512 * offset.toNat + (last - lo) ≤ disk.length)
    (mem : ByteMem 32) :
    ∃ s, whileLoop .diverge (readRound disk endVa) (2 ^ 23 + 1) ⟨va, offset, mem⟩ = .ok s ∧
      s.mem = loaded disk (512 * offset.toNat) lo last mem := by
  obtain ⟨s, hloop, ⟨n, hva', hoff', hn, hmem⟩, hstop⟩ :
      ∃ s, whileLoop .diverge (readRound disk endVa) (2 ^ 23 + 1) ⟨va, offset, mem⟩ = .ok s ∧
        (∃ n, s.va.toNat = lo + 512 * n ∧ s.offset.toNat = offset.toNat + n ∧ lo + 512 * n ≤ last ∧
          s.mem = loaded disk (512 * offset.toNat) lo (lo + 512 * n) mem) ∧
        readRound disk endVa s = .ok none := by
    -- after `n` rounds the first `n` sectors are loaded
    refine whileLoop_ok _ (fun s => (last - s.va.toNat) / 512) ?_
      ⟨0, hva, rfl, by omega, (loaded_empty ..).symm⟩ (by simp only; omega)
    rintro s ⟨n, hva', hoff', hn, hmem⟩
    by_cases hlt : s.va < endVa
    · have hlt' : s.va.toNat < endVa.toNat := hlt
      have hnext : (s.va + 512#32).toNat = lo + 512 * (n + 1) := by bv_omega
      have hnext' : (s.offset + 1#32).toNat = offset.toNat + (n + 1) := by bv_omega
      have hread : readsect disk s.va s.offset s.mem =
          .ok (loaded disk (512 * offset.toNat) lo (lo + 512 * (n + 1)) mem) := by
        have hsrc : 512 * s.offset.toNat = 512 * offset.toNat + (lo + 512 * n - lo) := by omega
        rw [readsect_ok s.va (by omega) (by omega), hmem, hsrc, Nat.mul_succ, ← Nat.add_assoc]
        exact congrArg _ (loaded_sector hva' (Nat.le_add_right lo (512 * n)) (by omega))
      refine .inr ⟨⟨s.va + 512#32, s.offset + 1#32, _⟩, ?_,
        ⟨n + 1, hnext, hnext', by omega, rfl⟩, by simp only [hnext]; omega⟩
      rw [readRound, if_pos hlt, hread]
      rfl
    · exact .inl (if_neg hlt)
  have hge : endVa.toNat ≤ s.va.toNat := by
    by_contra hlt
    have hlt' : s.va < endVa := Nat.not_le.mp hlt
    rw [readRound, if_pos hlt', readsect_ok s.va (by omega) (by omega), ok_bind] at hstop
    exact absurd hstop (by simp)
  -- the loop stops at the first multiple of a sector at or after the end
  have hend : lo + 512 * n = last := by omega
  exact ⟨s, hloop, hend ▸ hmem⟩

/-- The memory after the addresses from `lo` up to `hi` have been cleared. -/
def cleared (lo hi : ℕ) (mem : ByteMem 32) : ByteMem 32 := fun a =>
  if lo ≤ a.toNat ∧ a.toNat < hi then 0#8 else mem a

theorem clearLoop_ok {memsz : Word} (hle : endVa.toNat ≤ memsz.toNat) (mem : ByteMem 32) :
    ∃ s, whileLoop .diverge (clearRound memsz) (2 ^ 32) (endVa, mem) = .ok s ∧
      s.2 = cleared endVa.toNat memsz.toNat mem := by
  obtain ⟨s, hloop, ⟨hlo, hhi, hmem⟩, hstop⟩ :
      ∃ s, whileLoop .diverge (clearRound memsz) (2 ^ 32) (endVa, mem) = .ok s ∧
        (endVa.toNat ≤ s.1.toNat ∧ s.1.toNat ≤ memsz.toNat ∧
          s.2 = cleared endVa.toNat s.1.toNat mem) ∧ clearRound memsz s = .ok none := by
    -- the bytes up to the pointer are cleared
    refine whileLoop_ok _ (fun s => memsz.toNat - s.1.toNat) ?_ ⟨le_rfl, hle, ?_⟩ ?_
    · rintro s ⟨hlo, hhi, hmem⟩
      by_cases hlt : s.1 < memsz
      · have hlt' : s.1.toNat < memsz.toNat := hlt
        have hmax := memsz.isLt
        have hnext : (s.1 + 1#32).toNat = s.1.toNat + 1 := by bv_omega
        refine .inr ⟨(s.1 + 1#32, Function.update s.2 s.1 0#8), if_pos hlt, ⟨?_, ?_, ?_⟩, ?_⟩
        · simp only [hnext]
          omega
        · simp only [hnext]
          omega
        · funext a
          simp only [hnext, hmem, cleared, Function.update_apply]
          by_cases heq : a = s.1
          · subst heq
            rw [if_pos rfl, if_pos (by omega)]
          · have hne : a.toNat ≠ s.1.toNat := fun h => heq (BitVec.eq_of_toNat_eq h)
            rw [if_neg heq]
            -- a byte cleared before stays cleared, and the others are as before
            by_cases hin : endVa.toNat ≤ a.toNat ∧ a.toNat < s.1.toNat
            · rw [if_pos hin, if_pos (by omega)]
            · rw [if_neg hin, if_neg (by omega)]
        · simp only [hnext]
          omega
      · exact .inl (if_neg hlt)
    · exact funext fun a => (if_neg fun h => absurd h.1 (Nat.not_le.mpr h.2)).symm
    · have hmax := memsz.isLt
      exact (Nat.sub_le _ _).trans_lt hmax
  have hend : s.1.toNat = memsz.toNat := by
    by_contra hne
    have hlt : s.1 < memsz := Nat.lt_of_le_of_ne hhi hne
    rw [clearRound, if_pos hlt] at hstop
    exact absurd hstop (by simp)
  exact ⟨s, hloop, hend ▸ hmem⟩

/-! ### A segment -/

/-- The address of a segment in memory, `va mod 2^24`. -/
def loadAddr (va : Word) : ℕ := va.toNat % 2 ^ 24

/-- The end of the last sector that holds a byte below `a`. -/
def sectorUp (a : ℕ) : ℕ := (a + 511) / 512 * 512

theorem toNat_loadAddr (va : Word) : (va &&& 0xFFFFFF#32).toNat = loadAddr va := by
  rw [BitVec.toNat_and]
  exact Nat.and_two_pow_sub_one_eq_mod va.toNat 24

theorem toNat_sectorDown (va : Word) : (va &&& ~~~511#32).toNat = va.toNat / 512 * 512 := by
  have hlt := va.isLt
  have hshift : va &&& ~~~511#32 = (va >>> 9) <<< 9 := by
    apply BitVec.eq_of_getLsbD_eq
    intro i hi
    interval_cases i <;> simp
  rw [hshift, BitVec.toNat_shiftLeft, BitVec.toNat_ushiftRight, Nat.shiftLeft_eq,
    Nat.shiftRight_eq_div_pow]
  omega

/-- What a segment in memory looks like: the bytes of its file part, then zeros, and nothing
else but the rest of the sectors of the file part has changed. -/
structure SegmentLoaded (kernel : List Byte) (base filesz memsz offset : ℕ)
    (mem mem' : ByteMem 32) : Prop where
  file : ∀ k < filesz, some (mem' (BitVec.ofNat 32 (base + k))) = kernel[offset + k]?
  zero : ∀ k, filesz ≤ k → k < memsz → mem' (BitVec.ofNat 32 (base + k)) = 0#8
  rest : ∀ a : Word,
    a.toNat < base / 512 * 512 ∨ max (base + memsz) (sectorUp (base + filesz)) ≤ a.toNat →
      mem' a = mem a

/-- What the two loops of `readseg` come to. -/
theorem readseg_ok {filesz memsz : Word} (hle : filesz ≤ memsz)
    (hmem : loadAddr va + memsz.toNat < 2 ^ 32)
    (hround : sectorUp (loadAddr va + filesz.toNat) < 2 ^ 32)
    (halign : loadAddr va % 512 = offset.toNat % 512)
    (hdisk : 512 + sectorUp (offset.toNat + filesz.toNat) ≤ disk.length) (mem : ByteMem 32) :
    readseg disk va filesz memsz offset mem =
      .ok (cleared (loadAddr va + filesz.toNat) (loadAddr va + memsz.toNat)
        (loaded disk (512 + offset.toNat / 512 * 512) (loadAddr va / 512 * 512)
          (sectorUp (loadAddr va + filesz.toNat)) mem)) := by
  have hbase : loadAddr va < 2 ^ 24 := Nat.mod_lt _ (by decide)
  have hle' : filesz.toNat ≤ memsz.toNat := hle
  have hva := toNat_loadAddr va
  have hend : ((va &&& 0xFFFFFF#32) + filesz).toNat = loadAddr va + filesz.toNat := by bv_omega
  have hmemsz : (memsz + (va &&& 0xFFFFFF#32)).toNat = loadAddr va + memsz.toNat := by bv_omega
  -- the load address is rounded down, and the offset to a sector number after the boot sector
  have hdown : ((va &&& 0xFFFFFF#32) &&& ~~~511#32).toNat = loadAddr va / 512 * 512 := by
    rw [toNat_sectorDown, hva]
  have hoffset : (offset / 512#32 + 1#32).toNat = offset.toNat / 512 + 1 := by
    have hlt := offset.isLt
    rw [BitVec.toNat_add, BitVec.toNat_udiv]
    exact Nat.mod_eq_of_lt (by simp only [BitVec.toNat_ofNat, Nat.reducePow, Nat.reduceMod]; omega)
  have hlba : (offset / 512#32 + 1#32).toNat < 2 ^ 24 := by
    have hlt := offset.isLt
    rw [hoffset]
    omega
  have hlast : sectorUp (loadAddr va + filesz.toNat) = loadAddr va / 512 * 512 +
      (((va &&& 0xFFFFFF#32) + filesz).toNat - loadAddr va / 512 * 512 + 511) / 512 * 512 := by
    rw [sectorUp, hend]
    omega
  have hsectors : 512 * (offset / 512#32 + 1#32).toNat +
      (sectorUp (loadAddr va + filesz.toNat) - loadAddr va / 512 * 512) ≤ disk.length := by
    rw [sectorUp] at hdisk ⊢
    omega
  obtain ⟨s, hread, hloaded⟩ := readLoop_ok hdown (by omega) hlast hround hlba hsectors mem
  obtain ⟨s', hclear, hcleared⟩ := clearLoop_ok (show ((va &&& 0xFFFFFF#32) + filesz).toNat ≤
    (memsz + (va &&& 0xFFFFFF#32)).toNat by omega) s.mem
  have hsrc : 512 * (offset / 512#32 + 1#32).toNat = 512 + offset.toNat / 512 * 512 := by omega
  rw [hend, hmemsz, hloaded, hsrc] at hcleared
  simp only [readseg, hread, hclear, ok_bind]
  rw [hcleared]

theorem toNat_ofNat_of_lt {n : ℕ} (h : n < 2 ^ 32) : (BitVec.ofNat 32 n).toNat = n := by
  rw [BitVec.toNat_ofNat]
  exact Nat.mod_eq_of_lt h

/-- **The disk and the boot loader agree.** From the disk that is written for a boot sector and a
kernel file, with or without a skip to a sector behind them, every segment of the file is read
to its place. -/
theorem boot_layout (boot kernel : List Byte) (hboot : boot.length ≤ 510) (skip : Option ℕ)
    (hskip : ∀ sector ∈ skip, 1 + (kernel.length + 511) / 512 ≤ sector) :
    ∃ disk, mkbootdisk boot (.file kernel :: skip.toList.map .skipTo) = .ok disk ∧
      ∀ (va filesz memsz offset : Word) (mem : ByteMem 32), filesz ≤ memsz →
        offset.toNat + filesz.toNat ≤ kernel.length →
        loadAddr va % 512 = offset.toNat % 512 →
        loadAddr va + memsz.toNat < 2 ^ 32 →
        sectorUp (loadAddr va + filesz.toNat) < 2 ^ 32 →
        ∃ mem', readseg disk va filesz memsz offset mem = .ok mem' ∧
          SegmentLoaded kernel (loadAddr va) filesz.toNat memsz.toNat offset.toNat mem mem' := by
  obtain ⟨disk, hdisk, -, hlen, hkernel⟩ := mkbootdisk_ok hboot hskip
  refine ⟨disk, hdisk, fun va filesz memsz offset mem hle hfile halign hmem hround => ?_⟩
  have hbase : loadAddr va < 2 ^ 24 := Nat.mod_lt _ (by decide)
  have hle' : filesz.toNat ≤ memsz.toNat := hle
  have hsectors : 512 + sectorUp (offset.toNat + filesz.toNat) ≤ disk.length := by
    rw [sectorUp]
    omega
  refine ⟨_, readseg_ok hle hmem hround halign hsectors mem, fun k hk => ?_, fun k hk hk' => ?_,
    fun a ha => ?_⟩
  · -- a byte of the file: the address and the offset lie equally far in a sector
    have haddr := toNat_ofNat_of_lt (show loadAddr va + k < 2 ^ 32 by omega)
    have hin : loadAddr va / 512 * 512 ≤ loadAddr va + k ∧
        loadAddr va + k < sectorUp (loadAddr va + filesz.toNat) := by
      rw [sectorUp]
      omega
    have hsrc : 512 + offset.toNat / 512 * 512 + (loadAddr va + k - loadAddr va / 512 * 512) =
        512 + (offset.toNat + k) := by omega
    simp only [cleared, loaded, haddr]
    rw [if_neg (by omega), if_pos hin, hsrc, List.getD_eq_getElem?_getD,
      hkernel _ (by omega), Option.getD_some]
    exact (List.getElem?_eq_getElem (by omega)).symm
  · have haddr := toNat_ofNat_of_lt (show loadAddr va + k < 2 ^ 32 by omega)
    simp only [cleared, haddr]
    exact if_pos (by omega)
  · simp only [cleared, loaded]
    rw [if_neg (by omega), if_neg (by omega)]

/-- A file of three bytes, of which two are read to `0xF0100001`. -/
theorem boot_layout_small :
    ∃ disk, mkbootdisk [0xFA#8] (.file [1#8, 2#8, 3#8] :: (some 2).toList.map .skipTo) = .ok disk ∧
      ∃ mem', readseg disk 0xF0100001#32 2#32 4#32 1#32 (fun _ => 0xFF#8) = .ok mem' ∧
        SegmentLoaded [1#8, 2#8, 3#8] 0x100001 2 4 1 (fun _ => 0xFF#8) mem' := by
  obtain ⟨disk, hdisk, hload⟩ :=
    boot_layout [0xFA#8] [1#8, 2#8, 3#8] (by decide) (some 2) (by decide)
  exact ⟨disk, hdisk, hload 0xF0100001#32 2#32 4#32 1#32 (fun _ => 0xFF#8) (by decide) (by decide)
    (by decide) (by decide) (by decide)⟩

end JosVmx.Boot
