import JosVmx.Lib.Loop
import Mathlib.Data.List.Basic
import Mathlib.Algebra.Order.Group.Nat

/-!
# The boot disk

`boot/mkbootdisk.c` writes a disk image: a boot sector with its signature, then files, each
filled up to a whole number of sectors, or sectors of zeros up to a given one, and at last zeros
up to 1024 sectors. It reads its files in pieces of 1000 bytes and keeps count of the sectors.

The arguments after the first are given by what they mean: a file by its contents, and an argument
like `@X`, of which `strtoul` makes the number `X`, by this number.

## Main results

* `Boot.mkbootdisk_ok` — where the contents of a file are on the disk
-/

namespace JosVmx.Boot

open Lib

/-- A byte of a file, a disk or the memory. -/
abbrev Byte := BitVec 8

/-- What goes wrong in making a boot disk or in reading from it. -/
inductive DiskFault
  /-- "boot block too large", with the number of bytes read -/
  | bootBlock (n : ℕ)
  /-- "can't skip to sector", with the number of the sector and that of the next one -/
  | skip (sector next : ℕ)
  /-- a sector that is not on the disk -/
  | sector (lba : ℕ)
  /-- a drive that does not exist -/
  | drive
  | diverge
  deriving DecidableEq, Repr

/-! ### The functions of the source -/

/-- `SECTSIZE`. -/
def sectsize : ℕ := 512

/-- An argument of the program after the first. -/
inductive DiskArg
  | file (contents : List Byte)
  | skipTo (sector : ℕ)

/-- What has been written to `stdout`, and the number of sectors. -/
structure Image where
  out : List Byte
  nsectors : ℕ

/-- `fwrite(zerobuf, 1, n, stdout)`. -/
def zeros (n : ℕ) : List Byte := List.replicate n 0#8

/-- A round of `while (nsectors < n)`. -/
def fillRound (n : ℕ) (d : Image) : Except DiskFault (Option Image) :=
  if d.nsectors < n then .ok (some ⟨d.out ++ zeros sectsize, d.nsectors + 1⟩) else .ok none

/-- Sectors of zeros up to sector `n`. -/
def fillTo (n : ℕ) (d : Image) : Except DiskFault Image :=
  whileLoop .diverge (fillRound n) (n - d.nsectors + 1) d

/-- What is left of a file, what has been written to `stdout`, and `pos`. -/
structure FileCopy where
  file : List Byte
  out : List Byte
  pos : ℕ

/-- A round of `while ((n = fread(buf, 1, 1000, f)) > 0)`. -/
def copyRound (d : FileCopy) : Except DiskFault (Option FileCopy) :=
  let buf := d.file.take 1000
  if 0 < buf.length then .ok (some ⟨d.file.drop 1000, d.out ++ buf, d.pos + buf.length⟩)
  else .ok none

/-- The contents of a file, filled up to a whole number of sectors. -/
def writeFile (contents : List Byte) (d : Image) : Except DiskFault Image := do
  let copy ← whileLoop .diverge copyRound (contents.length + 1) ⟨contents, d.out, 0⟩
  if copy.pos % 512 ≠ 0 then
    let fill := 512 - copy.pos % 512
    .ok ⟨copy.out ++ zeros fill, d.nsectors + (copy.pos + fill) / 512⟩
  else .ok ⟨copy.out, d.nsectors + copy.pos / 512⟩

/-- An argument after the first. -/
def writeArg (arg : DiskArg) (d : Image) : Except DiskFault Image :=
  match arg with
  | .file contents => writeFile contents d
  | .skipTo sector =>
    if sector < d.nsectors then .error (.skip sector d.nsectors) else fillTo sector d

/-- The boot sector with its signature. -/
def bootSector (boot : List Byte) : Except DiskFault (List Byte) :=
  let buf := boot.take 1000
  if 510 < buf.length then .error (.bootBlock buf.length)
  else .ok (buf ++ zeros (510 - buf.length) ++ [0x55#8, 0xAA#8])

/-- `main`, with the contents of the first argument and the others. -/
def mkbootdisk (boot : List Byte) (args : List DiskArg) : Except DiskFault (List Byte) := do
  let sector ← bootSector boot
  let d ← args.foldlM (fun d arg => writeArg arg d) ⟨sector, 1⟩
  let d ← fillTo 1024 d
  .ok d.out

/-! ### Layout -/

/-- The image has as many sectors as it says. -/
def Image.Whole (d : Image) : Prop := d.out.length = 512 * d.nsectors

variable {d : Image} {n : ℕ}

/-- Filling up adds sectors at the end. -/
theorem fillTo_ok (h : d.Whole) (n : ℕ) :
    ∃ d', fillTo n d = .ok d' ∧ d'.Whole ∧ d.out <+: d'.out ∧ n ≤ d'.nsectors ∧
      d.nsectors ≤ d'.nsectors := by
  have hloop : ∃ d', fillTo n d = .ok d' ∧
      (d'.Whole ∧ d.out <+: d'.out ∧ d.nsectors ≤ d'.nsectors) ∧ fillRound n d' = .ok none := by
    -- every round adds one whole sector
    refine whileLoop_ok _ (fun d => n - d.nsectors) ?_ ⟨h, List.prefix_refl _, le_rfl⟩
      (Nat.lt_succ_self _)
    rintro d₁ ⟨hwhole, hprefix, hle⟩
    by_cases hlt : d₁.nsectors < n
    · refine .inr ⟨_, if_pos hlt, ⟨?_, hprefix.trans (List.prefix_append _ _), by simp only; omega⟩,
        by simp only; omega⟩
      have hlen : d₁.out.length = 512 * d₁.nsectors := hwhole
      simp only [Image.Whole, List.length_append, zeros, List.length_replicate, sectsize, hlen]
      omega
    · exact .inl (if_neg hlt)
  obtain ⟨d', hfill, ⟨hwhole, hprefix, hle⟩, hstop⟩ := hloop
  refine ⟨d', hfill, hwhole, hprefix, ?_, hle⟩
  by_contra hlt
  rw [fillRound, if_pos (Nat.not_le.mp hlt)] at hstop
  exact absurd hstop (by simp)

/-- All pieces of a file are written, one after the other. -/
theorem copyFile_ok (contents out : List Byte) :
    whileLoop .diverge copyRound (contents.length + 1) ⟨contents, out, 0⟩ =
      .ok ⟨[], out ++ contents, contents.length⟩ := by
  have hloop : ∃ d', whileLoop .diverge copyRound (contents.length + 1) ⟨contents, out, 0⟩ =
      .ok d' ∧ (d'.out ++ d'.file = out ++ contents ∧ d'.pos + d'.file.length = contents.length) ∧
      copyRound d' = .ok none := by
    -- what is copied and what is left together are the file
    refine whileLoop_ok _ (fun d => d.file.length) ?_ ⟨rfl, Nat.zero_add _⟩ (Nat.lt_succ_self _)
    rintro d ⟨hout, hpos⟩
    have hlen : (d.file.take 1000).length = min 1000 d.file.length := List.length_take
    by_cases hmore : 0 < (d.file.take 1000).length
    · refine .inr ⟨_, if_pos hmore, ⟨?_, ?_⟩, ?_⟩
      · simp only [List.append_assoc, List.take_append_drop, hout]
      · simp only [List.length_drop, hlen]
        omega
      · simp only [List.length_drop]
        omega
    · exact .inl (if_neg hmore)
  obtain ⟨⟨file, out', pos⟩, hcopy, ⟨hout, hpos⟩, hstop⟩ := hloop
  -- the last round read nothing, so nothing is left
  have hend : file = [] := by
    by_contra hne
    have hlen : 0 < (file.take 1000).length := by
      rw [List.length_take]
      have hpos' := List.length_pos_iff.mpr hne
      omega
    rw [copyRound, if_pos hlen] at hstop
    exact absurd hstop (by simp)
  subst hend
  simp only [List.append_nil, List.length_nil, Nat.add_zero] at hout hpos
  rw [hcopy, hout, hpos]

/-- A file is written after what is there, filled up with zeros to a whole sector. -/
theorem writeFile_ok (h : d.Whole) (contents : List Byte) :
    ∃ d', writeFile contents d = .ok d' ∧ d'.Whole ∧ d.out ++ contents <+: d'.out ∧
      d'.nsectors = d.nsectors + (contents.length + 511) / 512 := by
  have hlen : d.out.length = 512 * d.nsectors := h
  rw [writeFile, copyFile_ok, ok_bind]
  by_cases hfill : contents.length % 512 ≠ 0
  · refine ⟨_, if_pos hfill, ?_, List.prefix_append _ _, by simp only; omega⟩
    simp only [Image.Whole, List.length_append, zeros, List.length_replicate, hlen]
    omega
  · refine ⟨_, if_neg hfill, ?_, List.prefix_refl _, by simp only; omega⟩
    simp only [Image.Whole, List.length_append, hlen]
    omega

theorem bootSector_ok {boot : List Byte} (h : boot.length ≤ 510) :
    ∃ sector, bootSector boot = .ok sector ∧ sector.length = 512 := by
  have hall : boot.take 1000 = boot := List.take_of_length_le (by omega)
  refine ⟨_, by rw [bootSector, hall]; exact if_neg (by omega), ?_⟩
  simp only [List.length_append, zeros, List.length_replicate, List.length_cons, List.length_nil]
  omega

theorem skip_ok (h : d.Whole) {skip : Option ℕ} (hskip : ∀ sector ∈ skip, d.nsectors ≤ sector) :
    ∃ d', (skip.toList.map DiskArg.skipTo).foldlM (fun d arg => writeArg arg d) d = .ok d' ∧
      d'.Whole ∧ d.out <+: d'.out ∧ d.nsectors ≤ d'.nsectors := by
  cases skip with
  | none => exact ⟨d, rfl, h, List.prefix_refl _, le_rfl⟩
  | some n =>
    obtain ⟨d', hfill, hwhole, hprefix, -, hle⟩ := fillTo_ok h n
    have hnot : ¬ n < d.nsectors := Nat.not_lt.mpr (hskip n rfl)
    refine ⟨d', ?_, hwhole, hprefix, hle⟩
    rw [Option.toList_some, List.map_cons, List.foldlM_cons, writeArg, if_neg hnot, hfill, ok_bind]
    rfl

/-- The kernel is on the disk from sector 1 on, and all its sectors are on the disk. `skip` is
the sector of a further argument `@X`, if there is one. -/
theorem mkbootdisk_ok {boot kernel : List Byte} (hboot : boot.length ≤ 510) {skip : Option ℕ}
    (hskip : ∀ sector ∈ skip, 1 + (kernel.length + 511) / 512 ≤ sector) :
    ∃ disk, mkbootdisk boot (.file kernel :: skip.toList.map .skipTo) = .ok disk ∧
      (disk.length % 512 = 0 ∧ 512 * 1024 ≤ disk.length) ∧
      512 * (1 + (kernel.length + 511) / 512) ≤ disk.length ∧
      ∀ i (h : i < kernel.length), disk[512 + i]? = some kernel[i] := by
  obtain ⟨sector, hsector, hlen⟩ := bootSector_ok hboot
  obtain ⟨d₁, hfile, hwhole₁, hprefix₁, hn₁⟩ :=
    writeFile_ok (d := ⟨sector, 1⟩) (hlen.trans (by rfl)) kernel
  obtain ⟨d₂, hargs, hwhole₂, hprefix₂, hn₂⟩ := skip_ok hwhole₁ (hn₁ ▸ hskip)
  obtain ⟨d₃, hfill, hwhole₃, hprefix₃, hfull, hn₃⟩ := fillTo_ok hwhole₂ 1024
  have hlen₃ : d₃.out.length = 512 * d₃.nsectors := hwhole₃
  simp only at hn₁
  refine ⟨d₃.out, ?_, ⟨by omega, by omega⟩, by omega, fun i hi => ?_⟩
  · rw [mkbootdisk, hsector, ok_bind, List.foldlM_cons, writeArg, hfile, ok_bind, hargs, ok_bind,
      hfill]
    rfl
  · -- later steps only append
    obtain ⟨rest, hrest⟩ := (hprefix₁.trans hprefix₂).trans hprefix₃
    simp only at hrest
    rw [← hrest, List.append_assoc, List.getElem?_append_right (by omega),
      List.getElem?_append_left (by omega), hlen, Nat.add_sub_cancel_left]
    exact List.getElem?_eq_getElem hi

end JosVmx.Boot
