import JosVmx.Boot.Readseg
import JosVmx.Lib.Patch

/-!
# Loading the kernel

`bootmain` of `boot/main.c` reads the first page of the kernel file to address `0x10000`, checks
the magic number and loads a segment for each program header there. It reads whole sectors, so a
segment may be written over by the sectors that are read for a later one.

## Main definitions

* `bootmain` — the function of the source
* `KernelOk`, `KernelOnDisk` — a kernel file that can be loaded, and the disk that it is on
* `SegmentIntact`, `SharedSectorsAgree` — a segment that is in memory, and when all are

## Main results

* `bootmain_intact_iff` — which kernel files are loaded with every segment intact
-/

namespace JosVmx.Boot

open Lib

/-! ### The functions of the source -/

/-- `ELFHDR`. -/
def elfhdr : Word := 0x10000#32

/-- `ELF_MAGIC`. -/
def elfMagic : Word := 0x464C457F#32

/-- The fields of `struct Elf` that `bootmain` uses. -/
structure Elf where
  eMagic : Word
  eEntry : Word
  ePhoff : Word
  ePhnum : BitVec 16
  deriving DecidableEq, Repr

/-- The structure in memory. -/
def Elf.read (mem : ByteMem 32) (a : Word) : Elf where
  eMagic := mem.load a
  eEntry := mem.load (a + 24#32)
  ePhoff := mem.load (a + 28#32)
  ePhnum := BitVec.ofNat 16 (mem.loadNat (a + 44#32) 2)

/-- The fields of `struct Proghdr` that `bootmain` uses. -/
structure Proghdr where
  pOffset : Word
  pVa : Word
  pFilesz : Word
  pMemsz : Word
  deriving DecidableEq, Repr

/-- The structure in memory. -/
def Proghdr.read (mem : ByteMem 32) (a : Word) : Proghdr where
  pOffset := mem.load (a + 4#32)
  pVa := mem.load (a + 8#32)
  pFilesz := mem.load (a + 16#32)
  pMemsz := mem.load (a + 20#32)

/-- A round of `for (; ph < eph; ph++)`. -/
def loadRound (disk : List Byte) (eph : Word) (s : Word × ByteMem 32) :
    Except DiskFault (Option (Word × ByteMem 32)) :=
  if s.1 < eph then do
    let ph := Proghdr.read s.2 s.1
    let mem ← readseg disk ph.pVa ph.pFilesz ph.pMemsz ph.pOffset s.2
    .ok (some (s.1 + 32#32, mem))
  else .ok none

/-- How `bootmain` ends: with a call that does not return, or at `bad`. -/
inductive BootEnd
  | call (entry : Word)
  | bad
  deriving DecidableEq, Repr

/-- `bootmain`. -/
def bootmain (disk : List Byte) (mem : ByteMem 32) : Except DiskFault (BootEnd × ByteMem 32) := do
  -- read 1st page off disk
  let mem ← readseg disk elfhdr 4096#32 4096#32 0#32 mem
  let elf := Elf.read mem elfhdr
  -- is this a valid ELF?
  if elf.eMagic ≠ elfMagic then .ok (.bad, mem)
  else
    -- load each program segment (ignores ph flags)
    let ph := elfhdr + elf.ePhoff
    let eph := ph + 32#32 * elf.ePhnum.setWidth 32
    let s ← whileLoop .diverge (loadRound disk eph) (2 ^ 16) (ph, mem)
    -- call the entry point from the ELF header
    .ok (.call ((Elf.read s.2 elfhdr).eEntry &&& 0xFFFFFF#32), s.2)

/-! ### Kernel files -/

/-- A file as memory from address 0 on. -/
def fileMem (kernel : List Byte) : ByteMem 32 := fun a => kernel.getD a.toNat 0#8

/-- The ELF header of a file. -/
def kernelElf (kernel : List Byte) : Elf := .read (fileMem kernel) 0#32

/-- The program headers of a file. -/
def kernelProghdrs (kernel : List Byte) : List Proghdr :=
  (List.range (kernelElf kernel).ePhnum.toNat).map fun i =>
    .read (fileMem kernel) ((kernelElf kernel).ePhoff + BitVec.ofNat 32 (32 * i))

/-- The stack, the boot sector and the page that the headers are read to. -/
def Reserved (a : ℕ) : Prop := a < 0x7E00 ∨ 0x10000 ≤ a ∧ a < 0x11000

/-- A segment that lies in the file, at the same place in a sector as in memory, and whose sectors
in memory are free. -/
structure SegmentOk (kernel : List Byte) (p : Proghdr) : Prop where
  filesz_le : p.pFilesz ≤ p.pMemsz
  aligned : p.pVa.toNat % 512 = p.pOffset.toNat % 512
  inFile : p.pOffset.toNat + p.pFilesz.toNat ≤ kernel.length
  free : ∀ a, loadAddr p.pVa / 512 * 512 ≤ a → a < sectorUp (loadAddr p.pVa + p.pMemsz.toNat) →
    ¬ Reserved (a % 2 ^ 24)

/-- The segments have no address in common. -/
def SegmentsApart (p q : Proghdr) : Prop :=
  ∀ i < p.pMemsz.toNat, ∀ j < q.pMemsz.toNat,
    (p.pVa.toNat + i) % 2 ^ 24 ≠ (q.pVa.toNat + j) % 2 ^ 24

/-- A kernel file that can be loaded. -/
structure KernelOk (kernel : List Byte) : Prop where
  header : 52 ≤ kernel.length
  magic : (kernelElf kernel).eMagic = elfMagic
  inPage : (kernelElf kernel).ePhoff.toNat + 32 * (kernelElf kernel).ePhnum.toNat ≤ 4096
  inFile : (kernelElf kernel).ePhoff.toNat + 32 * (kernelElf kernel).ePhnum.toNat ≤ kernel.length
  segment : ∀ p ∈ kernelProghdrs kernel, SegmentOk kernel p
  apart : (kernelProghdrs kernel).Pairwise SegmentsApart

/-- A disk of whole sectors with the file behind the boot sector, and no shorter than the first
page of the file. -/
structure KernelOnDisk (kernel disk : List Byte) : Prop where
  whole : disk.length % 512 = 0
  page : 512 + 4096 ≤ disk.length
  file : ∀ i < kernel.length, disk[512 + i]? = kernel[i]?

/-- The segment in memory: the bytes of its file part, then zeros. -/
structure SegmentIntact (kernel : List Byte) (p : Proghdr) (mem : ByteMem 32) : Prop where
  file : ∀ k < p.pFilesz.toNat,
    some (mem (BitVec.ofNat 32 ((p.pVa.toNat + k) % 2 ^ 24))) = kernel[p.pOffset.toNat + k]?
  zero : ∀ k, p.pFilesz.toNat ≤ k → k < p.pMemsz.toNat →
    mem (BitVec.ofNat 32 ((p.pVa.toNat + k) % 2 ^ 24)) = 0#8

/-- The disk that `mkbootdisk` writes. -/
theorem mkbootdisk_kernelOnDisk {boot kernel : List Byte} (hboot : boot.length ≤ 510)
    {skip : Option ℕ} (hskip : ∀ sector ∈ skip, 1 + (kernel.length + 511) / 512 ≤ sector) :
    ∃ disk, mkbootdisk boot (.file kernel :: skip.toList.map .skipTo) = .ok disk ∧
      KernelOnDisk kernel disk := by
  obtain ⟨disk, hdisk, ⟨hwhole, hlen⟩, -, hkernel⟩ := mkbootdisk_ok hboot hskip
  refine ⟨disk, hdisk, hwhole, by omega, fun i hi => ?_⟩
  rw [hkernel i hi, List.getElem?_eq_getElem hi]

/-! ### What a segment leaves in memory -/

/-- The address is in a sector that is read for the segment. -/
def ReadsOver (q : Proghdr) (a : ℕ) : Prop :=
  loadAddr q.pVa / 512 * 512 ≤ a ∧ a < sectorUp (loadAddr q.pVa + q.pFilesz.toNat)

instance (q : Proghdr) (a : ℕ) : Decidable (ReadsOver q a) := inferInstanceAs (Decidable (_ ∧ _))

/-- The byte that is read to the address. -/
def sectorByte (disk : List Byte) (q : Proghdr) (a : ℕ) : Byte :=
  disk.getD (512 + q.pOffset.toNat / 512 * 512 + (a - loadAddr q.pVa / 512 * 512)) 0#8

/-- Byte `k` of a segment. -/
def segmentByte (kernel : List Byte) (p : Proghdr) (k : ℕ) : Byte :=
  if k < p.pFilesz.toNat then kernel.getD (p.pOffset.toNat + k) 0#8 else 0#8

/-- Where the sectors of a later segment reach into a segment, the last of them has the byte of the
segment there. -/
def SharedSectorsAgree (kernel disk : List Byte) : Prop :=
  ∀ pre p post, kernelProghdrs kernel = pre ++ p :: post → ∀ k < p.pMemsz.toNat,
    ∀ q ∈ post.reverse.find? fun q => decide (ReadsOver q (loadAddr p.pVa + k)),
      sectorByte disk q (loadAddr p.pVa + k) = segmentByte kernel p k

/-- The new bytes that `readseg` of the segment writes. -/
def segPatch (disk : List Byte) (q : Proghdr) : Patch Word Byte := fun x =>
  if loadAddr q.pVa + q.pFilesz.toNat ≤ x.toNat ∧ x.toNat < loadAddr q.pVa + q.pMemsz.toNat then
    some 0#8
  else if ReadsOver q x.toNat then some (sectorByte disk q x.toNat) else none

variable {kernel disk : List Byte} {mem mem' : ByteMem 32} {p q : Proghdr} {k : ℕ} {x : Word}

theorem sectorUp_mono {a b : ℕ} (h : a ≤ b) : sectorUp a ≤ sectorUp b :=
  Nat.mul_le_mul_right _ (Nat.div_le_div_right (Nat.add_le_add_right h _))

theorem loadAddr_lt (va : Word) : loadAddr va < 2 ^ 24 := Nat.mod_lt _ (by decide)

/-- A segment ends below `2^24`: behind it the addresses would wrap around to the stack. -/
theorem SegmentOk.sectorUp_le (h : SegmentOk kernel p) :
    sectorUp (loadAddr p.pVa + p.pMemsz.toNat) ≤ 2 ^ 24 := by
  by_contra hgt
  have hlt := loadAddr_lt p.pVa
  exact h.free (2 ^ 24) (by omega) (Nat.not_le.mp hgt) (.inl (by decide))

theorem SegmentOk.end_le (h : SegmentOk kernel p) :
    loadAddr p.pVa + p.pMemsz.toNat ≤ 2 ^ 24 := by
  have hround := h.sectorUp_le
  rw [sectorUp] at hround
  omega

theorem SegmentOk.address (h : SegmentOk kernel p) (hk : k < p.pMemsz.toNat) :
    (p.pVa.toNat + k) % 2 ^ 24 = loadAddr p.pVa + k := by
  have hend := h.end_le
  rw [loadAddr] at hend ⊢
  omega

/-- The file part of a segment is on the disk up to the end of a sector. -/
theorem KernelOnDisk.sectors (hd : KernelOnDisk kernel disk) {n : ℕ} (hn : n ≤ kernel.length) :
    512 + sectorUp n ≤ disk.length := by
  have hwhole := hd.whole
  rw [sectorUp]
  rcases Nat.eq_zero_or_pos n with rfl | hpos
  · have hpage := hd.page
    omega
  · -- the last byte of the part is on the disk
    have hlt : n - 1 < kernel.length := by omega
    have hlast : disk[512 + (n - 1)]? = some kernel[n - 1] :=
      (hd.file (n - 1) hlt).trans (List.getElem?_eq_getElem hlt)
    obtain ⟨hdisk, -⟩ := List.getElem?_eq_some_iff.mp hlast
    omega

/-- **`readseg` of a segment** as a patch of the memory. -/
theorem readseg_patch (hd : KernelOnDisk kernel disk) (h : SegmentOk kernel p)
    (mem : ByteMem 32) :
    readseg disk p.pVa p.pFilesz p.pMemsz p.pOffset mem = .ok ((segPatch disk p).apply mem) := by
  have hle : p.pFilesz.toNat ≤ p.pMemsz.toNat := h.filesz_le
  have hend := h.end_le
  have halign : loadAddr p.pVa % 512 = p.pOffset.toNat % 512 := by
    rw [← h.aligned, loadAddr]
    omega
  rw [readseg_ok h.filesz_le (by omega) (by rw [sectorUp]; omega) halign (hd.sectors h.inFile)]
  refine congrArg Except.ok (funext fun x => ?_)
  rw [cleared, Patch.apply, segPatch]
  split
  · rfl
  · rw [loaded]
    by_cases hread : ReadsOver p x.toNat
    · rw [if_pos hread]
      exact if_pos hread
    · rw [if_neg hread]
      exact if_neg hread

/-- What is reserved is left alone. -/
theorem SegmentOk.patch_reserved (h : SegmentOk kernel p) (hx : Reserved x.toNat) :
    segPatch disk p x = none := by
  have hle : p.pFilesz.toNat ≤ p.pMemsz.toNat := h.filesz_le
  have hlow : x.toNat % 2 ^ 24 = x.toNat := by
    rw [Reserved] at hx
    omega
  have hout (hge : loadAddr p.pVa / 512 * 512 ≤ x.toNat)
      (hlt : x.toNat < sectorUp (loadAddr p.pVa + p.pMemsz.toNat)) : False := by
    refine h.free x.toNat hge hlt ?_
    rwa [hlow]
  have hclear : ¬ (loadAddr p.pVa + p.pFilesz.toNat ≤ x.toNat ∧
      x.toNat < loadAddr p.pVa + p.pMemsz.toNat) := by
    rintro ⟨hge, hlt⟩
    exact hout (by omega) (by rw [sectorUp]; omega)
  have hread : ¬ ReadsOver p x.toNat := by
    rintro ⟨hge, hlt⟩
    exact hout hge (hlt.trans_le (sectorUp_mono (Nat.add_le_add_left hle _)))
  rw [segPatch, if_neg hclear, if_neg hread]

/-- The bytes of the segment itself. -/
theorem SegmentOk.patch_own (hd : KernelOnDisk kernel disk) (h : SegmentOk kernel p)
    (hk : k < p.pMemsz.toNat) :
    segPatch disk p (BitVec.ofNat 32 (loadAddr p.pVa + k)) = some (segmentByte kernel p k) := by
  have hend := h.end_le
  have hlow := loadAddr_lt p.pVa
  rw [segPatch, toNat_ofNat_of_lt (by omega), segmentByte]
  by_cases hfile : k < p.pFilesz.toNat
  · -- the place in its sector is the same on the disk and in memory
    have hread : ReadsOver p (loadAddr p.pVa + k) := by
      rw [ReadsOver, sectorUp]
      omega
    have halign := h.aligned
    have hsrc : 512 + p.pOffset.toNat / 512 * 512 +
        (loadAddr p.pVa + k - loadAddr p.pVa / 512 * 512) = 512 + (p.pOffset.toNat + k) := by
      rw [loadAddr]
      omega
    have hbyte := hd.file (p.pOffset.toNat + k) (by have := h.inFile; omega)
    rw [if_neg (by omega), if_pos hread, if_pos hfile, sectorByte, hsrc,
      List.getD_eq_getElem?_getD, hbyte, ← List.getD_eq_getElem?_getD]
  · rw [if_pos (by omega), if_neg hfile]

/-- The bytes of another segment. -/
theorem SegmentOk.patch_other (hp : SegmentOk kernel p) (hq : SegmentOk kernel q)
    (hapart : SegmentsApart p q) (hk : k < p.pMemsz.toNat) :
    segPatch disk q (BitVec.ofNat 32 (loadAddr p.pVa + k)) =
      if decide (ReadsOver q (loadAddr p.pVa + k)) then
        some (sectorByte disk q (loadAddr p.pVa + k)) else none := by
  have hend := hp.end_le
  have hclear : ¬ (loadAddr q.pVa + q.pFilesz.toNat ≤ loadAddr p.pVa + k ∧
      loadAddr p.pVa + k < loadAddr q.pVa + q.pMemsz.toNat) := by
    rintro ⟨hge, hlt⟩
    -- the byte would be one of both segments
    obtain ⟨j, hj⟩ : ∃ j, loadAddr p.pVa + k = loadAddr q.pVa + j :=
      ⟨loadAddr p.pVa + k - loadAddr q.pVa, by omega⟩
    refine hapart k hk j (by omega) ?_
    rw [hp.address hk, hq.address (by omega), hj]
  rw [segPatch, toNat_ofNat_of_lt (by omega), if_neg hclear]
  simp only [decide_eq_true_eq]

/-! ### The headers -/

/-- The start of the file is in memory at `ELFHDR`, as far as it fits in a page. -/
def HeaderPage (kernel : List Byte) (mem : ByteMem 32) : Prop :=
  ∀ i < 4096, i < kernel.length →
    mem (elfhdr + BitVec.ofNat 32 i) = fileMem kernel (BitVec.ofNat 32 i)

section Shift

variable {m m' : ByteMem 32} {a b : Word} {n : ℕ}

/-- Equal structures in memory have equal fields. -/
theorem load_field (h : ∀ i < n, m' (b + BitVec.ofNat 32 i) = m (a + BitVec.ofNat 32 i))
    (hk : k + 4 ≤ n) :
    m'.load (b + BitVec.ofNat 32 k) = m.load (a + BitVec.ofNat 32 k) := by
  refine ByteMem.load_shift fun i hi => ?_
  have hbyte := h (k + i) (by omega)
  rwa [BitVec.ofNat_add, ← BitVec.add_assoc, ← BitVec.add_assoc] at hbyte

theorem Proghdr.read_shift
    (h : ∀ i < 32, m' (b + BitVec.ofNat 32 i) = m (a + BitVec.ofNat 32 i)) :
    Proghdr.read m' b = Proghdr.read m a := by
  rw [Proghdr.read, load_field h (k := 4) (by decide), load_field h (k := 8) (by decide),
    load_field h (k := 16) (by decide), load_field h (k := 20) (by decide)]
  rfl

theorem Elf.read_shift (h : ∀ i < 52, m' (b + BitVec.ofNat 32 i) = m (a + BitVec.ofNat 32 i)) :
    Elf.read m' b = Elf.read m a := by
  have hmagic : m'.load b = m.load a := ByteMem.load_shift fun i hi => h i (by omega)
  have hphnum : m'.loadNat (b + 44#32) 2 = m.loadNat (a + 44#32) 2 := by
    refine ByteMem.loadNat_shift fun i hi => ?_
    have hbyte := h (44 + i) (by omega)
    rwa [BitVec.ofNat_add, ← BitVec.add_assoc, ← BitVec.add_assoc] at hbyte
  rw [Elf.read, hmagic, load_field h (k := 24) (by decide), load_field h (k := 28) (by decide),
    hphnum]
  rfl

end Shift

theorem toNat_header {i : ℕ} (hi : i < 4096) :
    (elfhdr + BitVec.ofNat 32 i).toNat = 0x10000 + i := by
  have hbase : elfhdr.toNat = 0x10000 := rfl
  rw [BitVec.toNat_add, hbase, BitVec.toNat_ofNat]
  omega

/-- The first page of the file is read. -/
theorem readHeader_ok (hd : KernelOnDisk kernel disk) (mem : ByteMem 32) :
    ∃ mem', readseg disk elfhdr 4096#32 4096#32 0#32 mem = .ok mem' ∧ HeaderPage kernel mem' := by
  have hpage : 512 + sectorUp ((0#32).toNat + (4096#32).toNat) ≤ disk.length := hd.page
  have hread := readseg_ok (show 4096#32 ≤ 4096#32 by decide)
    (show loadAddr elfhdr + _ < _ by decide) (by decide) (by decide) hpage mem
  refine ⟨_, hread, fun i hi hfile => ?_⟩
  have haddr := toNat_header hi
  have hload : loadAddr elfhdr = 0x10000 := rfl
  have hsize : (4096#32).toNat = 4096 := rfl
  have hclear : ¬ (0x10000 + 4096 ≤ 0x10000 + i ∧ 0x10000 + i < 0x10000 + 4096) := by omega
  have hin : 0x10000 / 512 * 512 ≤ 0x10000 + i ∧ 0x10000 + i < sectorUp (0x10000 + 4096) := by
    rw [sectorUp]
    omega
  have hsrc : 512 + (0#32).toNat / 512 * 512 + (0x10000 + i - 0x10000 / 512 * 512) = 512 + i := by
    have hzero : (0#32).toNat = 0 := rfl
    omega
  rw [cleared, haddr, hload, hsize, if_neg hclear, loaded, haddr, if_pos hin, hsrc, fileMem,
    toNat_ofNat_of_lt (by omega), List.getD_eq_getElem?_getD, List.getD_eq_getElem?_getD,
    hd.file i hfile]

theorem HeaderPage.elf (h : HeaderPage kernel mem) (hk : KernelOk kernel) :
    Elf.read mem elfhdr = kernelElf kernel := by
  refine Elf.read_shift fun i hi => ?_
  rw [BitVec.zero_add]
  have hlen := hk.header
  exact h i (by omega) (by omega)

theorem HeaderPage.proghdr (h : HeaderPage kernel mem) (hk : KernelOk kernel) {i : ℕ}
    (hi : i < (kernelElf kernel).ePhnum.toNat) {a : Word}
    (ha : a = elfhdr + (kernelElf kernel).ePhoff + BitVec.ofNat 32 (32 * i)) :
    Proghdr.read mem a =
      .read (fileMem kernel) ((kernelElf kernel).ePhoff + BitVec.ofNat 32 (32 * i)) := by
  subst ha
  refine Proghdr.read_shift fun j hj => ?_
  have hpage := hk.inPage
  have hfile := hk.inFile
  have hbyte := h ((kernelElf kernel).ePhoff.toNat + (32 * i + j)) (by omega) (by omega)
  rwa [BitVec.ofNat_add, BitVec.ofNat_toNat, BitVec.setWidth_eq, BitVec.ofNat_add,
    ← BitVec.add_assoc, ← BitVec.add_assoc, ← BitVec.add_assoc] at hbyte

/-- The headers stay in memory while segments are loaded. -/
theorem HeaderPage.applyAll (h : HeaderPage kernel mem) {ps : List Proghdr}
    (hps : ∀ p ∈ ps, SegmentOk kernel p) :
    HeaderPage kernel (applyAll (ps.map (segPatch disk)) mem) := by
  intro i hi hfile
  have haddr := toNat_header hi
  rw [Lib.applyAll_of_none, h i hi hfile]
  intro patch hpatch
  obtain ⟨p, hp, rfl⟩ := List.mem_map.mp hpatch
  exact (hps p hp).patch_reserved (.inr (by omega))

/-! ### The loop -/

/-- The `i`-th round loads the `i`-th segment. -/
theorem loadRound_ok (hd : KernelOnDisk kernel disk) (hk : KernelOk kernel)
    (h : HeaderPage kernel mem) {i : ℕ} (hi : i < (kernelProghdrs kernel).length) {ph eph : Word}
    (hph : ph = elfhdr + (kernelElf kernel).ePhoff + BitVec.ofNat 32 (32 * i)) (hlt : ph < eph) :
    loadRound disk eph
        (ph, applyAll (((kernelProghdrs kernel).take i).map (segPatch disk)) mem) =
      .ok (some (ph + 32#32,
        applyAll (((kernelProghdrs kernel).take (i + 1)).map (segPatch disk)) mem)) := by
  have hi' : i < (kernelElf kernel).ePhnum.toNat := by
    rwa [kernelProghdrs, List.length_map, List.length_range] at hi
  have hpage : HeaderPage kernel
      (applyAll (((kernelProghdrs kernel).take i).map (segPatch disk)) mem) :=
    h.applyAll fun p hp => hk.segment p (List.mem_of_mem_take hp)
  have hread := hpage.proghdr hk hi' hph
  have hget : (kernelProghdrs kernel)[i] =
      .read (fileMem kernel) ((kernelElf kernel).ePhoff + BitVec.ofNat 32 (32 * i)) := by
    simp only [kernelProghdrs, List.getElem_map, List.getElem_range]
  have hseg := hk.segment _ (List.getElem_mem hi)
  rw [loadRound, if_pos hlt]
  simp only [hread, ← hget, readseg_patch hd hseg, ok_bind]
  rw [List.take_succ_eq_append_getElem hi, List.map_append, List.map_singleton, applyAll_concat]

/-- **The loop of `bootmain`** patches the memory for one segment after the other. -/
theorem loadLoop_ok (hd : KernelOnDisk kernel disk) (hk : KernelOk kernel)
    (h : HeaderPage kernel mem) :
    ∃ s, whileLoop .diverge (loadRound disk (elfhdr + (kernelElf kernel).ePhoff +
        32#32 * (kernelElf kernel).ePhnum.setWidth 32)) (2 ^ 16)
          (elfhdr + (kernelElf kernel).ePhoff, mem) = .ok s ∧
      s.2 = applyAll ((kernelProghdrs kernel).map (segPatch disk)) mem := by
  obtain ⟨eph, heph⟩ : ∃ eph, elfhdr + (kernelElf kernel).ePhoff +
    32#32 * (kernelElf kernel).ePhnum.setWidth 32 = eph := ⟨_, rfl⟩
  obtain ⟨n, hn⟩ : ∃ n, (kernelElf kernel).ePhnum.toNat = n := ⟨_, rfl⟩
  have hlen : (kernelProghdrs kernel).length = n := by
    rw [kernelProghdrs, List.length_map, List.length_range, hn]
  have hlt := (kernelElf kernel).ePhnum.isLt
  have hpage := hk.inPage
  rw [hn] at hpage hlt
  have hbase : elfhdr.toNat = 0x10000 := rfl
  have haddr {i : ℕ} (hi : i ≤ n) :
      (elfhdr + (kernelElf kernel).ePhoff + BitVec.ofNat 32 (32 * i)).toNat =
        0x10000 + (kernelElf kernel).ePhoff.toNat + 32 * i := by
    rw [BitVec.toNat_add, BitVec.toNat_add, hbase, BitVec.toNat_ofNat]
    omega
  have hend : eph.toNat = 0x10000 + (kernelElf kernel).ePhoff.toNat + 32 * n := by
    have hsize : 32#32 * (kernelElf kernel).ePhnum.setWidth 32 = BitVec.ofNat 32 (32 * n) := by
      apply BitVec.eq_of_toNat_eq
      rw [BitVec.toNat_mul, BitVec.toNat_setWidth, hn, BitVec.toNat_ofNat, BitVec.toNat_ofNat]
      omega
    rw [← heph, hsize, haddr le_rfl]
  rw [heph]
  obtain ⟨s, hloop, ⟨i, hi, hs, hmem⟩, hstop⟩ :
      ∃ s, whileLoop .diverge (loadRound disk eph) (2 ^ 16)
          (elfhdr + (kernelElf kernel).ePhoff, mem) = .ok s ∧
        (∃ i ≤ n, s.1 = elfhdr + (kernelElf kernel).ePhoff + BitVec.ofNat 32 (32 * i) ∧
          s.2 = applyAll (((kernelProghdrs kernel).take i).map (segPatch disk)) mem) ∧
        loadRound disk eph s = .ok none := by
    -- after `i` rounds the first `i` segments are loaded
    refine whileLoop_ok _ (fun s => (eph.toNat - s.1.toNat) / 32) ?_
      ⟨0, Nat.zero_le n, (BitVec.add_zero _).symm, rfl⟩ ?_
    · rintro ⟨ph, mem'⟩ ⟨i, hi, rfl, rfl⟩
      rcases Nat.lt_or_eq_of_le hi with hlt | rfl
      · have hround : elfhdr + (kernelElf kernel).ePhoff + BitVec.ofNat 32 (32 * i) < eph := by
          rw [BitVec.lt_def, haddr hi, hend]
          omega
        have hnext : elfhdr + (kernelElf kernel).ePhoff + BitVec.ofNat 32 (32 * i) + 32#32 =
            elfhdr + (kernelElf kernel).ePhoff + BitVec.ofNat 32 (32 * (i + 1)) := by
          rw [Nat.mul_succ, BitVec.ofNat_add, BitVec.add_assoc]
        refine .inr ⟨_, loadRound_ok hd hk h (hlen ▸ hlt) rfl hround, ⟨i + 1, hlt, hnext, rfl⟩, ?_⟩
        simp only [hnext, haddr hi, haddr hlt, hend]
        omega
      · refine .inl (if_neg ?_)
        rw [BitVec.lt_def, haddr hi, hend]
        omega
    · have hfirst := haddr (Nat.zero_le n)
      rw [BitVec.add_zero] at hfirst
      simp only [hfirst, hend]
      omega
  refine ⟨s, hloop, ?_⟩
  -- the loop ends behind the last header
  rcases Nat.lt_or_eq_of_le hi with hlt | rfl
  · have hround : s.1 < eph := by
      rw [BitVec.lt_def, hs, haddr hi, hend]
      omega
    have hgo := loadRound_ok hd hk h (hlen ▸ hlt) hs hround
    rw [← hmem] at hgo
    exact absurd (hgo.symm.trans hstop) (by simp)
  · rw [hmem, ← hlen, List.take_length]

/-- **`bootmain` of a kernel file** calls its entry point, with one segment loaded after the
other. -/
theorem bootmain_ok (hd : KernelOnDisk kernel disk) (hk : KernelOk kernel) (mem : ByteMem 32) :
    ∃ mem₁, bootmain disk mem = .ok (.call ((kernelElf kernel).eEntry &&& 0xFFFFFF#32),
      applyAll ((kernelProghdrs kernel).map (segPatch disk)) mem₁) := by
  obtain ⟨mem₁, hread, hpage⟩ := readHeader_ok hd mem
  obtain ⟨s, hloop, hmem⟩ := loadLoop_ok hd hk hpage
  -- no segment is loaded over the header, which is read once more after the loop
  have hpage' : HeaderPage kernel (applyAll ((kernelProghdrs kernel).map (segPatch disk)) mem₁) :=
    hpage.applyAll hk.segment
  refine ⟨mem₁, ?_⟩
  rw [bootmain, hread, ok_bind]
  simp only [hpage.elf hk, hk.magic, ne_eq, not_true, if_false, hloop, ok_bind, hmem,
    hpage'.elf hk]

/-! ### Segments that stay intact -/

/-- A segment is intact if each of its bytes is the one that it needs. -/
theorem segmentIntact_iff (h : SegmentOk kernel p) :
    SegmentIntact kernel p mem ↔ ∀ k < p.pMemsz.toNat,
      mem (BitVec.ofNat 32 (loadAddr p.pVa + k)) = segmentByte kernel p k := by
  have hle : p.pFilesz.toNat ≤ p.pMemsz.toNat := h.filesz_le
  have hfile := h.inFile
  have hneed {k : ℕ} (hk : k < p.pFilesz.toNat) :
      kernel[p.pOffset.toNat + k]? = some (segmentByte kernel p k) := by
    rw [segmentByte, if_pos hk, List.getD_eq_getElem?_getD,
      List.getElem?_eq_getElem (by omega), Option.getD_some]
  constructor
  · intro hin k hk
    rw [← h.address hk]
    by_cases hlt : k < p.pFilesz.toNat
    · exact Option.some.inj ((hin.file k hlt).trans (hneed hlt))
    · rw [segmentByte, if_neg hlt]
      exact hin.zero k (Nat.not_lt.mp hlt) hk
  · intro hbyte
    refine ⟨fun k hk => ?_, fun k hge hk => ?_⟩
    · rw [h.address (hk.trans_le hle), hbyte k (hk.trans_le hle), hneed hk]
    · rw [h.address hk, hbyte k hk, segmentByte, if_neg (Nat.not_lt.mpr hge)]

/-- A byte of a segment after all segments have been loaded. -/
theorem byte_intact_iff (hd : KernelOnDisk kernel disk) {pre post : List Proghdr}
    (hp : SegmentOk kernel p) (hpost : ∀ q ∈ post, SegmentOk kernel q ∧ SegmentsApart p q)
    (hk : k < p.pMemsz.toNat) :
    applyAll ((pre ++ p :: post).map (segPatch disk)) mem
        (BitVec.ofNat 32 (loadAddr p.pVa + k)) = segmentByte kernel p k ↔
      ∀ q ∈ post.reverse.find? fun q => decide (ReadsOver q (loadAddr p.pVa + k)),
        sectorByte disk q (loadAddr p.pVa + k) = segmentByte kernel p k := by
  have hlater : (post.map (segPatch disk)).reverse.findSome?
        (· (BitVec.ofNat 32 (loadAddr p.pVa + k))) =
      (post.reverse.find? fun q => decide (ReadsOver q (loadAddr p.pVa + k))).map
        (sectorByte disk · (loadAddr p.pVa + k)) := by
    rw [← List.map_reverse, List.findSome?_map]
    refine findSome?_eq_map_find? fun q hq => ?_
    obtain ⟨hok, hapart⟩ := hpost q (List.mem_reverse.mp hq)
    exact hp.patch_other hok hapart hk
  rw [List.map_append, List.map_cons, applyAll_keeps_iff (hp.patch_own hd hk), hlater]
  simp only [Option.mem_map, forall_exists_index, and_imp, forall_apply_eq_imp_iff₂]

/-- **The segments of a kernel** are all intact after `bootmain` exactly if the sectors that they
share agree. -/
theorem bootmain_intact_iff (hd : KernelOnDisk kernel disk) (hk : KernelOk kernel)
    (mem : ByteMem 32) :
    ∃ mem', bootmain disk mem =
        .ok (.call ((kernelElf kernel).eEntry &&& 0xFFFFFF#32), mem') ∧
      ((∀ p ∈ kernelProghdrs kernel, SegmentIntact kernel p mem') ↔
        SharedSectorsAgree kernel disk) := by
  obtain ⟨mem₁, hboot⟩ := bootmain_ok hd hk mem
  refine ⟨_, hboot, ?_⟩
  have hsplit {pre p post} (h : kernelProghdrs kernel = pre ++ p :: post) :
      SegmentOk kernel p ∧ ∀ q ∈ post, SegmentOk kernel q ∧ SegmentsApart p q := by
    have hapart := hk.apart
    rw [h, List.pairwise_append, List.pairwise_cons] at hapart
    refine ⟨hk.segment p (h ▸ by simp), fun q hq => ⟨hk.segment q (h ▸ by simp [hq]), ?_⟩⟩
    exact hapart.2.1.1 q hq
  constructor
  · intro hall pre p post h k hlt
    obtain ⟨hp, hpost⟩ := hsplit h
    have hbyte := (segmentIntact_iff hp).mp (hall p (h ▸ by simp)) k hlt
    rw [h] at hbyte
    exact (byte_intact_iff hd hp hpost hlt).mp hbyte
  · intro hagree p hmem
    obtain ⟨pre, post, h⟩ := List.append_of_mem hmem
    obtain ⟨hp, hpost⟩ := hsplit h
    rw [segmentIntact_iff hp]
    intro k hlt
    rw [h]
    exact (byte_intact_iff hd hp hpost hlt).mpr (hagree pre p post h k hlt)

/-! ### Two segments in one sector -/

/-- A file with two segments of one byte. They are neighbours in memory, but lie in different
sectors of the file. -/
def sharedFile : ℕ → Byte
  -- `e_magic`, `e_phoff` and `e_phnum`
  | 0 => 0x7F#8 | 1 => 0x45#8 | 2 => 0x4C#8 | 3 => 0x46#8 | 28 => 52#8 | 44 => 2#8
  -- offset 512, address `0x100000`
  | 57 => 2#8 | 62 => 0x10#8 | 68 => 1#8 | 72 => 1#8
  -- offset 1025, address `0x100001`
  | 88 => 1#8 | 89 => 4#8 | 92 => 1#8 | 94 => 0x10#8 | 100 => 1#8 | 104 => 1#8
  | 512 => 0xAA#8 | 1025 => 0xBB#8
  | _ => 0#8

def sharedKernel : List Byte := (List.range 1026).map sharedFile

/-- The file behind an empty boot sector. -/
def sharedDisk : List Byte :=
  (List.range 4608).map fun i => if i < 512 then 0#8 else sharedFile (i - 512)

theorem sharedDisk_get {i : ℕ} (hi : i < 4608) :
    sharedDisk[i]? = some (if i < 512 then 0#8 else sharedFile (i - 512)) := by
  rw [sharedDisk, List.getElem?_map, List.getElem?_range hi, Option.map_some]

theorem sharedKernel_get {i : ℕ} (hi : i < 1026) : sharedKernel[i]? = some (sharedFile i) := by
  rw [sharedKernel, List.getElem?_map, List.getElem?_range hi, Option.map_some]

theorem sharedKernel_length : sharedKernel.length = 1026 := by
  rw [sharedKernel, List.length_map, List.length_range]

theorem sharedDisk_ok : KernelOnDisk sharedKernel sharedDisk := by
  have hlen : sharedDisk.length = 4608 := by
    rw [sharedDisk, List.length_map, List.length_range]
  refine ⟨by rw [hlen], by rw [hlen], fun i hi => ?_⟩
  rw [sharedKernel_length] at hi
  rw [sharedDisk_get (by omega), sharedKernel_get hi, if_neg (by omega), Nat.add_sub_cancel_left]

theorem sharedFile_of_le {i : ℕ} (h : 1026 ≤ i) : sharedFile i = 0#8 := by
  unfold sharedFile
  split <;> first | rfl | omega

theorem fileMem_shared : fileMem sharedKernel = fun a => sharedFile a.toNat := by
  funext a
  rw [fileMem, List.getD_eq_getElem?_getD]
  by_cases ha : a.toNat < 1026
  · rw [sharedKernel_get ha, Option.getD_some]
  · rw [List.getElem?_eq_none (by rw [sharedKernel_length]; omega), Option.getD_none,
      sharedFile_of_le (by omega)]

theorem kernelProghdrs_shared :
    kernelProghdrs sharedKernel = [⟨512#32, 0x100000#32, 1#32, 1#32⟩,
      ⟨1025#32, 0x100001#32, 1#32, 1#32⟩] := by
  rw [kernelProghdrs, kernelElf, fileMem_shared]
  decide

theorem sharedKernel_ok : KernelOk sharedKernel := by
  have hsegment {p : Proghdr} (hp : p.pFilesz = 1#32 ∧ p.pMemsz = 1#32 ∧
      p.pOffset.toNat < 1026 ∧ p.pVa.toNat % 512 = p.pOffset.toNat % 512 ∧
      loadAddr p.pVa / 512 = 0x800 ∧ loadAddr p.pVa < 0x100002) : SegmentOk sharedKernel p := by
    obtain ⟨hfilesz, hmemsz, hoffset, halign, hsector, hlow⟩ := hp
    have hone : (1#32).toNat = 1 := rfl
    refine ⟨by rw [hfilesz, hmemsz]; decide, halign, ?_, fun a hge hlt => ?_⟩
    · rw [sharedKernel_length, hfilesz, hone]
      omega
    · rw [hmemsz, hone, sectorUp] at hlt
      rw [Reserved]
      omega
  have helf : kernelElf sharedKernel = ⟨elfMagic, 0#32, 52#32, 2#16⟩ := by
    rw [kernelElf, fileMem_shared]
    decide
  refine ⟨by rw [sharedKernel_length]; decide, by rw [helf], by rw [helf]; decide,
    by rw [helf, sharedKernel_length]; decide, fun p hp => ?_, ?_⟩
  · rw [kernelProghdrs_shared] at hp
    rcases List.mem_pair.mp hp with rfl | rfl <;> exact hsegment (by decide)
  · rw [kernelProghdrs_shared, List.pairwise_pair]
    unfold SegmentsApart
    decide

/-- **A later segment overwrites an earlier one** that it shares a sector of memory with. -/
theorem bootmain_overwrites :
    ¬ ∀ kernel disk : List Byte, KernelOnDisk kernel disk → KernelOk kernel → ∀ mem, ∃ mem',
      bootmain disk mem = .ok (.call ((kernelElf kernel).eEntry &&& 0xFFFFFF#32), mem') ∧
        ∀ p ∈ kernelProghdrs kernel, SegmentIntact kernel p mem' := by
  intro hclaim
  obtain ⟨mem', hboot, hintact⟩ :=
    hclaim sharedKernel sharedDisk sharedDisk_ok sharedKernel_ok fun _ => 0#8
  obtain ⟨mem₁, hload⟩ := bootmain_ok sharedDisk_ok sharedKernel_ok fun _ => 0#8
  have hmem : mem' = _ := (Prod.mk.inj (Except.ok.inj (hboot.symm.trans hload))).2
  obtain ⟨p, hp⟩ : ∃ p : Proghdr, p = ⟨512#32, 0x100000#32, 1#32, 1#32⟩ := ⟨_, rfl⟩
  obtain ⟨q, hq⟩ : ∃ q : Proghdr, q = ⟨1025#32, 0x100001#32, 1#32, 1#32⟩ := ⟨_, rfl⟩
  have hlist : kernelProghdrs sharedKernel = [] ++ p :: [q] := by
    rw [kernelProghdrs_shared, hp, hq]
    rfl
  have hpok := sharedKernel_ok.segment p (hlist ▸ by simp)
  have hqok := sharedKernel_ok.segment q (hlist ▸ by simp)
  have hapart := sharedKernel_ok.apart
  rw [hlist, List.nil_append, List.pairwise_pair] at hapart
  have hbyte := (segmentIntact_iff hpok).mp (hintact p (hlist ▸ by simp)) 0 (by rw [hp]; decide)
  rw [hmem, hlist] at hbyte
  -- the byte comes from the sector that is read for the second segment
  have hagree := (byte_intact_iff sharedDisk_ok hpok (by simp [hqok, hapart])
    (by rw [hp]; decide)).mp hbyte q (by rw [hp, hq]; decide)
  have hsector : sectorByte sharedDisk q (loadAddr p.pVa + 0) = 0#8 := by
    rw [sectorByte, List.getD_eq_getElem?_getD, hp, hq]
    exact congrArg (·.getD 0#8) (sharedDisk_get (i := 1536) (by decide))
  have hneed : segmentByte sharedKernel p 0 = 0xAA#8 := by
    rw [segmentByte, List.getD_eq_getElem?_getD, hp]
    exact congrArg (·.getD 0#8) (sharedKernel_get (i := 512) (by decide))
  rw [hsector, hneed] at hagree
  exact absurd hagree (by decide)

/-- The two segments share a sector that does not agree. -/
theorem bootmain_intact_iff_shared :
    ∃ mem', bootmain sharedDisk (fun _ => 0#8) =
        .ok (.call ((kernelElf sharedKernel).eEntry &&& 0xFFFFFF#32), mem') ∧
      ((∀ p ∈ kernelProghdrs sharedKernel, SegmentIntact sharedKernel p mem') ↔
        SharedSectorsAgree sharedKernel sharedDisk) :=
  bootmain_intact_iff sharedDisk_ok sharedKernel_ok fun _ => 0#8

end JosVmx.Boot
