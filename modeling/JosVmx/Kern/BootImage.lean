import JosVmx.Kern.Address
import JosVmx.Kern.BootCheck

/-!
# The kernel image at boot

`boot_mem_init` writes page tables behind the kernel image and nothing in it, so what the
processor needs of the image is still there when paging is turned on: the segment descriptors
of `kern/pmap.c`, and before that those of `kern/entry.S`.

## Main definitions

* `KernelImage` — the places of the descriptor tables and of their pseudodescriptors
* `KernelImage.InMemory` — the image has been loaded

## Main results

* `Kern.bootInit_low` — the memory below the page tables does not change
* `HoldsBytes.keep` — so the bytes of the image stay where they are
-/

namespace JosVmx

open Lib

/-! ### Descriptor tables -/

/-- Bytes that lie in memory from an address on. -/
def HoldsBytes (mem : ByteMem 32) (a : Word) (bs : List (BitVec 8)) : Prop :=
  ∀ i x, bs[i]? = some x → mem (a + BitVec.ofNat 32 i) = x

/-- `SEG_NULL`. -/
def segNull : Segdesc :=
  ⟨0#16, 0#16, 0#8, 0#4, 0#1, 0#2, 0#1, 0#4, 0#1, 0#1, 0#1, 0#1, 0#8⟩

/-- `gdt` of `kern/pmap.c`. -/
def gdtTable : List Segdesc :=
  [segNull, seg 0xA#32 0x0#32 0xffffffff#32 0#32, seg 0x2#32 0x0#32 0xffffffff#32 0#32,
    seg 0xA#32 0x0#32 0xffffffff#32 3#32, seg 0x2#32 0x0#32 0xffffffff#32 3#32, segNull]

/-- `mygdt` of `kern/entry.S`, as the assembler writes it. -/
def mygdtBytes : List (BitVec 8) :=
  List.replicate 8 0#8 ++ asmSeg 0xA#64 (-0xF0000000#64) 0xffffffff#64 ++
    asmSeg 0x2#64 (-0xF0000000#64) 0xffffffff#64

/-- A `struct Pseudodesc`: a limit and an address. -/
def pseudodesc (lim : BitVec 16) (base : Word) : List (BitVec 8) :=
  (List.range 2).map (fun i => bitField lim.toNat (8 * i) 8) ++
    (List.range 4).map fun i => bitField base.toNat (8 * i) 8

/-- The linker's addresses of the two tables and of what `lgdt` reads. -/
structure KernelImage where
  mygdt : Word
  mygdtdesc : Word
  gdt : Word
  gdtPd : Word

/-- These `n` bytes belong to the image, which lies in the first four megabytes. -/
structure Boot.InImage (b : Boot) (va : Word) (n : ℕ) : Prop where
  ge : kernbase.toNat + 0x100000 ≤ va.toNat
  le_end : va.toNat + n ≤ b.endSym.toNat
  end_le : b.endSym.toNat ≤ kernbase.toNat + 0x400000

/-- What `entry.S` reads has been loaded. -/
structure KernelImage.EntryLoaded (img : KernelImage) (m : Mem) : Prop where
  mygdt_ge : kernbase + 0x100000#32 ≤ img.mygdt
  mygdtdesc_ge : kernbase + 0x100000#32 ≤ img.mygdtdesc
  mygdt : HoldsBytes (physMem m) (img.mygdt - kernbase) mygdtBytes
  mygdtdesc : HoldsBytes (physMem m) (img.mygdtdesc - kernbase)
    (pseudodesc 0x17#16 (img.mygdt - kernbase))

/-- What `boot_mem_init` reads has been loaded. -/
structure KernelImage.Loaded (img : KernelImage) (b : Boot) : Prop where
  gdt_in : b.InImage img.gdt 48
  gdtPd_in : b.InImage img.gdtPd 6
  gdt : HoldsBytes (physMem b.ram) (img.gdt - kernbase) (gdtTable.flatMap Segdesc.bytes)
  gdtPd : HoldsBytes (physMem b.ram) (img.gdtPd - kernbase) (pseudodesc 47#16 img.gdt)

section Holds

variable {mem : ByteMem 32} {a : Word} {ds : List Segdesc} {d : Segdesc} {i k : ℕ}

theorem length_bytes (d : Segdesc) : d.bytes.length = 8 := by
  rw [Segdesc.bytes, List.length_map, List.length_range]

theorem getElem?_flatMap_bytes (h : ds[i]? = some d) (hk : k < 8) :
    (ds.flatMap Segdesc.bytes)[8 * i + k]? = some (bitField d.bits (8 * k) 8) := by
  induction ds generalizing i with
  | nil => exact absurd h (by simp)
  | cons d' ds ih =>
    have hlen := length_bytes d'
    rw [List.flatMap_cons]
    cases i with
    | zero =>
      rw [List.getElem?_cons_zero, Option.some_inj] at h
      rw [List.getElem?_append_left (by omega), h, Segdesc.bytes, List.getElem?_map,
        Nat.mul_zero, Nat.zero_add, List.getElem?_range hk, Option.map_some]
    | succ i =>
      have hsub : 8 * (i + 1) + k - d'.bytes.length = 8 * i + k := by omega
      rw [List.getElem?_append_right (by omega), hsub]
      exact ih h

/-- An entry of a table in memory. -/
theorem HoldsBytes.entry (h : HoldsBytes mem a (ds.flatMap Segdesc.bytes)) (hd : ds[i]? = some d)
    (hk : k < 8) :
    mem (a + BitVec.ofNat 32 (8 * i) + BitVec.ofNat 32 k) = bitField d.bits (8 * k) 8 := by
  rw [BitVec.add_assoc, ← BitVec.ofNat_add]
  exact h _ _ (getElem?_flatMap_bytes hd hk)

theorem HoldsBytes.limit {lim : BitVec 16} {base : Word}
    (h : HoldsBytes mem a (pseudodesc lim base)) (hk : k < 2) :
    mem (a + BitVec.ofNat 32 k) = bitField lim.toNat (8 * k) 8 := by
  refine h _ _ ?_
  rw [pseudodesc, List.getElem?_append_left (by simpa using hk), List.getElem?_map,
    List.getElem?_range hk, Option.map_some]

theorem HoldsBytes.base {lim : BitVec 16} {base : Word}
    (h : HoldsBytes mem a (pseudodesc lim base)) (hk : k < 4) :
    mem (a + 2#32 + BitVec.ofNat 32 k) = bitField base.toNat (8 * k) 8 := by
  have hadd : 2#32 + BitVec.ofNat 32 k = BitVec.ofNat 32 (2 + k) := (BitVec.ofNat_add 2 k).symm
  rw [BitVec.add_assoc, hadd]
  refine h _ _ ?_
  rw [pseudodesc, List.getElem?_append_right (by simp), List.length_map, List.length_range,
    Nat.add_sub_cancel_left, List.getElem?_map, List.getElem?_range hk, Option.map_some]

/-- The assembler and C write the same tables. -/
theorem mygdtBytes_eq :
    mygdtBytes = [segNull, seg 0xA#32 (-kernbase) 0xffffffff#32 0#32,
      seg 0x2#32 (-kernbase) 0xffffffff#32 0#32].flatMap Segdesc.bytes := by
  rw [mygdtBytes, asmSeg_eq (by decide), asmSeg_eq (by decide)]
  rfl

end Holds

namespace Kern

/-! ### The image stays as it is -/

variable {b : Boot} {s s' : Kern} {g : ℕ} {t : Fin 1024}

/-- Mapping a segment with new tables writes nothing below them. -/
theorem SegmentMapped.low {la size pa perm : Word} {f : ℕ}
    (h : SegmentMapped s la size pa perm s') (hpgdir : f ≤ s.kernPgdir) (hframe : f ≤ s.bootFrame)
    (hmiss : ∀ d, InSegment la size d → d ∈ s.segMissing la size) (hg : g < f) :
    s'.mem g t = s.mem g t := by
  refine h.other g t (by omega) ?_
  rintro k hk ⟨heq, -⟩
  rw [segTable_of_missing (hmiss _ ⟨k, hk, rfl⟩)] at heq
  omega

/-- Clearing the array of pages writes nothing below it. -/
theorem bootPages_low (hs : b.Sufficient) (h : PhysStage b (b.firstFree + 66) s)
    (hrun : s.bootPages = .ok s') (hg : g < b.firstFree) : s'.mem g t = s.mem g t := by
  have ht := t.isLt
  have hle := b.firstFree_le hs
  obtain ⟨-, -, hpaddr, hsub⟩ := bootFrame_eq h.next
  change (paddr s.bootNext >>= fun pa =>
    .ok (((s.bootAlloc _).2.memset pa.toNat 0#8 _).setPages _)) = _ at hrun
  rw [hpaddr, ok_bind] at hrun
  cases hrun
  refine (mem_memset_of_outside _ 0#8 (.inl ?_)).trans (congrFun (congrFun (mem_bootAlloc s _) g) t)
  omega

/-- **The kernel image stays as it is.** The stages of `boot_mem_init` run and leave everything
below the page directory alone. -/
theorem bootInit_low (hs : b.Sufficient) :
    ∃ s₃ s₄, bootMap b = .ok s₃ ∧ s₃.bootPages = .ok s₄ ∧ s₄.bootMemCheck b.bootstack = .ok () ∧
      PhysStage b b.bootEnd s₄ ∧ ∀ g < b.firstFree, ∀ t, s₄.mem g t = b.ram g t := by
  obtain ⟨s₁, hpgdir, h₁⟩ := bootPgdir_ok hs
  obtain ⟨s₂, hstack, hmap₂⟩ :=
    bootMapSegment_ok b.stackPa pteW (stackReady hs h₁) (by decide)
  have h₂ := stackStage hs h₁ hmap₂
  obtain ⟨s₃, hphys, hmap₃⟩ :=
    bootMapSegment_ok 0#32 pteW (physReady hs h₂) (by decide)
  have h₃ := physStage hs h₂ hmap₃
  obtain ⟨s₄, hpages, h₄, -⟩ := bootPages_ok hs h₃
  have hrun : bootMap b = .ok s₃ := by
    rw [bootMap, hpgdir, ok_bind, Boot.paddr_bootstack, ok_bind, hstack, ok_bind, hphys]
  refine ⟨s₃, s₄, hrun, hpages, bootMemCheck_ok hs h₄, h₄, fun g hg t => ?_⟩
  have hframe₁ := (bootFrame_eq h₁.next).2.1
  have hframe₂ := (bootFrame_eq h₂.next).2.1
  -- the tables of both segments are new pages behind the image
  have hmiss₁ (d : Fin 1024) (hd : InSegment stackBase kstksize d) :
      d ∈ s₁.segMissing stackBase kstksize := by
    rw [segMissing_stack h₁, Finset.mem_singleton]
    exact inSegment_stack.mp hd
  have hmiss₂ (d : Fin 1024) (hd : InSegment kernbase physSize d) :
      d ∈ s₂.segMissing kernbase physSize := by
    rw [segMissing_phys h₂, Finset.mem_Ici]
    exact inSegment_phys.mp hd
  calc s₄.mem g t
    _ = s₃.mem g t := bootPages_low hs h₃ hpages hg
    _ = s₂.mem g t := SegmentMapped.low hmap₃ h₂.kernPgdir.ge (by omega) hmiss₂ hg
    _ = s₁.mem g t := SegmentMapped.low hmap₂ h₁.kernPgdir.ge (by omega) hmiss₁ hg
    _ = b.ram g t := h₁.ram g t (by omega)

end Kern

section InImage

variable {b : Boot} {va : Word} {m : Mem} {n i : ℕ}

/-- The address of an object of the image as a number. -/
theorem Boot.InImage.bounds (h : b.InImage va n) :
    983296 * 4096 ≤ va.toNat ∧ va.toNat + n ≤ b.endSym.toNat ∧
      b.endSym.toNat ≤ 984064 * 4096 := by
  obtain ⟨hge, hle, hend⟩ := h
  have hbase : kernbase.toNat = 983040 * 4096 := by decide
  rw [hbase] at hge hend
  exact ⟨hge, hle, hend⟩

/-- The physical address of a byte of the image. -/
theorem Boot.InImage.toNat_add (h : b.InImage va n) (hi : i < n) :
    (va - kernbase + BitVec.ofNat 32 i).toNat = va.toNat - 983040 * 4096 + i := by
  obtain ⟨hge, hle, hend⟩ := h.bounds
  have hbase : kernbase.toNat = 983040 * 4096 := by decide
  have hsub : (va - kernbase).toNat = va.toNat - 983040 * 4096 := by
    rw [BitVec.toNat_sub_of_le, hbase]
    rw [BitVec.le_def, hbase]
    omega
  rw [BitVec.toNat_add, hsub, BitVec.toNat_ofNat]
  omega

theorem Boot.InImage.lt (h : b.InImage va n) (hi : i < n) :
    va - kernbase + BitVec.ofNat 32 i < 0x400000#32 := by
  obtain ⟨hge, hle, hend⟩ := h.bounds
  rw [BitVec.lt_def, h.toNat_add hi, BitVec.toNat_ofNat]
  omega

/-- A byte of the image stays as it is when the memory below the page tables does. -/
theorem Boot.InImage.physMem_eq (h : b.InImage va n) (hi : i < n)
    (hlow : ∀ g < b.firstFree, ∀ t, m g t = b.ram g t) :
    physMem m (va - kernbase + BitVec.ofNat 32 i) =
      physMem b.ram (va - kernbase + BitVec.ofNat 32 i) := by
  obtain ⟨hge, hle, hend⟩ := h.bounds
  have hframe : (va - kernbase + BitVec.ofNat 32 i).toNat / 4096 < b.firstFree := by
    have hff : b.firstFree = (b.endSym.toNat + 4095) / 4096 - 983040 := rfl
    have haddr := h.toNat_add hi
    omega
  generalize va - kernbase + BitVec.ofNat 32 i = pa at hframe ⊢
  rw [physMem, physMem, Kern.byteAt, Kern.byteAt, hlow _ hframe]

theorem HoldsBytes.keep {bs : List (BitVec 8)} (h : HoldsBytes (physMem b.ram) (va - kernbase) bs)
    (hin : b.InImage va bs.length) (hlow : ∀ g < b.firstFree, ∀ t, m g t = b.ram g t) :
    HoldsBytes (physMem m) (va - kernbase) bs := by
  intro i x hx
  rw [hin.physMem_eq (List.getElem?_eq_some_iff.mp hx).1 hlow]
  exact h i x hx

end InImage

end JosVmx
