import JosVmx.Hvm.SegBase
import JosVmx.Kern.SelfMap
import JosVmx.Kern.TlbCoherence

/-!
# Segments, pages and the TLB

How a processor in protected mode gets from an address of a program to one of memory: the segment
register adds its base, and if paging is on, the TLB or a walk of the page tables gives the frame.
A segment register keeps base and limit of the descriptor that it was loaded with, and the TLB
keeps translations, so that neither sees at once what is written to memory.

## Main definitions

* `Processor` — the registers that take part in this, the TLB and memory
* `Processor.address` — where an access goes
* `Processor.lgdt`, `Processor.movSeg`, `Processor.movCr0`, `Processor.movCr3` — the instructions
  that change it

## Main results

* `Processor.lgdt_ok`, `Processor.movSeg_ok` — what is loaded, when the operand and the table can
  be read
-/

namespace JosVmx

open Lib

/-- A segment register. -/
inductive SegReg
  | cs
  | ds
  | es
  | fs
  | gs
  | ss
  deriving DecidableEq, Repr

/-- What the processor keeps of a descriptor. -/
structure CachedSegment where
  base : Word
  limit : Word
  deriving DecidableEq, Repr

/-- Why an access or an instruction fails. -/
inductive AccessFault
  | protection
  | page
  | panic
  deriving DecidableEq, Repr

/-- The processor and memory. -/
structure Processor where
  cr0 : Word
  cr3 : Word
  gdtBase : Word
  gdtLimit : BitVec 16
  ldtr : BitVec 16
  segment : SegReg → CachedSegment
  tlb : Tlb
  mem : Mem

/-- `CR0_PE`. -/
def cr0Pe : Word := 0x00000001#32

/-- `CR0_PG`. -/
def cr0Pg : Word := 0x80000000#32

/-- Physical memory, byte by byte. -/
def physMem (m : Mem) : ByteMem 32 := fun pa => Kern.byteAt m pa.toNat

namespace Processor

variable (c : Processor)

/-! ### Addresses -/

/-- The linear address of an access to `n` bytes. -/
def linear (r : SegReg) (va : Word) (n : ℕ) : Except AccessFault Word :=
  if va.toNat + n ≤ (c.segment r).limit.toNat + 1 then .ok ((c.segment r).base + va)
  else .error .protection

def Paging : Prop := c.cr0 &&& cr0Pg ≠ 0#32

instance instDecidablePaging : Decidable c.Paging := inferInstanceAs (Decidable (_ ≠ _))

/-- The frame of the page directory. -/
def pgdir : ℕ := frameOf c.cr3

/-- The entries that translate a page, from the TLB or from memory. -/
def entries (x : VPage) : Option (Word × Word) := (c.tlb x).or (walk c.mem c.pgdir x)

/-- The physical address of a linear address. The kernel is subject to no permissions, since
`CR0_WP` is clear. -/
def physical (la : Word) : Except AccessFault Word :=
  if c.Paging then
    match c.entries (vpage la) with
    | some e => .ok (pteAddr e.2 ||| (la &&& 0xFFF#32))
    | none => .error .page
  else .ok la

/-- The physical address of an access to `n` bytes in one page. -/
def address (r : SegReg) (va : Word) (n : ℕ) : Except AccessFault Word :=
  c.linear r va n >>= c.physical

/-- What the processor sees at linear addresses. -/
def linearMem : ByteMem 32 := fun la =>
  match c.physical la with
  | .ok pa => physMem c.mem pa
  | .error _ => 0#8

/-- The number in the `n` bytes at a linear address. -/
def loadLinear (la : Word) (n : ℕ) : Except AccessFault ℕ :=
  if ∀ i < n, (c.physical (la + BitVec.ofNat 32 i)).isOk then .ok (c.linearMem.loadNat la n)
  else .error .page

/-! ### Instructions -/

/-- Store a word of a page directory, which `va` points to. -/
def storeWord (va v : Word) : Except AccessFault Processor := do
  let pa ← c.address .ds va 4
  .ok { c with mem := c.mem.set (pa.toNat / 4096) (Kern.wordIdx pa.toNat) v }

/-- Load a word of a page directory. -/
def loadWord (va : Word) : Except AccessFault Word := do
  let pa ← c.address .ds va 4
  .ok (c.mem (pa.toNat / 4096) (Kern.wordIdx pa.toNat))

/-- `lcr3`, which flushes the TLB. -/
def movCr3 (v : Word) : Processor := { c with cr3 := v, tlb := fun _ => none }

/-- `lcr0`. -/
def movCr0 (v : Word) : Processor := { c with cr0 := v }

/-- `lgdt`, of the six bytes at `va`. -/
def lgdt (va : Word) : Except AccessFault Processor := do
  let la ← c.linear .ds va 6
  let limit ← c.loadLinear la 2
  let base ← c.loadLinear (la + 2#32) 4
  .ok { c with gdtBase := BitVec.ofNat 32 base, gdtLimit := BitVec.ofNat 16 limit }

/-- The kernel may load the descriptor into the register: it is a present segment for privilege
level 0, which is code for `cs`, writable data for `ss`, and readable for the others. -/
def Loadable (r : SegReg) (desc : Hvm.Segdesc) : Prop :=
  desc.p = 1#1 ∧ desc.s = 1#1 ∧ desc.dpl = 0#2 ∧
    match r with
    | .cs => desc.type.getLsbD 3 = true
    | .ss => desc.type.getLsbD 3 = false ∧ desc.type.getLsbD 1 = true
    | _ => desc.type.getLsbD 3 = false ∨ desc.type.getLsbD 1 = true

instance instDecidableLoadable (r : SegReg) (desc : Hvm.Segdesc) : Decidable (Loadable r desc) := by
  unfold Loadable
  cases r <;> infer_instance

/-- What a descriptor describes. -/
def segmentOf (x : ℕ) : CachedSegment := ⟨Hvm.segdescBase (.ofBits x), descLimit x⟩

/-- Load a segment register, also by `ljmp`, with a selector of the global table that is not null.
That the processor marks the descriptor as accessed is left out, since nothing reads the mark. -/
def movSeg (r : SegReg) (sel : BitVec 16) : Except AccessFault Processor :=
  let offset := (sel &&& Hvm.selMask).setWidth 32
  if offset.toNat + 7 ≤ c.gdtLimit.toNat then do
    let x ← c.loadLinear (c.gdtBase + offset) 8
    if Loadable r (.ofBits x) then
      .ok { c with segment := Function.update c.segment r (segmentOf x) }
    else .error .protection
  else .error .protection

/-- `lldt` of the null selector. -/
def lldtNull : Processor := { c with ldtr := 0#16 }

/-- What the TLB does between two instructions. -/
inductive TlbEvent
  | fill (la : Word)
  | evict (la : Word)

/-- It holds translations of pages only while paging is on. -/
def tlbEvent (e : TlbEvent) (c : Processor) : Processor :=
  match e with
  | .fill la =>
    if c.Paging then
      match walk c.mem c.pgdir (vpage la) with
      | some e => { c with tlb := Function.update c.tlb (vpage la) (some e) }
      | none => c
    else c
  | .evict la => { c with tlb := Function.update c.tlb (vpage la) none }

/-! ### What is read -/

variable {c}

/-- The `n` bytes at a linear address can be read and are the number `x`. -/
def Reads (c : Processor) (la : Word) (x n : ℕ) : Prop :=
  ∀ i < n, ∃ pa, c.physical (la + BitVec.ofNat 32 i) = .ok pa ∧
    physMem c.mem pa = bitField x (8 * i) 8

theorem loadLinear_of_reads {la : Word} {x n : ℕ} (h : c.Reads la x n) (hx : x < 2 ^ (8 * n)) :
    c.loadLinear la n = .ok x := by
  have hok : ∀ i < n, (c.physical (la + BitVec.ofNat 32 i)).isOk := by
    intro i hi
    obtain ⟨pa, hpa, -⟩ := h i hi
    rw [hpa]
    rfl
  have hload : c.linearMem.loadNat la n = x % 2 ^ (8 * n) := by
    refine ByteMem.loadNat_bytes fun i hi => ?_
    obtain ⟨pa, hpa, hbyte⟩ := h i hi
    rw [linearMem, hpa]
    exact hbyte
  rw [loadLinear, if_pos hok, hload, Nat.mod_eq_of_lt hx]

/-- The two parts of the operand are loaded. -/
theorem lgdt_ok {va la gdt : Word} {limit : BitVec 16} (hla : c.linear .ds va 6 = .ok la)
    (hlimit : c.Reads la limit.toNat 2) (hgdt : c.Reads (la + 2#32) gdt.toNat 4) :
    c.lgdt va = .ok { c with gdtBase := gdt, gdtLimit := limit } := by
  rw [lgdt, hla, ok_bind, loadLinear_of_reads hlimit limit.isLt, ok_bind,
    loadLinear_of_reads hgdt gdt.isLt, ok_bind, BitVec.ofNat_toNat, BitVec.ofNat_toNat,
    BitVec.setWidth_eq, BitVec.setWidth_eq]

/-- The descriptor that the selector names is loaded. -/
theorem movSeg_ok {r : SegReg} {sel : BitVec 16} {d : Segdesc}
    (hlimit : 8 * (sel.toNat / 8) + 7 ≤ c.gdtLimit.toNat)
    (hd : c.Reads (c.gdtBase + BitVec.ofNat 32 (8 * (sel.toNat / 8))) d.bits 8)
    (hload : Loadable r (.ofBits d.bits)) :
    c.movSeg r sel = .ok { c with segment := Function.update c.segment r (segmentOf d.bits) } := by
  have hoffset : ((sel &&& Hvm.selMask).setWidth 32).toNat = 8 * (sel.toNat / 8) := by
    rw [BitVec.toNat_setWidth, Hvm.toNat_selMask]
    have hlt := sel.isLt
    omega
  have hoff : (sel &&& Hvm.selMask).setWidth 32 = BitVec.ofNat 32 (8 * (sel.toNat / 8)) := by
    rw [← hoffset, BitVec.ofNat_toNat, BitVec.setWidth_eq]
  have hwidth : bitWidth d.fields = 8 * 8 := by simp [Segdesc.fields, bitWidth]
  have hlt : d.bits < 2 ^ (8 * 8) := by
    rw [← hwidth]
    exact pack_lt d.fields
  rw [movSeg, if_pos (hoffset ▸ hlimit), hoff, loadLinear_of_reads hd hlt, ok_bind, if_pos hload]

/-- What `SEG` builds for the kernel, with a limit of all addresses. -/
theorem segmentOf_seg (type base : Word) :
    segmentOf (seg type base 0xffffffff#32 0#32).bits = ⟨base, 0xffffffff#32⟩ := by
  have hbase : Hvm.segdescBase (.ofBits (seg type base 0xffffffff#32 0#32).bits) = base := by
    rw [Hvm.Segdesc.ofBits_bits, seg_eq]
    exact base_parts base
  rw [segmentOf, hbase, descLimit_seg]
  rfl

theorem ofBits_seg (type base : Word) :
    (Hvm.Segdesc.ofBits (seg type base 0xffffffff#32 0#32).bits).p = 1#1 ∧
      (Hvm.Segdesc.ofBits (seg type base 0xffffffff#32 0#32).bits).s = 1#1 ∧
      (Hvm.Segdesc.ofBits (seg type base 0xffffffff#32 0#32).bits).dpl = 0#2 ∧
      (Hvm.Segdesc.ofBits (seg type base 0xffffffff#32 0#32).bits).type = type.setWidth 4 := by
  rw [Hvm.Segdesc.ofBits_bits, seg_eq]
  exact ⟨rfl, rfl, rfl, rfl⟩

theorem loadable_code (base : Word) :
    Loadable .cs (.ofBits (seg 0xA#32 base 0xffffffff#32 0#32).bits) := by
  obtain ⟨hp, hs, hdpl, htype⟩ := ofBits_seg 0xA#32 base
  refine ⟨hp, hs, hdpl, ?_⟩
  dsimp only
  rw [htype]
  rfl

theorem loadable_data {r : SegReg} (hr : r ≠ .cs) (base : Word) :
    Loadable r (.ofBits (seg 0x2#32 base 0xffffffff#32 0#32).bits) := by
  obtain ⟨hp, hs, hdpl, htype⟩ := ofBits_seg 0x2#32 base
  refine ⟨hp, hs, hdpl, ?_⟩
  rw [htype]
  cases r with
  | cs => exact absurd rfl hr
  | ss => exact ⟨rfl, rfl⟩
  | ds | es | fs | gs => exact .inl rfl

end Processor

end JosVmx
