import JosVmx.Inc.Segdesc
import JosVmx.Kern.Printfmt

/-!
# The base of a segment

`get_seg_base` of `hvm/vt_regs.c` reads the descriptors that a selector names from memory, through
a structure of its own in `inc/desc.h`. It finds the bases that the host state of a virtual machine
is set up with.

## Main results

* `Segdesc.ofBits_bits` — the two structures have the same fields
* `descriptors_agree` — `get_seg_base` finds the base that an entry was built with
-/

namespace JosVmx.Hvm

open Lib

/-! ### The functions of the source -/

/-- `struct segdesc`. -/
structure Segdesc where
  limit150 : BitVec 16
  base150 : BitVec 16
  base2316 : BitVec 8
  type : BitVec 4
  s : BitVec 1
  dpl : BitVec 2
  p : BitVec 1
  limit1916 : BitVec 4
  avl : BitVec 1
  l : BitVec 1
  dB : BitVec 1
  g : BitVec 1
  base3124 : BitVec 8
  deriving DecidableEq, Repr

/-- The structure at eight bytes that are the number `x`. -/
def Segdesc.ofBits (x : ℕ) : Segdesc where
  limit150 := bitField x 0 16
  base150 := bitField x 16 16
  base2316 := bitField x 32 8
  type := bitField x 40 4
  s := bitField x 44 1
  dpl := bitField x 45 2
  p := bitField x 47 1
  limit1916 := bitField x 48 4
  avl := bitField x 52 1
  l := bitField x 53 1
  dB := bitField x 54 1
  g := bitField x 55 1
  base3124 := bitField x 56 8

/-- `SEGDESC_BASE`. -/
def segdescBase (desc : Segdesc) : Word :=
  desc.base3124.setWidth 32 <<< 24 ||| desc.base2316.setWidth 32 <<< 16 |||
    desc.base150.setWidth 32

/-- `SEL_LDT_BIT`. -/
def selLdtBit : BitVec 16 := 0x4#16

/-- `SEL_MASK`. -/
def selMask : BitVec 16 := 0xFFF8#16

/-- The structure at an address. -/
def segdescAt (mem : ByteMem 32) (a : Word) : Segdesc := .ofBits (mem.loadNat a 8)

/-- The end of `get_seg_base` behind `err`. -/
def segBaseErr : Word × List (BitVec 8) :=
  (0#32, Kern.bytes "ERROR: get_seg_base failed!\n")

/-- `get_seg_base`: the new value of `*segbase`, and what is printed. -/
def getSegBase (mem : ByteMem 32) (gdtbase : Word) (ldtr sel : BitVec 16) :
    Word × List (BitVec 8) :=
  if sel = 0#16 then (0#32, [])
  else if sel &&& selLdtBit ≠ 0#16 then
    let p := segdescAt mem (gdtbase + (ldtr &&& selMask).setWidth 32)
    if p.p = 0#1 then segBaseErr
    else
      let ldtbase := segdescBase p
      let p := segdescAt mem (ldtbase + (sel &&& selMask).setWidth 32)
      if p.p = 0#1 then segBaseErr else (segdescBase p, [])
  else
    let p := segdescAt mem (gdtbase + (sel &&& selMask).setWidth 32)
    if p.p = 0#1 then segBaseErr else (segdescBase p, [])

/-! ### Entries of a table -/

/-- The descriptor was built with `SEG` or `SEG16` for a segment at `base`. -/
def BuiltFor (base : Word) (d : JosVmx.Segdesc) : Prop :=
  ∃ type lim dpl : Word, type.toNat < 16 ∧ dpl.toNat < 4 ∧
    (d = seg type base lim dpl ∨ d = seg16 type base lim dpl)

/-- Entry `i` of the descriptor table at `table`. -/
def EntryIs (mem : ByteMem 32) (table : Word) (i : ℕ) (d : JosVmx.Segdesc) : Prop :=
  ∀ k < 8, d.bytes[k]? = some (mem (table + BitVec.ofNat 32 (8 * i + k)))

variable {mem : ByteMem 32} {gdtbase ldtbase base table : Word} {ldtr sel : BitVec 16}
  {d dl : JosVmx.Segdesc} {i : ℕ}

/-- **The two structures agree** on every field. -/
theorem Segdesc.ofBits_bits (d : JosVmx.Segdesc) :
    Segdesc.ofBits d.bits = ⟨d.sdLim150, d.sdBase150, d.sdBase2316, d.sdType, d.sdS, d.sdDpl,
      d.sdP, d.sdLim1916, d.sdAvl, d.sdRsv1, d.sdDb, d.sdG, d.sdBase3124⟩ := by
  simp only [Segdesc.ofBits, Segdesc.mk.injEq]
  refine ⟨d.bitField_fields 0 ?_ rfl, d.bitField_fields 1 ?_ rfl, d.bitField_fields 2 ?_ rfl,
    d.bitField_fields 3 ?_ rfl, d.bitField_fields 4 ?_ rfl, d.bitField_fields 5 ?_ rfl,
    d.bitField_fields 6 ?_ rfl, d.bitField_fields 7 ?_ rfl, d.bitField_fields 8 ?_ rfl,
    d.bitField_fields 9 ?_ rfl, d.bitField_fields 10 ?_ rfl, d.bitField_fields 11 ?_ rfl,
    d.bitField_fields 12 ?_ rfl⟩ <;> simp [JosVmx.Segdesc.fields, bitWidth]

theorem BuiltFor.segdescBase (h : BuiltFor base d) :
    (Segdesc.ofBits d.bits).p = 1#1 ∧ segdescBase (.ofBits d.bits) = base := by
  rw [Segdesc.ofBits_bits]
  obtain ⟨type, lim, dpl, -, -, rfl | rfl⟩ := h
  · rw [seg_eq]
    exact ⟨rfl, base_parts base⟩
  · rw [seg16_eq]
    exact ⟨rfl, base_parts base⟩

/-- The offset of an entry in its table. -/
theorem toNat_selMask (sel : BitVec 16) : (sel &&& selMask).toNat = 8 * (sel.toNat / 8) := by
  have hshift : sel &&& selMask = (sel >>> 3) <<< 3 := by
    apply BitVec.eq_of_getLsbD_eq
    intro i hi
    interval_cases i <;> simp [selMask]
  have hlt := sel.isLt
  rw [hshift, BitVec.toNat_shiftLeft, BitVec.toNat_ushiftRight, Nat.shiftLeft_eq,
    Nat.shiftRight_eq_div_pow]
  omega

theorem EntryIs.byte (h : EntryIs mem table i d) {k : ℕ} (hk : k < 8) :
    mem (table + BitVec.ofNat 32 (8 * i + k)) = bitField d.bits (8 * k) 8 := by
  have hbyte := h k hk
  rw [JosVmx.Segdesc.bytes, List.getElem?_map, List.getElem?_range hk, Option.map_some] at hbyte
  exact (Option.some.inj hbyte).symm

/-- What a selector finds in a table. -/
theorem EntryIs.segdescAt (h : EntryIs mem table (sel.toNat / 8) d) :
    segdescAt mem (table + (sel &&& selMask).setWidth 32) = .ofBits d.bits := by
  have hoff : (sel &&& selMask).setWidth 32 = BitVec.ofNat 32 (8 * (sel.toNat / 8)) := by
    apply BitVec.eq_of_toNat_eq
    rw [BitVec.toNat_setWidth, BitVec.toNat_ofNat, toNat_selMask]
  have hload : mem.loadNat (table + (sel &&& selMask).setWidth 32) 8 = d.bits % 2 ^ (8 * 8) := by
    refine ByteMem.loadNat_bytes fun k hk => ?_
    rw [hoff, BitVec.add_assoc, ← BitVec.ofNat_add, h.byte hk]
  have hwidth : bitWidth d.fields = 8 * 8 := by simp [JosVmx.Segdesc.fields, bitWidth]
  have hlt : d.bits < 2 ^ (8 * 8) := by
    rw [← hwidth]
    exact pack_lt d.fields
  rw [Hvm.segdescAt, hload, Nat.mod_eq_of_lt hlt]

/-! ### Selectors -/

theorem selLdtBit_eq (sel : BitVec 16) : sel &&& selLdtBit ≠ 0#16 ↔ sel.getLsbD 2 = true := by
  have hand : sel &&& selLdtBit = if sel.getLsbD 2 then selLdtBit else 0#16 := by
    apply BitVec.eq_of_getLsbD_eq
    intro i hi
    cases hbit : sel.getLsbD 2 <;> interval_cases i <;> simp_all [selLdtBit]
  rw [hand]
  cases sel.getLsbD 2 <;> decide

/-- A selector of the global table. -/
theorem getSegBase_global (hd : BuiltFor base d) (hentry : EntryIs mem gdtbase (sel.toNat / 8) d)
    (hsel : sel ≠ 0#16) (hti : sel.getLsbD 2 = false) (ldtr : BitVec 16) :
    getSegBase mem gdtbase ldtr sel = (base, []) := by
  have hglobal : ¬ (sel &&& selLdtBit ≠ 0#16) := by
    rw [selLdtBit_eq, hti]
    exact Bool.false_ne_true
  rw [getSegBase, if_neg hsel, if_neg hglobal, hentry.segdescAt]
  simp only [hd.segdescBase]
  exact if_neg (by decide)

/-- A selector of the local table, which an entry of the global table describes. -/
theorem getSegBase_local (hl : BuiltFor ldtbase dl)
    (hldtr : EntryIs mem gdtbase (ldtr.toNat / 8) dl) (hd : BuiltFor base d)
    (hentry : EntryIs mem ldtbase (sel.toNat / 8) d) (hti : sel.getLsbD 2 = true) :
    getSegBase mem gdtbase ldtr sel = (base, []) := by
  have hsel : sel ≠ 0#16 := by
    rintro rfl
    exact Bool.false_ne_true hti
  rw [getSegBase, if_neg hsel, if_pos ((selLdtBit_eq sel).mpr hti), hldtr.segdescAt]
  simp only [hl.segdescBase, hentry.segdescAt, hd.segdescBase]
  rw [if_neg (by decide), if_neg (by decide)]

/-- **Encoders and decoders of descriptors agree.** -/
theorem descriptors_agree {type base lim : Word} (htype : type.toNat < 16) :
    (∀ b l : BitVec 64, b.setWidth 32 = base → l.setWidth 32 = lim →
      asmSeg (type.setWidth 64) b l = (seg type base lim 0#32).bytes) ∧
    (∀ (mem : ByteMem 32) (gdtbase : Word) (ldtr sel : BitVec 16) (d : JosVmx.Segdesc),
      BuiltFor base d → EntryIs mem gdtbase (sel.toNat / 8) d → sel ≠ 0#16 →
      sel.getLsbD 2 = false → getSegBase mem gdtbase ldtr sel = (base, [])) ∧
    (∀ (mem : ByteMem 32) (gdtbase ldtbase : Word) (ldtr sel : BitVec 16)
      (dl d : JosVmx.Segdesc), BuiltFor ldtbase dl → EntryIs mem gdtbase (ldtr.toNat / 8) dl →
      BuiltFor base d → EntryIs mem ldtbase (sel.toNat / 8) d → sel.getLsbD 2 = true →
      getSegBase mem gdtbase ldtr sel = (base, [])) ∧
    ∀ dpl : Word, dpl.toNat < 4 →
      descLimit (seg type base lim dpl).bits = lim ||| 0xFFF#32 ∧
      (lim.toNat < 2 ^ 20 → descLimit (seg16 type base lim dpl).bits = lim) := by
  refine ⟨?_, fun mem gdtbase ldtr sel d hd hentry hsel hti =>
    getSegBase_global hd hentry hsel hti ldtr,
    fun mem gdtbase ldtbase ldtr sel dl d hl hldtr hd hentry hti =>
    getSegBase_local hl hldtr hd hentry hti,
    fun dpl _ => ⟨descLimit_seg type base lim dpl, fun hlim => descLimit_seg16 hlim type base dpl⟩⟩
  rintro b l rfl rfl
  have hwide : (type.setWidth 64).toNat = type.toNat := by
    rw [BitVec.toNat_setWidth]
    omega
  rw [asmSeg_eq (hwide ▸ htype), BitVec.setWidth_setWidth_of_le _ (by decide),
    BitVec.setWidth_eq]

/-- A data segment as entry 1 of a table at `0x1000`, with a selector of privilege level 3. -/
theorem descriptors_agree_entry :
    getSegBase (fun a => (seg 2#32 0xF0123456#32 0xFFFFFFFF#32 0#32).bytes.getD
      (a - 0x1008#32).toNat 0#8) 0x1000#32 0#16 0xB#16 = (0xF0123456#32, []) := by
  have h := @descriptors_agree 2#32 0xF0123456#32 0xFFFFFFFF#32 (by decide)
  refine h.2.1 _ 0x1000#32 0#16 0xB#16 (seg 2#32 0xF0123456#32 0xFFFFFFFF#32 0#32)
    ⟨2#32, 0xFFFFFFFF#32, 0#32, by decide, by decide, .inl rfl⟩ ?_ (by decide) (by decide)
  unfold EntryIs
  decide

end JosVmx.Hvm
