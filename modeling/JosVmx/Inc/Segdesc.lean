import JosVmx.Inc.Mmu
import JosVmx.Lib.BitField

/-!
# Segment descriptors

Segment descriptors as `inc/mmu.h` builds them: `SEG` and `SEG16` of C, which fill a structure of
bit fields, and `SEG` of the assembler, which writes the eight bytes. The assembler computes with
64-bit numbers; a constant of 32 bits may stand there sign-extended or not.

## Main results

* `asmSeg_eq` — the assembler and C denote the same bytes
* `descLimit_seg`, `descLimit_seg16` — the limit that the processor decodes
-/

namespace JosVmx

open Lib

/-! ### The macros -/

/-- `struct Segdesc`. -/
structure Segdesc where
  sdLim150 : BitVec 16
  sdBase150 : BitVec 16
  sdBase2316 : BitVec 8
  sdType : BitVec 4
  sdS : BitVec 1
  sdDpl : BitVec 2
  sdP : BitVec 1
  sdLim1916 : BitVec 4
  sdAvl : BitVec 1
  sdRsv1 : BitVec 1
  sdDb : BitVec 1
  sdG : BitVec 1
  sdBase3124 : BitVec 8
  deriving DecidableEq, Repr

namespace Segdesc

/-- The bit fields in their order. -/
def fields (d : Segdesc) : BitFields :=
  [⟨16, d.sdLim150⟩, ⟨16, d.sdBase150⟩, ⟨8, d.sdBase2316⟩, ⟨4, d.sdType⟩, ⟨1, d.sdS⟩,
    ⟨2, d.sdDpl⟩, ⟨1, d.sdP⟩, ⟨4, d.sdLim1916⟩, ⟨1, d.sdAvl⟩, ⟨1, d.sdRsv1⟩, ⟨1, d.sdDb⟩,
    ⟨1, d.sdG⟩, ⟨8, d.sdBase3124⟩]

/-- The descriptor as a 64-bit number. -/
def bits (d : Segdesc) : ℕ := pack d.fields

/-- The eight bytes of the descriptor. -/
def bytes (d : Segdesc) : List (BitVec 8) := (List.range 8).map fun i => bitField d.bits (8 * i) 8

end Segdesc

/-- `SEG` of C. -/
def seg (type base lim dpl : Word) : Segdesc where
  sdLim150 := ((lim >>> 12) &&& 0xFFFF#32).setWidth 16
  sdBase150 := (base &&& 0xFFFF#32).setWidth 16
  sdBase2316 := ((base >>> 16) &&& 0xFF#32).setWidth 8
  sdType := type.setWidth 4
  sdS := 1#1
  sdDpl := dpl.setWidth 2
  sdP := 1#1
  sdLim1916 := (lim >>> 28).setWidth 4
  sdAvl := 0#1
  sdRsv1 := 0#1
  sdDb := 1#1
  sdG := 1#1
  sdBase3124 := (base >>> 24).setWidth 8

/-- `SEG16`. -/
def seg16 (type base lim dpl : Word) : Segdesc where
  sdLim150 := (lim &&& 0xFFFF#32).setWidth 16
  sdBase150 := (base &&& 0xFFFF#32).setWidth 16
  sdBase2316 := ((base >>> 16) &&& 0xFF#32).setWidth 8
  sdType := type.setWidth 4
  sdS := 1#1
  sdDpl := dpl.setWidth 2
  sdP := 1#1
  sdLim1916 := (lim >>> 16).setWidth 4
  sdAvl := 0#1
  sdRsv1 := 0#1
  sdDb := 1#1
  sdG := 0#1
  sdBase3124 := (base >>> 24).setWidth 8

/-- The bytes of `.word v`. -/
def asmWord (v : BitVec 64) : List (BitVec 8) := [v.setWidth 8, (v >>> 8).setWidth 8]

/-- The byte of `.byte v`. -/
def asmByte (v : BitVec 64) : List (BitVec 8) := [v.setWidth 8]

/-- `SEG` of the assembler, whose `>>` keeps the sign. -/
def asmSeg (type base lim : BitVec 64) : List (BitVec 8) :=
  asmWord (lim.sshiftRight 12 &&& 0xFFFF#64) ++ asmWord (base &&& 0xFFFF#64) ++
    asmByte (base.sshiftRight 16 &&& 0xFF#64) ++ asmByte (0x90#64 ||| type) ++
    asmByte (0xC0#64 ||| (lim.sshiftRight 28 &&& 0xF#64)) ++
    asmByte (base.sshiftRight 24 &&& 0xFF#64)

/-- The limit that the processor takes from a descriptor: bits 0 to 15 and 48 to 51, counted in
pages if bit 55 is set. -/
def descLimit (x : ℕ) : Word :=
  let limit := (bitField x 48 4 ++ bitField x 0 16).setWidth 32
  if bitField x 55 1 = 1#1 then limit <<< 12 ||| 0xFFF#32 else limit

/-! ### The bytes -/

theorem setWidth_ushiftRight (x : Word) (k n : ℕ) :
    (x >>> k).setWidth n = bitField x.toNat k n := by
  apply BitVec.eq_of_toNat_eq
  rw [BitVec.toNat_setWidth, BitVec.toNat_ushiftRight, Nat.shiftRight_eq_div_pow, bitField,
    BitVec.toNat_ofNat]

/-- A mask does nothing in front of a field that is no longer. -/
theorem setWidth_and_mask (x : Word) {n : ℕ} (hn : n < 32) :
    (x &&& BitVec.ofNat 32 (2 ^ n - 1)).setWidth n = x.setWidth n := by
  have hpow : 2 ^ n < 2 ^ 32 := Nat.pow_lt_pow_right (by decide) hn
  apply BitVec.eq_of_toNat_eq
  rw [BitVec.toNat_setWidth, BitVec.toNat_and, BitVec.toNat_ofNat,
    Nat.mod_eq_of_lt (show 2 ^ n - 1 < 2 ^ 32 by omega), Nat.and_two_pow_sub_one_eq_mod,
    Nat.mod_mod, BitVec.toNat_setWidth]

/-- The bits of a constant behind an arithmetic shift. -/
theorem toNat_sshiftRight_mask (x : BitVec 64) {k n : ℕ} (h : k + n < 64) :
    (x.sshiftRight k &&& BitVec.ofNat 64 (2 ^ n - 1)).toNat = x.toNat / 2 ^ k % 2 ^ n := by
  have hpow : 2 ^ n < 2 ^ 64 := Nat.pow_lt_pow_right (by decide) (by omega)
  have hshift : x.sshiftRight k &&& BitVec.ofNat 64 (2 ^ n - 1) =
      (x >>> k) &&& BitVec.ofNat 64 (2 ^ n - 1) := by
    apply BitVec.eq_of_getLsbD_eq
    intro i hi
    rw [BitVec.getLsbD_and, BitVec.getLsbD_and, BitVec.getLsbD_sshiftRight,
      BitVec.getLsbD_ushiftRight]
    by_cases hin : i < n
    · -- a bit of the field is one of the constant
      have hlt : k + i < 64 := by omega
      rw [if_pos hlt, decide_eq_false (Nat.not_le.mpr hi), Bool.not_false, Bool.true_and]
    · have hzero : (BitVec.ofNat 64 (2 ^ n - 1)).getLsbD i = false := by
        rw [BitVec.getLsbD_ofNat, Nat.testBit_two_pow_sub_one]
        simp [hin]
      rw [hzero, Bool.and_false, Bool.and_false]
  rw [hshift, BitVec.toNat_and, BitVec.toNat_ushiftRight, Nat.shiftRight_eq_div_pow,
    BitVec.toNat_ofNat, Nat.mod_eq_of_lt (show 2 ^ n - 1 < 2 ^ 64 by omega),
    Nat.and_two_pow_sub_one_eq_mod]

theorem toNat_bitField (x k n : ℕ) : (bitField x k n).toNat = x / 2 ^ k % 2 ^ n :=
  BitVec.toNat_ofNat ..

theorem setWidth_and_mask16 (x : Word) : (x &&& 0xFFFF#32).setWidth 16 = x.setWidth 16 :=
  setWidth_and_mask x (n := 16) (by decide)

theorem setWidth_and_mask8 (x : Word) : (x &&& 0xFF#32).setWidth 8 = x.setWidth 8 :=
  setWidth_and_mask x (n := 8) (by decide)

/-- The fields of a descriptor from `SEG`. -/
theorem seg_eq (type base lim dpl : Word) :
    seg type base lim dpl = ⟨bitField lim.toNat 12 16, bitField base.toNat 0 16,
      bitField base.toNat 16 8, type.setWidth 4, 1#1, dpl.setWidth 2, 1#1,
      bitField lim.toNat 28 4, 0#1, 0#1, 1#1, 1#1, bitField base.toNat 24 8⟩ := by
  have hbase := setWidth_ushiftRight base 0 16
  rw [BitVec.ushiftRight_zero] at hbase
  rw [seg, setWidth_and_mask16, setWidth_and_mask16, setWidth_and_mask8, hbase]
  simp only [setWidth_ushiftRight]

/-- The fields of a descriptor from `SEG16`. -/
theorem seg16_eq (type base lim dpl : Word) :
    seg16 type base lim dpl = ⟨bitField lim.toNat 0 16, bitField base.toNat 0 16,
      bitField base.toNat 16 8, type.setWidth 4, 1#1, dpl.setWidth 2, 1#1,
      bitField lim.toNat 16 4, 0#1, 0#1, 1#1, 0#1, bitField base.toNat 24 8⟩ := by
  have hlow (x : Word) := setWidth_ushiftRight x 0 16
  simp only [BitVec.ushiftRight_zero] at hlow
  rw [seg16, setWidth_and_mask16, setWidth_and_mask16, setWidth_and_mask8, hlow, hlow]
  simp only [setWidth_ushiftRight]

theorem toNat_highBits (high : ℕ) {x : BitVec 64} (hx : x.toNat < 16)
    (hhigh : 16 * high < 2 ^ 64) :
    (BitVec.ofNat 64 (16 * high) ||| x).toNat = 16 * high + x.toNat := by
  rw [BitVec.toNat_or, BitVec.toNat_ofNat, Nat.mod_eq_of_lt hhigh]
  exact (Nat.two_pow_add_eq_or_of_lt (i := 4) hx high).symm

/-- Reading the `n`-th field. -/
theorem Segdesc.bitField_fields (d : Segdesc) (n : ℕ) {w start : ℕ} {v : BitVec w}
    (hstart : bitWidth (d.fields.take n) = start)
    (h : d.fields.drop n = ⟨w, v⟩ :: d.fields.drop (n + 1)) : bitField d.bits start w = v := by
  have hpack := bitField_pack (d.fields.take n) (d.fields.drop (n + 1)) v
  rwa [← h, List.take_append_drop, hstart] at hpack

/-- The bytes of a descriptor, with the small fields that share one. -/
theorem Segdesc.bytes_eq (d : Segdesc) :
    d.bytes = [d.sdLim150.setWidth 8, (d.sdLim150 >>> 8).setWidth 8, d.sdBase150.setWidth 8,
      (d.sdBase150 >>> 8).setWidth 8, d.sdBase2316,
      BitVec.ofNat 8 (pack [⟨4, d.sdType⟩, ⟨1, d.sdS⟩, ⟨2, d.sdDpl⟩, ⟨1, d.sdP⟩]),
      BitVec.ofNat 8 (pack [⟨4, d.sdLim1916⟩, ⟨1, d.sdAvl⟩, ⟨1, d.sdRsv1⟩, ⟨1, d.sdDb⟩,
        ⟨1, d.sdG⟩]), d.sdBase3124] := by
  have hlim : bitField d.bits 0 16 = d.sdLim150 := d.bitField_fields 0 rfl rfl
  have hbase : bitField d.bits 16 16 = d.sdBase150 := d.bitField_fields 1 rfl rfl
  have hbase2316 : bitField d.bits 32 8 = d.sdBase2316 := d.bitField_fields 2 rfl rfl
  have hbase3124 : bitField d.bits 56 8 = d.sdBase3124 :=
    d.bitField_fields 12 (by simp [fields, bitWidth]) rfl
  have haccess : d.bits / 2 ^ 40 % 2 ^ 8 = _ :=
    pack_div_mod (d.fields.take 3) [⟨4, d.sdType⟩, ⟨1, d.sdS⟩, ⟨2, d.sdDpl⟩, ⟨1, d.sdP⟩]
      (d.fields.drop 7)
  have hflags : d.bits / 2 ^ 48 % 2 ^ 8 = _ :=
    pack_div_mod (d.fields.take 7) [⟨4, d.sdLim1916⟩, ⟨1, d.sdAvl⟩, ⟨1, d.sdRsv1⟩, ⟨1, d.sdDb⟩,
      ⟨1, d.sdG⟩] (d.fields.drop 12)
  rw [← hlim, ← hbase, ← hbase2316, ← hbase3124, ← haccess, ← hflags]
  simp only [Segdesc.bytes, List.range, List.range.loop, List.map, List.cons.injEq, and_true]
  refine ⟨?_, ?_, ?_, ?_, trivial, ?_, ?_⟩ <;> apply BitVec.eq_of_toNat_eq <;>
    simp only [toNat_bitField, BitVec.toNat_setWidth, BitVec.toNat_ushiftRight, BitVec.toNat_ofNat,
      Nat.shiftRight_eq_div_pow] <;> omega

/-- **The assembler and C agree** on the bytes of `SEG`. -/
theorem asmSeg_eq {type base lim : BitVec 64} (htype : type.toNat < 16) :
    asmSeg type base lim =
      (seg (type.setWidth 32) (base.setWidth 32) (lim.setWidth 32) 0#32).bytes := by
  have hlim12 : (lim.sshiftRight 12 &&& 0xFFFF#64).toNat = lim.toNat / 2 ^ 12 % 2 ^ 16 :=
    toNat_sshiftRight_mask lim (n := 16) (by decide)
  have hlim28 : (lim.sshiftRight 28 &&& 0xF#64).toNat = lim.toNat / 2 ^ 28 % 2 ^ 4 :=
    toNat_sshiftRight_mask lim (n := 4) (by decide)
  have hbase0 : (base &&& 0xFFFF#64).toNat = base.toNat / 2 ^ 0 % 2 ^ 16 := by
    have hmask := toNat_sshiftRight_mask base (k := 0) (n := 16) (by decide)
    rwa [BitVec.sshiftRight_zero] at hmask
  have hbase16 : (base.sshiftRight 16 &&& 0xFF#64).toNat = base.toNat / 2 ^ 16 % 2 ^ 8 :=
    toNat_sshiftRight_mask base (n := 8) (by decide)
  have hbase24 : (base.sshiftRight 24 &&& 0xFF#64).toNat = base.toNat / 2 ^ 24 % 2 ^ 8 :=
    toNat_sshiftRight_mask base (n := 8) (by decide)
  have haccess : (0x90#64 ||| type).toNat = 0x90 + type.toNat :=
    toNat_highBits 9 htype (by decide)
  have hflags : (0xC0#64 ||| (lim.sshiftRight 28 &&& 0xF#64)).toNat =
      0xC0 + lim.toNat / 2 ^ 28 % 2 ^ 4 := by
    rw [← hlim28]
    exact toNat_highBits 12 (by omega) (by decide)
  rw [Segdesc.bytes_eq, seg_eq]
  simp only [asmSeg, asmWord, asmByte, List.cons_append, List.nil_append, List.cons.injEq, and_true]
  refine ⟨?_, ?_, ?_, ?_, ?_, ?_, ?_, ?_⟩ <;> apply BitVec.eq_of_toNat_eq <;>
    simp only [toNat_bitField, BitVec.toNat_setWidth, BitVec.toNat_ushiftRight, BitVec.toNat_ofNat,
      Nat.shiftRight_eq_div_pow, pack, hlim12, hbase0, hbase16, hbase24, haccess, hflags] <;> omega

/-! ### The limit and the base -/

theorem Segdesc.limit_eq (d : Segdesc) :
    descLimit d.bits = if d.sdG = 1#1 then
      (d.sdLim1916 ++ d.sdLim150).setWidth 32 <<< 12 ||| 0xFFF#32
    else (d.sdLim1916 ++ d.sdLim150).setWidth 32 := by
  have hlow : bitField d.bits 0 16 = d.sdLim150 := d.bitField_fields 0 rfl rfl
  have hhigh : bitField d.bits 48 4 = d.sdLim1916 := d.bitField_fields 7 rfl rfl
  have hg : bitField d.bits 55 1 = d.sdG := d.bitField_fields 11 rfl rfl
  rw [descLimit, hlow, hhigh, hg]

theorem descLimit_seg (type base lim dpl : Word) :
    descLimit (seg type base lim dpl).bits = lim ||| 0xFFF#32 := by
  have hpages : (bitField lim.toNat 12 20).setWidth 32 = lim >>> 12 := by
    apply BitVec.eq_of_toNat_eq
    rw [BitVec.toNat_setWidth, toNat_bitField, BitVec.toNat_ushiftRight, Nat.shiftRight_eq_div_pow]
    omega
  rw [Segdesc.limit_eq, seg_eq]
  simp only [bitField_append lim.toNat 12 16 4, if_pos, hpages]
  apply BitVec.eq_of_getLsbD_eq
  intro i hi
  interval_cases i <;> simp

theorem descLimit_seg16 {lim : Word} (hlim : lim.toNat < 2 ^ 20) (type base dpl : Word) :
    descLimit (seg16 type base lim dpl).bits = lim := by
  rw [Segdesc.limit_eq, seg16_eq]
  simp only [bitField_append lim.toNat 0 16 4]
  apply BitVec.eq_of_toNat_eq
  rw [if_neg (by decide), BitVec.toNat_setWidth, toNat_bitField]
  omega

/-- The three parts of an address. -/
theorem base_parts (base : Word) :
    (bitField base.toNat 24 8).setWidth 32 <<< 24 |||
      (bitField base.toNat 16 8).setWidth 32 <<< 16 |||
      (bitField base.toNat 0 16).setWidth 32 = base := by
  apply BitVec.eq_of_getLsbD_eq
  intro i hi
  simp only [BitVec.getLsbD_or, BitVec.getLsbD_shiftLeft, BitVec.getLsbD_setWidth,
    getLsbD_bitField, BitVec.testBit_toNat]
  interval_cases i <;> simp

end JosVmx
