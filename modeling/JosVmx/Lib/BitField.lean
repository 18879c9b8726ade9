import JosVmx.Lib.ByteMem

/-!
# Bit fields

A C structure of bit fields as a number: the fields lie one after the other, the first one in the
lowest bits. A field is read back from its offset, which is the sum of the widths before it,
whatever the structure is that the reader has declared for the number.

## Main results

* `bitField_pack` — reading a field gives what it was packed with
* `ByteMem.loadNat_bytes` — a number that lies in memory as its bytes
-/

namespace JosVmx.Lib

/-- Bit fields with their widths. -/
abbrev BitFields := List (Σ w : ℕ, BitVec w)

/-- The number of bits of the fields. -/
def bitWidth : BitFields → ℕ
  | [] => 0
  | f :: fs => f.1 + bitWidth fs

/-- The number that the fields make up. -/
def pack : BitFields → ℕ
  | [] => 0
  | f :: fs => f.2.toNat + 2 ^ f.1 * pack fs

/-- The `w` bits of a number from bit `start` on. -/
def bitField (x start w : ℕ) : BitVec w := BitVec.ofNat w (x / 2 ^ start)

theorem getLsbD_bitField (x k w i : ℕ) :
    (bitField x k w).getLsbD i = (decide (i < w) && x.testBit (k + i)) := by
  rw [bitField, BitVec.getLsbD_ofNat, ← Nat.shiftRight_eq_div_pow, Nat.testBit_shiftRight]

/-- Two fields next to each other. -/
theorem bitField_append (x k w v : ℕ) :
    bitField x (k + w) v ++ bitField x k w = bitField x k (v + w) := by
  apply BitVec.eq_of_getLsbD_eq
  intro i hi
  rw [BitVec.getLsbD_append, getLsbD_bitField, getLsbD_bitField, getLsbD_bitField]
  by_cases hlow : i < w
  · simp [hlow, hi]
  · have hhigh : i - w < v := by omega
    have hbit : k + w + (i - w) = k + i := by omega
    simp [hlow, hi, hhigh, hbit]

theorem pack_lt (fs : BitFields) : pack fs < 2 ^ bitWidth fs := by
  induction fs with
  | nil => exact Nat.one_pos
  | cons f fs ih =>
    have hfirst := f.2.isLt
    calc pack (f :: fs) < 2 ^ f.1 + 2 ^ f.1 * pack fs := Nat.add_lt_add_right hfirst _
      _ = 2 ^ f.1 * (pack fs + 1) := by rw [Nat.mul_succ, Nat.add_comm]
      _ ≤ 2 ^ f.1 * 2 ^ bitWidth fs := Nat.mul_le_mul_left _ ih
      _ = 2 ^ bitWidth (f :: fs) := (Nat.pow_add ..).symm

theorem pack_div (fs gs : BitFields) : pack (fs ++ gs) / 2 ^ bitWidth fs = pack gs := by
  induction fs with
  | nil => exact Nat.div_one _
  | cons f fs ih =>
    rw [List.cons_append, pack, bitWidth, Nat.pow_add, ← Nat.div_div_eq_div_mul,
      Nat.add_mul_div_left _ _ (Nat.two_pow_pos _), Nat.div_eq_of_lt f.2.isLt, Nat.zero_add, ih]

/-- Reading some of the fields at once. -/
theorem pack_div_mod (fs gs hs : BitFields) :
    pack (fs ++ (gs ++ hs)) / 2 ^ bitWidth fs % 2 ^ bitWidth gs = pack gs := by
  rw [pack_div]
  induction gs with
  | nil => exact Nat.mod_one _
  | cons g gs ih =>
    rw [List.cons_append, pack, pack, bitWidth, Nat.pow_add, Nat.mod_mul,
      Nat.add_mul_mod_self_left, Nat.mod_eq_of_lt g.2.isLt,
      Nat.add_mul_div_left _ _ (Nat.two_pow_pos _), Nat.div_eq_of_lt g.2.isLt, Nat.zero_add, ih]

/-- Reading a field. -/
theorem bitField_pack (fs gs : BitFields) {w : ℕ} (v : BitVec w) :
    bitField (pack (fs ++ ⟨w, v⟩ :: gs)) (bitWidth fs) w = v := by
  rw [bitField, pack_div, pack]
  apply BitVec.eq_of_toNat_eq
  rw [BitVec.toNat_ofNat, Nat.add_mul_mod_self_left, Nat.mod_eq_of_lt v.isLt]

/-- The bytes of a number in memory. -/
theorem ByteMem.loadNat_bytes {w n x : ℕ} {m : ByteMem w} {a : BitVec w}
    (h : ∀ i < n, m (a + BitVec.ofNat w i) = bitField x (8 * i) 8) :
    m.loadNat a n = x % 2 ^ (8 * n) := by
  induction n generalizing a x with
  | zero => exact (Nat.mod_one x).symm
  | succ n ih =>
    have hhead := h 0 n.succ_pos
    rw [BitVec.add_zero, bitField, Nat.mul_zero, Nat.pow_zero, Nat.div_one] at hhead
    have htail : m.loadNat (a + 1#w) n = x / 2 ^ 8 % 2 ^ (8 * n) := by
      refine ih fun i hi => ?_
      have hnext := h (i + 1) (Nat.succ_lt_succ hi)
      rw [BitVec.ofNat_add, BitVec.add_comm (BitVec.ofNat w i), ← BitVec.add_assoc] at hnext
      rw [hnext, bitField, bitField, Nat.div_div_eq_div_mul, ← Nat.pow_add, Nat.mul_succ,
        Nat.add_comm 8]
    rw [ByteMem.loadNat, hhead, htail, BitVec.toNat_ofNat, Nat.mul_succ, Nat.add_comm (8 * n),
      Nat.pow_add]
    exact Nat.mod_mul.symm

end JosVmx.Lib
