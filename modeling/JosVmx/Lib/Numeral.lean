import Mathlib.Data.Nat.Digits.Lemmas

/-!
# Numerals

The digits of a number as they are written: the most significant one first, and one digit for
zero. A reader takes them in this order and multiplies what it has by the base.

## Main results

* `numeral_of_le` — the last digit is the remainder, and the rest is the numeral of the quotient
* `value_numeral` — reading a numeral gives the number back
-/

namespace JosVmx.Lib

/-- The digits of `n` to the base `b`. -/
def numeral (b n : ℕ) : List ℕ := if n = 0 then [0] else (Nat.digits b n).reverse

variable {b n : ℕ}

theorem numeral_ne_nil (b n : ℕ) : numeral b n ≠ [] := by
  rw [numeral]
  split_ifs with hn
  · exact List.cons_ne_nil _ _
  · rw [Ne, List.reverse_eq_nil_iff]
    exact Nat.digits_ne_nil_iff_ne_zero.mpr hn

theorem numeral_of_lt (h : n < b) : numeral b n = [n] := by
  rw [numeral]
  split_ifs with hn
  · rw [hn]
  · rw [Nat.digits_of_lt b n hn h, List.reverse_singleton]

theorem numeral_of_le (hb : 1 < b) (h : b ≤ n) :
    numeral b n = numeral b (n / b) ++ [n % b] := by
  have hn : 0 < n := Nat.zero_lt_of_lt (hb.trans_le h)
  have hdiv : n / b ≠ 0 := (Nat.div_pos h (Nat.zero_lt_of_lt hb)).ne'
  rw [numeral, if_neg hn.ne', numeral, if_neg hdiv, Nat.digits_def' hb hn, List.reverse_cons]

theorem lt_of_mem_numeral (hb : 1 < b) {d : ℕ} (hd : d ∈ numeral b n) : d < b := by
  rw [numeral] at hd
  split_ifs at hd
  · rw [List.mem_singleton.mp hd]
    exact Nat.zero_lt_of_lt hb
  · exact Nat.digits_lt_base hb (List.mem_reverse.mp hd)

/-- Only zero starts with the digit zero. -/
theorem exists_numeral_cons (b : ℕ) (hn : n ≠ 0) : ∃ d ds, numeral b n = d :: ds ∧ d ≠ 0 := by
  have hne : Nat.digits b n ≠ [] := Nat.digits_ne_nil_iff_ne_zero.mpr hn
  refine ⟨(Nat.digits b n).getLast hne, (Nat.digits b n).dropLast.reverse, ?_,
    Nat.getLast_digit_ne_zero b hn⟩
  rw [numeral, if_neg hn]
  conv_lhs => rw [← List.dropLast_append_getLast hne]
  rw [List.reverse_append, List.reverse_singleton, List.singleton_append]

theorem length_numeral_le (hb : 1 < b) {k : ℕ} (hk : 0 < k) (h : n < b ^ k) :
    (numeral b n).length ≤ k := by
  rw [numeral]
  split_ifs
  · exact hk
  · rw [List.length_reverse]
    exact (Nat.digits_length_le_iff hb n).mpr h

/-- **A numeral reads as its number.** -/
theorem value_numeral (b n : ℕ) : (numeral b n).foldl (fun v d => v * b + d) 0 = n := by
  rw [numeral]
  split_ifs with hn
  · rw [hn, List.foldl_cons, List.foldl_nil, Nat.zero_mul]
  · rw [List.foldl_reverse]
    conv_rhs => rw [← Nat.ofDigits_digits b n, Nat.ofDigits_eq_foldr]
    congr 1
    funext d v
    rw [Nat.mul_comm, Nat.add_comm, Nat.cast_id]

end JosVmx.Lib
