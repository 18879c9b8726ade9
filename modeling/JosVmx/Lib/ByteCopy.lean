import JosVmx.Lib.ByteMem

/-!
# Copying bytes one after the other

A copy of `n` bytes from `s` to `d` that reads a byte and writes it before it reads the next. The
ranges may overlap. A copy from the first byte to the last is right unless `d` lies inside the
source range, and one from the last byte to the first unless `s` lies inside the destination range:
these are the cases in which a byte is overwritten before it is read. Addresses wrap around.

## Main results

* `copyUp_eq`, `copyDown_eq` — the memory after the copy
-/

namespace JosVmx.Lib.ByteMem

variable {w : ℕ}

/-- Copy `n` bytes, the first one first. -/
def copyUp : BitVec w → BitVec w → ℕ → ByteMem w → ByteMem w
  | _, _, 0, m => m
  | d, s, n + 1, m => copyUp (d + 1#w) (s + 1#w) n (Function.update m d (m s))

/-- Copy the `n` bytes in front of `s` to those in front of `d`, the last one first. -/
def copyDown : BitVec w → BitVec w → ℕ → ByteMem w → ByteMem w
  | _, _, 0, m => m
  | d, s, n + 1, m =>
    copyDown (d - 1#w) (s - 1#w) n (Function.update m (d - 1#w) (m (s - 1#w)))

/-- The memory with the `n` bytes from `s` on also from `d` on. -/
def copied (d s : BitVec w) (n : ℕ) (m : ByteMem w) : ByteMem w := fun x =>
  if (x - d).toNat < n then m (s + (x - d)) else m x

variable {d s x : BitVec w} {n : ℕ} {m : ByteMem w}

theorem copied_of_le (h : n ≤ (x - d).toNat) : copied d s n m x = m x :=
  if_neg (Nat.not_lt.mpr h)

/-- The `k`-th byte of the copy. -/
theorem copied_get {k : ℕ} (hk : k < n) (hn : n ≤ 2 ^ w) :
    copied d s n m (d + BitVec.ofNat w k) = m (s + BitVec.ofNat w k) := by
  have hsub : d + BitVec.ofNat w k - d = BitVec.ofNat w k := by
    rw [BitVec.add_comm, BitVec.add_sub_cancel]
  rw [copied, toNat_add_ofNat_sub (hk.trans_le hn), if_pos hk, hsub]

/-! ### From the first byte to the last -/

theorem sub_add_one (x d : BitVec w) : x - (d + 1#w) = x - d - 1#w := by grind

theorem toNat_sub_pos (hne : x ≠ d) : 0 < (x - d).toNat := by
  rw [Nat.pos_iff_ne_zero]
  intro hzero
  have hsub : x - d = 0#w := BitVec.eq_of_toNat_eq (by simpa using hzero)
  exact hne (by grind)

theorem toNat_sub_add_one (hne : x ≠ d) : (x - d).toNat = (x - (d + 1#w)).toNat + 1 := by
  have hpos := toNat_sub_pos hne
  have hlt := (x - d).isLt
  have hone : (1#w).toNat = 1 := by
    rw [BitVec.toNat_ofNat, Nat.mod_eq_of_lt (by omega)]
  have hle : 1#w ≤ x - d := by
    rw [BitVec.le_def, hone]
    exact hpos
  rw [sub_add_one, BitVec.toNat_sub_of_le hle, hone, Nat.sub_add_cancel hpos]

theorem toNat_sub_add_one_self : (d - (d + 1#w)).toNat = 2 ^ w - 1 := by
  rw [sub_add_one, BitVec.sub_self, BitVec.zero_sub, BitVec.neg_one_eq_allOnes,
    BitVec.toNat_allOnes]

/-- **Copying upwards.** It is right when the destination does not start inside the source. -/
theorem copyUp_eq (h : d = s ∨ n ≤ (d - s).toNat) (hn : n ≤ 2 ^ w) :
    copyUp d s n m = copied d s n m := by
  induction n generalizing d s m with
  | zero =>
    funext x
    rw [copyUp, copied_of_le (Nat.zero_le _)]
  | succ n ih =>
    have hnext : d + 1#w = s + 1#w ∨ n ≤ (d + 1#w - (s + 1#w)).toNat := by
      refine h.imp (fun heq => by rw [heq]) fun hle => ?_
      have hsub : d + 1#w - (s + 1#w) = d - s := by grind
      rw [hsub]
      exact n.le_succ.trans hle
    rw [copyUp, ih hnext (by omega)]
    funext x
    by_cases hx : x = d
    · -- the byte that this round has written
      subst hx
      have hself := toNat_sub_add_one_self (d := x)
      rw [copied_of_le (by omega), Function.update_self, copied, BitVec.sub_self,
        if_pos (by simp), BitVec.add_zero]
    · have hdist := toNat_sub_add_one hx
      have hshift : s + 1#w + (x - (d + 1#w)) = s + (x - d) := by grind
      by_cases hin : (x - d).toNat < n + 1
      · have hsrc : s + (x - d) ≠ d := by
          intro heq
          have hds : d - s = x - d := by grind
          rcases h with rfl | hle
          · exact hx (by grind)
          · rw [hds] at hle
            omega
        rw [copied, if_pos (by omega), hshift, Function.update_of_ne hsrc, copied, if_pos hin]
      · rw [copied_of_le (by omega), Function.update_of_ne hx, copied_of_le (by omega)]

/-! ### From the last byte to the first -/

/-- **Copying downwards.** It is right when the source does not start inside the destination. -/
theorem copyDown_eq (h : d = s ∨ n ≤ (s - d).toNat) (hn : n ≤ 2 ^ w) :
    copyDown (d + BitVec.ofNat w n) (s + BitVec.ofNat w n) n m = copied d s n m := by
  induction n generalizing m with
  | zero =>
    funext x
    rw [copyDown, copied_of_le (Nat.zero_le _)]
  | succ n ih =>
    have hstep (a : BitVec w) : a + BitVec.ofNat w (n + 1) - 1#w = a + BitVec.ofNat w n := by
      rw [BitVec.ofNat_add, ← BitVec.add_assoc, BitVec.add_sub_cancel]
    rw [copyDown, hstep, hstep, ih (h.imp_right n.le_succ.trans) (by omega)]
    funext x
    by_cases hx : x = d + BitVec.ofNat w n
    · -- the byte that this round has written
      subst hx
      rw [copied_get n.lt_succ_self hn, copied_of_le, Function.update_self]
      rw [toNat_add_ofNat_sub (by omega)]
    · by_cases hin : (x - d).toNat < n
      · have hsrc : s + (x - d) ≠ d + BitVec.ofNat w n := by
          intro heq
          have hsd : s - d = BitVec.ofNat w n - (x - d) := by grind
          rcases h with rfl | hle
          · exact hx (by grind)
          · have hnat : (BitVec.ofNat w n).toNat = n := by
              rw [BitVec.toNat_ofNat, Nat.mod_eq_of_lt (by omega)]
            rw [hsd, BitVec.toNat_sub_of_le (by rw [BitVec.le_def, hnat]; exact hin.le),
              hnat] at hle
            omega
        rw [copied, if_pos hin, Function.update_of_ne hsrc, copied, if_pos (by omega)]
      · have hdist : (x - d).toNat ≠ n := by
          rintro rfl
          rw [BitVec.ofNat_toNat, BitVec.setWidth_eq] at hx
          exact hx (by grind)
        rw [copied_of_le (by omega), Function.update_of_ne hx, copied_of_le (by omega)]

end JosVmx.Lib.ByteMem
