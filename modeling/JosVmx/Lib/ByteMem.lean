import Mathlib.Data.Nat.Basic
import Mathlib.Data.List.Basic
import Mathlib.Data.List.GetD
import Mathlib.Tactic.Ring

/-!
# Words in byte-addressed memory

Little-endian words of `w` bits in a memory of bytes with `w`-bit addresses, for any `w`
that is a multiple of eight. Addresses wrap around.

`Holds m a ws` says that the words `ws` lie in memory from address `a` on. It is all that a
proof about a stack or a record needs: pushing a word puts it in front, popping drops it,
storing to a field replaces it, and a store elsewhere does no harm.

## Main results

* `load_store_same`, `load_store_of_apart` — a load after a store
* `Holds.push`, `Holds.set`, `Holds.store_of_apart` — the rules for stored words
* `storeBytes_concat` — storing bytes one after the other
-/

namespace JosVmx.Lib

variable {w : ℕ}

/-- A memory of bytes with `w`-bit addresses. -/
abbrev ByteMem (w : ℕ) := BitVec w → BitVec 8

/-- The distance between consecutive words. -/
def wordSize (w : ℕ) : BitVec w := BitVec.ofNat w (w / 8)

namespace ByteMem

/-- The `n` bytes from address `a` as a little-endian number. -/
def loadNat (m : ByteMem w) (a : BitVec w) : ℕ → ℕ
  | 0 => 0
  | n + 1 => (m a).toNat + 256 * loadNat m (a + 1#w) n

/-- The word at address `a`. -/
def load (m : ByteMem w) (a : BitVec w) : BitVec w := BitVec.ofNat w (m.loadNat a (w / 8))

/-- Store a word at address `a`. -/
def store (m : ByteMem w) (a v : BitVec w) : ByteMem w := fun x =>
  if (x - a).toNat < w / 8 then BitVec.ofNat 8 (v.toNat / 256 ^ (x - a).toNat) else m x

/-- The words `ws` are in memory from address `a` on. -/
def Holds (m : ByteMem w) (a : BitVec w) : List (BitVec w) → Prop
  | [] => True
  | v :: vs => m.load a = v ∧ Holds m (a + wordSize w) vs

end ByteMem

/-- The `n` bytes from `a` and the `k` bytes from `b` do not overlap. -/
def Apart (a : BitVec w) (n : ℕ) (b : BitVec w) (k : ℕ) : Prop :=
  n ≤ (b - a).toNat ∧ k ≤ (a - b).toNat

instance (a : BitVec w) (n : ℕ) (b : BitVec w) (k : ℕ) : Decidable (Apart a n b k) :=
  inferInstanceAs (Decidable (_ ∧ _))

theorem Apart.symm {a b : BitVec w} {n k : ℕ} (h : Apart a n b k) : Apart b k a n := ⟨h.2, h.1⟩

theorem Apart.mono {a b : BitVec w} {n k n' k' : ℕ} (h : Apart a n b k) (hn : n' ≤ n)
    (hk : k' ≤ k) :
    Apart a n' b k' := ⟨hn.trans h.1, hk.trans h.2⟩

theorem sub_eq_neg_sub (a b : BitVec w) : a - b = -(b - a) := by
  rw [BitVec.neg_sub, BitVec.add_comm, ← BitVec.sub_eq_add_neg]

/-- A distance grows with its end, as long as it does not wrap around. -/
theorem toNat_add_sub {a b : BitVec w} {i : ℕ} (hi : 0 < (a - b).toNat → i < (a - b).toNat)
    (hlt : i < 2 ^ w) : (b + BitVec.ofNat w i - a).toNat = (b - a).toNat + i := by
  have hd := (b - a).isLt
  have hneg : (a - b).toNat = (2 ^ w - (b - a).toNat) % 2 ^ w := by
    rw [sub_eq_neg_sub a b, BitVec.toNat_neg]
  have hsum : b + BitVec.ofNat w i - a = b - a + BitVec.ofNat w i := by
    rw [BitVec.sub_eq_add_neg, BitVec.sub_eq_add_neg, BitVec.add_assoc, BitVec.add_assoc,
      BitVec.add_comm (BitVec.ofNat w i)]
  rw [hsum, BitVec.toNat_add, BitVec.toNat_ofNat, Nat.mod_eq_of_lt hlt]
  rcases Nat.eq_zero_or_pos (b - a).toNat with hzero | hpos
  · rw [hzero, Nat.zero_add, Nat.mod_eq_of_lt hlt]
  · rw [Nat.mod_eq_of_lt (by omega)] at hneg
    exact Nat.mod_eq_of_lt (by omega)

/-- A part of a range. -/
theorem Apart.within {a b : BitVec w} {n k i n' : ℕ} (h : Apart a n b k) (hi : i + n' ≤ n)
    (hpos : 0 < n') : Apart (a + BitVec.ofNat w i) n' b k := by
  obtain ⟨hlow, hhigh⟩ := h
  have hlt := (b - a).isLt
  have hval : (BitVec.ofNat w i).toNat = i := by
    rw [BitVec.toNat_ofNat, Nat.mod_eq_of_lt (by omega)]
  have hsub : b - (a + BitVec.ofNat w i) = b - a - BitVec.ofNat w i := (BitVec.sub_sub ..).symm
  refine ⟨?_, ?_⟩
  · rw [hsub, BitVec.toNat_sub_of_le (by rw [BitVec.le_def, hval]; omega), hval]
    omega
  · rw [toNat_add_sub (fun _ => by omega) (by omega)]
    omega

namespace ByteMem

variable {m m' : ByteMem w} {a b v : BitVec w} {n : ℕ}

/-- The same bytes from another address on. -/
theorem loadNat_shift (h : ∀ i < n, m' (b + BitVec.ofNat w i) = m (a + BitVec.ofNat w i)) :
    m'.loadNat b n = m.loadNat a n := by
  induction n generalizing a b with
  | zero => rfl
  | succ n ih =>
    have hhead := h 0 (Nat.succ_pos n)
    rw [BitVec.add_zero, BitVec.add_zero] at hhead
    rw [loadNat, loadNat, hhead, ih fun i hi => ?_]
    have htail := h (i + 1) (Nat.succ_lt_succ hi)
    rwa [BitVec.ofNat_add, BitVec.add_comm (BitVec.ofNat w i), ← BitVec.add_assoc,
      ← BitVec.add_assoc] at htail

theorem load_shift (h : ∀ i < w / 8, m' (b + BitVec.ofNat w i) = m (a + BitVec.ofNat w i)) :
    m'.load b = m.load a := by
  rw [load, load, loadNat_shift h]

/-- A load only depends on the bytes of its word. -/
theorem load_congr (h : ∀ i < w / 8, m' (a + BitVec.ofNat w i) = m (a + BitVec.ofNat w i)) :
    m'.load a = m.load a := load_shift h

/-- The bytes that a store has left from its `k`-th on. -/
theorem loadNat_store {k : ℕ} (hk : k + n ≤ w / 8) :
    (m.store a v).loadNat (a + BitVec.ofNat w k) n = v.toNat / 256 ^ k % 256 ^ n := by
  induction n generalizing k with
  | zero => rw [loadNat, Nat.pow_zero, Nat.mod_one]
  | succ n ih =>
    have hw : k < 2 ^ w := by
      have hlt := @Nat.lt_two_pow_self w
      omega
    have hdist : (a + BitVec.ofNat w k - a).toNat = k := by
      rw [BitVec.add_comm, BitVec.add_sub_cancel, BitVec.toNat_ofNat, Nat.mod_eq_of_lt hw]
    have hbyte : (m.store a v) (a + BitVec.ofNat w k) = BitVec.ofNat 8 (v.toNat / 256 ^ k) := by
      rw [store, hdist, if_pos (by omega)]
    have hnext : a + BitVec.ofNat w k + 1#w = a + BitVec.ofNat w (k + 1) := by
      rw [BitVec.ofNat_add, BitVec.add_assoc]
    have hmod : v.toNat / 256 ^ k % 256 ^ (n + 1) =
        v.toNat / 256 ^ k % 256 + 256 * (v.toNat / 256 ^ k / 256 % 256 ^ n) := by
      rw [Nat.pow_succ', Nat.mod_mul]
    rw [loadNat, hbyte, hnext, ih (by omega), BitVec.toNat_ofNat, hmod, Nat.div_div_eq_div_mul,
      ← Nat.pow_succ]

theorem load_store_same (hw : 8 ∣ w) : (m.store a v).load a = v := by
  have hstore := loadNat_store (m := m) (a := a) (v := v) (n := w / 8) (k := 0) (by omega)
  have hpow : 256 ^ (w / 8) = 2 ^ w := by
    rw [show 256 = 2 ^ 8 from rfl, ← Nat.pow_mul, Nat.mul_div_cancel' hw]
  rw [BitVec.add_zero, Nat.pow_zero, Nat.div_one, hpow, Nat.mod_eq_of_lt v.isLt] at hstore
  rw [load, hstore, BitVec.ofNat_toNat, BitVec.setWidth_eq]

theorem store_of_apart {x : BitVec w} (h : w / 8 ≤ (x - a).toNat) : m.store a v x = m x := by
  rw [store, if_neg (Nat.not_lt.mpr h)]

theorem load_store_of_apart (h : Apart a (w / 8) b (w / 8)) :
    (m.store a v).load b = m.load b := by
  refine load_congr fun i hi => store_of_apart ?_
  have hlt : i < 2 ^ w := by
    have hlt := @Nat.lt_two_pow_self w
    omega
  rw [toNat_add_sub (fun _ => Nat.lt_of_lt_of_le hi h.2) hlt]
  exact h.1.trans (Nat.le_add_right ..)

/-! ### Consecutive words -/

variable {vs : List (BitVec w)}

/-- Stored words only depend on their bytes. -/
theorem Holds.congr (h : m.Holds a vs)
    (hm : ∀ i < w / 8 * vs.length, m' (a + BitVec.ofNat w i) = m (a + BitVec.ofNat w i)) :
    m'.Holds a vs := by
  induction vs generalizing a with
  | nil => trivial
  | cons v vs ih =>
    rw [List.length_cons, Nat.mul_succ] at hm
    refine ⟨(load_congr fun i hi => hm i (by omega)).trans h.1, ih h.2 fun i hi => ?_⟩
    have hmem := hm (w / 8 + i) (by omega)
    rwa [BitVec.ofNat_add, ← BitVec.add_assoc] at hmem

/-- A store apart from the words leaves them alone. -/
theorem Holds.store_of_apart (h : m.Holds a vs) (hlen : w / 8 * vs.length ≤ 2 ^ w)
    (hapart : Apart b (w / 8) a (w / 8 * vs.length)) : (m.store b v).Holds a vs := by
  refine h.congr fun i hi => ByteMem.store_of_apart ?_
  rw [toNat_add_sub (fun _ => Nat.lt_of_lt_of_le hi hapart.2) (Nat.lt_of_lt_of_le hi hlen)]
  exact hapart.1.trans (Nat.le_add_right ..)

/-- An address and a later one are apart. -/
theorem apart_add {d n k : ℕ} (hpos : 0 < n) (hn : n ≤ d) (hk : d + k ≤ 2 ^ w) (hlt : d < 2 ^ w) :
    Apart a n (a + BitVec.ofNat w d) k := by
  have hsub : a + BitVec.ofNat w d - a = BitVec.ofNat w d := by
    rw [BitVec.add_comm, BitVec.add_sub_cancel]
  have hneg : a - (a + BitVec.ofNat w d) = -BitVec.ofNat w d := by
    rw [sub_eq_neg_sub, hsub]
  have hd : (BitVec.ofNat w d).toNat = d := by rw [BitVec.toNat_ofNat, Nat.mod_eq_of_lt hlt]
  rw [Apart, hneg, hsub, BitVec.toNat_neg, hd, Nat.mod_eq_of_lt (by omega)]
  exact ⟨hn, by omega⟩

/-- Pushing a word in front. -/
theorem Holds.push (h8 : 8 ∣ w) (hpos : 0 < w) (h : m.Holds a vs)
    (hlen : w / 8 * (vs.length + 1) ≤ 2 ^ w) :
    (m.store (a - wordSize w) v).Holds (a - wordSize w) (v :: vs) := by
  rw [Nat.mul_succ] at hlen
  have hlt : w / 8 < 2 ^ w := by
    have hlt := @Nat.lt_two_pow_self w
    omega
  refine ⟨load_store_same h8, ?_⟩
  have hnext : a - wordSize w + wordSize w = a := BitVec.sub_add_cancel ..
  have hapart := apart_add (a := a - wordSize w) (n := w / 8) (d := w / 8)
    (k := w / 8 * vs.length) (by omega) (Nat.le_refl _) (by omega) hlt
  rw [← wordSize, hnext] at hapart
  rw [hnext]
  exact h.store_of_apart (by omega) hapart

/-- The `i`-th word. -/
theorem Holds.get (h : m.Holds a vs) {i : ℕ} (hi : i < vs.length) :
    m.load (a + BitVec.ofNat w (w / 8 * i)) = vs[i] := by
  induction vs generalizing a i with
  | nil => exact absurd hi (Nat.not_lt_zero i)
  | cons u us ih =>
    cases i with
    | zero =>
      rw [Nat.mul_zero, BitVec.add_zero]
      exact h.1
    | succ i =>
      have htail := ih h.2 (Nat.lt_of_succ_lt_succ hi)
      rw [wordSize, BitVec.add_assoc, ← BitVec.ofNat_add, Nat.add_comm, ← Nat.mul_succ] at htail
      exact htail

/-- Storing the `i`-th word. -/
theorem Holds.set (h8 : 8 ∣ w) (hpos : 0 < w) (h : m.Holds a vs) {i : ℕ} (hi : i < vs.length)
    (hlen : w / 8 * vs.length ≤ 2 ^ w) :
    (m.store (a + BitVec.ofNat w (w / 8 * i)) v).Holds a (vs.set i v) := by
  induction vs generalizing a i with
  | nil => exact absurd hi (Nat.not_lt_zero i)
  | cons u us ih =>
    rw [List.length_cons, Nat.mul_succ] at hlen
    have hlt : w / 8 < 2 ^ w := by
      have hlt := @Nat.lt_two_pow_self w
      omega
    cases i with
    | zero =>
      rw [Nat.mul_zero, BitVec.add_zero]
      refine ⟨load_store_same h8, h.2.store_of_apart (by omega) ?_⟩
      exact apart_add (by omega) (Nat.le_refl _) (by omega) hlt
    | succ i =>
      have hi' := Nat.lt_of_succ_lt_succ hi
      have hle : w / 8 * (i + 1) ≤ w / 8 * us.length := Nat.mul_le_mul_left _ hi'
      have haddr : a + BitVec.ofNat w (w / 8 * (i + 1)) =
          a + wordSize w + BitVec.ofNat w (w / 8 * i) := by
        rw [wordSize, BitVec.add_assoc, ← BitVec.ofNat_add, Nat.add_comm (w / 8), ← Nat.mul_succ]
      -- the first word lies before the one that is written
      refine ⟨?_, ?_⟩
      · rw [load_store_of_apart, h.1]
        have hge : w / 8 ≤ w / 8 * (i + 1) := Nat.le_mul_of_pos_right _ (Nat.succ_pos i)
        exact (apart_add (by omega) hge (by omega) (by omega)).symm
      · rw [haddr]
        exact ih h.2 hi' (by omega)

/-- The first words of those in memory. -/
theorem Holds.of_append (us : List (BitVec w)) (h : m.Holds a (us ++ vs)) : m.Holds a us := by
  induction us generalizing a with
  | nil => trivial
  | cons u us ih => exact ⟨h.1, ih h.2⟩

/-- Any memory holds some words. -/
theorem exists_holds (m : ByteMem w) (a : BitVec w) (n : ℕ) :
    ∃ vs, vs.length = n ∧ m.Holds a vs := by
  induction n generalizing a with
  | zero => exact ⟨[], rfl, trivial⟩
  | succ n ih =>
    obtain ⟨vs, hlen, hvs⟩ := ih (a + wordSize w)
    exact ⟨m.load a :: vs, by rw [List.length_cons, hlen], rfl, hvs⟩

/-! ### Records -/

/-- Store fields, given by their positions, to the record of words at `p`. -/
def storeFields (m : ByteMem w) (p : BitVec w) (l : List (ℕ × BitVec w)) : ByteMem w :=
  l.foldl (fun m f => m.store (p + BitVec.ofNat w (w / 8 * f.1)) f.2) m

variable {p : BitVec w} {l : List (ℕ × BitVec w)}

/-- The words of a record after stores to its fields. -/
theorem Holds.storeFields (h8 : 8 ∣ w) (hpos : 0 < w) (h : m.Holds p vs)
    (hl : ∀ f ∈ l, f.1 < vs.length) (hlen : w / 8 * vs.length ≤ 2 ^ w) :
    (m.storeFields p l).Holds p (l.foldl (fun vs f => vs.set f.1 f.2) vs) := by
  induction l generalizing m vs with
  | nil => exact h
  | cons f l ih =>
    have hset := h.set (v := f.2) h8 hpos (hl f List.mem_cons_self) hlen
    refine ih hset (fun g hg => ?_) (by rwa [List.length_set])
    rw [List.length_set]
    exact hl g (List.mem_cons_of_mem f hg)

section Fields

variable {α : Type*} {xs : List α} {fs : List (ℕ × α)} {i : ℕ} {x : α}

theorem length_foldl_set (fs : List (ℕ × α)) (xs : List α) :
    (fs.foldl (fun xs f => xs.set f.1 f.2) xs).length = xs.length := by
  induction fs generalizing xs with
  | nil => rfl
  | cons f fs ih => rw [List.foldl_cons, ih, List.length_set]

theorem getElem?_foldl_set_of_notMem (xs : List α) (h : i ∉ fs.map Prod.fst) :
    (fs.foldl (fun xs f => xs.set f.1 f.2) xs)[i]? = xs[i]? := by
  induction fs generalizing xs with
  | nil => rfl
  | cons f fs ih =>
    rw [List.map_cons, List.mem_cons, not_or] at h
    rw [List.foldl_cons, ih _ h.2, List.getElem?_set_ne (Ne.symm h.1)]

/-- Each field is set once, so it keeps its value. -/
theorem getElem?_foldl_set (hnodup : (fs.map Prod.fst).Nodup) (hmem : (i, x) ∈ fs)
    (hi : i < xs.length) : (fs.foldl (fun xs f => xs.set f.1 f.2) xs)[i]? = some x := by
  induction fs generalizing xs with
  | nil => exact absurd hmem List.not_mem_nil
  | cons f fs ih =>
    rw [List.map_cons, List.nodup_cons] at hnodup
    rw [List.foldl_cons]
    rcases List.mem_cons.mp hmem with rfl | hmem
    · rw [getElem?_foldl_set_of_notMem _ hnodup.1, List.getElem?_set_self hi]
    · exact ih hnodup.2 hmem (by rwa [List.length_set])

end Fields

/-- A field of a record after stores to different fields. -/
theorem Holds.load_storeFields (h8 : 8 ∣ w) (hpos : 0 < w) (h : m.Holds p vs)
    (hl : ∀ f ∈ l, f.1 < vs.length) (hlen : w / 8 * vs.length ≤ 2 ^ w)
    (hnodup : (l.map Prod.fst).Nodup) {i : ℕ} (hmem : (i, v) ∈ l) :
    (m.storeFields p l).load (p + BitVec.ofNat w (w / 8 * i)) = v := by
  have hi : i < vs.length := hl (i, v) hmem
  have hget := getElem?_foldl_set hnodup hmem hi
  have hi' : i < (l.foldl (fun vs f => vs.set f.1 f.2) vs).length := by rwa [length_foldl_set]
  rw [(h.storeFields h8 hpos hl hlen).get hi']
  rwa [List.getElem?_eq_getElem hi', Option.some_inj] at hget

/-- A field of a record after stores to other fields. -/
theorem Holds.load_storeFields_of_notMem (h8 : 8 ∣ w) (hpos : 0 < w) (h : m.Holds p vs)
    (hl : ∀ f ∈ l, f.1 < vs.length) (hlen : w / 8 * vs.length ≤ 2 ^ w) {i : ℕ}
    (hi : i < vs.length) (hmem : i ∉ l.map Prod.fst) :
    (m.storeFields p l).load (p + BitVec.ofNat w (w / 8 * i)) =
      m.load (p + BitVec.ofNat w (w / 8 * i)) := by
  have hget := getElem?_foldl_set_of_notMem vs hmem
  have hi' : i < (l.foldl (fun vs f => vs.set f.1 f.2) vs).length := by rwa [length_foldl_set]
  rw [(h.storeFields h8 hpos hl hlen).get hi', h.get hi]
  rwa [List.getElem?_eq_getElem hi', List.getElem?_eq_getElem hi, Option.some_inj] at hget

/-- Words apart from the record stay. -/
theorem Holds.storeFields_of_apart (h : m.Holds a vs) (hpos : 0 < w / 8)
    (hlen : w / 8 * vs.length ≤ 2 ^ w) (hl : ∀ f ∈ l, f.1 < n)
    (hapart : Apart p (w / 8 * n) a (w / 8 * vs.length)) : (m.storeFields p l).Holds a vs := by
  induction l generalizing m with
  | nil => exact h
  | cons f l ih =>
    have hf : w / 8 * f.1 + w / 8 ≤ w / 8 * n := by
      rw [← Nat.mul_succ]
      exact Nat.mul_le_mul_left _ (hl f List.mem_cons_self)
    exact ih (h.store_of_apart hlen (hapart.within hf hpos))
      fun g hg => hl g (List.mem_cons_of_mem f hg)

/-! ### Consecutive bytes -/

/-- Store bytes from address `a` on. -/
def storeBytes (m : ByteMem w) (a : BitVec w) (bs : List (BitVec 8)) : ByteMem w := fun x =>
  bs.getD (x - a).toNat (m x)

variable {bs : List (BitVec 8)}

theorem storeBytes_nil : m.storeBytes a [] = m := rfl

/-- The distance of the `i`-th address. -/
theorem toNat_add_ofNat_sub {i : ℕ} (hi : i < 2 ^ w) : (a + BitVec.ofNat w i - a).toNat = i := by
  rw [BitVec.add_comm, BitVec.add_sub_cancel, BitVec.toNat_ofNat, Nat.mod_eq_of_lt hi]

theorem storeBytes_get {i : ℕ} (hi : i < bs.length) (hbs : bs.length ≤ 2 ^ w) :
    m.storeBytes a bs (a + BitVec.ofNat w i) = bs[i] := by
  rw [storeBytes, toNat_add_ofNat_sub (hi.trans_le hbs), List.getD_eq_getElem _ _ hi]

theorem storeBytes_of_le {x : BitVec w} (h : bs.length ≤ (x - a).toNat) :
    m.storeBytes a bs x = m x := List.getD_eq_default _ _ h

/-- One more byte. -/
theorem storeBytes_concat (m : ByteMem w) (a : BitVec w) (c : BitVec 8) (hbs : bs.length < 2 ^ w) :
    Function.update (m.storeBytes a bs) (a + BitVec.ofNat w bs.length) c =
      m.storeBytes a (bs ++ [c]) := by
  funext x
  by_cases hx : x = a + BitVec.ofNat w bs.length
  · have hlt : bs.length < (bs ++ [c]).length := by
      rw [List.length_append]
      exact Nat.lt_succ_self _
    rw [hx, Function.update_self, storeBytes, toNat_add_ofNat_sub hbs,
      List.getD_eq_getElem _ _ hlt, List.getElem_concat_length rfl]
  · have hdist : (x - a).toNat ≠ bs.length := by
      intro h
      have hsub : x - a = BitVec.ofNat w bs.length := by
        rw [← h, BitVec.ofNat_toNat, BitVec.setWidth_eq]
      exact hx (by rw [← hsub, BitVec.add_comm, BitVec.sub_add_cancel])
    rw [Function.update_of_ne hx, storeBytes, storeBytes]
    rcases lt_or_gt_of_ne hdist with hlt | hgt
    · rw [List.getD_append _ _ _ _ hlt]
    · rw [List.getD_eq_default _ _ hgt.le, List.getD_eq_default]
      rw [List.length_append]
      exact hgt

end ByteMem

end JosVmx.Lib
