import Mathlib.Data.Finset.Card
import Mathlib.Data.Fintype.Basic
import Mathlib.Algebra.BigOperators.Group.Finset.Basic
import Mathlib.Algebra.BigOperators.Group.Finset.Piecewise

/-!
# Counting and ranking in finite sets

Two counting arguments over finite types. The rank of an element is the number of
smaller elements of a set: handing out consecutive numbers in increasing order gives
each element its rank. And the number of points with a property changes by at most
one when the property changes at one point.
-/

namespace JosVmx.Lib

section Rank

variable {α : Type*} [LinearOrder α]

/-- The number of elements of `A` below `a`. -/
def rank (A : Finset α) (a : α) : ℕ := (A.filter (· < a)).card

variable {A : Finset α} {a b : α}

/-- Ranks increase along the set. -/
theorem rank_lt_rank (ha : a ∈ A) (h : a < b) : rank A a < rank A b := by
  refine Finset.card_lt_card ⟨fun c hc => ?_, fun hsub => ?_⟩
  · rw [Finset.mem_filter] at hc ⊢
    exact ⟨hc.1, hc.2.trans h⟩
  · have hmem := hsub (Finset.mem_filter.mpr ⟨ha, h⟩)
    exact lt_irrefl a (Finset.mem_filter.mp hmem).2

theorem rank_inj (ha : a ∈ A) (hb : b ∈ A) (h : rank A a = rank A b) : a = b := by
  rcases lt_trichotomy a b with hlt | heq | hlt
  · exact absurd h (rank_lt_rank ha hlt).ne
  · exact heq
  · exact absurd h (rank_lt_rank hb hlt).ne'

theorem rank_lt_card (ha : a ∈ A) : rank A a < A.card := by
  refine Finset.card_lt_card ⟨Finset.filter_subset _ _, fun hsub => ?_⟩
  exact lt_irrefl a (Finset.mem_filter.mp (hsub ha)).2

end Rank

section Point

variable {α : Type*} [Fintype α] [DecidableEq α]

/-- Changing a property at one point changes the count there only. -/
theorem card_filter_point {p q : α → Prop} [DecidablePred p] [DecidablePred q] (a : α)
    (h : ∀ x, x ≠ a → (q x ↔ p x)) :
    (Finset.univ.filter q).card + (if p a then 1 else 0) =
      (Finset.univ.filter p).card + (if q a then 1 else 0) := by
  have hrest : ∑ x ∈ Finset.univ.erase a, (if q x then 1 else 0) =
      ∑ x ∈ Finset.univ.erase a, (if p x then 1 else 0) := by
    refine Finset.sum_congr rfl fun x hx => ?_
    simp only [h x (Finset.ne_of_mem_erase hx)]
  rw [Finset.card_filter, Finset.card_filter,
    ← Finset.add_sum_erase _ _ (Finset.mem_univ a), hrest,
    ← Finset.add_sum_erase (f := fun x => if p x then 1 else 0) _ (Finset.mem_univ a)]
  omega

end Point

end JosVmx.Lib
