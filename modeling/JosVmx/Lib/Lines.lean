import Mathlib.Data.List.Basic

/-!
# Lines

A text of lines, each with a separator behind it. If no line contains the separator, the text
determines its lines.

## Main results

* `unlines_inj` — two texts are equal only if their lines are
-/

namespace JosVmx.Lib

variable {α : Type*} {sep : α} {l l' r r' : List α} {ls ls' : List (List α)}

/-- The text of the lines. -/
def unlines (sep : α) (ls : List (List α)) : List α := ls.flatMap (· ++ [sep])

@[simp] theorem unlines_nil (sep : α) : unlines sep [] = [] := rfl

@[simp] theorem unlines_cons (sep : α) (l : List α) (ls : List (List α)) :
    unlines sep (l :: ls) = l ++ sep :: unlines sep ls := by
  rw [unlines, List.flatMap_cons, List.append_assoc]
  rfl

/-- The first separator ends the first line. -/
theorem append_sep_inj (hl : sep ∉ l) (hl' : sep ∉ l') (h : l ++ sep :: r = l' ++ sep :: r') :
    l = l' ∧ r = r' := by
  induction l generalizing l' with
  | nil =>
    cases l' with
    | nil => exact ⟨rfl, (List.cons.inj h).2⟩
    | cons a l' => exact absurd ((List.cons.inj h).1 ▸ List.mem_cons_self) hl'
  | cons a l ih =>
    cases l' with
    | nil => exact absurd ((List.cons.inj h).1.symm ▸ List.mem_cons_self) hl
    | cons b l' =>
      obtain ⟨rfl, hrest⟩ := List.cons.inj h
      obtain ⟨rfl, rfl⟩ := ih (fun hm => hl (List.mem_cons_of_mem _ hm))
        (fun hm => hl' (List.mem_cons_of_mem _ hm)) hrest
      exact ⟨rfl, rfl⟩

/-- **A text determines its lines.** -/
theorem unlines_inj (hls : ∀ l ∈ ls, sep ∉ l) (hls' : ∀ l ∈ ls', sep ∉ l)
    (h : unlines sep ls = unlines sep ls') : ls = ls' := by
  induction ls generalizing ls' with
  | nil =>
    cases ls' with
    | nil => rfl
    | cons l ls' => exact absurd h.symm (by simp)
  | cons l ls ih =>
    cases ls' with
    | nil => exact absurd h (by simp)
    | cons l' ls' =>
      rw [List.forall_mem_cons] at hls hls'
      rw [unlines_cons, unlines_cons] at h
      obtain ⟨rfl, hrest⟩ := append_sep_inj hls.1 hls'.1 h
      rw [ih hls.2 hls'.2 hrest]

end JosVmx.Lib
