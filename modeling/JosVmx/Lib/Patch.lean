import Mathlib.Data.List.Basic
import Mathlib.Data.List.Induction

/-!
# Patches

A patch gives new values to some places of a function and leaves the others. When several patches
are applied, a place has the value that the last patch of it gives.

## Main results

* `applyAll_eq` — the value at a place after all patches
* `applyAll_keeps_iff` — when a place keeps the value that one of the patches gives
-/

namespace JosVmx.Lib

variable {α β γ : Type*}

/-- New values for some places. -/
abbrev Patch (α β : Type*) := α → Option β

/-- A function with the new values. -/
def Patch.apply (p : Patch α β) (m : α → β) : α → β := fun a => (p a).getD (m a)

/-- The patches one after the other. -/
def applyAll (ps : List (Patch α β)) (m : α → β) : α → β := ps.foldl (fun m p => p.apply m) m

variable {p : Patch α β} {ps pre post : List (Patch α β)} {m : α → β} {a : α} {v : β}

theorem applyAll_concat (ps : List (Patch α β)) (p : Patch α β) (m : α → β) :
    applyAll (ps ++ [p]) m = p.apply (applyAll ps m) := by
  rw [applyAll, List.foldl_append]
  rfl

/-- The last patch of a place counts. -/
theorem applyAll_eq (ps : List (Patch α β)) (m : α → β) (a : α) :
    applyAll ps m a = (ps.reverse.findSome? (· a)).getD (m a) := by
  induction ps using List.reverseRecOn with
  | nil => rfl
  | append_singleton ps p ih =>
    rw [applyAll_concat, Patch.apply, ih, List.reverse_concat, List.findSome?_cons]
    cases p a <;> rfl

/-- A place that no patch is of. -/
theorem applyAll_of_none (h : ∀ p ∈ ps, p a = none) : applyAll ps m a = m a := by
  have hnone : ps.reverse.findSome? (· a) = none := by
    rw [List.findSome?_eq_none_iff]
    exact fun p hp => h p (List.mem_reverse.mp hp)
  rw [applyAll_eq, hnone, Option.getD_none]

/-- **A place keeps a value** that one patch gives exactly if the last one of the later patches of
it gives the same. -/
theorem applyAll_keeps_iff (hp : p a = some v) :
    applyAll (pre ++ p :: post) m a = v ↔ ∀ u ∈ post.reverse.findSome? (· a), u = v := by
  rw [applyAll_eq, List.reverse_append, List.reverse_cons, List.append_assoc,
    List.findSome?_append, List.singleton_append, List.findSome?_cons, hp]
  cases post.reverse.findSome? (· a) <;> simp

/-- The value of the first place that has one, as that of the first place with a property. -/
theorem findSome?_eq_map_find? {f : γ → Option β} {P : γ → Bool} {g : γ → β} {l : List γ}
    (h : ∀ c ∈ l, f c = if P c then some (g c) else none) :
    l.findSome? f = (l.find? P).map g := by
  induction l with
  | nil => rfl
  | cons c l ih =>
    have hrest := ih fun d hd => h d (List.mem_cons_of_mem c hd)
    rw [List.findSome?_cons, List.find?_cons, h c List.mem_cons_self, hrest]
    cases P c <;> rfl

end JosVmx.Lib
