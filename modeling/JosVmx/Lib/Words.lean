import Mathlib.Data.List.TakeWhile
import Mathlib.Data.Nat.Notation

/-!
# The words of a line

A word is a maximal run of elements that are not separators. `runs` lists the words with the
positions where they start; the line may begin or end with separators, and there may be any number
of them between two words.

## Main results

* `runs_induction` — a line is a first word behind separators, and another line
* `IsRun.of_mem` — what is listed is a maximal run
-/

namespace JosVmx.Lib

variable {α : Type*} (sep : α → Bool) {b l r w : List α} {k : ℕ}

/-- Pieces of a line with their positions, one separator between each two, without the empty
ones. -/
def placed : ℕ → List (List α) → List (ℕ × List α)
  | _, [] => []
  | k, w :: ws =>
    if w.isEmpty then placed (k + 1) ws else (k, w) :: placed (k + w.length + 1) ws

/-- The words of a line that starts at position `k`. -/
def runsFrom (k : ℕ) (l : List α) : List (ℕ × List α) := placed k (l.splitOnP sep)

/-- The words of a line and their positions. -/
def runs (l : List α) : List (ℕ × List α) := runsFrom sep 0 l

/-- `w` is a word at position `k`, and no longer run contains it. -/
structure IsRun (l : List α) (k : ℕ) (w : List α) : Prop where
  ne_nil : w ≠ []
  word : ∀ c ∈ w, sep c = false
  maximal : ∃ a r, l = a ++ w ++ r ∧ a.length = k ∧ (∀ s ∈ a.getLast?, sep s) ∧
    ∀ s ∈ r.head?, sep s

variable {sep}

theorem runsFrom_nil : runsFrom sep k [] = [] := rfl

theorem runsFrom_sep {s : α} (hs : sep s) : runsFrom sep k (s :: l) = runsFrom sep (k + 1) l := by
  rw [runsFrom, List.splitOnP_cons_eq_if_modifyHead, if_pos hs]
  rfl

/-- Separators in front of a line move its words. -/
theorem runsFrom_append (hb : ∀ c ∈ b, sep c) :
    runsFrom sep k (b ++ l) = runsFrom sep (k + b.length) l := by
  induction b generalizing k with
  | nil => rfl
  | cons s b ih =>
    rw [List.cons_append, runsFrom_sep (hb s List.mem_cons_self),
      ih fun c hc => hb c (List.mem_cons_of_mem _ hc), List.length_cons]
    congr 1
    omega

theorem runsFrom_of_forall (hb : ∀ c ∈ b, sep c) : runsFrom sep k b = [] := by
  have happ := runsFrom_append (l := []) (k := k) hb
  rwa [List.append_nil, runsFrom_nil] at happ

/-- A word at the start of a line. -/
theorem runsFrom_word (hne : w ≠ []) (hw : ∀ c ∈ w, sep c = false) (hr : ∀ s ∈ r.head?, sep s) :
    runsFrom sep k (w ++ r) = (k, w) :: runsFrom sep (k + w.length) r := by
  have hempty : w.isEmpty = false := List.isEmpty_eq_false_iff.mpr hne
  cases r with
  | nil =>
    rw [List.append_nil, runsFrom, List.splitOnP_eq_singleton hw, placed, hempty, runsFrom_nil]
    rfl
  | cons s r =>
    have hs : sep s := hr s rfl
    rw [runsFrom, List.splitOnP_append_cons_of_forall_mem hw s hs, placed, hempty,
      runsFrom_sep hs]
    rfl

/-- A line has no words, or it is a first word behind separators and another line. -/
theorem runs_induction (sep : α → Bool) {motive : List α → Prop}
    (blank : ∀ b, (∀ c ∈ b, sep c) → motive b)
    (word : ∀ b w r, (∀ c ∈ b, sep c) → w ≠ [] → (∀ c ∈ w, sep c = false) →
      (∀ s ∈ r.head?, sep s) → motive r → motive (b ++ (w ++ r))) (l : List α) : motive l := by
  induction hn : l.length using Nat.strong_induction_on generalizing l with
  | _ n ih =>
    let b := l.takeWhile sep
    let w := (l.dropWhile sep).takeWhile fun c => !sep c
    let r := (l.dropWhile sep).dropWhile fun c => !sep c
    have hsplit : l = b ++ (w ++ r) := by
      rw [List.takeWhile_append_dropWhile, List.takeWhile_append_dropWhile]
    have hb : ∀ c ∈ b, sep c := fun c hc => List.mem_takeWhile_imp hc
    by_cases hne : w = []
    · -- no word is left behind the separators
      have hdrop : l.dropWhile sep = [] := by
        cases hcons : l.dropWhile sep with
        | nil => rfl
        | cons c d =>
          have hc : sep c = false := by
            have hhead := List.head_dropWhile_not sep (l := l) (by rw [hcons]; simp)
            simpa only [hcons, List.head_cons] using hhead
          simp [w, hcons, hc] at hne
      have hall : l = b := by
        have happ := List.takeWhile_append_dropWhile (p := sep) (l := l)
        rw [hdrop, List.append_nil] at happ
        exact happ.symm
      rw [hall]
      exact blank b hb
    · have hword : ∀ c ∈ w, sep c = false := fun c hc => by
        simpa using List.mem_takeWhile_imp hc
      have hr : ∀ s ∈ r.head?, sep s := fun s hs => by
        have hhead := List.head?_dropWhile_not (fun c => !sep c) (l.dropWhile sep)
        rw [show (l.dropWhile sep).dropWhile (fun c => !sep c) = r from rfl,
          Option.mem_def.mp hs] at hhead
        simpa using hhead
      have hlt : r.length < n := by
        have hlen := congrArg List.length hsplit
        have hpos := List.length_pos_iff.mpr hne
        simp only [List.length_append] at hlen
        omega
      rw [hsplit]
      exact word b w r hb hne hword hr (ih r.length hlt r rfl)

/-- A run of the rest of a line is a run of the line. -/
theorem IsRun.append (h : IsRun sep r k w) (hr : ∀ s ∈ r.head?, sep s) (b v : List α) :
    IsRun sep (b ++ (v ++ r)) (b.length + v.length + k) w := by
  obtain ⟨a, d, hsplit, hlen, hlast, hhead⟩ := h.maximal
  refine ⟨h.ne_nil, h.word, b ++ v ++ a, d, ?_, ?_, ?_, hhead⟩
  · rw [hsplit]
    simp only [List.append_assoc]
  · simp only [List.length_append]
    omega
  · intro s hs
    cases ha : a with
    | nil =>
      -- the rest would start with the word
      obtain ⟨c, w', rfl⟩ := List.exists_cons_of_ne_nil h.ne_nil
      have hc : sep c := hr c (by rw [hsplit, ha]; rfl)
      rw [h.word c List.mem_cons_self] at hc
      exact absurd hc (by decide)
    | cons c a' =>
      rw [List.getLast?_append, ha, List.getLast?_cons, Option.some_or, ← List.getLast?_cons,
        ← ha] at hs
      exact hlast s hs

theorem isRun_first (hb : ∀ c ∈ b, sep c) (hne : w ≠ []) (hw : ∀ c ∈ w, sep c = false)
    (hr : ∀ s ∈ r.head?, sep s) : IsRun sep (b ++ (w ++ r)) b.length w :=
  ⟨hne, hw, b, r, (List.append_assoc ..).symm, rfl,
    fun s hs => hb s (List.mem_of_getLast? hs), hr⟩

/-- What is listed is a maximal run. -/
theorem IsRun.of_mem (h : (k, w) ∈ runs sep l) : IsRun sep l k w := by
  suffices hfrom : ∀ j, (k, w) ∈ runsFrom sep j l → ∃ i, k = j + i ∧ IsRun sep l i w by
    obtain ⟨i, hk, hrun⟩ := hfrom 0 h
    rw [hk, Nat.zero_add]
    exact hrun
  clear h
  induction l using runs_induction sep with
  | blank b hb =>
    intro j h
    rw [runsFrom_of_forall hb] at h
    exact absurd h List.not_mem_nil
  | word b v r hb hne hv hr ih =>
    intro j h
    rw [runsFrom_append hb, runsFrom_word hne hv hr] at h
    rcases List.mem_cons.mp h with hfirst | hrest
    · obtain ⟨rfl, rfl⟩ := Prod.mk.inj hfirst
      exact ⟨b.length, rfl, isRun_first hb hne hv hr⟩
    · obtain ⟨i, hk, hrun⟩ := ih _ hrest
      exact ⟨b.length + v.length + i, by omega, hrun.append hr b v⟩

end JosVmx.Lib
