import Mathlib.Data.List.Basic
import Mathlib.Logic.Function.Basic

/-!
# Caches that fill themselves

A cache holds answers of a lookup in a memory. It may fill itself at any moment from the
memory as it then is, and a program that changes the memory can only flush single keys.
The program appears as the list of its events: stores, which act on the memory, and
flushes.

A cache is coherent but for a set of exceptions when every answer it holds is the
lookup's or an exception. The rules below carry this property over lists of events, for
every placement of the fills. Stores may add exceptions, flushes may remove them.

## Main definitions

* `Lookup` — the lookup and what events do to memory and cache
* `Lookup.Run` — the runs of a list of events with fills in between
* `Lookup.Triple` — what holds before the events gives what holds after them

## Main results

* `Lookup.Triple.cons`, `Lookup.Triple.append` — the rules for an event and for a
  sequence
-/

namespace JosVmx.Lib

/-- A lookup in a memory `μ` with keys `κ` and answers `ε`, and events `τ`. -/
structure Lookup (μ κ ε τ : Type*) where
  look : μ → κ → Option ε
  /-- what an event does to the memory -/
  apply : τ → μ → μ
  /-- the key an event flushes -/
  flush : τ → Option κ

namespace Lookup

variable {μ κ ε τ : Type*} (T : Lookup μ κ ε τ)

/-- The memory after a list of events. -/
def replay (m : μ) (evs : List τ) : μ := evs.foldl (fun m ev => T.apply ev m) m

/-- Every cached answer is the lookup's or an exception. -/
def CoherentBut (D : κ → ε → Prop) (m : μ) (c : κ → Option ε) : Prop :=
  ∀ k e, c k = some e → T.look m k = some e ∨ D k e

variable {T} {D D' D₁ : κ → ε → Prop} {m : μ} {c : κ → Option ε} {ev : τ} {evs evs' : List τ}

theorem replay_append : T.replay m (evs ++ evs') = T.replay (T.replay m evs) evs' :=
  List.foldl_append ..

theorem CoherentBut.mono (h : T.CoherentBut D m c) (hD : ∀ k e, D k e → D' k e) :
    T.CoherentBut D' m c :=
  fun k e he => (h k e he).imp_right (hD k e)

variable [DecidableEq κ] (T)

/-- The cache after an event. -/
def flushed (ev : τ) (c : κ → Option ε) : κ → Option ε :=
  match T.flush ev with
  | some k => Function.update c k none
  | none => c

/-- Runs of a list of events from a memory and a cache, with fills in between. -/
inductive Run : μ × (κ → Option ε) → List τ → μ × (κ → Option ε) → Prop
  | done (s) : Run s [] s
  | fill {m c k e evs s'} (hlook : T.look m k = some e)
      (hrun : Run (m, Function.update c k (some e)) evs s') : Run (m, c) evs s'
  | event {m c ev evs s'} (hrun : Run (T.apply ev m, T.flushed ev c) evs s') :
      Run (m, c) (ev :: evs) s'

/-- Every run of the events from `m` takes coherence but for `D` to coherence but for
`D'`. -/
def Triple (m : μ) (D : κ → ε → Prop) (evs : List τ) (D' : κ → ε → Prop) : Prop :=
  ∀ c s', T.CoherentBut D m c → T.Run (m, c) evs s' →
    s'.1 = T.replay m evs ∧ T.CoherentBut D' s'.1 s'.2

variable {T}

/-- A fill is coherent. -/
theorem CoherentBut.fill (h : T.CoherentBut D m c) {k : κ} {e : ε} (hlook : T.look m k = some e) :
    T.CoherentBut D m (Function.update c k (some e)) := by
  intro k' e' he'
  by_cases hk : k' = k
  · subst hk
    rw [Function.update_self, Option.some_inj] at he'
    exact .inl (he' ▸ hlook)
  · rw [Function.update_of_ne hk] at he'
    exact h k' e' he'

/-- Dropping an answer does no harm. -/
theorem CoherentBut.drop (h : T.CoherentBut D m c) (k : κ) :
    T.CoherentBut D m (Function.update c k none) := by
  intro k' e' he'
  by_cases hk : k' = k
  · subst hk
    rw [Function.update_self] at he'
    exact absurd he'.symm (Option.some_ne_none e')
  · rw [Function.update_of_ne hk] at he'
    exact h k' e' he'

/-- An event keeps the answers that stay right or become exceptions. -/
theorem CoherentBut.event (h : T.CoherentBut D m c)
    (hev : ∀ k e, T.flush ev ≠ some k → T.look m k = some e ∨ D k e →
      T.look (T.apply ev m) k = some e ∨ D' k e) :
    T.CoherentBut D' (T.apply ev m) (T.flushed ev c) := by
  intro k e he
  rw [flushed] at he
  cases hflush : T.flush ev with
  | none =>
    rw [hflush] at he
    exact hev k e (by rw [hflush]; exact Option.some_ne_none k |>.symm) (h k e he)
  | some k' =>
    rw [hflush] at he
    by_cases hk : k = k'
    · -- the event flushed this key, so nothing is cached for it
      subst hk
      change Function.update c k none k = some e at he
      rw [Function.update_self] at he
      exact absurd he.symm (Option.some_ne_none e)
    · change Function.update c k' none k = some e at he
      rw [Function.update_of_ne hk] at he
      exact hev k e (by rw [hflush]; exact fun heq => hk (Option.some_inj.mp heq).symm) (h k e he)

/-! ### Rules -/

theorem triple_nil (hD : ∀ k e, D k e → D' k e) : T.Triple m D [] D' := by
  intro c s' h hrun
  generalize hs : (m, c) = s at hrun
  generalize hevs : ([] : List τ) = evs at hrun
  induction hrun generalizing c with
  | done s =>
    subst hs
    exact ⟨rfl, h.mono hD⟩
  | fill hlook _ ih =>
    obtain ⟨rfl, rfl⟩ := Prod.mk.inj hs
    exact ih _ (h.fill hlook) rfl hevs
  | event => exact absurd hevs (List.cons_ne_nil _ _).symm

/-- The rule for one event before others. -/
theorem Triple.cons (htail : T.Triple (T.apply ev m) D₁ evs D')
    (hev : ∀ k e, T.flush ev ≠ some k → T.look m k = some e ∨ D k e →
      T.look (T.apply ev m) k = some e ∨ D₁ k e) : T.Triple m D (ev :: evs) D' := by
  intro c s' h hrun
  generalize hs : (m, c) = s at hrun
  generalize hevs : ev :: evs = evs' at hrun
  induction hrun generalizing c with
  | done => exact absurd hevs (List.cons_ne_nil _ _)
  | fill hlook _ ih =>
    obtain ⟨rfl, rfl⟩ := Prod.mk.inj hs
    exact ih _ (h.fill hlook) rfl hevs
  | event hrun _ =>
    obtain ⟨rfl, rfl⟩ := Prod.mk.inj hs
    obtain ⟨rfl, rfl⟩ := List.cons.inj hevs
    exact htail _ _ (h.event hev) hrun

/-- A run of two lists of events is a run of the first and a run of the second. -/
theorem Run.split {s s' : μ × (κ → Option ε)} (hrun : T.Run s (evs ++ evs') s') :
    ∃ s₁, T.Run s evs s₁ ∧ T.Run s₁ evs' s' := by
  generalize hevs : evs ++ evs' = all at hrun
  induction hrun generalizing evs with
  | done s =>
    obtain ⟨rfl, rfl⟩ := List.append_eq_nil_iff.mp hevs
    exact ⟨s, .done s, .done s⟩
  | fill hlook _ ih =>
    obtain ⟨s₁, hfst, hsnd⟩ := ih hevs
    exact ⟨s₁, .fill hlook hfst, hsnd⟩
  | event hrun ih =>
    cases evs with
    | nil =>
      rw [List.nil_append] at hevs
      subst hevs
      exact ⟨_, .done _, .event hrun⟩
    | cons ev evs =>
      obtain ⟨rfl, htail⟩ := List.cons.inj hevs
      obtain ⟨s₁, hfst, hsnd⟩ := ih htail
      exact ⟨s₁, .event hfst, hsnd⟩

/-- Runs of two lists of events one after the other. -/
theorem Run.append {s s₁ s' : μ × (κ → Option ε)} (hfst : T.Run s evs s₁)
    (hsnd : T.Run s₁ evs' s') : T.Run s (evs ++ evs') s' := by
  induction hfst with
  | done => exact hsnd
  | fill hlook _ ih => exact .fill hlook (ih hsnd)
  | event _ ih => exact .event (ih hsnd)

/-- The run without fills of events that flush nothing. -/
theorem run_of_flush_none (hev : ∀ ev ∈ evs, T.flush ev = none) :
    T.Run (m, c) evs (T.replay m evs, c) := by
  induction evs generalizing m with
  | nil => exact .done _
  | cons ev evs ih =>
    have htail := ih (m := T.apply ev m) fun ev' h => hev ev' (List.mem_cons_of_mem ev h)
    refine .event ?_
    rwa [flushed, hev ev (List.mem_cons_self ..)]

/-- The run without fills from an empty cache. -/
theorem run_of_empty : T.Run (m, fun _ => none) evs (T.replay m evs, fun _ => none) := by
  induction evs generalizing m with
  | nil => exact .done _
  | cons ev evs ih =>
    have hflushed : T.flushed ev (fun _ => none) = fun _ => none := by
      unfold flushed
      split
      · exact Function.update_eq_self_iff.mpr rfl
      · rfl
    refine .event ?_
    rw [hflushed]
    exact ih

/-- The rule of sequence. -/
theorem Triple.append (h : T.Triple m D evs D₁) (h' : T.Triple (T.replay m evs) D₁ evs' D') :
    T.Triple m D (evs ++ evs') D' := by
  intro c s' hc hrun
  obtain ⟨⟨m₁, c₁⟩, hfst, hsnd⟩ := hrun.split
  obtain ⟨hmem, hc₁⟩ := h c _ hc hfst
  rw [replay_append]
  change m₁ = _ at hmem
  subst hmem
  exact h' c₁ s' hc₁ hsnd

end Lookup

end JosVmx.Lib
