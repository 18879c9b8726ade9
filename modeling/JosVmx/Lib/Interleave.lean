import Mathlib.Data.List.Basic

/-!
# Programs among events

A program is a list of steps, which may fail. Its environment may act any number of times before
every step and behind the last one.

The rules below carry a condition from step to step. It has to be stable, which means that no
event of the environment breaks it.

## Main definitions

* `Move` — a step of the program or an event of the environment
* `Always` — the program ends well and a property holds all the time, whatever the environment does

## Main results

* `Always.nil`, `Always.cons` — the rules for the empty program and for a first step
-/

namespace JosVmx.Lib

/-- A step of a program or an event of its environment. -/
inductive Move (σ ε ι : Type*)
  | step (f : σ → Except ε σ)
  | env (i : ι)

variable {σ ε ι : Type*} (act : ι → σ → σ)

namespace Move

def run : Move σ ε ι → σ → Except ε σ
  | step f => f
  | env i => fun s => .ok (act i s)

/-- The step of the program, if it is one. -/
def step? : Move σ ε ι → Option (σ → Except ε σ)
  | step f => some f
  | env _ => none

end Move

/-- Moves one after the other. -/
def runMoves (ms : List (Move σ ε ι)) (s : σ) : Except ε σ := ms.foldlM (fun s m => m.run act s) s

/-- The program that is run. -/
def stepsOf (ms : List (Move σ ε ι)) : List (σ → Except ε σ) := ms.filterMap Move.step?

/-- No event breaks the condition. -/
def Stable (P : σ → Prop) : Prop := ∀ i s, P s → P (act i s)

/-- Among any events, the program takes `P` to `R` without a failure, and `Q` always holds. -/
def Always (Q P : σ → Prop) (fs : List (σ → Except ε σ)) (R : σ → Prop) : Prop :=
  ∀ ms : List (Move σ ε ι), stepsOf ms = fs → ∀ s, P s →
    (∀ pre, pre <+: ms → ∃ s', runMoves act pre s = .ok s' ∧ Q s') ∧
      ∃ s', runMoves act ms s = .ok s' ∧ R s'

variable {act} {Q P P' R : σ → Prop} {f : σ → Except ε σ} {fs : List (σ → Except ε σ)}
  {ms : List (Move σ ε ι)} {s s' : σ}

theorem runMoves_cons_of_ok {m : Move σ ε ι} (h : m.run act s = .ok s') :
    runMoves act (m :: ms) s = runMoves act ms s' := by
  rw [runMoves, List.foldlM_cons, h]
  rfl

/-- A property of the first state and of all that follow the first move. -/
theorem forall_prefix_cons {m : Move σ ε ι} (hs : Q s) (hrun : m.run act s = .ok s')
    (h : ∀ pre, pre <+: ms → ∃ s'', runMoves act pre s' = .ok s'' ∧ Q s'') :
    ∀ pre, pre <+: m :: ms → ∃ s'', runMoves act pre s = .ok s'' ∧ Q s'' := by
  intro pre hpre
  rcases List.prefix_cons_iff.mp hpre with rfl | ⟨rest, rfl, hrest⟩
  · exact ⟨s, rfl, hs⟩
  · rw [runMoves_cons_of_ok hrun]
    exact h rest hrest

/-- The rule for the empty program. -/
theorem Always.nil (hstable : Stable act P) (hQ : ∀ s, P s → Q s) (hR : ∀ s, P s → R s) :
    Always act Q P ([] : List (σ → Except ε σ)) R := by
  intro ms
  induction ms with
  | nil =>
    intro _ s hs
    refine ⟨fun pre hpre => ?_, s, rfl, hR s hs⟩
    rw [List.prefix_nil.mp hpre]
    exact ⟨s, rfl, hQ s hs⟩
  | cons m ms ih =>
    intro hms s hs
    cases m with
    | step f => exact absurd hms (List.cons_ne_nil _ _)
    | env i =>
      obtain ⟨hall, hend⟩ := ih hms (act i s) (hstable i s hs)
      exact ⟨forall_prefix_cons (hQ s hs) rfl hall, hend⟩

/-- The rule for a first step. -/
theorem Always.cons (hstable : Stable act P) (hQ : ∀ s, P s → Q s)
    (hstep : ∀ s, P s → ∃ s', f s = .ok s' ∧ P' s') (h : Always act Q P' fs R) :
    Always act Q P (f :: fs) R := by
  intro ms
  induction ms with
  | nil => exact fun hms => absurd hms.symm (List.cons_ne_nil _ _)
  | cons m ms ih =>
    intro hms s hs
    cases m with
    | step g =>
      obtain ⟨rfl, hfs⟩ := List.cons.inj hms
      obtain ⟨s', hrun, hs'⟩ := hstep s hs
      obtain ⟨hall, s'', hend, hR⟩ := h ms hfs s' hs'
      refine ⟨forall_prefix_cons (hQ s hs) hrun hall, s'', ?_, hR⟩
      exact (runMoves_cons_of_ok (m := .step g) hrun).trans hend
    | env i =>
      obtain ⟨hall, hend⟩ := ih hms (act i s) (hstable i s hs)
      exact ⟨forall_prefix_cons (hQ s hs) rfl hall, hend⟩

end JosVmx.Lib
