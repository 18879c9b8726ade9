import Mathlib.Logic.Function.Iterate

/-!
# Fallible computations and loops

The equations of the error monad, and a C loop `for (i = i₀; cond i; i = next i) body`
over a state that the body may fail to transform. The counter type is arbitrary; for a
machine word `next` may wrap around, so the loop need not end and takes fuel. Running out
of fuel is an error of its own, and `forLoop_ok` shows that it does not occur when the
condition fails after a known number of rounds below the fuel.

A `while` loop has no counter. It ends when some measure decreases with every round.

## Main results

* `forLoop_ok` — an invariant indexed by the round carries over the whole loop
* `whileLoop_ok` — a loop with a measure ends, and an invariant of its rounds holds at the end
* `whileLoop_list` — a loop over the elements of a list
-/

namespace JosVmx.Lib

variable {ι σ ε : Type*}

@[simp] theorem ok_bind {ε α β : Type} (a : α) (f : α → Except ε β) :
    (Except.ok a >>= f) = f a := rfl

@[simp] theorem error_bind {ε α β : Type} (e : ε) (f : α → Except ε β) :
    (Except.error e >>= f) = Except.error e := rfl

/-- A sequence that succeeds succeeds in both parts. -/
theorem bind_eq_ok {ε α β : Type} {x : Except ε α} {f : α → Except ε β} {b : β}
    (h : (x >>= f) = .ok b) : ∃ a, x = .ok a ∧ f a = .ok b := by
  cases x with
  | ok a => exact ⟨a, rfl, h⟩
  | error e => exact absurd h (by simp)

/-- `for (i = i₀; cond i; i = next i) body`, with `diverge` when the fuel runs out. -/
def forLoop (diverge : ε) (cond : ι → Bool) (next : ι → ι) (body : ι → σ → Except ε σ) :
    ℕ → ι → σ → Except ε σ
  | 0, _, _ => .error diverge
  | fuel + 1, i, s =>
    if cond i then
      match body i s with
      | .error e => .error e
      | .ok s' => forLoop diverge cond next body fuel (next i) s'
    else .ok s

variable {diverge : ε} {cond : ι → Bool} {next : ι → ι} {body : ι → σ → Except ε σ}

theorem forLoop_of_stop {fuel : ℕ} {i : ι} {s : σ} (h : cond i = false) :
    forLoop diverge cond next body (fuel + 1) i s = .ok s := by
  simp [forLoop, h]

theorem forLoop_of_step {fuel : ℕ} {i : ι} {s s' : σ} (h : cond i = true)
    (hbody : body i s = .ok s') :
    forLoop diverge cond next body (fuel + 1) i s =
      forLoop diverge cond next body fuel (next i) s' := by
  simp [forLoop, h, hbody]

/-- **Loop rule.** If the condition holds in the first `n` rounds and then fails, and
each round takes the invariant to that of the next round, then the loop ends in a
state with the last invariant. -/
theorem forLoop_ok {n fuel : ℕ} {i : ι} {s : σ} (inv : ℕ → σ → Prop) (hfuel : n < fuel)
    (hcond : ∀ k < n, cond (next^[k] i) = true) (hstop : cond (next^[n] i) = false)
    (hinit : inv 0 s)
    (hstep : ∀ k < n, ∀ s, inv k s → ∃ s', body (next^[k] i) s = .ok s' ∧ inv (k + 1) s') :
    ∃ s', forLoop diverge cond next body fuel i s = .ok s' ∧ inv n s' := by
  induction n generalizing fuel i s inv with
  | zero =>
    cases fuel with
    | zero => exact absurd hfuel (Nat.lt_irrefl 0)
    | succ fuel => exact ⟨s, forLoop_of_stop hstop, hinit⟩
  | succ n ih =>
    cases fuel with
    | zero => exact absurd hfuel (Nat.not_lt_zero _)
    | succ fuel =>
      obtain ⟨s₁, hbody, hinv⟩ := hstep 0 n.succ_pos s hinit
      -- shift the invariant by one round and run the rest of the loop
      obtain ⟨s', hloop, hend⟩ := ih (i := next i) (s := s₁) (fun k => inv (k + 1))
        (Nat.lt_of_succ_lt_succ hfuel)
        (fun k hk => hcond (k + 1) (Nat.succ_lt_succ hk)) hstop hinv
        (fun k hk => hstep (k + 1) (Nat.succ_lt_succ hk))
      exact ⟨s', (forLoop_of_step (hcond 0 n.succ_pos) hbody).trans hloop, hend⟩

/-- A loop that only checks passes if each check does. -/
theorem forLoop_check {check : ι → Except ε Unit} {n fuel : ℕ} {i : ι} (hfuel : n < fuel)
    (hcond : ∀ k < n, cond (next^[k] i) = true) (hstop : cond (next^[n] i) = false)
    (hcheck : ∀ k < n, check (next^[k] i) = .ok ()) :
    forLoop diverge cond next (fun i _ => check i) fuel i () = .ok () := by
  have hloop : ∃ u, forLoop diverge cond next (fun i _ => check i) fuel i () = .ok u ∧ True :=
    forLoop_ok (fun _ _ => True) hfuel hcond hstop trivial
      fun k hk _ _ => ⟨(), hcheck k hk, trivial⟩
  obtain ⟨⟨⟩, hloop, -⟩ := hloop
  exact hloop

/-! ### While loops -/

/-- A `while` loop on a state. A round either finds the condition false or goes on with
another state. -/
def whileLoop (diverge : ε) (round : σ → Except ε (Option σ)) : ℕ → σ → Except ε σ
  | 0, _ => .error diverge
  | fuel + 1, s =>
    match round s with
    | .error e => .error e
    | .ok none => .ok s
    | .ok (some s') => whileLoop diverge round fuel s'

variable {round : σ → Except ε (Option σ)} {s : σ}

theorem whileLoop_of_error {fuel : ℕ} {e : ε} (h : round s = .error e) :
    whileLoop diverge round (fuel + 1) s = .error e := by
  rw [whileLoop, h]

theorem whileLoop_of_stop {fuel : ℕ} (h : round s = .ok none) :
    whileLoop diverge round (fuel + 1) s = .ok s := by
  rw [whileLoop, h]

theorem whileLoop_of_step {fuel : ℕ} {s' : σ} (h : round s = .ok (some s')) :
    whileLoop diverge round (fuel + 1) s = whileLoop diverge round fuel s' := by
  rw [whileLoop, h]

/-- **While rule.** A loop whose rounds keep an invariant and decrease a measure ends. -/
theorem whileLoop_ok (inv : σ → Prop) (μ : σ → ℕ) {fuel : ℕ}
    (hround : ∀ s, inv s → round s = .ok none ∨
      ∃ s', round s = .ok (some s') ∧ inv s' ∧ μ s' < μ s)
    (hinv : inv s) (hfuel : μ s < fuel) :
    ∃ s', whileLoop diverge round fuel s = .ok s' ∧ inv s' ∧ round s' = .ok none := by
  induction fuel generalizing s with
  | zero => exact absurd hfuel (Nat.not_lt_zero _)
  | succ fuel ih =>
    rcases hround s hinv with hstop | ⟨s₁, hnext, hinv₁, hlt⟩
    · exact ⟨s, whileLoop_of_stop hstop, hinv, hstop⟩
    · obtain ⟨s', hloop, hend⟩ := ih hinv₁ (by omega)
      exact ⟨s', (whileLoop_of_step hnext).trans hloop, hend⟩

/-- **Scanning rule.** A loop that goes over a list, one element a round, ends behind the list.
The state is given by the elements that have been read and those that have not. -/
theorem whileLoop_list {α : Type*} {xs : List α} {fuel : ℕ} (st : List α → List α → σ)
    (hstep : ∀ d x t, d ++ x :: t = xs → round (st d (x :: t)) = .ok (some (st (d ++ [x]) t)))
    (hstop : round (st xs []) = .ok none) (hfuel : xs.length < fuel) :
    whileLoop diverge round fuel (st [] xs) = .ok (st xs []) := by
  -- the items in front of the current one are part of the state
  suffices hrest : ∀ t d fuel, d ++ t = xs → t.length < fuel →
      whileLoop diverge round fuel (st d t) = .ok (st xs []) from
    hrest xs [] fuel (List.nil_append xs) hfuel
  intro t
  induction t with
  | nil =>
    intro d fuel hxs hfuel
    rw [List.append_nil] at hxs
    cases fuel with
    | zero => exact absurd hfuel (Nat.not_lt_zero _)
    | succ fuel =>
      rw [hxs]
      exact whileLoop_of_stop hstop
  | cons x t ih =>
    intro d fuel hxs hfuel
    cases fuel with
    | zero => exact absurd hfuel (Nat.not_lt_zero _)
    | succ fuel =>
      rw [whileLoop_of_step (hstep d x t hxs)]
      refine ih (d ++ [x]) fuel ?_ (Nat.lt_of_succ_lt_succ hfuel)
      rw [← hxs, List.append_assoc, List.singleton_append]

end JosVmx.Lib
