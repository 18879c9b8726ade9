import JosVmx.Lib.Loop
import Mathlib.Data.List.Nodup

/-!
# Chains of pointers

A place holds the address of the next one, and the last holds null. A loop that follows such
pointers ends exactly if they lead to null, since otherwise they come back to a place where they
have been.

## Main definitions

* `Chain next null p ps` — from `p` the pointers lead over the places `ps` to null
* `chainFrom` — these places

## Main results

* `Chain.nodup` — no place is met twice
* `whileLoop_chain` — a loop with an invariant goes over a chain to its end
* `exists_chain` — a loop that ends has gone over a chain
-/

namespace JosVmx.Lib

variable {α σ ε : Type*} {next : α → α} {null p q : α} {ps qs : List α}

/-- From `p` the pointers lead over `ps` to null. -/
inductive Chain (next : α → α) (null : α) : α → List α → Prop
  | nil : Chain next null null []
  | cons {p : α} {ps : List α} (hne : p ≠ null) (hrest : Chain next null (next p) ps) :
      Chain next null p (p :: ps)

/-- The first place determines the others. -/
theorem Chain.unique (h : Chain next null p ps) (h' : Chain next null p qs) : ps = qs := by
  induction h generalizing qs with
  | nil =>
    cases h' with
    | nil => rfl
    | cons hne => exact absurd rfl hne
  | cons hne _ ih =>
    cases h' with
    | nil => exact absurd rfl hne
    | cons _ hrest => rw [ih hrest]

/-- A chain goes on from each of its places. -/
theorem Chain.suffix (h : Chain next null p ps) (hq : q ∈ ps) :
    ∃ qs, Chain next null q (q :: qs) ∧ q :: qs <:+ ps := by
  induction h with
  | nil => exact absurd hq List.not_mem_nil
  | cons hne hrest ih =>
    rcases List.mem_cons.mp hq with rfl | hq
    · exact ⟨_, .cons hne hrest, List.suffix_rfl⟩
    · obtain ⟨qs, hchain, hsuffix⟩ := ih hq
      exact ⟨qs, hchain, hsuffix.trans (List.suffix_cons _ _)⟩

/-- No place is met twice: it would start two chains of different lengths. -/
theorem Chain.nodup (h : Chain next null p ps) : ps.Nodup := by
  induction h with
  | nil => exact List.nodup_nil
  | @cons p ps hne hrest ih =>
    refine List.nodup_cons.mpr ⟨fun hmem => ?_, ih⟩
    obtain ⟨qs, hchain, hsuffix⟩ := hrest.suffix hmem
    have heq := hchain.unique (.cons hne hrest)
    have hle := hsuffix.length_le
    rw [heq, List.length_cons] at hle
    exact absurd hle (Nat.not_succ_le_self _)

/-- The first `n` places from `p` on, up to null. -/
def chainFrom [DecidableEq α] (next : α → α) (null : α) : ℕ → α → List α
  | 0, _ => []
  | n + 1, p => if p = null then [] else p :: chainFrom next null n (next p)

/-- A walk that is long enough finds the chain. -/
theorem Chain.chainFrom_eq [DecidableEq α] (h : Chain next null p ps) {n : ℕ}
    (hlen : ps.length ≤ n) :
    chainFrom next null n p = ps := by
  induction h generalizing n with
  | nil =>
    cases n with
    | zero => rfl
    | succ n => exact if_pos rfl
  | cons hne _ ih =>
    obtain ⟨n, rfl⟩ := Nat.exists_eq_add_of_le' (Nat.one_le_of_lt hlen)
    rw [chainFrom, if_neg hne, ih (Nat.le_of_succ_le_succ hlen)]

variable {diverge : ε} {round : σ → Except ε (Option σ)} {s s' : σ}

/-- **A loop over a chain ends**, with the invariant for all the places that it has gone over. -/
theorem whileLoop_chain (diverge : ε) (ptr : σ → α) (inv : List α → σ → Prop)
    (hstop : ∀ s, ptr s = null → round s = .ok none)
    (hstep : ∀ ds s, ptr s ∈ ps → ptr s ≠ null → inv ds s →
      ∃ s', round s = .ok (some s') ∧ ptr s' = next (ptr s) ∧ inv (ds ++ [ptr s]) s')
    (h : Chain next null (ptr s) ps) (hinv : inv [] s) :
    ∃ s', (∀ fuel, ps.length < fuel → whileLoop diverge round fuel s = .ok s') ∧ inv ps s' := by
  suffices hrest : ∀ qs ds s, ds ++ qs = ps → Chain next null (ptr s) qs → inv ds s →
      ∃ s', (∀ fuel, qs.length < fuel → whileLoop diverge round fuel s = .ok s') ∧ inv ps s' from
    hrest ps [] s (List.nil_append ps) h hinv
  intro qs
  induction qs with
  | nil =>
    intro ds s hps hchain hinv
    rw [List.append_nil] at hps
    -- an empty chain starts with null
    have hnull : ptr s = null := by
      generalize ptr s = p at hchain
      cases hchain
      rfl
    refine ⟨s, fun fuel hfuel => ?_, hps ▸ hinv⟩
    obtain ⟨fuel, rfl⟩ := Nat.exists_eq_add_one_of_ne_zero (Nat.ne_zero_of_lt hfuel)
    exact whileLoop_of_stop (hstop s hnull)
  | cons q qs ih =>
    intro ds s hps hchain hinv
    obtain ⟨heq, hne, hrest⟩ : ptr s = q ∧ ptr s ≠ null ∧ Chain next null (next (ptr s)) qs := by
      generalize ptr s = p at hchain
      cases hchain with
      | cons hne hrest => exact ⟨rfl, hne, hrest⟩
    have hmem : ptr s ∈ ps := by
      rw [← hps, heq]
      exact List.mem_append_right _ List.mem_cons_self
    obtain ⟨s₁, hround, hptr, hinv₁⟩ := hstep ds s hmem hne hinv
    have hps₁ : ds ++ [ptr s] ++ qs = ps := by
      rw [heq, List.append_assoc, List.singleton_append, hps]
    obtain ⟨s', hloop, hinv'⟩ := ih (ds ++ [ptr s]) s₁ hps₁ (hptr ▸ hrest) hinv₁
    refine ⟨s', fun fuel hfuel => ?_, hinv'⟩
    obtain ⟨fuel, rfl⟩ := Nat.exists_eq_add_one_of_ne_zero (Nat.ne_zero_of_lt hfuel)
    rw [whileLoop_of_step hround]
    exact hloop fuel (Nat.lt_of_succ_lt_succ hfuel)

/-- **A loop that ends has gone over a chain**, and each of its rounds has succeeded. -/
theorem exists_chain (next : α → α) {fuel : ℕ} (ptr : σ → α)
    (hstop : ∀ s, round s = .ok none → ptr s = null)
    (hstep : ∀ s s', round s = .ok (some s') → ptr s ≠ null ∧ ptr s' = next (ptr s))
    (h : whileLoop diverge round fuel s = .ok s') :
    ∃ ps, Chain next null (ptr s) ps ∧ ∀ p ∈ ps, ∃ t t', ptr t = p ∧ round t = .ok (some t') := by
  induction fuel generalizing s with
  | zero => exact absurd h (by simp [whileLoop])
  | succ fuel ih =>
    rw [whileLoop] at h
    cases hround : round s with
    | error e => simp [hround] at h
    | ok next? =>
      cases next? with
      | none => exact ⟨[], hstop s hround ▸ .nil, fun p hp => absurd hp List.not_mem_nil⟩
      | some s₁ =>
        simp only [hround] at h
        obtain ⟨ps, hchain, hall⟩ := ih h
        obtain ⟨hne, hptr⟩ := hstep s s₁ hround
        exact ⟨ptr s :: ps, .cons hne (hptr ▸ hchain),
          List.forall_mem_cons.mpr ⟨⟨s, s₁, rfl, hround⟩, hall⟩⟩

end JosVmx.Lib
