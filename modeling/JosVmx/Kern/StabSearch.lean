import JosVmx.Inc.Mmu
import JosVmx.Lib.Loop
import Mathlib.Data.Int.LeastGreatest

/-!
# Searching the debug tables

`stab_binsearch` of `kern/kdebug.c`, a binary search in a table whose entries of one type
are sorted, with entries of other types between them. When it meets the address that it
looks for it goes on with the next address, to find the right end of the region.

Indices are integers: the function computes `L - 1` for a region that starts at `L`, and a table
of twelve-byte entries in memory is too short for a sum of two indices to overflow an `int`. The
table is given by a partial function, so that each theorem says which entries are read.

## Main definitions

* `Kern.stabBinsearch`, `Kern.scanDown` — the function of the source, and its inner loops
* `Search.Step` — what a round of the search can do
* `Looks` — the entries at which a plain binary search for an index looks

## Main results

* `Kern.stabBinsearch_region` — on any table the search ends, reads only entries of its
  region and stays in it
* `Kern.stabBinsearch_contains` — when the search finds the entry that contains an address
* `Kern.stabBinsearch_absent_iff` — when the search reports that there is no such entry
-/

namespace JosVmx.Kern

open Lib

/-! ### The functions of the source -/

/-- `struct Stab`. -/
structure Stab where
  nStrx : Word
  nType : BitVec 8
  nDesc : BitVec 16
  nValue : Word
  deriving DecidableEq, Repr

/-- What goes wrong in an access to the debug tables. -/
inductive DebugFault
  /-- an entry outside the table -/
  | stab (i : ℤ)
  /-- a character outside the string table -/
  | string (i : ℕ)
  | panic (msg : String)
  | diverge
  deriving DecidableEq, Repr

/-- Access to the table of entries. -/
abbrev StabTable := ℤ → Except DebugFault Stab

def hasType (type : ℤ) (e : Stab) : Bool := decide ((e.nType.toNat : ℤ) = type)

/-- A round of `while (m >= bound && !stop(stabs[m])) m--`. -/
def scanRound (stabs : StabTable) (stop : Stab → Bool) (bound m : ℤ) :
    Except DebugFault (Option ℤ) :=
  if m < bound then .ok none
  else do
    let e ← stabs m
    if stop e then .ok none else .ok (some (m - 1))

/-- `while (m >= bound && !stop(stabs[m])) m--`. -/
def scanDown (stabs : StabTable) (stop : Stab → Bool) (bound m : ℤ) : Except DebugFault ℤ :=
  whileLoop .diverge (scanRound stabs stop bound) ((m + 1 - bound).toNat + 1) m

/-- The variables of `stab_binsearch`, with those that its pointer arguments point to. -/
structure Search where
  l : ℤ
  r : ℤ
  anyMatches : Bool
  regionLeft : ℤ
  regionRight : ℤ
  addr : Word

/-- A round of the main loop. -/
def searchRound (stabs : StabTable) (type : ℤ) (s : Search) : Except DebugFault (Option Search) :=
  if s.r < s.l then .ok none
  else do
    let trueM := (s.l + s.r).tdiv 2
    let m ← scanDown stabs (hasType type) s.l trueM
    if m < s.l then .ok (some { s with l := trueM + 1 })
    else do
      let e ← stabs m
      if e.nValue < s.addr then
        .ok (some { s with anyMatches := true, regionLeft := m, l := trueM + 1 })
      else if s.addr < e.nValue then
        .ok (some { s with anyMatches := true, regionRight := m - 1, r := m - 1 })
      else
        .ok (some { s with anyMatches := true, regionLeft := m, l := m, addr := s.addr + 1#32 })

/-- `stab_binsearch`, with the new values of `*region_left` and `*region_right`. -/
def stabBinsearch (stabs : StabTable) (regionLeft regionRight type : ℤ) (addr : Word) :
    Except DebugFault (ℤ × ℤ) := do
  let s ← whileLoop .diverge (searchRound stabs type) (2 * (regionRight + 1 - regionLeft).toNat + 2)
    ⟨regionLeft, regionRight, false, regionLeft, regionRight, addr⟩
  if s.anyMatches then do
    let l ← scanDown stabs (hasType type) (s.regionLeft + 1) s.regionRight
    .ok (l, s.regionRight)
  else .ok (s.regionLeft, s.regionLeft - 1)

/-! ### Scans -/

variable {stabs : StabTable} {e : ℤ → Stab} {stop : Stab → Bool} {type : ℤ} {bound m k : ℤ}

theorem scanRound_cases (stop : Stab → Bool) (hread : bound ≤ m → stabs m = .ok (e m)) :
    (m < bound ∨ bound ≤ m ∧ stop (e m) = true) ∧ scanRound stabs stop bound m = .ok none ∨
      bound ≤ m ∧ stop (e m) = false ∧ scanRound stabs stop bound m = .ok (some (m - 1)) := by
  by_cases hm : m < bound
  · exact .inl ⟨.inl hm, if_pos hm⟩
  · have hge := Int.not_lt.mp hm
    rw [scanRound, if_neg hm, hread hge, ok_bind]
    cases hstop : stop (e m) with
    | true => exact .inl ⟨.inr ⟨hge, rfl⟩, rfl⟩
    | false => exact .inr ⟨hge, rfl, rfl⟩

/-- A scan ends at the last entry that stops it, or below its bound. -/
theorem scanDown_ok (stop : Stab → Bool) (hread : ∀ i, bound ≤ i → i ≤ m → stabs i = .ok (e i))
    (hm : bound ≤ m + 1) :
    ∃ k, scanDown stabs stop bound m = .ok k ∧ bound ≤ k + 1 ∧ k ≤ m ∧
      (∀ i, k < i → i ≤ m → stop (e i) = false) ∧ (bound ≤ k → stop (e k) = true) := by
  have hloop : ∃ k, scanDown stabs stop bound m = .ok k ∧
      (bound ≤ k + 1 ∧ k ≤ m ∧ ∀ i, k < i → i ≤ m → stop (e i) = false) ∧
      scanRound stabs stop bound k = .ok none := by
    refine whileLoop_ok _ (fun k => (k + 1 - bound).toNat) ?_
      ⟨hm, le_rfl, fun i hi hi' => absurd hi (Int.not_lt.mpr hi')⟩ (Nat.lt_succ_self _)
    rintro k ⟨hge, hle, hpast⟩
    rcases scanRound_cases stop fun hk => hread k hk hle with
      ⟨-, hstop⟩ | ⟨hk, hnot, hnext⟩
    · exact .inl hstop
    · refine .inr ⟨k - 1, hnext, ⟨by omega, by omega, fun i hi hi' => ?_⟩, by omega⟩
      rcases Int.lt_or_eq_of_le (show k ≤ i by omega) with hlt | rfl
      · exact hpast i hlt hi'
      · exact hnot
  obtain ⟨k, hscan, ⟨hge, hle, hpast⟩, hstop⟩ := hloop
  refine ⟨k, hscan, hge, hle, hpast, fun hk => ?_⟩
  rcases scanRound_cases stop fun hk => hread k hk hle with
    ⟨hlt | ⟨-, htrue⟩, -⟩ | ⟨-, -, hnext⟩
  · exact absurd hk (Int.not_le.mpr hlt)
  · exact htrue
  · rw [hstop] at hnext
    exact absurd hnext (by simp)

theorem scanDown_of_lt (h : m < bound) : scanDown stabs stop bound m = .ok m := by
  rw [scanDown, whileLoop, scanRound, if_pos h]

/-! ### Rounds of the search -/

/-- Entry `i` has the type that is searched for. -/
def Matches (e : ℤ → Stab) (type i : ℤ) : Prop := hasType type (e i) = true

instance (e : ℤ → Stab) (type i : ℤ) : Decidable (Matches e type i) :=
  inferInstanceAs (Decidable (_ = true))

/-- The entry of the region at which the search looks: the last of the type in its left half. -/
structure Probe (e : ℤ → Stab) (type l r m : ℤ) : Prop where
  ge : l ≤ m
  le : m ≤ (l + r) / 2
  hit : Matches e type m
  last : ∀ i, m < i → i ≤ (l + r) / 2 → ¬ Matches e type i

/-- What a round can do. -/
inductive Search.Step (e : ℤ → Stab) (type : ℤ) (s : Search) : Search → Prop
  | miss (hle : s.l ≤ s.r) (hnone : ∀ i, s.l ≤ i → i ≤ (s.l + s.r) / 2 → ¬ Matches e type i) :
      Step e type s { s with l := (s.l + s.r) / 2 + 1 }
  | less {m : ℤ} (hm : Probe e type s.l s.r m) (hv : (e m).nValue < s.addr) :
      Step e type s { s with anyMatches := true, regionLeft := m, l := (s.l + s.r) / 2 + 1 }
  | greater {m : ℤ} (hm : Probe e type s.l s.r m) (hv : s.addr < (e m).nValue) :
      Step e type s { s with anyMatches := true, regionRight := m - 1, r := m - 1 }
  | equal {m : ℤ} (hm : Probe e type s.l s.r m) (hv : (e m).nValue = s.addr) :
      Step e type s
        { s with anyMatches := true, regionLeft := m, l := m, addr := s.addr + 1#32 }

open Search (Step)

variable {s s' s₀ : Search} {L R : ℤ} {addr : Word}

theorem searchRound_ok (type : ℤ) (hl : 0 ≤ s.l)
    (hread : ∀ i, s.l ≤ i → i ≤ s.r → stabs i = .ok (e i)) :
    s.r < s.l ∧ searchRound stabs type s = .ok none ∨
      ∃ s', searchRound stabs type s = .ok (some s') ∧ Step e type s s' := by
  by_cases hlt : s.r < s.l
  · exact .inl ⟨hlt, if_pos hlt⟩
  · have hmid : (s.l + s.r).tdiv 2 = (s.l + s.r) / 2 := Int.tdiv_eq_ediv_of_nonneg (by omega)
    obtain ⟨m, hscan, hge, hle, hpast, hhit⟩ := scanDown_ok (hasType type) (e := e)
      (fun i hi hi' => hread i hi (by omega)) (show s.l ≤ (s.l + s.r) / 2 + 1 by omega)
    have hnone : ∀ i, m < i → i ≤ (s.l + s.r) / 2 → ¬ Matches e type i := by
      intro i hi hi' hmatch
      rw [Matches, hpast i hi hi'] at hmatch
      exact absurd hmatch Bool.false_ne_true
    refine .inr ?_
    simp only [searchRound, if_neg hlt, hmid, hscan, ok_bind]
    by_cases hm : m < s.l
    · rw [if_pos hm]
      exact ⟨_, rfl, .miss (by omega) fun i hi => hnone i (by omega)⟩
    · have hprobe : Probe e type s.l s.r m := ⟨by omega, hle, hhit (by omega), hnone⟩
      rw [if_neg hm, hread m (by omega) (by omega), ok_bind]
      by_cases hv : (e m).nValue < s.addr
      · rw [if_pos hv]
        exact ⟨_, rfl, .less hprobe hv⟩
      · rw [if_neg hv]
        by_cases hv' : s.addr < (e m).nValue
        · rw [if_pos hv']
          exact ⟨_, rfl, .greater hprobe hv'⟩
        · rw [if_neg hv']
          have heq := BitVec.le_antisymm (BitVec.not_lt.mp hv') (BitVec.not_lt.mp hv)
          exact ⟨_, rfl, .equal hprobe heq⟩

/-! ### The whole search -/

/-- The search has not left its region. -/
structure InRegion (L R : ℤ) (s : Search) : Prop where
  ge : L ≤ s.regionLeft
  left_le : s.regionLeft ≤ s.l
  l_le : s.l ≤ s.r + 1
  le : s.r ≤ R
  right : s.regionRight = s.r

theorem InRegion.step (h : InRegion L R s) (hstep : Step e type s s') : InRegion L R s' := by
  obtain ⟨hge, hleft, hl, hle, hright⟩ := h
  cases hstep with
  | miss hlr => exact ⟨hge, by simp only; omega, by simp only; omega, hle, hright⟩
  | less hm =>
    have hm₁ := hm.ge
    have hm₂ := hm.le
    exact ⟨by simp only; omega, by simp only; omega, by simp only; omega, hle, hright⟩
  | greater hm =>
    have hm₁ := hm.ge
    have hm₂ := hm.le
    exact ⟨hge, hleft, by simp only; omega, by simp only; omega, rfl⟩
  | equal hm =>
    have hm₁ := hm.ge
    have hm₂ := hm.le
    exact ⟨by simp only; omega, le_rfl, by simp only; omega, hle, hright⟩

/-- What is left to search, twice over, with one more round for an exact match at its start. -/
def searchMeasure (e : ℤ → Stab) (type : ℤ) (s : Search) : ℕ :=
  2 * (s.r + 1 - s.l).toNat + if Matches e type s.l ∧ (e s.l).nValue = s.addr then 1 else 0

theorem searchMeasure_le (e : ℤ → Stab) (type : ℤ) (s : Search) :
    searchMeasure e type s ≤ 2 * (s.r + 1 - s.l).toNat + 1 := by
  rw [searchMeasure]
  split <;> omega

theorem searchMeasure_lt (hstep : Step e type s s') :
    searchMeasure e type s' < searchMeasure e type s := by
  -- every other round makes the region smaller
  have hshrinks (hwidth : (s'.r + 1 - s'.l).toNat < (s.r + 1 - s.l).toNat) :
      searchMeasure e type s' < searchMeasure e type s := by
    have hle := searchMeasure_le e type s'
    have hge : 2 * (s.r + 1 - s.l).toNat ≤ searchMeasure e type s := Nat.le_add_right ..
    omega
  cases hstep with
  | miss hlr => exact hshrinks (by simp only; omega)
  | less hm =>
    have hge := hm.ge
    have hle := hm.le
    exact hshrinks (by simp only; omega)
  | greater hm =>
    have hge := hm.ge
    have hle := hm.le
    exact hshrinks (by simp only; omega)
  | @equal m hm hv =>
    have hge := hm.ge
    have hle := hm.le
    by_cases heq : m = s.l
    · subst heq
      have hne : ¬ (e s.l).nValue = s.addr + 1#32 := by
        rw [hv]
        bv_omega
      rw [searchMeasure, searchMeasure, if_neg fun h => hne h.2, if_pos ⟨hm.hit, hv⟩]
      exact Nat.lt_succ_self _
    · exact hshrinks (by simp only; omega)

/-- The start of the search. -/
def Search.start (L R : ℤ) (addr : Word) : Search := ⟨L, R, false, L, R, addr⟩

/-- What the function makes of the state `s` in which its main loop ends. -/
inductive Outcome (e : ℤ → Stab) (type : ℤ) (s : Search) : ℤ → ℤ → Prop
  | absent (hany : s.anyMatches = false) : Outcome e type s s.regionLeft (s.regionLeft - 1)
  | below (hany : s.anyMatches = true) (hlt : s.r < s.regionLeft) : Outcome e type s s.r s.r
  | found {left : ℤ} (hany : s.anyMatches = true) (hge : s.regionLeft ≤ left) (hle : left ≤ s.r)
      (hlast : ∀ i, left < i → i ≤ s.r → ¬ Matches e type i)
      (hhit : s.regionLeft < left → Matches e type left) : Outcome e type s left s.r

/-- A search of `[L, R]` that ends with the region `[left, right]`. -/
structure Searched (e : ℤ → Stab) (type L R : ℤ) (addr : Word) (s : Search) (left right : ℤ) :
    Prop where
  run : Relation.ReflTransGen (Step e type) (.start L R addr) s
  inRegion : InRegion L R s
  done : s.r < s.l
  outcome : Outcome e type s left right

/-- The search ends, and reads only entries of its region. -/
theorem exists_searched (hread : ∀ i, L ≤ i → i ≤ R → stabs i = .ok (e i)) (hL : 0 ≤ L)
    (hLR : L ≤ R + 1) (type : ℤ) (addr : Word) :
    ∃ s left right, stabBinsearch stabs L R type addr = .ok (left, right) ∧
      Searched e type L R addr s left right := by
  -- the loop keeps its region inside that of the caller, and ends
  have hloop : ∃ s, whileLoop .diverge (searchRound stabs type) (2 * (R + 1 - L).toNat + 2)
      (.start L R addr) = .ok s ∧
      (Relation.ReflTransGen (Step e type) (.start L R addr) s ∧ InRegion L R s) ∧
      searchRound stabs type s = .ok none := by
    refine whileLoop_ok _ (searchMeasure e type) ?_ ⟨.refl, ⟨le_rfl, le_rfl, hLR, le_rfl, rfl⟩⟩
      (Nat.lt_succ_of_le (searchMeasure_le ..))
    rintro s ⟨hrun, hin⟩
    have hleft := hin.left_le
    have hge := hin.ge
    have hle := hin.le
    rcases searchRound_ok type (show 0 ≤ s.l by omega)
      fun i hi hi' => hread i (by omega) (by omega) with ⟨-, hstop⟩ | ⟨s', hround, hstep⟩
    · exact .inl hstop
    · exact .inr ⟨s', hround, ⟨hrun.tail hstep, hin.step hstep⟩, searchMeasure_lt hstep⟩
  obtain ⟨s, hloop, ⟨hrun, hin⟩, hstop⟩ := hloop
  have hge := hin.ge
  have hleft := hin.left_le
  have hle := hin.le
  have hdone : s.r < s.l := by
    rcases searchRound_ok type (show 0 ≤ s.l by omega)
      fun i hi hi' => hread i (by omega) (by omega) with ⟨hlt, -⟩ | ⟨s', hround, -⟩
    · exact hlt
    · rw [hstop] at hround
      exact absurd hround (by simp)
  have hsearch : stabBinsearch stabs L R type addr =
      if s.anyMatches then do
        let l ← scanDown stabs (hasType type) (s.regionLeft + 1) s.r
        .ok (l, s.r)
      else .ok (s.regionLeft, s.regionLeft - 1) := by
    rw [stabBinsearch, ← Search.start, hloop, ok_bind, hin.right]
  refine ⟨s, ?_⟩
  rw [hsearch]
  cases hany : s.anyMatches with
  | false => exact ⟨_, _, rfl, hrun, hin, hdone, .absent hany⟩
  | true =>
    rw [if_pos rfl]
    by_cases hlt : s.r < s.regionLeft
    · rw [scanDown_of_lt (by omega), ok_bind]
      exact ⟨_, _, rfl, hrun, hin, hdone, .below hany hlt⟩
    · obtain ⟨k, hscan, hk, hk', hpast, hhit⟩ := scanDown_ok (hasType type) (e := e)
        (fun i hi hi' => hread i (by omega) (by omega))
        (show s.regionLeft + 1 ≤ s.r + 1 by omega)
      rw [hscan, ok_bind]
      refine ⟨_, _, rfl, hrun, hin, hdone, .found hany (by omega) hk' (fun i hi hi' hmatch => ?_)
        fun hlt => hhit (by omega)⟩
      rw [Matches, hpast i hi hi'] at hmatch
      exact absurd hmatch Bool.false_ne_true

variable {left right : ℤ}

theorem Searched.bounds (h : Searched e type L R addr s left right) : L - 1 ≤ left ∧ right ≤ R := by
  have hge := h.inRegion.ge
  have hleft := h.inRegion.left_le
  have hl := h.inRegion.l_le
  have hle := h.inRegion.le
  cases h.outcome with
  | absent => omega
  | below => omega
  | found => omega

/-- **The search stays in its region** on any table: it ends, having read only entries of the
region. -/
theorem stabBinsearch_region (e : ℤ → Stab) (type L R : ℤ) (addr : Word) (hL : 0 ≤ L)
    (hLR : L ≤ R) :
    ∃ left right, stabBinsearch (fun i => if L ≤ i ∧ i ≤ R then .ok (e i) else .error (.stab i))
        L R type addr = .ok (left, right) ∧ L - 1 ≤ left ∧ right ≤ R := by
  have hread : ∀ i, L ≤ i → i ≤ R →
      (if L ≤ i ∧ i ≤ R then .ok (e i) else .error (.stab i) : Except DebugFault Stab) =
        .ok (e i) :=
    fun i hi hi' => if_pos ⟨hi, hi'⟩
  obtain ⟨s, left, right, hsearch, h⟩ := exists_searched hread hL (by omega) type addr
  exact ⟨left, right, hsearch, h.bounds⟩

/-- A table in descending order, searched for the last address. -/
theorem stabBinsearch_region_descending :
    ∃ left right, stabBinsearch (fun i => if 4 ≤ i ∧ i ≤ 6 then
      .ok ⟨0#32, 0x24#8, 0#16, 5#32 - BitVec.ofInt 32 i⟩ else .error (.stab i))
        4 6 0x24 0xFFFFFFFF#32 = .ok (left, right) ∧ 4 - 1 ≤ left ∧ right ≤ 6 :=
  stabBinsearch_region (fun i => ⟨0#32, 0x24#8, 0#16, 5#32 - BitVec.ofInt 32 i⟩) 0x24 4 6
    0xFFFFFFFF#32 (by decide) (by decide)

/-! ### When nothing is found -/

/-- What the flag says about the part of the region that the search has left behind. -/
structure Flagged (e : ℤ → Stab) (type L R : ℤ) (s : Search) : Prop where
  unseen : s.anyMatches = false →
    s.regionLeft = L ∧ s.r = R ∧ ∀ i, L ≤ i → i < s.l → ¬ Matches e type i
  seen : s.anyMatches = true → ∃ i, L ≤ i ∧ i ≤ R ∧ Matches e type i

theorem Flagged.step (h : Flagged e type L R s) (hin : InRegion L R s)
    (hstep : Step e type s s') : Flagged e type L R s' := by
  have hl := hin.ge.trans hin.left_le
  have hr := hin.le
  have hseen {m : ℤ} (hm : Probe e type s.l s.r m) : ∃ i, L ≤ i ∧ i ≤ R ∧ Matches e type i := by
    have hge := hm.ge
    have hle := hm.le
    exact ⟨m, by omega, by omega, hm.hit⟩
  cases hstep with
  | miss hle hnone =>
    refine ⟨fun hany => ?_, h.seen⟩
    obtain ⟨hleft, hright, hpast⟩ := h.unseen hany
    refine ⟨hleft, hright, fun i hi hi' => ?_⟩
    by_cases hlt : i < s.l
    · exact hpast i hi hlt
    · exact hnone i (by omega) (Int.lt_add_one_iff.mp hi')
  | less hm => exact ⟨fun hany => absurd hany.symm Bool.false_ne_true, fun _ => hseen hm⟩
  | greater hm => exact ⟨fun hany => absurd hany.symm Bool.false_ne_true, fun _ => hseen hm⟩
  | equal hm => exact ⟨fun hany => absurd hany.symm Bool.false_ne_true, fun _ => hseen hm⟩

/-- An invariant of the rounds in a region holds at the end of the search. -/
theorem Searched.invariant (inv : Search → Prop) (h : Searched e type L R addr s left right)
    (hLR : L ≤ R + 1) (hinit : inv (.start L R addr))
    (hstep : ∀ s s', InRegion L R s → inv s → Step e type s s' → inv s') : inv s := by
  have hrun := h.run
  clear h
  have hboth : InRegion L R s ∧ inv s := by
    induction hrun with
    | refl => exact ⟨⟨le_rfl, le_rfl, hLR, le_rfl, rfl⟩, hinit⟩
    | tail _ hlast ih => exact ⟨ih.1.step hlast, hstep _ _ ih.1 ih.2 hlast⟩
  exact hboth.2

theorem Searched.flagged (h : Searched e type L R addr s left right) (hLR : L ≤ R + 1) :
    Flagged e type L R s := by
  refine h.invariant _ hLR ⟨fun _ => ⟨rfl, rfl, ?_⟩, fun hany => absurd hany Bool.false_ne_true⟩
    fun _ _ hin hinv => hinv.step hin
  exact fun i hi hi' => absurd hi (Int.not_le.mpr hi')

/-- The search reports that there is no entry only if there is none of the type at all. -/
theorem Searched.absent_iff (h : Searched e type L R addr s left right) (hLR : L ≤ R + 1) :
    right < left ↔ ∀ i, L ≤ i → i ≤ R → ¬ Matches e type i := by
  have hflag := h.flagged hLR
  have hdone := h.done
  constructor
  · intro hlt
    cases h.outcome with
    | absent hany =>
      obtain ⟨-, hright, hpast⟩ := hflag.unseen hany
      exact fun i hi hi' => hpast i hi (by omega)
    | below => exact absurd hlt (lt_irrefl _)
    | found hany hge hle => omega
  · intro hnone
    have hunseen : s.anyMatches = false := by
      by_contra hany
      obtain ⟨i, hi, hi', hmatch⟩ := hflag.seen (Bool.not_eq_false _ ▸ hany)
      exact hnone i hi hi' hmatch
    cases h.outcome with
    | absent => omega
    | below hany => exact absurd (hunseen.symm.trans hany) Bool.false_ne_true
    | found hany => exact absurd (hunseen.symm.trans hany) Bool.false_ne_true

/-! ### The ends of the region -/

/-- The ends of the region are those of the start, or at entries of the type. -/
structure Edged (e : ℤ → Stab) (type L R : ℤ) (s : Search) : Prop where
  right : s.r = R ∨ Matches e type (s.r + 1)
  left : s.regionLeft = L ∨ s.regionLeft ≤ R ∧ Matches e type s.regionLeft

theorem Edged.step (h : Edged e type L R s) (hin : InRegion L R s) (hstep : Step e type s s') :
    Edged e type L R s' := by
  have hr := hin.le
  have hleft {m : ℤ} (hm : Probe e type s.l s.r m) : m ≤ R ∧ Matches e type m := by
    have hge := hm.ge
    have hle := hm.le
    exact ⟨by omega, hm.hit⟩
  cases hstep with
  | miss => exact ⟨h.right, h.left⟩
  | less hm => exact ⟨h.right, .inr (hleft hm)⟩
  | greater hm => exact ⟨.inr ((Int.sub_add_cancel _ 1).symm ▸ hm.hit), h.left⟩
  | equal hm => exact ⟨h.right, .inr (hleft hm)⟩

theorem Searched.edged (h : Searched e type L R addr s left right) (hLR : L ≤ R + 1) :
    Edged e type L R s :=
  h.invariant _ hLR ⟨.inl rfl, .inl rfl⟩ fun _ _ hin hinv => hinv.step hin

/-- Where the region that is returned starts, if not at an entry of the type. -/
theorem Searched.left_cases (h : Searched e type L R addr s left right) (hLR : L ≤ R)
    (hle : left ≤ right) (hnot : ¬ Matches e type left) :
    left = L ∨ left < R ∧ Matches e type (left + 1) ∧ right = left ∧ s.regionLeft = left + 1 := by
  have hedged := h.edged (by omega)
  have hleft := h.inRegion.left_le
  have hl := h.inRegion.l_le
  have hr := h.inRegion.le
  cases h.outcome with
  | absent => omega
  | below hany hlt =>
    have heq : s.regionLeft = s.r + 1 := by omega
    refine .inr ?_
    rcases eq_or_lt_of_le hr with hrR | hrR
    · rcases hedged.left with hL | ⟨hleR, -⟩ <;> omega
    · exact ⟨hrR, hedged.right.resolve_left hrR.ne, rfl, heq⟩
  | found hany hge hle' hlast hhit =>
    rcases eq_or_lt_of_le hge with heq | hlt
    · rcases hedged.left with hL | ⟨-, hmatch⟩
      · exact .inl (heq ▸ hL)
      · exact absurd (heq ▸ hmatch) hnot
    · exact absurd (hhit hlt) hnot

/-! ### Off the left end -/

/-- A plain binary search of `[l, r]` for the index `i` looks at entry `m`. -/
inductive Looks (e : ℤ → Stab) (type i : ℤ) : ℤ → ℤ → ℤ → Prop
  | here {l r m : ℤ} (hm : Probe e type l r m) : Looks e type i l r m
  | miss {l r m : ℤ} (hnone : ∀ j, l ≤ j → j ≤ (l + r) / 2 → ¬ Matches e type j)
      (hrest : Looks e type i ((l + r) / 2 + 1) r m) : Looks e type i l r m
  | right {l r k m : ℤ} (hk : Probe e type l r k) (hlt : k < i)
      (hrest : Looks e type i ((l + r) / 2 + 1) r m) : Looks e type i l r m
  | left {l r k m : ℤ} (hk : Probe e type l r k) (hlt : i < k)
      (hrest : Looks e type i l (k - 1) m) : Looks e type i l r m

theorem Probe.unique {l r m' : ℤ} (h : Probe e type l r m) (h' : Probe e type l r m') : m = m' := by
  by_contra hne
  rcases lt_or_gt_of_ne hne with hlt | hlt
  · exact h.last m' hlt h'.le h'.hit
  · exact h'.last m hlt h.le h.hit

theorem exists_probe {l r : ℤ} (h : ∃ i, l ≤ i ∧ i ≤ (l + r) / 2 ∧ Matches e type i) :
    ∃ m, Probe e type l r m := by
  obtain ⟨m, ⟨hge, hle, hhit⟩, hlast⟩ :=
    Int.exists_greatest_of_bdd ⟨(l + r) / 2, fun i hi => hi.2.1⟩ h
  exact ⟨m, hge, hle, hhit, fun i hi hi' hmatch =>
    absurd (hlast i ⟨by omega, hi', hmatch⟩) (Int.not_le.mpr hi)⟩

/-- What a search for `i` that looks at `m` does when its left half has no entry of the type. -/
theorem Looks.of_miss {i l r : ℤ} (h : Looks e type i l r m)
    (hnone : ∀ j, l ≤ j → j ≤ (l + r) / 2 → ¬ Matches e type j) :
    Looks e type i ((l + r) / 2 + 1) r m := by
  cases h with
  | here hk => exact absurd hk.hit (hnone m hk.ge hk.le)
  | miss _ hrest => exact hrest
  | right _ _ hrest => exact hrest
  | left hk => exact absurd hk.hit (hnone _ hk.ge hk.le)

/-- Behind an entry in front of `i` it goes on to the right. -/
theorem Looks.of_probe_lt {i l r : ℤ} (h : Looks e type i l r m) (hk : Probe e type l r k)
    (hki : k < i) (hne : k ≠ m) : Looks e type i ((l + r) / 2 + 1) r m := by
  cases h with
  | here hk' => exact absurd (hk.unique hk') hne
  | miss hnone => exact absurd hk.hit (hnone k hk.ge hk.le)
  | right _ _ hrest => exact hrest
  | left hk' hlt => exact absurd hki (Int.not_lt.mpr (hk.unique hk' ▸ hlt.le))

/-- In front of an entry behind `i` it goes on to the left. -/
theorem Looks.of_probe_ge {i l r : ℤ} (h : Looks e type i l r m) (hk : Probe e type l r k)
    (hik : i ≤ k) (hne : k ≠ m) : i < k ∧ Looks e type i l (k - 1) m := by
  cases h with
  | here hk' => exact absurd (hk.unique hk') hne
  | miss hnone => exact absurd hk.hit (hnone k hk.ge hk.le)
  | right hk' hlt => exact absurd hik (Int.not_le.mpr (hk.unique hk' ▸ hlt))
  | left hk' hlt hrest =>
    rw [hk.unique hk']
    exact ⟨hlt, hrest⟩

/-- An entry of the type behind the probe lies in the right half. -/
theorem Probe.mid_lt {l r i : ℤ} (hk : Probe e type l r k) (hki : k < i) (hi : Matches e type i) :
    (l + r) / 2 < i := by
  by_contra hmid
  exact hk.last i hki (Int.not_lt.mp hmid) hi

/-- A search for an entry of the type looks at it. -/
theorem looks_self {l : ℤ} (hl : Matches e type l) (r : ℤ) (hr : l ≤ r) : Looks e type l l r l := by
  obtain ⟨n, hn⟩ : ∃ n : ℕ, (r - l).toNat = n := ⟨_, rfl⟩
  induction n using Nat.strong_induction_on generalizing r with
  | _ n ih =>
    obtain ⟨m, hm⟩ : ∃ m, Probe e type l r m := exists_probe ⟨l, le_rfl, by omega, hl⟩
    have hge := hm.ge
    have hle := hm.le
    rcases eq_or_lt_of_le hge with rfl | hlt
    · exact .here hm
    · exact .left hm hlt (ih (m - 1 - l).toNat (by omega) (m - 1) (by omega) rfl)

theorem Search.Step.mono (hstep : Step e type s s') : s.l ≤ s'.l ∧ s'.l ≤ s'.r + 1 := by
  cases hstep with
  | miss hle => exact ⟨by simp only; omega, by simp only; omega⟩
  | less hm =>
    have hge := hm.ge
    have hle := hm.le
    exact ⟨by simp only; omega, by simp only; omega⟩
  | greater hm =>
    have hge := hm.ge
    exact ⟨le_rfl, by simp only; omega⟩
  | equal hm =>
    have hge := hm.ge
    have hle := hm.le
    exact ⟨hge, by simp only; omega⟩

theorem run_mono (hrun : Relation.ReflTransGen (Step e type) s s') (hl : s.l ≤ s.r + 1) :
    s.l ≤ s'.l ∧ s'.l ≤ s'.r + 1 := by
  induction hrun with
  | refl => exact ⟨le_rfl, hl⟩
  | tail _ hlast ih =>
    obtain ⟨hl₁, hr₁⟩ := ih
    obtain ⟨hl₂, hr₂⟩ := hlast.mono
    exact ⟨hl₁.trans hl₂, hr₂⟩

/-- All entries at which a search for the index `l` looks have a value above `addr`. -/
def AllAbove (e : ℤ → Stab) (type : ℤ) (addr : Word) (l r : ℤ) : Prop :=
  ∀ m, Looks e type l l r m → addr < (e m).nValue

/-- The search finds an exact match at the first entry, whose address is the last there is. -/
structure WrapsAt (e : ℤ → Stab) (type : ℤ) (addr : Word) (l r : ℤ) : Prop where
  addr : addr = 0xFFFFFFFF#32
  value : (e l).nValue = 0xFFFFFFFF#32
  probe : Probe e type l r l

theorem AllAbove.of_greater {l r : ℤ} (hm : Probe e type l r m) (hv : addr < (e m).nValue)
    (h : l < m → AllAbove e type addr l (m - 1)) : AllAbove e type addr l r := by
  intro k hk
  cases hk with
  | here hk => exact hm.unique hk ▸ hv
  | miss hnone => exact absurd hm.hit (hnone m hm.ge hm.le)
  | right hk hlt => exact absurd hk.ge (Int.not_le.mpr hlt)
  | left hk hlt hrest =>
    rw [← hm.unique hk] at hlt hrest
    exact h hlt k hrest

/-- A run that ends on the left of its start has gone left all the time, or has found an exact
match for the last address. -/
theorem left_of_run {u : Search} (hrun : Relation.ReflTransGen (Step e type) s u)
    (hl : s.l ≤ s.r + 1) (hu : u.r < s.l) :
    s.r < s.l ∧ u.regionLeft = s.regionLeft ∨ Matches e type s.l ∧
      (AllAbove e type s.addr s.l s.r ∧ u.regionLeft = s.regionLeft ∨
        WrapsAt e type s.addr s.l s.r) := by
  -- from the end of the run: the first round decides, the rest is the hypothesis
  induction hrun using Relation.ReflTransGen.head_induction_on with
  | refl => exact .inl ⟨hu, rfl⟩
  | @head s s' hstep hrest ih =>
    obtain ⟨hl', hr'⟩ := hstep.mono
    have hend := run_mono hrest hr'
    cases hstep with
    | miss hle => simp only at hend; omega
    | less hm =>
      have hge := hm.ge
      have hle := hm.le
      simp only at hend
      omega
    | @greater m hm hv =>
      have hge := hm.ge
      refine .inr ?_
      rcases ih hr' hu with ⟨hlt, hleft⟩ | ⟨hmatch, ⟨habove, hleft⟩ | hwrap⟩
      · have heq : m = s.l := by simp only at hlt; omega
        subst heq
        exact ⟨hm.hit, .inl ⟨.of_greater hm hv fun hlt => absurd hlt (lt_irrefl _), hleft⟩⟩
      · exact ⟨hmatch, .inl ⟨.of_greater hm hv fun _ => habove, hleft⟩⟩
      · rw [hwrap.addr] at hv
        bv_omega
    | @equal m hm hv =>
      have hge := hm.ge
      have heq : m = s.l := by simp only at hend; omega
      subst heq
      refine .inr ⟨hm.hit, .inr ?_⟩
      rcases ih hr' hu with ⟨hlt, -⟩ | ⟨-, ⟨habove, -⟩ | hwrap⟩
      · have hle := hm.le
        simp only at hlt
        omega
      · -- the search looks at the entry again, now with a larger address
        have hself := habove s.l (looks_self hm.hit _ (by have hle := hm.le; simp only; omega))
        simp only at hself
        exact ⟨by bv_omega, by bv_omega, hm⟩
      · have hvalue := hwrap.value
        have haddr := hwrap.addr
        simp only at hvalue haddr
        bv_omega

theorem Search.Step.le (hstep : Step e type s s') : s.l ≤ s.r := by
  cases hstep with
  | miss hle => exact hle
  | less hm =>
    have hge := hm.ge
    have hle := hm.le
    omega
  | greater hm =>
    have hge := hm.ge
    have hle := hm.le
    omega
  | equal hm =>
    have hge := hm.ge
    have hle := hm.le
    omega

/-- A run goes left as long as all entries at which it looks are above its address. -/
theorem AllAbove.run {u : Search} (h : s.l ≤ s.r → AllAbove e type s.addr s.l s.r)
    (hrun : Relation.ReflTransGen (Step e type) s u) (hmatch : Matches e type s.l)
    (hdone : u.r < u.l) : u.r < s.l := by
  induction hrun using Relation.ReflTransGen.head_induction_on with
  | refl => exact hdone
  | @head s s' hstep _ ih =>
    have habove := h hstep.le
    cases hstep with
    | miss hle hnone => exact absurd hmatch (hnone s.l le_rfl (by omega))
    | less hm hv => exact absurd hv (BitVec.lt_asymm (habove _ (.here hm)))
    | @greater m hm hv =>
      refine ih (fun hle k hk => ?_) hmatch
      exact habove k (.left hm (by simp only at hle; omega) hk)
    | equal hm hv => exact absurd (habove _ (.here hm)) (hv ▸ BitVec.lt_irrefl _)

theorem WrapsAt.run {u : Search} (h : WrapsAt e type s.addr s.l s.r)
    (hrun : Relation.ReflTransGen (Step e type) s u) (hdone : u.r < u.l) : u.r < s.l := by
  rcases hrun.cases_head with rfl | ⟨s', hstep, hrest⟩
  · exact hdone
  · have haddr := h.addr
    have hvalue := h.value
    have hprobe := h.probe
    cases hstep with
    | miss hle hnone => exact absurd hprobe.hit (hnone _ hprobe.ge hprobe.le)
    | less hm hv =>
      rw [← hprobe.unique hm, haddr, hvalue] at hv
      exact absurd hv (BitVec.lt_irrefl _)
    | greater hm hv =>
      rw [← hprobe.unique hm, haddr, hvalue] at hv
      exact absurd hv (BitVec.lt_irrefl _)
    | @equal m hm hv =>
      have heq := hprobe.unique hm
      subst heq
      have habove : AllAbove e type (s.addr + 1#32) s.l s.r := by
        refine .of_greater hprobe ?_ fun hlt => absurd hlt (lt_irrefl _)
        bv_omega
      exact AllAbove.run (s := ⟨s.l, s.r, true, s.l, s.regionRight, s.addr + 1#32⟩)
        (fun _ => habove) hrest hprobe.hit hdone

/-- **The search leaves its region** on the left only in these cases. -/
theorem Searched.left_eq_iff (h : Searched e type L R addr s left right) (hLR : L ≤ R) :
    left = L - 1 ↔
      Matches e type L ∧ AllAbove e type addr L R ∨ WrapsAt e type addr L R := by
  have hge := h.inRegion.ge
  have hleft := h.inRegion.left_le
  have hl := h.inRegion.l_le
  constructor
  · intro heq
    -- every outcome at L - 1 comes from a run that has left the region
    have hlt : s.r < L := by
      cases h.outcome with
      | absent => omega
      | below => omega
      | found _ hge' => omega
    rcases left_of_run h.run (by simp only [Search.start]; omega) hlt with
      ⟨hRL, -⟩ | ⟨hmatch, ⟨habove, -⟩ | hwrap⟩
    · exact absurd hLR (Int.not_le.mpr hRL)
    · exact .inl ⟨hmatch, habove⟩
    · exact .inr hwrap
  · intro hcase
    have hlt : s.r < L := by
      rcases hcase with ⟨hmatch, habove⟩ | hwrap
      · exact AllAbove.run (fun _ => habove) h.run hmatch h.done
      · exact WrapsAt.run hwrap h.run h.done
    cases h.outcome with
    | absent hany =>
      obtain ⟨-, hright, -⟩ := (h.flagged (by omega)).unseen hany
      omega
    | below => omega
    | found _ hge' hle' => omega

/-- The search finds an exact match for the last address there is at entry `p`, the first at
which it looks, and then leaves `p` on the left. -/
structure Loses (e : ℤ → Stab) (type : ℤ) (addr : Word) (l r p : ℤ) : Prop where
  addr : addr = 0xFFFFFFFF#32
  value : (e p).nValue = 0xFFFFFFFF#32
  hit : Matches e type p
  le : p ≤ r
  only : ∀ m, Looks e type p l r m → m = p
  rest : AllAbove e type 0#32 p r

/-- A run whose region ends right before the entry where it starts. -/
theorem loses_of_run {u : Search} {p : ℤ} (hrun : Relation.ReflTransGen (Step e type) s u)
    (hlp : s.l ≤ p) (hnone : ∀ i, s.l ≤ i → i < p → ¬ Matches e type i) (hleft : s.regionLeft < p)
    (hu : u.regionLeft = p) (hr : u.r = p - 1) : Loses e type s.addr s.l s.r p := by
  induction hrun using Relation.ReflTransGen.head_induction_on with
  | refl => omega
  | @head s s' hstep hrest ih =>
    have hend := run_mono hrest hstep.mono.2
    have hge {m : ℤ} (hm : Probe e type s.l s.r m) : p ≤ m := by
      by_contra hlt
      exact hnone m hm.ge (Int.not_le.mp hlt) hm.hit
    cases hstep with
    | miss hle hmiss =>
      simp only at hend
      obtain ⟨haddr, hvalue, hhit, hle, honly, habove⟩ :=
        ih (by simp only; omega) (fun i hi hi' => hnone i (by simp only at hi; omega) hi') hleft
      exact ⟨haddr, hvalue, hhit, hle, fun m hm => honly m (hm.of_miss hmiss), habove⟩
    | less hm =>
      have hle := hm.le
      have hpm := hge hm
      simp only at hend
      omega
    | greater hm hv =>
      have hlost := ih hlp hnone hleft
      have haddr := hlost.addr
      simp only at haddr
      rw [haddr] at hv
      bv_omega
    | @equal m hm hv =>
      have hpm := hge hm
      have hle := hm.le
      simp only at hend
      -- the match is at p, and the run leaves it on the left
      obtain rfl : m = p := by omega
      rcases left_of_run hrest (by simp only; omega) (by simp only; omega) with
        ⟨hlt, -⟩ | ⟨-, ⟨habove, -⟩ | hwrap⟩
      · simp only at hlt
        omega
      · have hself := habove m (looks_self hm.hit _ (by simp only; omega))
        simp only at hself
        have haddr : s.addr = 0xFFFFFFFF#32 := by bv_omega
        have hzero : s.addr + 1#32 = 0#32 := by rw [haddr]; rfl
        refine ⟨haddr, hv.trans haddr, hm.hit, by omega, fun k hk => ?_, hzero ▸ habove⟩
        cases hk with
        | here hk => exact hk.unique hm
        | miss hmiss => exact absurd hm.hit (hmiss m hm.ge hm.le)
        | right hk hlt => exact absurd (hk.unique hm) hlt.ne
        | left hk hlt => exact absurd (hk.unique hm) hlt.ne'
      · have hvalue := hwrap.value
        have haddr := hwrap.addr
        simp only at hvalue haddr
        bv_omega

/-- A run that loses entry `p` ends on its left. -/
theorem Loses.run {u : Search} {p : ℤ} (h : Loses e type s.addr s.l s.r p)
    (hrun : Relation.ReflTransGen (Step e type) s u) (hlp : s.l ≤ p) (hdone : u.r < u.l) :
    u.r < p ∧ u.regionLeft = p := by
  -- every probe of the run is p, until the address wraps to zero there
  induction hrun using Relation.ReflTransGen.head_induction_on with
  | refl =>
    have hle := h.le
    omega
  | @head s s' hstep hrest ih =>
    obtain ⟨haddr, hvalue, hhit, hle, honly, habove⟩ := h
    cases hstep with
    | miss hle' hmiss =>
      have hmid : (s.l + s.r) / 2 < p := by
        by_contra hge
        exact hmiss p hlp (Int.not_lt.mp hge) hhit
      refine ih ⟨haddr, hvalue, hhit, hle, fun m hm => honly m (.miss hmiss hm), habove⟩ ?_
      simp only
      omega
    | less hm hv =>
      rw [honly _ (.here hm), haddr, hvalue] at hv
      exact absurd hv (BitVec.lt_irrefl _)
    | greater hm hv =>
      rw [honly _ (.here hm), haddr, hvalue] at hv
      exact absurd hv (BitVec.lt_irrefl _)
    | @equal m hm hv =>
      obtain rfl := honly _ (.here hm)
      have hzero : s.addr + 1#32 = 0#32 := by rw [haddr]; rfl
      have hend := AllAbove.run (s := ⟨m, s.r, true, m, s.regionRight, s.addr + 1#32⟩)
        (fun _ => hzero ▸ habove) hrest hhit hdone
      refine ⟨hend, ?_⟩
      rcases left_of_run hrest (by simp only; omega) hend with
        ⟨-, hleft⟩ | ⟨-, ⟨-, hleft⟩ | hwrap⟩
      · exact hleft
      · exact hleft
      · exact absurd (hzero.symm.trans hwrap.addr) (by decide)

/-- **The search ends right before entry `p`**, having found it, only when it loses it. -/
theorem Searched.loses {p : ℤ} (h : Searched e type L R addr s left right) (hLp : L < p)
    (hnone : ∀ i, L ≤ i → i < p → ¬ Matches e type i) (hany : right = left)
    (hright : right = p - 1) (hleft : s.regionLeft = p) : Loses e type addr L R p := by
  have hr : s.r = p - 1 := by
    cases h.outcome with
    | absent => omega
    | below => exact hright
    | found => exact hright
  exact loses_of_run h.run hLp.le hnone hLp hleft hr

theorem Loses.searched {p : ℤ} (hlost : Loses e type addr L R p)
    (h : Searched e type L R addr s left right) (hLp : L < p) :
    left = p - 1 ∧ right = p - 1 := by
  have hpR := hlost.le
  have hge := h.inRegion.ge
  have hl := h.inRegion.left_le
  have hlr := h.inRegion.l_le
  obtain ⟨hr, hleft⟩ := hlost.run h.run hLp.le h.done
  have hend : s.r = p - 1 := by omega
  cases h.outcome with
  | absent hany =>
    have hunseen := (h.flagged (by omega)).unseen hany
    omega
  | below => exact ⟨hend, hend⟩
  | found _ hge' hle' => omega

theorem Searched.right_eq (h : Searched e type L R addr s left right) (heq : left = L - 1) :
    right = L - 1 := by
  have hge := h.inRegion.ge
  cases h.outcome with
  | absent => omega
  | below => exact heq
  | found _ hge' => omega

/-! ### When an entry is found -/

/-- The entries of the type are in the order of their values. -/
def SortedByValue (e : ℤ → Stab) (type L R : ℤ) : Prop :=
  ∀ i j, L ≤ i → i ≤ j → j ≤ R → Matches e type i → Matches e type j →
    (e i).nValue ≤ (e j).nValue

/-- `[left, right]` is the part of `[L, R]` from the last entry of the type with a value up to
`addr` to before the first with a larger value. -/
structure Contains (e : ℤ → Stab) (type L R : ℤ) (addr : Word) (left right : ℤ) : Prop where
  ge : L ≤ left
  le : left ≤ R
  hit : Matches e type left
  value : (e left).nValue ≤ addr
  last : ∀ i, left < i → i ≤ R → Matches e type i → addr < (e i).nValue
  stop : right = R ∨ right < R ∧ Matches e type (right + 1) ∧ addr < (e (right + 1)).nValue
  before : ∀ i, L ≤ i → i ≤ right → Matches e type i → (e i).nValue ≤ addr

/-- Entry `q` is the first of the type with the value that follows `addr`. -/
structure FirstNext (e : ℤ → Stab) (type L R : ℤ) (addr : Word) (q : ℤ) : Prop where
  ge : L ≤ q
  le : q ≤ R
  hit : Matches e type q
  value : (e q).nValue = addr + 1#32
  first : ∀ i, L ≤ i → i < q → Matches e type i → (e i).nValue ≤ addr

/-- On its way to the first entry with the value that follows `addr` a binary search does not
look at an entry with the value `addr`. -/
def NotMisled (e : ℤ → Stab) (type L R : ℤ) (addr : Word) : Prop :=
  ∀ q, FirstNext e type L R addr q → ∀ m, Looks e type q L R m → (e m).nValue ≠ addr

variable {q : ℤ}

/-- The entries on both sides of the region that is left to search. -/
structure Bracket (e : ℤ → Stab) (type L R : ℤ) (addr : Word) (s : Search) : Prop where
  low : ∀ i, L ≤ i → i < s.l → Matches e type i → (e i).nValue ≤ addr ∧ i ≤ s.regionLeft
  high : ∀ i, s.r < i → i ≤ R → Matches e type i → addr < (e i).nValue
  left : s.regionLeft = L ∨ (e s.regionLeft).nValue ≤ addr

/-- A round keeps the bracket unless it takes an entry with another value for an exact match. -/
theorem Bracket.step (h : Bracket e type L R addr s) (hsorted : SortedByValue e type L R)
    (hin : InRegion L R s) (haddr : addr ≤ s.addr) (haddr' : s.addr ≤ addr + 1#32)
    (hlt : addr < 0xFFFFFFFF#32)
    (hequal : ∀ m, Probe e type s.l s.r m → (e m).nValue = s.addr → s.addr = addr)
    (hstep : Step e type s s') : Bracket e type L R addr s' := by
  have hl := hin.ge.trans hin.left_le
  have hr := hin.le
  have hlow {m : ℤ} (hm : Probe e type s.l s.r m) (hv : (e m).nValue ≤ addr) {i : ℤ} (hi : L ≤ i)
      (hi' : i ≤ (s.l + s.r) / 2) (hmatch : Matches e type i) : (e i).nValue ≤ addr ∧ i ≤ m := by
    have hle := hm.le
    have hge := hm.ge
    have him : i ≤ m := by
      by_contra hgt
      exact hm.last i (Int.not_le.mp hgt) hi' hmatch
    exact ⟨BitVec.le_trans (hsorted i m hi him (by omega) hmatch hm.hit) hv, him⟩
  -- each kind of round moves one end past entries on the right side
  cases hstep with
  | miss hle hnone =>
    refine ⟨fun i hi hi' hmatch => ?_, h.high, h.left⟩
    by_cases hil : i < s.l
    · exact h.low i hi hil hmatch
    · exact absurd hmatch (hnone i (by omega) (Int.lt_add_one_iff.mp hi'))
  | @less m hm hv =>
    have hge := hm.ge
    have hle := hm.le
    have hvalue : (e m).nValue ≤ addr := by bv_omega
    exact ⟨fun i hi hi' hmatch => hlow hm hvalue hi (Int.lt_add_one_iff.mp hi') hmatch, h.high,
      .inr hvalue⟩
  | @greater m hm hv =>
    have hge := hm.ge
    have hle := hm.le
    have hvalue : addr < (e m).nValue := by bv_omega
    refine ⟨h.low, fun i hi hi' hmatch => ?_, h.left⟩
    have hle := hsorted m i (by omega) (by simp only at hi; omega) hi' hm.hit hmatch
    bv_omega
  | @equal m hm hv =>
    have hge := hm.ge
    have hle := hm.le
    have hvalue : (e m).nValue ≤ addr := by
      rw [hv, hequal m hm hv]
      exact BitVec.le_refl _
    exact ⟨fun i hi hi' hmatch => hlow hm hvalue hi (by simp only at hi'; omega) hmatch, h.high,
      .inr hvalue⟩

/-- With the bracket at its end the search has found the entry. -/
theorem Searched.contains (h : Searched e type L R addr s left right) (hLR : L ≤ R)
    (hbracket : Bracket e type L R addr s) {p : ℤ} (hp : L ≤ p) (hp' : p ≤ R)
    (hmatch : Matches e type p) (hvalue : (e p).nValue ≤ addr) :
    Contains e type L R addr left right := by
  have hflag := h.flagged (by omega)
  have hedged := h.edged (by omega)
  have hdone := h.done
  have hl := h.inRegion.l_le
  have hr := h.inRegion.le
  have hleft := h.inRegion.left_le
  have hge := h.inRegion.ge
  have hpr : p ≤ s.r := by
    by_contra hgt
    have hlt := hbracket.high p (Int.not_le.mp hgt) hp' hmatch
    bv_omega
  have hcontains (hleft_ge : L ≤ left) (hleft_le : left ≤ s.r) (hhit : Matches e type left)
      (hlast : ∀ i, left < i → i ≤ s.r → ¬ Matches e type i) :
      Contains e type L R addr left s.r := by
    refine ⟨hleft_ge, by omega, hhit, (hbracket.low left hleft_ge (by omega) hhit).1, ?_, ?_,
      fun i hi hi' hmatch => (hbracket.low i hi (by omega) hmatch).1⟩
    · intro i hi hi' hmatch
      by_cases hir : i ≤ s.r
      · exact absurd hmatch (hlast i hi hir)
      · exact hbracket.high i (Int.not_le.mp hir) hi' hmatch
    · rcases eq_or_lt_of_le hr with heq | hlt
      · exact .inl heq
      · have hnext := hedged.right.resolve_left hlt.ne
        exact .inr ⟨hlt, hnext, hbracket.high _ (Int.lt_succ _) hlt hnext⟩
  -- the ways the final scan can go
  cases h.outcome with
  | absent hany =>
    obtain ⟨-, hright, hpast⟩ := hflag.unseen hany
    exact absurd hmatch (hpast p hp (by omega))
  | below hany hlt =>
    rcases hbracket.left with heq | hvalue'
    · omega
    · rcases hedged.left with heq | ⟨hleR, hhit⟩
      · omega
      · have hgt := hbracket.high _ hlt hleR hhit
        bv_omega
  | found hany hle hle' hlast hhit =>
    refine hcontains (by omega) hle' ?_ hlast
    rcases eq_or_lt_of_le hle with heq | hlt
    · rcases hedged.left with hL | ⟨-, hhit'⟩
      · -- nothing has been seen on the left, so the entry is the first of the region
        have hpl : p = left := by
          by_contra hne
          exact hlast p (by omega) hpr hmatch
        exact hpl ▸ hmatch
      · exact heq ▸ hhit'
    · exact hhit hlt

/-- What keeps the search from taking an entry with the next value for an exact match. -/
def OnTrack (e : ℤ → Stab) (type L R : ℤ) (addr : Word) (s : Search) : Prop :=
  (s.addr = addr ∨ s.addr = addr + 1#32) ∧
    ((∀ i, s.l ≤ i → i ≤ s.r → Matches e type i → (e i).nValue ≠ addr + 1#32) ∨
      s.addr = addr ∧ ∃ q, FirstNext e type L R addr q ∧
        ∀ m, Looks e type q s.l s.r m → (e m).nValue ≠ addr)

/-- On the way to the first entry with the next value, an entry with a smaller value is before
it and one with a larger value is not. -/
theorem FirstNext.lt_of_value (hq : FirstNext e type L R addr q) (hlt : addr < 0xFFFFFFFF#32)
    (hsorted : SortedByValue e type L R) (hm : L ≤ m) (hm' : m ≤ R) (hhit : Matches e type m) :
    ((e m).nValue ≤ addr → m < q) ∧ (addr < (e m).nValue → q ≤ m) := by
  have hvalue := hq.value
  constructor
  · intro hle
    by_contra hge
    have hqm := hsorted q m hq.ge (Int.not_lt.mp hge) hm' hq.hit hhit
    bv_omega
  · intro hgt
    by_contra hmq
    have hle := hq.first m hm (Int.not_le.mp hmq) hhit
    bv_omega

/-- An entry at which the search looks lies in front of `q` if its value is small, and not in
front of it otherwise. -/
theorem FirstNext.probe_side (hq : FirstNext e type L R addr q) (hlt : addr < 0xFFFFFFFF#32)
    (hsorted : SortedByValue e type L R) (hin : InRegion L R s) (hk : Probe e type s.l s.r k) :
    ((e k).nValue ≤ addr → k < q) ∧ (addr < (e k).nValue → q ≤ k) := by
  have hl := hin.ge.trans hin.left_le
  have hr := hin.le
  have hge := hk.ge
  have hle := hk.le
  exact hq.lt_of_value hlt hsorted (by omega) (by omega) hk.hit

theorem OnTrack.step (h : OnTrack e type L R addr s) (hlt : addr < 0xFFFFFFFF#32)
    (hsorted : SortedByValue e type L R) (hin : InRegion L R s) (hstep : Step e type s s') :
    OnTrack e type L R addr s' := by
  have hl := hin.ge.trans hin.left_le
  have hr := hin.le
  -- either no entry has the next value any more, or the search goes towards q
  obtain ⟨haddr, hnone | ⟨heq, q, hq, hlook⟩⟩ := h
  · cases hstep with
    | miss => exact ⟨haddr, .inl fun i hi hi' => hnone i (by simp only at hi; omega) hi'⟩
    | @less m hm =>
      have hge := hm.ge
      have hle := hm.le
      exact ⟨haddr, .inl fun i hi hi' => hnone i (by simp only at hi; omega) hi'⟩
    | @greater m hm =>
      have hge := hm.ge
      have hle := hm.le
      exact ⟨haddr, .inl fun i hi hi' => hnone i hi (by simp only at hi'; omega)⟩
    | @equal m hm hv =>
      have hge := hm.ge
      have hle := hm.le
      have heq : s.addr = addr := by
        refine haddr.resolve_right fun heq => ?_
        exact hnone m hge (by omega) hm.hit (hv.trans heq)
      exact ⟨.inr (by simp only [heq]),
        .inl fun i hi hi' => hnone i (by simp only at hi; omega) hi'⟩
  · cases hstep with
    | miss hle hpast => exact ⟨haddr, .inr ⟨heq, q, hq, fun m hm => hlook m (.miss hpast hm)⟩⟩
    | @less k hk hv =>
      have hkq := (hq.probe_side hlt hsorted hin hk).1 (by bv_omega)
      exact ⟨haddr, .inr ⟨heq, q, hq, fun m hm => hlook m (.right hk hkq hm)⟩⟩
    | @greater k hk hv =>
      have hqk := (hq.probe_side hlt hsorted hin hk).2 (heq ▸ hv)
      rcases eq_or_lt_of_le hqk with rfl | hqk
      · -- the first entry with the next value is cut off with all those behind it
        refine ⟨haddr, .inl fun i hi hi' hmatch heq' => ?_⟩
        have hle' := hq.first i (by simp only at hi; omega) (by simp only at hi'; omega) hmatch
        bv_omega
      · exact ⟨haddr, .inr ⟨heq, q, hq, fun m hm => hlook m (.left hk hqk hm)⟩⟩
    | @equal k hk hv => exact absurd (hv.trans heq) (hlook k (.here hk))

/-- The search starts on the right track. -/
theorem NotMisled.onTrack (h : NotMisled e type L R addr) (hlt : addr < 0xFFFFFFFF#32)
    (hsorted : SortedByValue e type L R) : OnTrack e type L R addr (.start L R addr) := by
  refine ⟨.inl rfl, ?_⟩
  by_cases hex : ∃ i, L ≤ i ∧ i ≤ R ∧ Matches e type i ∧ (e i).nValue = addr + 1#32
  · obtain ⟨q, ⟨hge, hle, hhit, hvalue⟩, hleast⟩ :=
      Int.exists_least_of_bdd ⟨L, fun i hi => hi.1⟩ hex
    refine .inr ⟨rfl, q, ?_⟩
    have hq : FirstNext e type L R addr q := by
      refine ⟨hge, hle, hhit, hvalue, fun i hi hi' hmatch => ?_⟩
      have hsmall := hsorted i q hi hi'.le hle hmatch hhit
      have hne : (e i).nValue ≠ addr + 1#32 := fun heq =>
        absurd (hleast i ⟨hi, by omega, hmatch, heq⟩) (Int.not_le.mpr hi')
      bv_omega
    exact ⟨hq, h q hq⟩
  · exact .inl fun i hi hi' hmatch hvalue => hex ⟨i, hi, hi', hmatch, hvalue⟩

/-- A search that is not misled finds the entry. -/
theorem Searched.contains_of_notMisled (h : Searched e type L R addr s left right) (hLR : L ≤ R)
    (hsorted : SortedByValue e type L R) (hlt : addr < 0xFFFFFFFF#32)
    (hmisled : NotMisled e type L R addr) {p : ℤ} (hp : L ≤ p) (hp' : p ≤ R)
    (hmatch : Matches e type p) (hvalue : (e p).nValue ≤ addr) :
    Contains e type L R addr left right := by
  have hinv : OnTrack e type L R addr s ∧ Bracket e type L R addr s := by
    refine h.invariant (fun s => OnTrack e type L R addr s ∧ Bracket e type L R addr s) (by omega)
      ⟨hmisled.onTrack hlt hsorted, ?_⟩ ?_
    · exact ⟨fun i hi hi' => absurd hi (Int.not_le.mpr hi'),
        fun i hi hi' => absurd hi' (Int.not_le.mpr hi), .inl rfl⟩
    · rintro s s' hin ⟨htrack, hbracket⟩ hstep
      refine ⟨htrack.step hlt hsorted hin hstep,
        hbracket.step hsorted hin ?_ ?_ hlt (fun m hm hv => ?_) hstep⟩
      · rcases htrack.1 with heq | heq <;> bv_omega
      · rcases htrack.1 with heq | heq <;> bv_omega
      · have hge := hm.ge
        have hle := hm.le
        rcases htrack.2 with hnone | ⟨heq, -⟩
        · exact htrack.1.resolve_right fun heq =>
            hnone m hge (by omega) hm.hit (hv.trans heq)
        · exact heq
  exact h.contains hLR hinv.2 hp hp' hmatch hvalue

/-- What becomes of a search that looks at an entry with the value `addr` on its way to the
first entry `q` with the next value. -/
inductive Misled (e : ℤ → Stab) (type L R : ℤ) (addr : Word) (q : ℤ) (s : Search) : Prop
  /-- it will find an exact match before it looks at `q` -/
  | before {m : ℤ} (haddr : s.addr = addr) (hge : s.l ≤ q) (hle : q ≤ s.r)
      (hm : Looks e type q s.l s.r m) (hv : (e m).nValue = addr)
  /-- it now looks for the next address -/
  | next (haddr : s.addr = addr + 1#32) (hge : s.l ≤ q) (hle : q ≤ s.r)
  /-- it has taken an entry with a larger value -/
  | past {k : ℤ} (hge : L ≤ k) (hhit : Matches e type k) (hv : addr < (e k).nValue)
      (hleft : k ≤ s.regionLeft) (hright : k ≤ s.r)
      (hpast : k < s.l ∨ k = s.l ∧ (e k).nValue < s.addr)

/-- As long as the search does not look at the entry with the value `addr`, it goes the way of
a plain search for `q`, and so it still will. -/
theorem Misled.step_before (hq : FirstNext e type L R addr q) (hlt : addr < 0xFFFFFFFF#32)
    (hsorted : SortedByValue e type L R) (hin : InRegion L R s) (haddr : s.addr = addr)
    (hge : s.l ≤ q) (hle : q ≤ s.r) (hm : Looks e type q s.l s.r m) (hv : (e m).nValue = addr)
    (hstep : Step e type s s') : Misled e type L R addr q s' := by
  have hside {k : ℤ} (hk : Probe e type s.l s.r k) := hq.probe_side hlt hsorted hin hk
  cases hstep with
  | miss hlr hnone =>
    have hmid : (s.l + s.r) / 2 < q := by
      by_contra hqmid
      exact hnone q hge (Int.not_lt.mp hqmid) hq.hit
    exact .before haddr hmid hle (hm.of_miss hnone) hv
  | @less k hk hvk =>
    have hkq := (hside hk).1 (by bv_omega)
    have hne : k ≠ m := by
      rintro rfl
      rw [haddr, hv] at hvk
      exact absurd hvk (BitVec.lt_irrefl _)
    exact .before haddr (hk.mid_lt hkq hq.hit) hle (hm.of_probe_lt hk hkq hne) hv
  | @greater k hk hvk =>
    have hne : k ≠ m := by
      rintro rfl
      rw [haddr, hv] at hvk
      exact absurd hvk (BitVec.lt_irrefl _)
    obtain ⟨hqk, hrest⟩ := hm.of_probe_ge hk ((hside hk).2 (haddr ▸ hvk)) hne
    exact .before haddr hge (by simp only; omega) hrest hv
  | @equal k hk hvk =>
    have hkq := (hside hk).1 (by rw [hvk, haddr]; exact BitVec.le_refl _)
    exact .next (by simp only [haddr]) hkq.le hle

/-- A search for the next address keeps `q` in its region until it finds an entry with this
address, and then passes it. -/
theorem Misled.step_next (hq : FirstNext e type L R addr q) (hlt : addr < 0xFFFFFFFE#32)
    (hsorted : SortedByValue e type L R) (hin : InRegion L R s) (haddr : s.addr = addr + 1#32)
    (hge : s.l ≤ q) (hle : q ≤ s.r) (hstep : Step e type s s') :
    Misled e type L R addr q s' := by
  have hside {k : ℤ} (hk : Probe e type s.l s.r k) :=
    hq.probe_side (by bv_omega) hsorted hin hk
  have hvalue := hq.value
  cases hstep with
  | miss hlr hnone =>
    refine .next haddr ?_ hle
    by_contra hqmid
    exact hnone q hge (by simp only at hqmid; omega) hq.hit
  | @less k hk hvk =>
    have hkq := (hside hk).1 (by bv_omega)
    exact .next haddr (hk.mid_lt hkq hq.hit) hle
  | @greater k hk hvk =>
    have hqk := (hside hk).2 (by bv_omega)
    have hne : q ≠ k := by
      rintro rfl
      rw [haddr, hvalue] at hvk
      exact absurd hvk (BitVec.lt_irrefl _)
    exact .next haddr hge (by simp only; omega)
  | @equal k hk hvk =>
    have hl := hin.ge.trans hin.left_le
    have hge' := hk.ge
    have hle' := hk.le
    exact .past (by omega) hk.hit (by bv_omega) le_rfl (by simp only; omega)
      (.inr ⟨rfl, by bv_omega⟩)

/-- An entry that has been passed stays on the left of the search. -/
theorem Misled.step_past (hin : InRegion L R s) (hge : L ≤ k) (hhit : Matches e type k)
    (hv : addr < (e k).nValue) (hleft : k ≤ s.regionLeft) (hright : k ≤ s.r)
    (hpast : k < s.l ∨ k = s.l ∧ (e k).nValue < s.addr) (hstep : Step e type s s') :
    Misled e type L R addr q s' := by
  have hkl : k ≤ s.l := hleft.trans hin.left_le
  cases hstep with
  | miss hlr => exact .past hge hhit hv hleft hright (.inl (by simp only; omega))
  | @less m hm =>
    have hge' := hm.ge
    have hle' := hm.le
    exact .past hge hhit hv (by simp only; omega) hright (.inl (by simp only; omega))
  | @greater m hm hvm =>
    have hge' := hm.ge
    have hne : k ≠ m := by
      rintro rfl
      rcases hpast with hlt | ⟨-, hlt⟩
      · omega
      · exact BitVec.lt_asymm hlt hvm
    exact .past hge hhit hv hleft (by simp only; omega) hpast
  | @equal m hm hvm =>
    have hge' := hm.ge
    have hle' := hm.le
    have hne : k ≠ m := by
      rintro rfl
      rcases hpast with hlt | ⟨-, hlt⟩
      · omega
      · rw [hvm] at hlt
        exact BitVec.lt_irrefl _ hlt
    exact .past hge hhit hv (by simp only; omega) hright (.inl (by simp only; omega))

theorem Misled.step (h : Misled e type L R addr q s) (hq : FirstNext e type L R addr q)
    (hlt : addr < 0xFFFFFFFE#32) (hsorted : SortedByValue e type L R) (hin : InRegion L R s)
    (hstep : Step e type s s') : Misled e type L R addr q s' := by
  cases h with
  | before haddr hge hle hm hv =>
    exact .step_before hq (by bv_omega) hsorted hin haddr hge hle hm hv hstep
  | next haddr hge hle => exact .step_next hq hlt hsorted hin haddr hge hle hstep
  | past hge hhit hv hleft hright hpast =>
    exact .step_past hin hge hhit hv hleft hright hpast hstep

/-- A search that is misled returns a later entry. -/
theorem Searched.notMisled_of_contains (h : Searched e type L R addr s left right) (hLR : L ≤ R)
    (hsorted : SortedByValue e type L R) (hlt : addr < 0xFFFFFFFE#32)
    (hcontains : Contains e type L R addr left right) : NotMisled e type L R addr := by
  intro q hq m hm hv
  have hdone := h.done
  have hmisled := h.invariant (Misled e type L R addr q) (by omega)
    (.before rfl hq.ge hq.le hm hv) fun s s' hin hinv => hinv.step hq hlt hsorted hin
  cases hmisled with
  | before _ hge hle => omega
  | next _ hge hle => omega
  | @past k hge hhit hvalue hleft hright =>
    have hk : k ≤ left := by
      cases h.outcome with
      | absent => exact hleft
      | below => exact hright
      | found _ hle => exact hleft.trans hle
    have hle := hsorted k left hge hk hcontains.le hhit hcontains.hit
    have hle' := hcontains.value
    bv_omega

/-! ### Tables -/

/-- Entry `i` of a table. -/
def entry (stabs : List Stab) (i : ℤ) : Stab := stabs.getD i.toNat ⟨0#32, 0#8, 0#16, 0#32⟩

/-- The entries of a table in memory. -/
def stabTable (stabs : List Stab) : StabTable := fun i =>
  if 0 ≤ i ∧ i < stabs.length then .ok (entry stabs i) else .error (.stab i)

theorem stabTable_ok {stabs : List Stab} {i : ℤ} (h : 0 ≤ i) (h' : i < stabs.length) :
    stabTable stabs i = .ok (entry stabs i) := if_pos ⟨h, h'⟩

/-- A search of a region of a table. -/
theorem exists_searched_table (stabs : List Stab) (type : ℤ) {L R : ℤ} (addr : Word) (hL : 0 ≤ L)
    (hLR : L ≤ R + 1) (hR : R < stabs.length) :
    ∃ s left right, stabBinsearch (stabTable stabs) L R type addr = .ok (left, right) ∧
      Searched (entry stabs) type L R addr s left right :=
  exists_searched (fun _ hi hi' => stabTable_ok (hL.trans hi) (Int.lt_of_le_of_lt hi' hR)) hL hLR
    type addr

/-- **The search finds the containing entry** as long as it is not misled by an entry with the
next address. -/
theorem stabBinsearch_contains (stabs : List Stab) (type L R : ℤ) (addr : Word) (hL : 0 ≤ L)
    (hLR : L ≤ R) (hR : R < stabs.length) (hsorted : SortedByValue (entry stabs) type L R)
    (hlt : addr < 0xFFFFFFFF#32)
    (hex : ∃ p, L ≤ p ∧ p ≤ R ∧ Matches (entry stabs) type p ∧ (entry stabs p).nValue ≤ addr) :
    ∃ left right, stabBinsearch (stabTable stabs) L R type addr = .ok (left, right) ∧
      (NotMisled (entry stabs) type L R addr → Contains (entry stabs) type L R addr left right) ∧
      (addr ≠ 0xFFFFFFFE#32 → Contains (entry stabs) type L R addr left right →
        NotMisled (entry stabs) type L R addr) := by
  obtain ⟨s, left, right, hsearch, h⟩ :=
    exists_searched_table stabs type addr hL (by omega : L ≤ R + 1) hR
  obtain ⟨p, hp, hp', hmatch, hvalue⟩ := hex
  refine ⟨left, right, hsearch, fun hmisled => ?_, fun hne hcontains => ?_⟩
  · exact h.contains_of_notMisled hLR hsorted hlt hmisled hp hp' hmatch hvalue
  · exact h.notMisled_of_contains hLR hsorted (by bv_omega) hcontains

/-- Two files, at `0xF0100000` and at the next address. -/
def adjacentFiles : List Stab :=
  [⟨1#32, 0x64#8, 0#16, 0xF0100000#32⟩, ⟨7#32, 0x64#8, 0#16, 0xF0100001#32⟩]

theorem adjacentFiles_sorted : SortedByValue (entry adjacentFiles) 0x64 0 1 := by
  intro i j hi hij hj _ _
  obtain rfl | rfl : i = 0 ∨ i = 1 := by omega
  · obtain rfl | rfl : j = 0 ∨ j = 1 := by omega
    · decide
    · decide
  · obtain rfl : j = 1 := by omega
    decide

theorem stabBinsearch_contains_adjacent :
    ∃ left right, stabBinsearch (stabTable adjacentFiles) 0 1 0x64 0xF0100040#32 =
        .ok (left, right) ∧
      (NotMisled (entry adjacentFiles) 0x64 0 1 0xF0100040#32 →
        Contains (entry adjacentFiles) 0x64 0 1 0xF0100040#32 left right) ∧
      (0xF0100040#32 ≠ 0xFFFFFFFE#32 →
        Contains (entry adjacentFiles) 0x64 0 1 0xF0100040#32 left right →
        NotMisled (entry adjacentFiles) 0x64 0 1 0xF0100040#32) :=
  stabBinsearch_contains adjacentFiles 0x64 0 1 0xF0100040#32 (by decide) (by decide) (by decide)
    adjacentFiles_sorted (by decide) ⟨0, by decide, by decide, by decide, by decide⟩

/-- The first address is found in the second file. -/
theorem not_contains_adjacent :
    SortedByValue (entry adjacentFiles) 0x64 0 1 ∧ Matches (entry adjacentFiles) 0x64 0 ∧
      (entry adjacentFiles 0).nValue ≤ 0xF0100000#32 ∧
      stabBinsearch (stabTable adjacentFiles) 0 1 0x64 0xF0100000#32 = .ok (1, 1) ∧
      ¬ Contains (entry adjacentFiles) 0x64 0 1 0xF0100000#32 1 1 :=
  ⟨adjacentFiles_sorted, by decide, by decide, by rfl, fun h => absurd h.value (by decide)⟩

/-- **The search reports absence** of an entry only where there is none of the type. -/
theorem stabBinsearch_absent_iff (stabs : List Stab) (type L R : ℤ) (addr : Word) (hL : 0 ≤ L)
    (hLR : L ≤ R) (hR : R < stabs.length) :
    ∃ left right, stabBinsearch (stabTable stabs) L R type addr = .ok (left, right) ∧
      (right < left ↔ ∀ i, L ≤ i → i ≤ R → ¬ Matches (entry stabs) type i) := by
  obtain ⟨s, left, right, hsearch, h⟩ :=
    exists_searched_table stabs type addr hL (by omega : L ≤ R + 1) hR
  exact ⟨left, right, hsearch, h.absent_iff (by omega)⟩

/-- A file with a function at `0xF0100040`. -/
def lateFunction : List Stab :=
  [⟨1#32, 0x64#8, 0#16, 0xF0100000#32⟩, ⟨7#32, 0x24#8, 0#16, 0xF0100040#32⟩]

theorem stabBinsearch_absent_iff_late :
    ∃ left right, stabBinsearch (stabTable lateFunction) 0 1 0x24 0xF0100010#32 =
        .ok (left, right) ∧
      (right < left ↔ ∀ i, 0 ≤ i → i ≤ 1 → ¬ Matches (entry lateFunction) 0x24 i) :=
  stabBinsearch_absent_iff lateFunction 0x24 0 1 0xF0100010#32 (by decide) (by decide) (by decide)

/-- An address before the function is found in a region without functions. -/
theorem not_absent_late :
    (∀ i, 0 ≤ i → i ≤ 1 → Matches (entry lateFunction) 0x24 i →
      0xF0100010#32 < (entry lateFunction i).nValue) ∧
      stabBinsearch (stabTable lateFunction) 0 1 0x24 0xF0100010#32 = .ok (0, 0) := by
  refine ⟨fun i hi hi' hmatch => ?_, by rfl⟩
  obtain rfl | rfl : i = 0 ∨ i = 1 := by omega
  · exact absurd hmatch (by decide)
  · decide

end JosVmx.Kern
