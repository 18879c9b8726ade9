import Mathlib.Algebra.Order.Floor.Div
import Mathlib.Order.CompletePartialOrder
import Mathlib.Order.Interval.Set.Disjoint

/-!
# Bump allocation

A bump allocator keeps one pointer to the first free byte. A request of `n` bytes returns the
pointer and moves it past the bytes, to the next multiple of the alignment. The regions it
hands out follow each other, so they are disjoint and lie above the start; below a limit they
lie only if the requests, each rounded up, fit in.

## Main definitions

* `alignUp` — a number rounded up to a multiple
* `regions` — the regions handed out for a list of requests
* `Granted` — what the users of an allocator rely on

## Main results

* `granted_regions` — the regions of requests that fit in are as the users expect
-/

namespace JosVmx.Lib

/-- `v` rounded up to a multiple of `a`. -/
def alignUp (a v : ℕ) : ℕ := a * (v ⌈/⌉ a)

section AlignUp

variable {a v w n : ℕ}

theorem dvd_alignUp (a v : ℕ) : a ∣ alignUp a v := Dvd.intro _ rfl

theorem alignUp_le_iff (ha : 0 < a) (hw : a ∣ w) : alignUp a v ≤ w ↔ v ≤ w := by
  obtain ⟨k, rfl⟩ := hw
  rw [alignUp, Nat.mul_le_mul_left_iff ha, ceilDiv_le_iff_le_mul ha]

theorem le_alignUp (ha : 0 < a) (v : ℕ) : v ≤ alignUp a v :=
  (alignUp_le_iff ha (dvd_alignUp a v)).mp le_rfl

/-- Rounding up starts behind an aligned address. -/
theorem alignUp_add (ha : 0 < a) (hv : a ∣ v) : alignUp a (v + n) = v + alignUp a n := by
  apply le_antisymm
  · rw [alignUp_le_iff ha (Nat.dvd_add hv (dvd_alignUp a n))]
    exact Nat.add_le_add_left (le_alignUp ha n) v
  · have hle : v ≤ alignUp a (v + n) := le_trans (Nat.le_add_right v n) (le_alignUp ha _)
    have hrest : alignUp a n ≤ alignUp a (v + n) - v := by
      rw [alignUp_le_iff ha (Nat.dvd_sub (dvd_alignUp a _) hv)]
      have := le_alignUp ha (v + n)
      omega
    omega

/-- Below an aligned limit a request fits in if and only if it does so rounded up. -/
theorem add_alignUp_le_iff (ha : 0 < a) (hv : a ∣ v) (hw : a ∣ w) :
    v + alignUp a n ≤ w ↔ v + n ≤ w := by
  rw [← alignUp_add ha hv, alignUp_le_iff ha hw]

end AlignUp

/-- A region: its start and its size. -/
abbrev Region := ℕ × ℕ

/-- The addresses of a region. -/
def Region.bytes (r : Region) : Set ℕ := Set.Ico r.1 (r.1 + r.2)

/-- What the users of an allocator of memory from `base` to `limit` rely on: the regions are
aligned, lie in this memory and are disjoint, and an empty request returns where the next
nonempty one will start. -/
structure Granted (a base limit : ℕ) (rs : List Region) : Prop where
  aligned : ∀ r ∈ rs, a ∣ r.1
  base_le : ∀ r ∈ rs, base ≤ r.1
  le_limit : ∀ r ∈ rs, r.1 + r.2 ≤ limit
  disjoint : rs.Pairwise fun r r' => Disjoint r.bytes r'.bytes
  next : ∀ pre r zs r' post, rs = pre ++ r :: (zs ++ r' :: post) → r.2 = 0 →
    (∀ z ∈ zs, z.2 = 0) → r'.2 ≠ 0 → r.1 = r'.1

theorem granted_nil (a base limit : ℕ) : Granted a base limit [] :=
  ⟨by simp, by simp, by simp, List.Pairwise.nil, by simp⟩

/-- The regions handed out for the requests `ns`, from an aligned address `v` on. -/
def regions (a v : ℕ) : List ℕ → List Region
  | [] => []
  | n :: ns => (v, n) :: regions a (v + alignUp a n) ns

section Regions

variable {a v limit : ℕ} {ns : List ℕ}

/-- The space the requests take, each rounded up. -/
def extent (a : ℕ) (ns : List ℕ) : ℕ := (ns.map (alignUp a)).sum

theorem extent_cons (n : ℕ) (ns : List ℕ) : extent a (n :: ns) = alignUp a n + extent a ns :=
  List.sum_cons

theorem regions_ge : ∀ r ∈ regions a v ns, v ≤ r.1 := by
  induction ns generalizing v with
  | nil => exact fun r hr => absurd hr List.not_mem_nil
  | cons n ns ih =>
    intro r hr
    rcases List.mem_cons.mp hr with rfl | hr
    · exact le_rfl
    · exact le_trans (Nat.le_add_right ..) (ih r hr)

theorem regions_aligned (hv : a ∣ v) : ∀ r ∈ regions a v ns, a ∣ r.1 := by
  induction ns generalizing v with
  | nil => exact fun r hr => absurd hr List.not_mem_nil
  | cons n ns ih =>
    intro r hr
    rcases List.mem_cons.mp hr with rfl | hr
    · exact hv
    · exact ih (Nat.dvd_add hv (dvd_alignUp a n)) r hr

theorem regions_le (ha : 0 < a) (h : v + extent a ns ≤ limit) :
    ∀ r ∈ regions a v ns, r.1 + r.2 ≤ limit := by
  induction ns generalizing v with
  | nil => exact fun r hr => absurd hr List.not_mem_nil
  | cons n ns ih =>
    rw [extent_cons, ← Nat.add_assoc] at h
    intro r hr
    rcases List.mem_cons.mp hr with rfl | hr
    · have hn := le_alignUp ha n
      change v + n ≤ limit
      omega
    · exact ih h r hr

/-- Each region ends where the later ones start, or before. -/
theorem regions_pairwise (ha : 0 < a) :
    (regions a v ns).Pairwise fun r r' => r.1 + r.2 ≤ r'.1 := by
  induction ns generalizing v with
  | nil => exact List.Pairwise.nil
  | cons n ns ih =>
    refine List.Pairwise.cons (fun r hr => ?_) ih
    exact le_trans (Nat.add_le_add_left (le_alignUp ha n) v) (regions_ge r hr)

/-- Empty requests do not move the pointer. -/
theorem regions_next_nonempty {zs post : List Region} {r : Region}
    (h : regions a v ns = zs ++ r :: post) (hzs : ∀ z ∈ zs, z.2 = 0) : r.1 = v := by
  induction zs generalizing v ns with
  | nil =>
    cases ns with
    | nil => exact absurd h (by simp [regions])
    | cons n ns => exact (congrArg Prod.fst (List.cons_eq_cons.mp h).1).symm
  | cons z zs ih =>
    cases ns with
    | nil => exact absurd h (by simp [regions])
    | cons n ns =>
      obtain ⟨hz, hrest⟩ := List.cons_eq_cons.mp h
      have hn : n = 0 := (congrArg Prod.snd hz).trans (hzs z (List.mem_cons_self ..))
      have hsame : v + alignUp a n = v := by simp [hn, alignUp]
      rw [hsame] at hrest
      exact ih hrest fun z' hz' => hzs z' (List.mem_cons_of_mem _ hz')

theorem regions_next {pre zs post : List Region} {r r' : Region}
    (h : regions a v ns = pre ++ r :: (zs ++ r' :: post)) (hr : r.2 = 0)
    (hzs : ∀ z ∈ zs, z.2 = 0) : r.1 = r'.1 := by
  induction pre generalizing v ns with
  | nil =>
    have hzeros : ∀ z ∈ r :: zs, z.2 = 0 := by
      intro z hz
      rcases List.mem_cons.mp hz with rfl | hz
      · exact hr
      · exact hzs z hz
    have hstart : r.1 = v := regions_next_nonempty h (by simp)
    have hrest : regions a v ns = (r :: zs) ++ r' :: post := h
    exact hstart.trans (regions_next_nonempty hrest hzeros).symm
  | cons q pre ih =>
    cases ns with
    | nil => exact absurd h (by simp [regions])
    | cons n ns => exact ih (List.cons_eq_cons.mp h).2

/-- The regions of requests that fit in are as the users of the allocator expect. -/
theorem granted_regions (ha : 0 < a) (hv : a ∣ v) (h : v + extent a ns ≤ limit) :
    Granted a v limit (regions a v ns) where
  aligned := regions_aligned hv
  base_le := regions_ge
  le_limit := regions_le ha h
  disjoint := by
    refine (regions_pairwise ha).imp fun {r r'} hle => ?_
    rw [Region.bytes, Region.bytes, Set.Ico_disjoint_Ico]
    exact le_trans (min_le_left ..) (le_trans hle (le_max_right ..))
  next _ _ _ _ _ hrs hr hzs _ := regions_next hrs hr hzs

end Regions

end JosVmx.Lib
