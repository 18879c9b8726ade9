import JosVmx.Kern.PageRefine
import JosVmx.Lib.Rank
import Mathlib.Data.Fintype.Prod

/-!
# Ownership of physical pages

Every page that `page_init` puts on the free list is from then on either free or
allocated, and the reference count of an allocated page is the number of user page table
entries that map it plus the number of user directory entries that use it as a page
table. The invariant `Owned` says so, with room for references that are held elsewhere:
`page_insert` counts its reference before it writes the entry.

Counts are 16 bits wide, so the invariant relates them to the number of references
modulo `2^16`, and a page is freed with its last reference only if it never has more
than 65535 of them.

## Main definitions

* `refs` — the number of references to a page
* `Kern.Owned` — the invariant
-/

namespace JosVmx

open Lib

/-! ### Counting references -/

section Refs

variable (m : Mem) (pgdir pp : ℕ)

/-- The user page is mapped to `pp`. -/
def MapsTo (x : VPage) : Prop :=
  x.User ∧ present (slot m pgdir x) ∧ frameOf (slot m pgdir x) = pp

/-- The user directory entry uses `pp` as a page table. -/
def TableAt (d : Fin 1024) : Prop :=
  d.val < userEntries ∧ present (m pgdir d) ∧ frameOf (m pgdir d) = pp

instance (x : VPage) : Decidable (VPage.User x) := inferInstanceAs (Decidable (_ < _))

instance : DecidablePred (MapsTo m pgdir pp) := fun _ => inferInstanceAs (Decidable (_ ∧ _ ∧ _))

instance : DecidablePred (TableAt m pgdir pp) := fun _ => inferInstanceAs (Decidable (_ ∧ _ ∧ _))

/-- The number of references to a page below `UTOP`. -/
def refs : ℕ :=
  (Finset.univ.filter (MapsTo m pgdir pp)).card + (Finset.univ.filter (TableAt m pgdir pp)).card

variable {m pgdir pp}

theorem refs_eq_zero_iff :
    refs m pgdir pp = 0 ↔ (∀ x, ¬ MapsTo m pgdir pp x) ∧ ∀ d, ¬ TableAt m pgdir pp d := by
  rw [refs, Nat.add_eq_zero_iff, Finset.card_eq_zero, Finset.card_eq_zero,
    Finset.filter_eq_empty_iff, Finset.filter_eq_empty_iff]
  simp only [Finset.mem_univ, forall_true_left]

theorem refs_pos_of_mapsTo {x : VPage} (h : MapsTo m pgdir pp x) : 0 < refs m pgdir pp := by
  rw [Nat.pos_iff_ne_zero]
  exact fun hzero => (refs_eq_zero_iff.mp hzero).1 x h

/-- A store to an entry of a user page table changes the references to the page that the
entry mapped and to the page that it maps now. -/
theorem refs_set (pp : ℕ) (ht : UserTables m pgdir) {y : VPage} {v : Word} (hy : y.User)
    (hpde : m pgdir y.1 ≠ 0#32) :
    refs (m.set (frameOf (m pgdir y.1)) y.2 v) pgdir pp +
        (if MapsTo m pgdir pp y then 1 else 0) =
      refs m pgdir pp + (if present v ∧ frameOf v = pp then 1 else 0) := by
  have hdir := set_table_pgdir (v := v) ht.toDistinctTables hy hpde
  have htable : ∀ d, TableAt (m.set (frameOf (m pgdir y.1)) y.2 v) pgdir pp d ↔
      TableAt m pgdir pp d := fun d => by rw [TableAt, hdir, TableAt]
  have hother : ∀ x, x ≠ y → (MapsTo (m.set (frameOf (m pgdir y.1)) y.2 v) pgdir pp x ↔
      MapsTo m pgdir pp x) := by
    intro x hxy
    refine and_congr_right fun hx => ?_
    rw [slot_set ht.toDistinctTables hy hpde hx, if_neg hxy]
  have hsame : MapsTo (m.set (frameOf (m pgdir y.1)) y.2 v) pgdir pp y ↔
      present v ∧ frameOf v = pp := by
    rw [MapsTo, slot_set ht.toDistinctTables hy hpde hy, if_pos rfl, and_iff_right hy]
  have hcount := card_filter_point y hother
  simp only [hsame] at hcount
  rw [refs, refs, Finset.filter_congr fun d _ => htable d]
  omega

/-- Clearing a present entry takes one reference from the page that it maps. -/
theorem refs_clear (pp : ℕ) (ht : UserTables m pgdir) {y : VPage} (hy : y.User)
    (hpde : m pgdir y.1 ≠ 0#32) (hpresent : present (slot m pgdir y)) :
    refs (m.set (frameOf (m pgdir y.1)) y.2 0#32) pgdir pp +
        (if frameOf (slot m pgdir y) = pp then 1 else 0) = refs m pgdir pp := by
  have hset := refs_set pp (v := 0#32) ht hy hpde
  have hmaps : MapsTo m pgdir pp y ↔ frameOf (slot m pgdir y) = pp := by
    rw [MapsTo, and_iff_right hy, and_iff_right hpresent]
  simp only [hmaps, not_present_zero, false_and, if_false, Nat.add_zero] at hset
  exact hset

/-- The user page tables and the pages they map belong to `own`, and every entry in use
is present. -/
structure Mapped (own : ℕ → Prop) (m : Mem) (pgdir : ℕ) : Prop where
  tables : UserTables m pgdir
  table : ∀ d : Fin 1024, d.val < userEntries → m pgdir d ≠ 0#32 → own (frameOf (m pgdir d))
  slots : ∀ x : VPage, x.User → slot m pgdir x ≠ 0#32 →
    present (slot m pgdir x) ∧ own (frameOf (slot m pgdir x))

variable {own own' : ℕ → Prop}

/-- A page outside `own` has no references. -/
theorem Mapped.refs_eq_zero (h : Mapped own m pgdir) (hpp : ¬ own pp) : refs m pgdir pp = 0 := by
  rw [refs_eq_zero_iff]
  constructor
  · rintro x ⟨hx, hpresent, rfl⟩
    exact hpp (h.slots x hx (ne_zero_of_present hpresent)).2
  · rintro d ⟨hd, hpresent, rfl⟩
    exact hpp (h.table d hd (ne_zero_of_present hpresent))

/-- Pages without references may leave `own`. -/
theorem Mapped.mono (h : Mapped own m pgdir)
    (hkeep : ∀ q, own q → 0 < refs m pgdir q → own' q) : Mapped own' m pgdir where
  tables := h.tables
  table d hd hne := by
    refine hkeep _ (h.table d hd hne) (Nat.pos_of_ne_zero fun hzero => ?_)
    exact (refs_eq_zero_iff.mp hzero).2 d ⟨hd, h.tables.present d hd hne, rfl⟩
  slots x hx hne := by
    obtain ⟨hpresent, hown⟩ := h.slots x hx hne
    exact ⟨hpresent, hkeep _ hown (refs_pos_of_mapsTo ⟨hx, hpresent, rfl⟩)⟩

theorem Mapped.set (h : Mapped own m pgdir) {y : VPage} {v : Word} (hy : y.User)
    (hpde : m pgdir y.1 ≠ 0#32) (hv : v ≠ 0#32 → present v ∧ own (frameOf v)) :
    Mapped own (m.set (frameOf (m pgdir y.1)) y.2 v) pgdir where
  tables := h.tables.set_table hy hpde
  table d hd hne := by
    rw [set_table_pgdir h.tables.toDistinctTables hy hpde] at hne ⊢
    exact h.table d hd hne
  slots x hx hne := by
    rw [slot_set h.tables.toDistinctTables hy hpde hx] at hne ⊢
    split_ifs at hne ⊢
    · exact hv hne
    · exact h.slots x hx hne

end Refs

namespace Kern

variable {s s' : Kern} {pgdir pp pt : ℕ} {va perm : Word} {l l' : List ℕ}

section Install

variable (hva : va < utop) (ht : UserTables s.mem pgdir) (hpde : s.mem pgdir (pdx va) = 0#32)
  (hpt : pt < 2 ^ 20) (hdir : pgdir ≠ pt)

/-- A page without references is not a page table. -/
theorem frameOf_ne_of_refs (ht : UserTables s.mem pgdir) (hrefs : refs s.mem pgdir pt = 0)
    (d : Fin 1024) (hd : d.val < userEntries) (hne : s.mem pgdir d ≠ 0#32) :
    frameOf (s.mem pgdir d) ≠ pt :=
  fun heq => (refs_eq_zero_iff.mp hrefs).2 d ⟨hd, ht.present d hd hne, heq⟩

include hva ht hpde hpt hdir in
/-- Installing a cleared table adds a reference to its page and no other. -/
theorem refs_installed (hrefs : refs s.mem pgdir pt = 0) :
    refs (s.installed pgdir va pt).mem pgdir pp =
      refs s.mem pgdir pp + (if pt = pp then 1 else 0) := by
  have hfresh := frameOf_ne_of_refs ht hrefs
  have hmap : ∀ x, MapsTo (s.installed pgdir va pt).mem pgdir pp x ↔ MapsTo s.mem pgdir pp x := by
    refine fun x => and_congr_right fun hx => ?_
    rw [slot_installed ht.toDistinctTables hpde hpt hdir hfresh hx]
  have hother : ∀ d, d ≠ pdx va → (TableAt (s.installed pgdir va pt).mem pgdir pp d ↔
      TableAt s.mem pgdir pp d) := by
    intro d hd
    rw [TableAt, TableAt, mem_installed_pgdir hdir, if_neg hd]
  have hnew : TableAt (s.installed pgdir va pt).mem pgdir pp (pdx va) ↔ pt = pp := by
    rw [TableAt, mem_installed_pgdir hdir, if_pos rfl, frameOf_newPde hpt,
      and_iff_right ((lt_utop_iff va).mp hva), and_iff_right (present_newPde pt)]
  have hold : ¬ TableAt s.mem pgdir pp (pdx va) := by
    rintro ⟨-, hpresent, -⟩
    rw [hpde] at hpresent
    exact not_present_zero hpresent
  have hcount := card_filter_point (pdx va) hother
  rw [if_neg hold] at hcount
  simp only [hnew] at hcount
  rw [refs, refs, Finset.filter_congr fun x _ => hmap x]
  omega

include hpde hpt hdir in
theorem mapped_installed {own : ℕ → Prop} (h : Mapped own s.mem pgdir)
    (hrefs : refs s.mem pgdir pt = 0) (hown : own pt) :
    Mapped own (s.installed pgdir va pt).mem pgdir where
  tables := userTables_installed hpt hdir (frameOf_ne_of_refs h.tables hrefs) h.tables
  table d hd hne := by
    rw [mem_installed_pgdir hdir] at hne ⊢
    split_ifs at hne ⊢
    · rwa [frameOf_newPde hpt]
    · exact h.table d hd hne
  slots x hx hne := by
    rw [slot_installed h.tables.toDistinctTables hpde hpt hdir
      (frameOf_ne_of_refs h.tables hrefs) hx] at hne ⊢
    exact h.slots x hx hne

end Install

-- its lemmas say what it counts; unfolding it enumerates a million pages
attribute [irreducible] refs

/-! ### The invariant -/

/-- The pages `avail` are free or allocated, the free ones being those of `l`; the user
page tables and the mapped pages are allocated; and the count of an allocated page is
the number of references to it, those of `extra` included. -/
structure Owned (avail : ℕ → Prop) (extra : ℕ → ℕ) (s : Kern) (l : List ℕ) : Prop where
  free : s.FreeList l
  mem_iff : ∀ pp, pp ∈ l ↔ avail pp ∧ ¬ s.Allocated pp
  avail_of_allocated : ∀ pp, s.Allocated pp → avail pp
  avail_lt : ∀ pp, avail pp → pp < s.npages
  pgdir : ¬ avail s.kernPgdir
  mapped : Mapped s.Allocated s.mem s.kernPgdir
  count : ∀ pp, s.Allocated pp →
    s.ref pp = BitVec.ofNat 16 (refs s.mem s.kernPgdir pp + extra pp)

/-- No references are held elsewhere. -/
def noExtra : ℕ → ℕ := fun _ => 0

/-- One reference to `pp` is counted but not yet written. -/
def pending (pp : ℕ) : ℕ → ℕ := fun q => if q = pp then 1 else 0

variable {avail : ℕ → Prop} {extra : ℕ → ℕ}

namespace Owned

theorem lt_of_allocated (h : Owned avail extra s l) (hpp : s.Allocated pp) : pp < s.npages :=
  h.avail_lt pp (h.avail_of_allocated pp hpp)

theorem not_mem_of_allocated (h : Owned avail extra s l) (hpp : s.Allocated pp) : pp ∉ l :=
  fun hmem => ((h.mem_iff pp).mp hmem).2 hpp

/-- The states of the invariant are those in which the page functions may be called. -/
theorem wellFormed (h : Owned avail extra s l) : s.WellFormed s.kernPgdir l where
  free := h.free
  free_lt pp hpp := h.avail_lt pp ((h.mem_iff pp).mp hpp).1
  pgdir_not_free hmem := h.pgdir ((h.mem_iff _).mp hmem).1
  tables := h.mapped.tables.toDistinctTables
  table_lt d hd hne := h.lt_of_allocated (h.mapped.table d hd hne)
  table_not_free d hd hne := h.not_mem_of_allocated (h.mapped.table d hd hne)
  entry_lt x hx hpresent :=
    h.lt_of_allocated (h.mapped.slots x hx (ne_zero_of_present hpresent)).2

/-! ### Allocation and freeing -/

theorem alloc (h : Owned avail noExtra s (pp :: l)) (step : AllocStep s pp l s') :
    Owned avail noExtra s' l := by
  have halloc := step.allocated_iff
  have hnpages : s'.npages = s.npages := step.npages
  have hkern : s'.kernPgdir = s.kernPgdir := step.kernPgdir
  have hmem : s'.mem = s.mem := step.mem
  obtain ⟨hpp, hnot⟩ := (h.mem_iff pp).mp (List.mem_cons_self ..)
  have hnodup := (List.nodup_cons.mp h.free.nodup).1
  constructor
  · exact step.free
  · intro q
    have hiff := h.mem_iff q
    rw [List.mem_cons] at hiff
    -- the list has no duplicates, so `pp` is not behind itself
    rw [halloc, not_or]
    constructor
    · intro hq
      exact ⟨(hiff.mp (.inr hq)).1, fun heq => hnodup (heq ▸ hq), (hiff.mp (.inr hq)).2⟩
    · rintro ⟨havail, hne, hq⟩
      exact (hiff.mpr ⟨havail, hq⟩).resolve_left hne
  · intro q hq
    rcases (halloc q).mp hq with rfl | hq
    · exact hpp
    · exact h.avail_of_allocated q hq
  · exact fun q hq => hnpages ▸ h.avail_lt q hq
  · exact hkern ▸ h.pgdir
  · rw [hmem, hkern]
    exact h.mapped.mono fun q hq _ => (halloc q).mpr (.inr hq)
  · intro q hq
    rw [hmem, hkern]
    by_cases heq : q = pp
    · -- the page was free, so nothing refers to it and its count is zero
      rw [heq, step.cleared, h.mapped.refs_eq_zero hnot]
      rfl
    · rw [step.refs q heq]
      exact h.count q (((halloc q).mp hq).resolve_left heq)

/-- A page without references may be freed. -/
theorem pageFree (h : Owned avail noExtra s l) (hpp : s.Allocated pp) (href : s.ref pp = 0#16)
    (hbound : refs s.mem s.kernPgdir pp ≤ 65535) :
    Owned avail noExtra (s.pageFree pp) (pp :: l) := by
  have hpage : avail pp := h.avail_of_allocated pp hpp
  have hrefs : refs s.mem s.kernPgdir pp = 0 := by
    have hcount := h.count pp hpp
    rw [href, noExtra, Nat.add_zero, ← BitVec.toNat_inj, BitVec.toNat_ofNat, BitVec.toNat_ofNat]
      at hcount
    omega
  have halloc (q : ℕ) : (s.pageFree pp).Allocated q ↔ q ≠ pp ∧ s.Allocated q := Iff.rfl
  have step := pageFree_spec h.free (h.not_mem_of_allocated hpp)
  constructor
  · exact step.free
  · intro q
    rw [List.mem_cons, h.mem_iff, halloc]
    by_cases heq : q = pp <;> simp [heq, hpage]
  · exact fun q hq => h.avail_of_allocated q hq.2
  · exact h.avail_lt
  · exact h.pgdir
  · refine h.mapped.mono fun q hq hpos => (halloc q).mpr ⟨?_, hq⟩
    rintro rfl
    omega
  · intro q hq
    rw [step.refs]
    exact h.count q hq.2

/-- Count a reference that is still to be written. -/
theorem pend (h : Owned avail noExtra s l) (hpp : s.Allocated pp) :
    Owned avail (pending pp) (s.setRef pp (s.ref pp + 1#16)) l := by
  refine ⟨freeList_setRef.mpr h.free, h.mem_iff, h.avail_of_allocated, h.avail_lt, h.pgdir,
    h.mapped, fun q hq => ?_⟩
  change _ = BitVec.ofNat 16 (refs s.mem s.kernPgdir q + pending pp q)
  by_cases heq : q = pp
  · rw [heq, ref_setRef_same, h.count pp hpp, pending, if_pos rfl, BitVec.ofNat_add,
      BitVec.ofNat_add]
    simp [noExtra]
  · rw [ref_setRef_of_ne heq, pending, if_neg heq]
    exact h.count q hq

/-! ### Page tables and entries -/

/-- An unreferenced page becomes a page table. -/
theorem installed (h : Owned avail noExtra s l) (hva : va < utop) (hpt : s.Allocated pt)
    (hrefs : refs s.mem s.kernPgdir pt = 0) (hpde : s.mem s.kernPgdir (pdx va) = 0#32) :
    Owned avail noExtra (s.installed s.kernPgdir va pt) l := by
  have hpt20 := lt_of_lt_npages (h.lt_of_allocated hpt)
  have hdir : s.kernPgdir ≠ pt := fun heq => h.pgdir (heq ▸ h.avail_of_allocated pt hpt)
  have halloc := allocated_installed s s.kernPgdir va pt
  constructor
  · rw [FreeList, installed_freeStore]
    exact h.free
  · simpa only [halloc] using h.mem_iff
  · simpa only [halloc] using h.avail_of_allocated
  · simpa only [installed_npages] using h.avail_lt
  · simpa only [installed_kernPgdir] using h.pgdir
  · rw [installed_kernPgdir]
    exact (mapped_installed hpde hpt20 hdir h.mapped hrefs hpt).mono fun q hq _ => (halloc q).mpr hq
  · intro q hq
    rw [ref, installed_pages, installed_kernPgdir,
      refs_installed hva h.mapped.tables hpde hpt20 hdir hrefs]
    change (s.setRef pt 1#16).ref q = _
    by_cases heq : pt = q
    · rw [← heq, ref_setRef_same, hrefs, if_pos rfl]
      simp [noExtra]
    · rw [ref_setRef_of_ne (Ne.symm heq), if_neg heq, Nat.add_zero]
      exact h.count q ((halloc q).mp hq)

/-- Writing an empty entry adds a reference to the page it maps now and no other. -/
theorem refs_store (h : Owned avail extra s l) (hva : va < utop) (hperm : perm.toNat < 4096)
    (hpp : s.Allocated pp) (hpde : s.mem s.kernPgdir (pdx va) ≠ 0#32)
    (hslot : slot s.mem s.kernPgdir (vpage va) = 0#32) (q : ℕ) :
    refs (s.mem.set (frameOf (s.mem s.kernPgdir (pdx va))) (ptx va) (newPte pp perm))
      s.kernPgdir q = refs s.mem s.kernPgdir q + (if pp = q then 1 else 0) := by
  have hframe := frameOf_newPte (lt_of_lt_npages (h.lt_of_allocated hpp)) hperm
  have hold : ¬ MapsTo s.mem s.kernPgdir q (vpage va) := by
    rintro ⟨-, hpresent, -⟩
    rw [hslot] at hpresent
    exact not_present_zero hpresent
  have hrefs := refs_set q (v := newPte pp perm) h.mapped.tables (vpage_user hva) hpde
  simp only [if_neg hold, Nat.add_zero, hframe, present_newPte, true_and] at hrefs
  exact hrefs

/-- Writing the entry that a pending reference was counted for. -/
theorem store (h : Owned avail (pending pp) s l) (hva : va < utop) (hperm : perm.toNat < 4096)
    (hpp : s.Allocated pp) (hpde : s.mem s.kernPgdir (pdx va) ≠ 0#32)
    (hslot : slot s.mem s.kernPgdir (vpage va) = 0#32) :
    Owned avail noExtra
      (s.store (frameOf (s.mem s.kernPgdir (pdx va))) (ptx va) (newPte pp perm)) l := by
  refine ⟨h.free, h.mem_iff, h.avail_of_allocated, h.avail_lt, h.pgdir, ?_, fun q hq => ?_⟩
  · refine h.mapped.set (y := vpage va) (vpage_user hva) hpde fun _ =>
      ⟨present_newPte pp perm, ?_⟩
    rw [frameOf_newPte (lt_of_lt_npages (h.lt_of_allocated hpp)) hperm]
    exact hpp
  · have hcount := h.count q hq
    simp only [pending, eq_comm (a := q)] at hcount
    rw [← h.refs_store hva hperm hpp hpde hslot q] at hcount
    exact hcount

/-- Clearing the entry of a mapped page turns its reference into a pending one. -/
theorem clear (h : Owned avail extra s l) (hva : va < utop)
    (hpde : s.mem s.kernPgdir (pdx va) ≠ 0#32) (hslot : slot s.mem s.kernPgdir (vpage va) ≠ 0#32) :
    Owned avail (extra + pending (frameOf (slot s.mem s.kernPgdir (vpage va))))
      (s.store (frameOf (s.mem s.kernPgdir (pdx va))) (ptx va) 0#32) l := by
  have huser := vpage_user hva
  obtain ⟨hpresent, -⟩ := h.mapped.slots _ huser hslot
  refine ⟨h.free, h.mem_iff, h.avail_of_allocated, h.avail_lt, h.pgdir, ?_, fun q hq => ?_⟩
  · exact h.mapped.set (y := vpage va) huser hpde fun hzero => absurd rfl hzero
  · have hrefs := refs_clear (y := vpage va) q h.mapped.tables huser hpde hpresent
    change s.ref q = BitVec.ofNat 16 (refs (s.mem.set (frameOf (s.mem s.kernPgdir (vpage va).1))
      (vpage va).2 0#32) s.kernPgdir q + (extra q + pending _ q))
    rw [h.count q hq, ← hrefs]
    simp only [pending, eq_comm (a := q)]
    rw [Nat.add_comm (extra q), Nat.add_assoc]

/-- Giving up a pending reference to `q`, and the page with the last one. -/
theorem drop {q : ℕ} (h : Owned avail (extra + pending q) s l) (hq : s.Allocated q)
    (hbound : refs s.mem s.kernPgdir q + extra q ≤ 65535)
    (hmem : s'.mem = s.mem) (hkern : s'.kernPgdir = s.kernPgdir) (hnpages : s'.npages = s.npages)
    (hfree : s'.FreeList l') (href : s'.ref q = s.ref q - 1#16)
    (hrefs : ∀ p, p ≠ q → s'.ref p = s.ref p)
    (hcases : (s.ref q ≠ 1#16 ∧ l' = l ∧ ∀ p, s'.Allocated p ↔ s.Allocated p) ∨
      (s.ref q = 1#16 ∧ l' = q :: l ∧ ∀ p, s'.Allocated p ↔ p ≠ q ∧ s.Allocated p)) :
    Owned avail extra s' l' := by
  have hlast := h.count q hq
  rw [Pi.add_apply, pending, if_pos rfl, ← Nat.add_assoc] at hlast
  -- each count still agrees with the references, whether `q` went or not
  have hcount : ∀ p, s.Allocated p →
      s'.ref p = BitVec.ofNat 16 (refs s'.mem s'.kernPgdir p + extra p) := by
    intro p hp
    rw [hmem, hkern]
    by_cases hpq : p = q
    · rw [hpq, href, hlast, BitVec.ofNat_add]
      exact BitVec.add_sub_cancel _ _
    · -- only the count of `q` was pending
      rw [hrefs p hpq, h.count p hp, Pi.add_apply, pending, if_neg hpq, Nat.add_zero]
  have hlt : ∀ p, avail p → p < s'.npages := hnpages ▸ h.avail_lt
  have hdir : ¬ avail s'.kernPgdir := hkern ▸ h.pgdir
  have hmapped : Mapped s.Allocated s'.mem s'.kernPgdir := by
    rw [hmem, hkern]
    exact h.mapped
  rcases hcases with ⟨-, rfl, halloc⟩ | ⟨hone, rfl, halloc⟩
  · refine ⟨hfree, fun p => ?_, fun p hp => ?_, hlt, hdir, ?_, fun p hp => ?_⟩
    · exact (h.mem_iff p).trans (and_congr_right fun _ => not_congr (halloc p).symm)
    · exact h.avail_of_allocated p ((halloc p).mp hp)
    · exact hmapped.mono fun p hp _ => (halloc p).mpr hp
    · exact hcount p ((halloc p).mp hp)
  · -- the count was one, so no reference is left
    have hzero : refs s'.mem s'.kernPgdir q = 0 := by
      rw [hmem, hkern]
      rw [hone, ← BitVec.toNat_inj, BitVec.toNat_ofNat, BitVec.toNat_ofNat] at hlast
      omega
    have hpage := h.avail_of_allocated q hq
    refine ⟨hfree, fun p => ?_, fun p hp => ?_, hlt, hdir, ?_, fun p hp => ?_⟩
    · rw [List.mem_cons, h.mem_iff, halloc]
      by_cases heq : p = q <;> simp [heq, hpage]
    · exact h.avail_of_allocated p ((halloc p).mp hp).2
    · refine hmapped.mono fun p hp hpos => (halloc p).mpr ⟨?_, hp⟩
      rintro rfl
      omega
    · exact hcount p ((halloc p).mp hp).2

/-- What `page_remove` does for a mapped page, with `l` and `l'` the free lists. -/
structure Removed (extra : ℕ → ℕ) (s : Kern) (va : Word) (l : List ℕ) (s' : Kern)
    (l' : List ℕ) : Prop where
  npages : s'.npages = s.npages
  kernPgdir : s'.kernPgdir = s.kernPgdir
  mem : s'.mem = s.mem.set (frameOf (s.mem s.kernPgdir (pdx va))) (ptx va) 0#32
  refs_eq : ∀ p, refs s'.mem s'.kernPgdir p +
    (if frameOf (slot s.mem s.kernPgdir (vpage va)) = p then 1 else 0) = refs s.mem s.kernPgdir p
  keep : ∀ p, s.Allocated p → refs s'.mem s'.kernPgdir p + extra p ≠ 0 → s'.Allocated p
  length_le : l.length ≤ l'.length

/-- Removing a mapped page gives up its reference, and the page with the last one. -/
theorem remove (h : Owned avail extra s l) (hva : va < utop)
    (hpde : s.mem s.kernPgdir (pdx va) ≠ 0#32) (hslot : slot s.mem s.kernPgdir (vpage va) ≠ 0#32)
    (hbound : refs s.mem s.kernPgdir (frameOf (slot s.mem s.kernPgdir (vpage va))) +
      extra (frameOf (slot s.mem s.kernPgdir (vpage va))) ≤ 65536) :
    ∃ s' l', s.pageRemove s.kernPgdir va = .ok s' ∧ Owned avail extra s' l' ∧
      Removed extra s va l s' l' := by
  have huser := vpage_user hva
  obtain ⟨hpresent, halloc⟩ := h.mapped.slots _ huser hslot
  have hclear := h.clear hva hpde hslot
  -- `q` is the page that was mapped and `m'` the memory without the entry
  obtain ⟨q, hq⟩ : ∃ q, q = frameOf (slot s.mem s.kernPgdir (vpage va)) := ⟨_, rfl⟩
  obtain ⟨m', hm'⟩ : ∃ m', m' = s.mem.set (frameOf (s.mem s.kernPgdir (pdx va))) (ptx va) 0#32 :=
    ⟨_, rfl⟩
  rw [← hq] at halloc hclear hbound
  have hrefs (p : ℕ) : refs m' s.kernPgdir p + (if q = p then 1 else 0) =
      refs s.mem s.kernPgdir p := by
    rw [hm', hq]
    exact refs_clear (y := vpage va) p h.mapped.tables huser hpde hpresent
  have hlast := hrefs q
  rw [if_pos rfl] at hlast
  have htbl := h.lt_of_allocated (h.mapped.table (pdx va) huser hpde)
  -- the count is lowered first, and the entry is cleared after it
  obtain ⟨s₁, l₁, hdec, step⟩ :=
    pageDecref_spec h.free (h.lt_of_allocated halloc) (h.not_mem_of_allocated halloc)
  have hmem : s₁.mem = s.mem := step.mem
  have hkern : s₁.kernPgdir = s.kernPgdir := step.kernPgdir
  have hnpages : s₁.npages = s.npages := step.npages
  obtain ⟨s', hs'⟩ : ∃ s', s' = (s₁.store (frameOf (s.mem s.kernPgdir (pdx va))) (ptx va)
      0#32).invlpg va := ⟨_, rfl⟩
  have hmem' : s'.mem = m' := by
    rw [hs', hm', ← hmem]
    rfl
  have hkern' : s'.kernPgdir = s.kernPgdir := by
    rw [hs']
    exact hkern
  have hnpages' : s'.npages = s.npages := by
    rw [hs']
    exact hnpages
  -- writing the entry and flushing hand out no page and take none back
  have hcases : (s.ref q ≠ 1#16 ∧ l₁ = l ∧ ∀ p, s'.Allocated p ↔ s.Allocated p) ∨
      (s.ref q = 1#16 ∧ l₁ = q :: l ∧ ∀ p, s'.Allocated p ↔ p ≠ q ∧ s.Allocated p) := by
    rw [hs']
    exact step.allocated_cases
  refine ⟨s', l₁, ?_, ?_, hnpages', hkern', hmem'.trans hm', ?_, ?_, ?_⟩
  · rw [slot_of_ne (x := vpage va) hpde] at hq
    rw [hs']
    exact pageRemove_eq hpde htbl (hq ▸ hdec)
  · refine hclear.drop halloc ?_ (hmem'.trans hm') hkern' hnpages' ?_ ?_ ?_ hcases
    · rw [mem_store, ← hm']
      change refs m' s.kernPgdir q + extra q ≤ 65535
      omega
    · rw [hs']
      exact step.free
    · rw [hs']
      exact step.ref
    · intro p hp
      rw [hs']
      exact step.refs p hp
  · intro p
    rw [hmem', hkern', ← hq]
    exact hrefs p
  · intro p hp hpos
    rw [hmem', hkern'] at hpos
    rcases hcases with ⟨-, -, hiff⟩ | ⟨hone, -, hiff⟩
    · exact (hiff p).mpr hp
    · refine (hiff p).mpr ⟨?_, hp⟩
      rintro rfl
      -- a count of one leaves no reference, so a page still in use was not freed
      have hcount := h.count p halloc
      rw [hone, ← BitVec.toNat_inj, BitVec.toNat_ofNat, BitVec.toNat_ofNat] at hcount
      omega
  · rcases hcases with ⟨-, rfl, -⟩ | ⟨-, rfl, -⟩ <;> simp

/-- What the walk of `page_insert` does when it finds or makes a page table for `va`. -/
structure Walked (s : Kern) (va : Word) (l : List ℕ) (s₁ : Kern) (l₁ : List ℕ) : Prop where
  npages : s₁.npages = s.npages
  kernPgdir : s₁.kernPgdir = s.kernPgdir
  pde : s₁.mem s₁.kernPgdir (pdx va) ≠ 0#32
  slots : ∀ x : VPage, x.User → slot s₁.mem s₁.kernPgdir x = slot s.mem s.kernPgdir x
  keep : ∀ q, s.Allocated q → s₁.Allocated q
  refs_eq : ∀ q, s.Allocated q → refs s₁.mem s₁.kernPgdir q = refs s.mem s.kernPgdir q
  refs_new : ∀ q, ¬ s.Allocated q → refs s₁.mem s₁.kernPgdir q ≤ 1
  length_le : l.length ≤ l₁.length + if s.mem s.kernPgdir (pdx va) = 0#32 then 1 else 0

/-- The first free page becomes the page table for `va`. -/
theorem walk_install {pt : ℕ} {s₁ : Kern} (h : Owned avail noExtra s (pt :: l)) (hva : va < utop)
    (hpde : s.mem s.kernPgdir (pdx va) = 0#32) (step : AllocStep s pt l s₁) :
    Owned avail noExtra (s₁.installed s.kernPgdir va pt) l ∧
      Walked s va (pt :: l) (s₁.installed s.kernPgdir va pt) l := by
  obtain ⟨hpt, hnot⟩ := (h.mem_iff pt).mp (List.mem_cons_self ..)
  have hpt20 := lt_of_lt_npages (h.avail_lt pt hpt)
  have hdir : s.kernPgdir ≠ pt := fun heq => h.pgdir (heq ▸ hpt)
  have hmem : s₁.mem = s.mem := step.mem
  have hkern : s₁.kernPgdir = s.kernPgdir := step.kernPgdir
  have hnpages : s₁.npages = s.npages := step.npages
  have halloc := step.allocated_iff
  have ht : UserTables s₁.mem s.kernPgdir := hmem ▸ h.mapped.tables
  have hpde₁ : s₁.mem s.kernPgdir (pdx va) = 0#32 := by rw [hmem, hpde]
  -- a free page is mapped nowhere, also not as a table
  have hzero : refs s₁.mem s.kernPgdir pt = 0 := by rw [hmem, h.mapped.refs_eq_zero hnot]
  have howned := (h.alloc step).installed hva ((halloc pt).mpr (.inl rfl))
    (by rw [hkern]; exact hzero) (by rw [hkern]; exact hpde₁)
  have hrefs (q : ℕ) : refs (s₁.installed s.kernPgdir va pt).mem s.kernPgdir q =
      refs s.mem s.kernPgdir q + (if pt = q then 1 else 0) := by
    rw [← hmem]
    exact refs_installed hva ht hpde₁ hpt20 hdir hzero
  have hentry : (s₁.installed s.kernPgdir va pt).mem s.kernPgdir (pdx va) = newPde pt := by
    rw [mem_installed_pgdir hdir, if_pos rfl]
  rw [hkern] at howned
  refine ⟨howned, ?_, ?_, ?_, fun x hx => ?_, fun q hq => ?_, fun q hq => ?_, fun q hq => ?_, ?_⟩
  · rw [installed_npages, hnpages]
  · rw [installed_kernPgdir, hkern]
  · rw [installed_kernPgdir, hkern, hentry]
    exact ne_zero_of_present (present_newPde pt)
  · rw [installed_kernPgdir, hkern,
      slot_installed ht.toDistinctTables hpde₁ hpt20 hdir (frameOf_ne_of_refs ht hzero) hx, hmem]
  · exact (allocated_installed ..).mpr ((halloc q).mpr (.inr hq))
  · -- an allocated page is not the one that was free
    have hne : pt ≠ q := by
      rintro rfl
      exact hnot hq
    rw [installed_kernPgdir, hkern, hrefs, if_neg hne, Nat.add_zero]
  · rw [installed_kernPgdir, hkern, hrefs, h.mapped.refs_eq_zero hq]
    split_ifs <;> decide
  · rw [if_pos hpde, List.length_cons]

/-- The walk of `page_insert` gives up without changing anything, or leaves a page table
for `va`, allocated behind the caller's back if need be. -/
theorem walk (h : Owned avail noExtra s l) (hva : va < utop) {create : Word}
    (hcreate : create ≠ 0#32) :
    (s.mem s.kernPgdir (pdx va) = 0#32 ∧ l = [] ∧
      s.pgdirWalk s.kernPgdir va create = .ok (none, s)) ∨
    ∃ s₁ l₁, s.pgdirWalk s.kernPgdir va create =
        .ok (some ⟨frameOf (s₁.mem s₁.kernPgdir (pdx va)), ptx va⟩, s₁) ∧
      Owned avail noExtra s₁ l₁ ∧ Walked s va l s₁ l₁ := by
  by_cases hpde : s.mem s.kernPgdir (pdx va) = 0#32
  · cases l with
    | nil => exact .inl ⟨hpde, rfl, pgdirWalk_full hpde h.free⟩
    | cons pt l =>
      have hpt := ((h.mem_iff pt).mp (List.mem_cons_self ..)).1
      have hlt := h.avail_lt pt hpt
      have hdir : s.kernPgdir ≠ pt := fun heq => h.pgdir (heq ▸ hpt)
      obtain ⟨s₁, step, hwalk⟩ := pgdirWalk_alloc hpde hcreate h.free hlt hdir
      obtain ⟨howned, hwalked⟩ := h.walk_install hva hpde step
      have hframe : frameOf ((s₁.installed s.kernPgdir va pt).mem
          (s₁.installed s.kernPgdir va pt).kernPgdir (pdx va)) = pt := by
        rw [hwalked.kernPgdir, mem_installed_pgdir hdir, if_pos rfl,
          frameOf_newPde (lt_of_lt_npages hlt)]
      exact .inr ⟨_, l, by rw [hframe]; exact hwalk, howned, hwalked⟩
  · have htbl := h.lt_of_allocated (h.mapped.table (pdx va) (vpage_user hva) hpde)
    refine .inr ⟨s, l, pgdirWalk_table hpde htbl, h, rfl, rfl, hpde, fun _ _ => rfl, fun _ hq => hq,
      fun _ _ => rfl, fun q hq => ?_, Nat.le_add_right ..⟩
    rw [h.mapped.refs_eq_zero hq]
    exact Nat.zero_le _

/-- What a successful `page_insert` does to the user entries and the references. -/
structure Inserted (s : Kern) (pp : ℕ) (va perm : Word) (l : List ℕ) (s' : Kern)
    (l' : List ℕ) : Prop where
  npages : s'.npages = s.npages
  kernPgdir : s'.kernPgdir = s.kernPgdir
  slots : ∀ x : VPage, x.User → slot s'.mem s'.kernPgdir x =
    if x = vpage va then newPte pp perm else slot s.mem s.kernPgdir x
  refs_eq : ∀ q, s.Allocated q →
    refs s'.mem s'.kernPgdir q + (if MapsTo s.mem s.kernPgdir q (vpage va) then 1 else 0) =
      refs s.mem s.kernPgdir q + (if pp = q then 1 else 0)
  refs_new : ∀ q, ¬ s.Allocated q → refs s'.mem s'.kernPgdir q ≤ 1
  length_le : l.length ≤ l'.length + if s.mem s.kernPgdir (pdx va) = 0#32 then 1 else 0

/-- The end of `page_insert`, from a state `t` in which the entry for `va` is empty and the
reference of the page that it mapped in `s` is gone. -/
theorem inserted {t : Kern} (h : Owned avail (pending pp) t l') (hva : va < utop)
    (hperm : perm.toNat < 4096) (hpp : s.Allocated pp) (hpp' : t.Allocated pp)
    (hpde : t.mem t.kernPgdir (pdx va) ≠ 0#32) (hslot : slot t.mem t.kernPgdir (vpage va) = 0#32)
    (hnpages : t.npages = s.npages) (hkern : t.kernPgdir = s.kernPgdir)
    (hslots : ∀ x : VPage, x.User → x ≠ vpage va →
      slot t.mem t.kernPgdir x = slot s.mem s.kernPgdir x)
    (hrefs : ∀ q, s.Allocated q →
      refs t.mem t.kernPgdir q + (if MapsTo s.mem s.kernPgdir q (vpage va) then 1 else 0) =
        refs s.mem s.kernPgdir q)
    (hnew : ∀ q, ¬ s.Allocated q → refs t.mem t.kernPgdir q ≤ 1)
    (hlen : l.length ≤ l'.length + if s.mem s.kernPgdir (pdx va) = 0#32 then 1 else 0) :
    Inserted s pp va perm l
      (t.store (frameOf (t.mem t.kernPgdir (pdx va))) (ptx va) (newPte pp perm)) l' := by
  have hstore := h.refs_store hva hperm hpp' hpde hslot
  refine ⟨hnpages, hkern, fun x hx => ?_, fun q hq => ?_, fun q hq => ?_, hlen⟩
  · have hset := slot_set (y := vpage va) (v := newPte pp perm) h.mapped.tables.toDistinctTables
      (vpage_user hva) hpde hx
    refine hset.trans ?_
    split_ifs with heq
    · rfl
    · exact hslots x hx heq
  · rw [← hrefs q hq]
    change refs (t.mem.set _ _ _) t.kernPgdir q + _ = _
    rw [hstore, Nat.add_right_comm]
  · -- the page that gains a reference was allocated
    have hne : pp ≠ q := by
      rintro rfl
      exact hq hpp
    change refs (t.mem.set _ _ _) t.kernPgdir q ≤ 1
    rw [hstore, if_neg hne]
    exact hnew q hq

section AfterWalk

variable {s₁ : Kern} {l₁ : List ℕ} (h : Owned avail noExtra s l) (hva : va < utop)
  (hperm : perm.toNat < 4096) (hpp : s.Allocated pp)
  (hwalk : s.pgdirWalk s.kernPgdir va (perm ||| pteP) =
    .ok (some ⟨frameOf (s₁.mem s₁.kernPgdir (pdx va)), ptx va⟩, s₁))
  (h₁ : Owned avail noExtra s₁ l₁) (step : Walked s va l s₁ l₁)

include hva hperm hpp hwalk h₁ step

/-- Insertion at an address where nothing is mapped. -/
theorem insert_empty (hslot : slot s₁.mem s₁.kernPgdir (vpage va) = 0#32) :
    ∃ s' l', s.pageInsert s.kernPgdir pp va perm = .ok (0, s') ∧ Owned avail noExtra s' l' ∧
      Inserted s pp va perm l s' l' := by
  have huser := vpage_user hva
  have hpp₁ := step.keep pp hpp
  have hlt := h₁.lt_of_allocated hpp₁
  have hpend := h₁.pend hpp₁
  have hentry := slot_of_ne (x := vpage va) step.pde
  have hslot₁ := step.slots _ huser
  have hold (q : ℕ) : ¬ MapsTo s.mem s.kernPgdir q (vpage va) := by
    rintro ⟨-, hpresent, -⟩
    rw [← hslot₁, hslot] at hpresent
    exact not_present_zero hpresent
  refine ⟨_, l₁, pageInsert_empty hwalk hlt (hentry ▸ hslot),
    hpend.store hva hperm hpp₁ step.pde hslot, ?_⟩
  refine hpend.inserted hva hperm hpp hpp₁ step.pde hslot step.npages step.kernPgdir
    (fun x hx _ => step.slots x hx) (fun q hq => ?_) step.refs_new step.length_le
  rw [if_neg (hold q), Nat.add_zero]
  exact step.refs_eq q hq

include h

/-- Insertion over a mapped page, which is removed first. -/
theorem insert_over (hslot : slot s₁.mem s₁.kernPgdir (vpage va) ≠ 0#32)
    (hbound : refs s.mem s.kernPgdir (frameOf (slot s.mem s.kernPgdir (vpage va))) ≤ 65535) :
    ∃ s' l', s.pageInsert s.kernPgdir pp va perm = .ok (0, s') ∧ Owned avail noExtra s' l' ∧
      Inserted s pp va perm l s' l' := by
  have huser := vpage_user hva
  have hpp₁ := step.keep pp hpp
  have hlt := h₁.lt_of_allocated hpp₁
  -- the count rises before the old mapping goes, so the page survives its own removal
  have hpend := h₁.pend hpp₁
  have hentry := slot_of_ne (x := vpage va) step.pde
  have hslot₁ := step.slots _ huser
  obtain ⟨hpresent, halloc⟩ := h.mapped.slots _ huser (hslot₁ ▸ hslot)
  obtain ⟨s₂, l₂, hremove, h₂, step₂⟩ := hpend.remove hva step.pde hslot (by
    change refs s₁.mem s₁.kernPgdir (frameOf (slot s₁.mem s₁.kernPgdir (vpage va))) +
      pending pp _ ≤ 65536
    rw [hslot₁, step.refs_eq _ halloc, pending]
    split_ifs <;> omega)
  have hkern₂ : s₂.kernPgdir = s₁.kernPgdir := step₂.kernPgdir
  -- a write in a table leaves the directory as it is
  have hdir : ∀ d, s₂.mem s₂.kernPgdir d = s₁.mem s₁.kernPgdir d := by
    intro d
    rw [step₂.mem, step₂.kernPgdir]
    exact set_table_pgdir (y := vpage va) h₁.mapped.tables.toDistinctTables huser step.pde d
  have hpde₂ : s₂.mem s₂.kernPgdir (pdx va) ≠ 0#32 := by
    rw [hdir]
    exact step.pde
  have hslots₂ (x : VPage) (hx : x.User) : slot s₂.mem s₂.kernPgdir x =
      if x = vpage va then 0#32 else slot s₁.mem s₁.kernPgdir x := by
    rw [step₂.mem, step₂.kernPgdir]
    exact slot_set (y := vpage va) h₁.mapped.tables.toDistinctTables huser step.pde hx
  have hslot₂ : slot s₂.mem s₂.kernPgdir (vpage va) = 0#32 := by
    rw [hslots₂ _ huser, if_pos rfl]
  -- a page with a pending count is not freed
  have hpp₂ := step₂.keep pp hpp₁ (by rw [pending, if_pos rfl]; exact Nat.succ_ne_zero _)
  have hrefs₂ (q : ℕ) : refs s₂.mem s₂.kernPgdir q +
      (if frameOf (slot s.mem s.kernPgdir (vpage va)) = q then 1 else 0) =
        refs s₁.mem s₁.kernPgdir q := by
    rw [← hslot₁]
    exact step₂.refs_eq q
  have hremove' : (s₁.setRef pp (s₁.ref pp + 1#16)).pageRemove s.kernPgdir va = .ok s₂ := by
    rw [← step.kernPgdir]
    exact hremove
  have hinsert := pageInsert_occupied hwalk hlt (hentry ▸ hslot) hremove'
  rw [← hdir] at hinsert
  refine ⟨_, l₂, hinsert, h₂.store hva hperm hpp₂ hpde₂ hslot₂, ?_⟩
  refine h₂.inserted hva hperm hpp hpp₂ hpde₂ hslot₂ (step₂.npages.trans step.npages)
    (hkern₂.trans step.kernPgdir) (fun x hx hne => ?_) (fun q hq => ?_) (fun q hq => ?_) ?_
  · rw [hslots₂ x hx, if_neg hne]
    exact step.slots x hx
  · have hmaps : MapsTo s.mem s.kernPgdir q (vpage va) ↔
        frameOf (slot s.mem s.kernPgdir (vpage va)) = q := by
      rw [MapsTo, and_iff_right huser, and_iff_right hpresent]
    simp only [hmaps]
    rw [hrefs₂, step.refs_eq q hq]
  · exact le_trans (Nat.le_add_right ..) ((hrefs₂ q).trans_le (step.refs_new q hq))
  · have hlen := step₂.length_le
    exact step.length_le.trans (Nat.add_le_add_right hlen _)

end AfterWalk

/-- Inserting a page moves references: from the page mapped before, with its last one
the page, to `pp`. -/
theorem insert (h : Owned avail noExtra s l) (hva : va < utop) (hperm : perm.toNat < 4096)
    (hpp : s.Allocated pp)
    (hbound : slot s.mem s.kernPgdir (vpage va) ≠ 0#32 →
      refs s.mem s.kernPgdir (frameOf (slot s.mem s.kernPgdir (vpage va))) ≤ 65535) :
    (s.mem s.kernPgdir (pdx va) = 0#32 ∧ l = [] ∧
      s.pageInsert s.kernPgdir pp va perm = .ok (-eNoMem, s)) ∨
    ∃ s' l', s.pageInsert s.kernPgdir pp va perm = .ok (0, s') ∧ Owned avail noExtra s' l' ∧
      Inserted s pp va perm l s' l' := by
  rcases h.walk hva (or_pteP_ne_zero perm) with ⟨hpde, hl, hwalk⟩ | ⟨s₁, l₁, hwalk, h₁, step⟩
  · refine .inl ⟨hpde, hl, ?_⟩
    rw [pageInsert, hwalk]
    rfl
  · refine .inr ?_
    have hslot₁ := step.slots _ (vpage_user hva)
    by_cases hslot : slot s₁.mem s₁.kernPgdir (vpage va) = 0#32
    · exact insert_empty hva hperm hpp hwalk h₁ step hslot
    · exact insert_over h hva hperm hpp hwalk h₁ step hslot (hbound (hslot₁ ▸ hslot))

end Owned

end Kern

end JosVmx
