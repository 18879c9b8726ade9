import JosVmx.Kern.PageMap

/-!
# The two-level walk as a partial map

The processor reads a page directory as a partial map from virtual pages to pairs of
entries. This module gives that map and the effect of single stores on it, below
`UTOP`, when the user page tables are distinct frames other than the page directory:
a store to a table changes the walk of one page, and installing a cleared table
changes the walk of none.

## Main results

* `Kern.checkVa2pa_eq` — `check_va2pa` computes the walk
* `walk_set` — the walk after a store to a page table entry
* `Kern.walk_installed` — the walk after a cleared table has been installed
-/

namespace JosVmx

/-- A virtual page: its directory index and its table index. -/
abbrev VPage := Fin 1024 × Fin 1024

/-- The virtual page of an address. -/
def vpage (la : Word) : VPage := (pdx la, ptx la)

/-- The page lies below `UTOP`. -/
def VPage.User (x : VPage) : Prop := x.1.val < userEntries

theorem vpage_eq_iff (la la' : Word) : vpage la = vpage la' ↔ pgnum la = pgnum la' := by
  rw [pgnum_eq_iff, vpage, vpage, Prod.mk.injEq]

/-- Every virtual page has an address. -/
theorem exists_vpage (x : VPage) : ∃ la, vpage la = x := by
  have hd := x.1.isLt
  have ht := x.2.isLt
  refine ⟨BitVec.ofNat 32 (x.1.val * 4194304 + x.2.val * 4096), Prod.ext ?_ ?_⟩ <;>
    rw [Fin.ext_iff]
  · change (pdx _).val = _
    rw [val_pdx, BitVec.toNat_ofNat]
    omega
  · change (ptx _).val = _
    rw [val_ptx, BitVec.toNat_ofNat]
    omega

theorem vpage_user {la : Word} (h : la < utop) : (vpage la).User := (lt_utop_iff la).mp h

/-- The directory and table entry that translate a virtual page, if both are present. -/
def walk (m : Mem) (pgdir : ℕ) (x : VPage) : Option (Word × Word) :=
  if present (m pgdir x.1) then
    if present (m (frameOf (m pgdir x.1)) x.2) then
      some (m pgdir x.1, m (frameOf (m pgdir x.1)) x.2)
    else none
  else none

variable {m : Mem} {pgdir : ℕ} {x : VPage}

theorem walk_of_pde (h : ¬ present (m pgdir x.1)) : walk m pgdir x = none := if_neg h

theorem walk_of_pte (h : ¬ present (m (frameOf (m pgdir x.1)) x.2)) : walk m pgdir x = none := by
  rw [walk, if_neg h, ite_self]

theorem walk_of_present (hpde : present (m pgdir x.1))
    (hpte : present (m (frameOf (m pgdir x.1)) x.2)) :
    walk m pgdir x = some (m pgdir x.1, m (frameOf (m pgdir x.1)) x.2) := by
  rw [walk, if_pos hpde, if_pos hpte]

theorem walk_ne_none_iff :
    walk m pgdir x ≠ none ↔
      present (m pgdir x.1) ∧ present (m (frameOf (m pgdir x.1)) x.2) := by
  rw [walk]
  split_ifs with hpde hpte <;> simp [*]

/-- The walk reads one entry at each level. -/
theorem walk_congr {m' : Mem} (hpde : m' pgdir x.1 = m pgdir x.1)
    (hpte : m' (frameOf (m pgdir x.1)) x.2 = m (frameOf (m pgdir x.1)) x.2) :
    walk m' pgdir x = walk m pgdir x := by
  rw [walk, walk, hpde, hpte]

/-- The frames that user directory entries name are distinct, and the page directory is none
of them. An entry in use need not be present. -/
structure DistinctTables (m : Mem) (pgdir : ℕ) : Prop where
  ne_pgdir : ∀ d : Fin 1024, d.val < userEntries → m pgdir d ≠ 0#32 → frameOf (m pgdir d) ≠ pgdir
  inj : ∀ d d' : Fin 1024, d.val < userEntries → d'.val < userEntries → m pgdir d ≠ 0#32 →
    m pgdir d' ≠ 0#32 → frameOf (m pgdir d) = frameOf (m pgdir d') → d = d'

/-- The user page tables are distinct frames, the page directory is none of them, and every
user directory entry in use is present. -/
structure UserTables (m : Mem) (pgdir : ℕ) : Prop extends DistinctTables m pgdir where
  present : ∀ d : Fin 1024, d.val < userEntries → m pgdir d ≠ 0#32 → present (m pgdir d)

/-- The entry a user page has in its table, zero without a table. -/
def slot (m : Mem) (pgdir : ℕ) (x : VPage) : Word :=
  if m pgdir x.1 = 0#32 then 0#32 else m (frameOf (m pgdir x.1)) x.2

theorem slot_of_ne (h : m pgdir x.1 ≠ 0#32) :
    slot m pgdir x = m (frameOf (m pgdir x.1)) x.2 := if_neg h

theorem slot_of_eq (h : m pgdir x.1 = 0#32) : slot m pgdir x = 0#32 := if_pos h

/-- The walk is determined by the directory entry and the slot. -/
theorem walk_eq_slot :
    walk m pgdir x =
      if present (m pgdir x.1) then
        if present (slot m pgdir x) then some (m pgdir x.1, slot m pgdir x) else none
      else none := by
  by_cases hpde : present (m pgdir x.1)
  · rw [walk, if_pos hpde, if_pos hpde, slot_of_ne (ne_zero_of_present hpde)]
  · rw [walk_of_pde hpde, if_neg hpde]

/-- Below `UTOP` a present slot is a translation. -/
theorem walk_eq_user_slot (ht : UserTables m pgdir) (hx : x.User) :
    walk m pgdir x =
      if present (slot m pgdir x) then some (m pgdir x.1, slot m pgdir x) else none := by
  rw [walk_eq_slot]
  by_cases hpde : m pgdir x.1 = 0#32
  · rw [slot_of_eq hpde, hpde, if_neg not_present_zero, if_neg not_present_zero]
  · rw [if_pos (ht.present x.1 hx hpde)]

section Store

variable {y : VPage} {v : Word}

/-- A store to a user page table leaves the directory alone. -/
theorem set_table_pgdir (ht : DistinctTables m pgdir) (hy : y.User) (hpde : m pgdir y.1 ≠ 0#32)
    (d : Fin 1024) : m.set (frameOf (m pgdir y.1)) y.2 v pgdir d = m pgdir d :=
  Mem.set_of_frame_ne (ht.ne_pgdir y.1 hy hpde).symm ..

theorem DistinctTables.set_table (ht : DistinctTables m pgdir) (hy : y.User)
    (hpde : m pgdir y.1 ≠ 0#32) :
    DistinctTables (m.set (frameOf (m pgdir y.1)) y.2 v) pgdir := by
  have hdir := set_table_pgdir (v := v) ht hy hpde
  constructor <;> simp only [hdir]
  · exact ht.ne_pgdir
  · exact ht.inj

theorem UserTables.set_table (ht : UserTables m pgdir) (hy : y.User)
    (hpde : m pgdir y.1 ≠ 0#32) :
    UserTables (m.set (frameOf (m pgdir y.1)) y.2 v) pgdir where
  toDistinctTables := ht.toDistinctTables.set_table hy hpde
  present d hd hne := by
    rw [set_table_pgdir ht.toDistinctTables hy hpde] at hne ⊢
    exact ht.present d hd hne

/-- A store to a user page table changes the slot of one user page. -/
theorem slot_set (ht : DistinctTables m pgdir) (hy : y.User) (hpde : m pgdir y.1 ≠ 0#32)
    (hx : x.User) :
    slot (m.set (frameOf (m pgdir y.1)) y.2 v) pgdir x =
      if x = y then v else slot m pgdir x := by
  have hdir := set_table_pgdir (v := v) ht hy hpde
  by_cases hxp : m pgdir x.1 = 0#32
  · rw [slot_of_eq (by rw [hdir]; exact hxp), slot_of_eq hxp, if_neg]
    rintro rfl
    exact hpde hxp
  · rw [slot_of_ne (by rw [hdir]; exact hxp), hdir, slot_of_ne hxp]
    split_ifs with hxy
    · rw [hxy, Mem.set_same]
    · by_cases hd : x.1 = y.1
      · exact Mem.set_of_idx_ne (fun hi => hxy (Prod.ext hd hi)) ..
      · exact Mem.set_of_frame_ne (fun hf => hd (ht.inj _ _ hx hy hxp hpde hf)) ..

/-- The walk after a store to an entry of a user page table with a present directory entry. -/
theorem walk_set (ht : DistinctTables m pgdir) (hy : y.User) (hpde : present (m pgdir y.1))
    (hx : x.User) :
    walk (m.set (frameOf (m pgdir y.1)) y.2 v) pgdir x =
      if x = y then (if present v then some (m pgdir y.1, v) else none)
      else walk m pgdir x := by
  have hne := ne_zero_of_present hpde
  rw [walk_eq_slot, set_table_pgdir ht hy hne, slot_set ht hy hne hx, walk_eq_slot]
  by_cases hxy : x = y
  · rw [if_pos hxy, if_pos hxy, hxy, if_pos hpde]
  · rw [if_neg hxy, if_neg hxy]

/-- Clearing an entry takes away the translations that read it, at either level. -/
theorem walk_set_zero (m : Mem) (pgdir f : ℕ) (i : Fin 1024) (x : VPage) :
    walk (m.set f i 0#32) pgdir x =
      if (pgdir = f ∧ x.1 = i) ∨ (frameOf (m pgdir x.1) = f ∧ x.2 = i) then none
      else walk m pgdir x := by
  by_cases hdir : pgdir = f ∧ x.1 = i
  · rw [if_pos (.inl hdir), hdir.1, ← hdir.2]
    refine walk_of_pde ?_
    rw [Mem.set_same]
    exact not_present_zero
  · have hpde : m.set f i 0#32 pgdir x.1 = m pgdir x.1 := by rw [Mem.set, if_neg hdir]
    by_cases htable : frameOf (m pgdir x.1) = f ∧ x.2 = i
    · rw [if_pos (.inr htable)]
      refine walk_of_pte ?_
      rw [hpde, htable.1, htable.2, Mem.set_same]
      exact not_present_zero
    · rw [if_neg (not_or.mpr ⟨hdir, htable⟩)]
      refine walk_congr hpde ?_
      rw [Mem.set, if_neg htable]

end Store

namespace Kern

variable {s : Kern} {va : Word} {pt : ℕ}

/-- `check_va2pa` computes the walk, as long as present directory entries name frames
of memory. -/
theorem checkVa2pa_eq
    (htbl : present (s.mem pgdir (pdx va)) → frameOf (s.mem pgdir (pdx va)) < s.npages) :
    s.checkVa2pa pgdir va =
      .ok (match walk s.mem pgdir (vpage va) with
        | some e => pteAddr e.2
        | none => ~~~0#32) := by
  by_cases hpde : present (s.mem pgdir (pdx va))
  · have hkaddr : s.kaddr (pteAddr (s.mem pgdir (pdx va))) =
        .ok (frameOf (s.mem pgdir (pdx va))) := kaddr_ok (htbl hpde)
    by_cases hpte : present (s.mem (frameOf (s.mem pgdir (pdx va))) (ptx va))
    · rw [walk_of_present (x := vpage va) hpde hpte]
      simp [checkVa2pa, hpde, hkaddr, hpte]
      rfl
    · rw [walk_of_pte (x := vpage va) hpte]
      simp [checkVa2pa, hpde, hkaddr, hpte]
  · rw [walk_of_pde (x := vpage va) hpde]
    simp [checkVa2pa, hpde]

section Install

variable (ht : DistinctTables s.mem pgdir)
  (hpde : s.mem pgdir (pdx va) = 0#32) (hpt : pt < 2 ^ 20) (hdir : pgdir ≠ pt)
  (hfresh : ∀ d : Fin 1024, d.val < userEntries → s.mem pgdir d ≠ 0#32 →
    frameOf (s.mem pgdir d) ≠ pt)

include hdir in
/-- The directory after a table has been installed. -/
theorem mem_installed_pgdir (d : Fin 1024) :
    (s.installed pgdir va pt).mem pgdir d =
      if d = pdx va then newPde pt else s.mem pgdir d := by
  rw [mem_installed, if_neg hdir, Mem.set]
  simp

include ht hpt hdir hfresh in
theorem distinctTables_installed : DistinctTables (s.installed pgdir va pt).mem pgdir := by
  have hmem (d : Fin 1024) : (s.installed pgdir va pt).mem pgdir d = _ :=
    mem_installed_pgdir hdir d
  constructor
  · intro d hd hne
    rw [hmem] at hne ⊢
    split_ifs at hne ⊢
    · rw [frameOf_newPde hpt]
      exact hdir.symm
    · exact ht.ne_pgdir d hd hne
  · intro d d' hd hd' hne hne' hframe
    rw [hmem] at hne hne' hframe
    rw [hmem d'] at hframe
    split_ifs at hne hne' hframe with h h' h'
    · rw [h, h']
    · rw [frameOf_newPde hpt] at hframe
      exact absurd hframe.symm (hfresh d' hd' hne')
    · rw [frameOf_newPde hpt] at hframe
      exact absurd hframe (hfresh d hd hne)
    · exact ht.inj d d' hd hd' hne hne' hframe

include hpt hdir hfresh in
theorem userTables_installed (ht : UserTables s.mem pgdir) :
    UserTables (s.installed pgdir va pt).mem pgdir where
  toDistinctTables := distinctTables_installed ht.toDistinctTables hpt hdir hfresh
  present d hd hne := by
    rw [mem_installed_pgdir hdir] at hne ⊢
    split_ifs at hne ⊢
    · exact present_newPde pt
    · exact ht.present d hd hne

include ht hpde hpt hdir hfresh in
/-- A freshly cleared table has only empty slots, like no table at all. -/
theorem slot_installed {x : VPage} (hx : x.User) :
    slot (s.installed pgdir va pt).mem pgdir x = slot s.mem pgdir x := by
  have hmem (d : Fin 1024) : (s.installed pgdir va pt).mem pgdir d = _ :=
    mem_installed_pgdir hdir d
  by_cases hd : x.1 = pdx va
  · have hentry : (s.installed pgdir va pt).mem pgdir x.1 = newPde pt := by
      rw [hmem, if_pos hd]
    rw [slot_of_ne (by rw [hentry]; exact ne_zero_of_present (present_newPde pt)), hentry,
      frameOf_newPde hpt, mem_installed, if_pos rfl, slot_of_eq (by rw [hd]; exact hpde)]
  · have hentry : (s.installed pgdir va pt).mem pgdir x.1 = s.mem pgdir x.1 := by
      rw [hmem, if_neg hd]
    by_cases hxp : s.mem pgdir x.1 = 0#32
    · rw [slot_of_eq (by rw [hentry]; exact hxp), slot_of_eq hxp]
    · rw [slot_of_ne (by rw [hentry]; exact hxp), hentry, slot_of_ne hxp, mem_installed,
        if_neg (hfresh x.1 hx hxp), Mem.set_of_frame_ne (ht.ne_pgdir x.1 hx hxp)]

include ht hpde hpt hdir hfresh in
/-- The walk after a cleared table has been installed. -/
theorem walk_installed {x : VPage} (hx : x.User) :
    walk (s.installed pgdir va pt).mem pgdir x = walk s.mem pgdir x := by
  rw [walk_eq_slot, walk_eq_slot, slot_installed ht hpde hpt hdir hfresh hx,
    mem_installed_pgdir hdir]
  by_cases hd : x.1 = pdx va
  · -- the new table has no present slot, and there was no table before
    simp only [slot_of_eq (x := x) (by rw [hd]; exact hpde), not_present_zero, if_false, ite_self]
  · rw [if_neg hd]

end Install

end Kern

end JosVmx
