import JosVmx.Kern.Walk

/-!
# Page insertion, removal and lookup against the walk

The address space below `UTOP` is a partial map from virtual pages to a frame and
permission bits. `page_insert` and `page_remove` are compared with updates of this
map, and `page_lookup` with its lookups.

Three places in the source look at an entry without its present bit. `pgdir_walk` takes
every nonzero directory entry for a page table. `page_insert` tests `*pte && PTE_P`, so it
also removes a nonzero entry that is not present, and the page number in such an entry
need not be one of `pages[]`. `page_lookup` does not test the entry at all, so under an
existing page table it never reports a page as unmapped. Both theorems below say exactly
for which addresses the map is respected.
-/

namespace JosVmx

/-! ### The abstract address space -/

/-- A partial map from virtual pages to a physical page and permission bits. -/
abbrev AddressSpace := VPage → Option (ℕ × Word)

namespace AddressSpace

/-- Map a page. -/
def insert (a : AddressSpace) (x : VPage) (pp : ℕ) (bits : Word) : AddressSpace :=
  Function.update a x (some (pp, bits))

/-- Unmap a page. -/
def remove (a : AddressSpace) (x : VPage) : AddressSpace := Function.update a x none

end AddressSpace

/-- The frame and the low twelve bits of a page table entry. -/
def entryBits (pte : Word) : ℕ × Word := (frameOf pte, pte &&& 0xFFF#32)

namespace Kern

/-- The address space a page directory describes. -/
def space (s : Kern) (pgdir : ℕ) : AddressSpace :=
  fun x => (walk s.mem pgdir x).map fun e => entryBits e.2

/-- States in which the page functions may be called on `pgdir`, with free list `l`: the
free pages lie in memory and hold no page table, the user page tables are distinct
frames of memory, and present entries name frames of memory. As in `pgdir_walk`, every
nonzero directory entry names a page table, present or not. -/
structure WellFormed (s : Kern) (pgdir : ℕ) (l : List ℕ) : Prop where
  free : s.FreeList l
  free_lt : ∀ pp ∈ l, pp < s.npages
  pgdir_not_free : pgdir ∉ l
  tables : DistinctTables s.mem pgdir
  table_lt : ∀ d : Fin 1024, d.val < userEntries → s.mem pgdir d ≠ 0#32 →
    frameOf (s.mem pgdir d) < s.npages
  table_not_free : ∀ d : Fin 1024, d.val < userEntries → s.mem pgdir d ≠ 0#32 →
    frameOf (s.mem pgdir d) ∉ l
  entry_lt : ∀ x : VPage, x.User → present (slot s.mem pgdir x) →
    frameOf (slot s.mem pgdir x) < s.npages

/-- The entry `page_insert` writes. -/
def newPte (pp : ℕ) (perm : Word) : Word := page2pa pp ||| pteP ||| perm

variable {s : Kern} {pgdir pp : ℕ} {l : List ℕ} {va perm : Word}

theorem present_newPte (pp : ℕ) (perm : Word) : present (newPte pp perm) := present_or _ _

theorem newPte_eq (pp : ℕ) (perm : Word) : newPte pp perm = page2pa pp ||| (pteP ||| perm) :=
  BitVec.or_assoc ..

theorem frameOf_newPte (hpp : pp < 2 ^ 20) (hperm : perm.toNat < 4096) :
    frameOf (newPte pp perm) = pp := by
  rw [newPte_eq]
  exact frameOf_page2pa_or hpp (toNat_or_lt (by decide) hperm)

theorem pteAddr_newPte (hpp : pp < 2 ^ 20) (hperm : perm.toNat < 4096) :
    pteAddr (newPte pp perm) = page2pa pp := by
  rw [newPte_eq]
  exact pteAddr_page2pa_or hpp (toNat_or_lt (by decide) hperm)

theorem newPte_low (hpp : pp < 2 ^ 20) (hperm : perm.toNat < 4096) :
    newPte pp perm &&& 0xFFF#32 = perm ||| pteP := by
  have hlt := toNat_or_lt (a := pteP) (by decide) hperm
  have hmask : (0xFFF#32).toNat = 2 ^ 12 - 1 := rfl
  rw [BitVec.or_comm perm, newPte_eq, ← BitVec.toNat_inj, BitVec.toNat_and, hmask,
    Nat.and_two_pow_sub_one_eq_mod, toNat_page2pa_or hpp hlt]
  omega

/-- `page_insert` where there is no page table yet: the first free page becomes the table, and
its entry for `va` is written. -/
theorem pageInsert_install (va perm : Word) {pt : ℕ} (hpde : s.mem pgdir (pdx va) = 0#32)
    (hfree : s.FreeList (pt :: l)) (hpt : pt < s.npages) (hne : pgdir ≠ pt) (hpp : pp < s.npages) :
    ∃ s₁, AllocStep s pt l s₁ ∧ s.pageInsert pgdir pp va perm =
      .ok (0, ((s₁.installed pgdir va pt).setRef pp
        ((s₁.installed pgdir va pt).ref pp + 1#16)).store pt (ptx va) (newPte pp perm)) := by
  obtain ⟨s₁, step, hwalk⟩ := pgdirWalk_alloc hpde (or_pteP_ne_zero perm) hfree hpt hne
  have hnpages : (s₁.installed pgdir va pt).npages = s.npages := by
    rw [installed_npages, step.frame]
  have hslot : (s₁.installed pgdir va pt).mem pt (ptx va) = 0#32 := by
    rw [mem_installed, if_pos rfl]
  exact ⟨s₁, step, pageInsert_empty hwalk (hnpages ▸ hpp) hslot⟩

/-! ### The walk of `page_insert` -/

/-- The table entry that `page_insert` works on, after the walk. -/
structure WalkStep (s : Kern) (pgdir : ℕ) (va : Word) (s₁ : Kern) : Prop where
  npages : s₁.npages = s.npages
  tables : DistinctTables s₁.mem pgdir
  pde : s₁.mem pgdir (pdx va) ≠ 0#32
  pde_present : s.mem pgdir (pdx va) = 0#32 ∨ present (s.mem pgdir (pdx va)) →
    present (s₁.mem pgdir (pdx va))
  table_lt : frameOf (s₁.mem pgdir (pdx va)) < s₁.npages
  slots : ∀ x : VPage, x.User → slot s₁.mem pgdir x = slot s.mem pgdir x
  walks : ∀ x : VPage, x.User → walk s₁.mem pgdir x = walk s.mem pgdir x

/-- The walk fails exactly when there is neither a page table nor a page for one, and
otherwise leaves a table for `va` and the slots of all user pages as they were. -/
theorem pgdirWalk_spec (hwf : s.WellFormed pgdir l) (hva : va < utop) {create : Word}
    (hcreate : create ≠ 0#32) :
    (s.mem pgdir (pdx va) = 0#32 ∧ l = [] ∧
      s.pgdirWalk pgdir va create = .ok (none, s)) ∨
    (¬ (s.mem pgdir (pdx va) = 0#32 ∧ l = []) ∧ ∃ s₁, WalkStep s pgdir va s₁ ∧
      s.pgdirWalk pgdir va create =
        .ok (some ⟨frameOf (s₁.mem pgdir (pdx va)), ptx va⟩, s₁)) := by
  have huser : (vpage va).User := vpage_user hva
  by_cases hpde : s.mem pgdir (pdx va) = 0#32
  · cases l with
    | nil => exact .inl ⟨hpde, rfl, pgdirWalk_full hpde hwf.free⟩
    | cons pt l =>
      have hpt : pt < s.npages := hwf.free_lt pt (List.mem_cons_self ..)
      have hdir : pgdir ≠ pt := fun h => hwf.pgdir_not_free (h ▸ List.mem_cons_self ..)
      have hpt20 := lt_of_lt_npages hpt
      -- a table in use is not the page that comes from the free list
      have hfresh : ∀ d : Fin 1024, d.val < userEntries → s.mem pgdir d ≠ 0#32 →
          frameOf (s.mem pgdir d) ≠ pt := fun d hd hne h =>
        hwf.table_not_free d hd hne (h ▸ List.mem_cons_self ..)
      obtain ⟨s₁, step, hwalk⟩ := pgdirWalk_alloc hpde hcreate hwf.free hpt hdir
      have hmem : s₁.mem = s.mem := step.mem
      rw [← hmem] at hpde hfresh
      have ht : DistinctTables s₁.mem pgdir := hmem ▸ hwf.tables
      have hentry : (s₁.installed pgdir va pt).mem pgdir (pdx va) = newPde pt := by
        rw [mem_installed_pgdir hdir, if_pos rfl]
      have hnpages : (s₁.installed pgdir va pt).npages = s.npages := by
        rw [installed, memset_frame]
        change s₁.npages = _
        rw [step.frame]
      refine .inr ⟨by simp, s₁.installed pgdir va pt, ⟨hnpages, ?_, ?_, ?_, ?_, ?_, ?_⟩, ?_⟩
      · exact distinctTables_installed ht hpt20 hdir hfresh
      · rw [hentry]
        exact ne_zero_of_present (present_newPde pt)
      · intro _
        rw [hentry]
        exact present_newPde pt
      · rw [hentry, frameOf_newPde hpt20, hnpages]
        exact hpt
      · intro x hx
        rw [slot_installed ht hpde hpt20 hdir hfresh hx, hmem]
      · intro x hx
        rw [walk_installed ht hpde hpt20 hdir hfresh hx, hmem]
      · rw [hwalk, hentry, frameOf_newPde hpt20]
  · -- with a table the walk changes nothing
    have htbl := hwf.table_lt (pdx va) huser hpde
    refine .inr ⟨fun h => hpde h.1, s, ?_, pgdirWalk_table hpde htbl⟩
    exact ⟨rfl, hwf.tables, hpde, fun h => h.resolve_left hpde, htbl, fun _ _ => rfl,
      fun _ _ => rfl⟩

/-- The removal inside `page_insert` and `page_remove` itself, on an entry whose page
number is one of `pages[]`: only the entry for `va` changes in memory. -/
theorem pageRemove_mem (hpde : s.mem pgdir (pdx va) ≠ 0#32)
    (htbl : frameOf (s.mem pgdir (pdx va)) < s.npages)
    (hpage : frameOf (s.mem (frameOf (s.mem pgdir (pdx va))) (ptx va)) < s.npages) :
    ∃ s', s.pageRemove pgdir va = .ok s' ∧ s'.npages = s.npages ∧
      s'.mem = s.mem.set (frameOf (s.mem pgdir (pdx va))) (ptx va) 0#32 := by
  obtain ⟨s₁, hdec⟩ := pageDecref_ok hpage
  obtain ⟨hframe, -⟩ := pageDecref_frame hdec
  refine ⟨_, pageRemove_eq hpde htbl hdec, ?_, ?_⟩
  · change s₁.npages = s.npages
    rw [hframe]
  · change s₁.mem.set _ _ _ = _
    rw [hframe]

/-- `page_insert` after the walk, when the slot is empty or names a page of `pages[]`:
only the entry for `va` changes in memory. -/
theorem pageInsert_mem {s₁ : Kern} (step : WalkStep s pgdir va s₁) (huser : (vpage va).User)
    (hwalk : s.pgdirWalk pgdir va (perm ||| pteP) =
      .ok (some ⟨frameOf (s₁.mem pgdir (pdx va)), ptx va⟩, s₁))
    (hpp : pp < s.npages)
    (hslot : slot s.mem pgdir (vpage va) = 0#32 ∨
      frameOf (slot s.mem pgdir (vpage va)) < s.npages) :
    ∃ s', s.pageInsert pgdir pp va perm = .ok (0, s') ∧ s'.npages = s.npages ∧
      s'.mem = s₁.mem.set (frameOf (s₁.mem pgdir (pdx va))) (ptx va) (newPte pp perm) := by
  have hpp₁ : pp < s₁.npages := step.npages ▸ hpp
  have hval : s₁.mem (frameOf (s₁.mem pgdir (pdx va))) (ptx va) = slot s.mem pgdir (vpage va) := by
    rw [← step.slots _ huser]
    exact (slot_of_ne (x := vpage va) step.pde).symm
  by_cases hzero : slot s.mem pgdir (vpage va) = 0#32
  · refine ⟨_, pageInsert_empty hwalk hpp₁ (hval.trans hzero), step.npages, rfl⟩
  · have hpage := (hslot.resolve_left hzero)
    rw [← step.npages, ← hval] at hpage
    obtain ⟨s₂, hremove, hnp, hmem⟩ := pageRemove_mem
      (s := s₁.setRef pp (s₁.ref pp + 1#16)) step.pde step.table_lt hpage
    refine ⟨_, pageInsert_occupied hwalk hpp₁ (hval ▸ hzero) hremove, hnp.trans step.npages, ?_⟩
    change s₂.mem.set _ _ _ = _
    rw [hmem]
    exact Mem.set_set ..

/-! ### A small state

Eight pages of memory with the page directory in frame 1, one page table in frame 2 and
one free page, frame 3. The first entry of the table is a parameter. -/

def smallState (entry : Word) : Kern where
  npages := 8
  npages_le := eight_le_maxPages
  kernPgdir := 1
  mem g i := if g = 1 ∧ i = 0 then 0x2007#32 else if g = 2 ∧ i = 0 then entry else 0#32
  pages pp := if pp = 3 then ⟨⟨none, .head⟩, 0#16⟩ else ⟨⟨none, .null⟩, 1#16⟩
  pageFreeList := some 3
  endSym := 0xF0104000#32
  nextfree := 0xF0104000#32
  log := []

theorem smallState_pgdir (entry : Word) (d : Fin 1024) :
    (smallState entry).mem 1 d = if d = 0 then 0x2007#32 else 0#32 := by
  simp [smallState]

theorem smallState_wellFormed {entry : Word} (h : present entry → frameOf entry < 8) :
    (smallState entry).WellFormed 1 [3] := by
  -- the directory has the one entry 0
  have hdir {d : Fin 1024} (hne : (smallState entry).mem 1 d ≠ 0#32) :
      d = 0 ∧ (smallState entry).mem 1 d = 0x2007#32 := by
    rw [smallState_pgdir] at hne ⊢
    split_ifs at hne ⊢ with hd
    · exact ⟨hd, rfl⟩
    · exact absurd rfl hne
  have hfree : ∀ pp ∈ [3], pp < 8 := by decide
  have htable : frameOf 0x2007#32 < 8 := by decide
  refine ⟨⟨rfl, rfl, rfl⟩, hfree, by decide, ⟨?_, ?_⟩, ?_, ?_, ?_⟩
  · intro d _ hne
    rw [(hdir hne).2]
    decide
  · intro d d' _ _ hne hne' _
    exact (hdir hne).1.trans (hdir hne').1.symm
  · intro d _ hne
    rw [(hdir hne).2]
    exact htable
  · intro d _ hne
    rw [(hdir hne).2]
    decide
  · intro x _ hpresent
    by_cases hne : (smallState entry).mem 1 x.1 = 0#32
    · rw [slot_of_eq hne] at hpresent
      exact absurd hpresent not_present_zero
    · rw [slot_of_ne hne, (hdir hne).2] at hpresent ⊢
      have hframe : frameOf 0x2007#32 = 2 := by decide
      rw [hframe] at hpresent ⊢
      by_cases hx : x.2 = 0
      · simp only [smallState, hx] at hpresent ⊢
        exact h (by simpa using hpresent)
      · simp only [smallState, hx] at hpresent
        exact absurd (by simpa using hpresent) not_present_zero

/-! ### Insertion and removal as updates of the address space -/

/-- `page_insert(pgdir, pp, va, perm)` acts as an insertion: it fails only for lack of a
page table, and then changes nothing; otherwise the page of `va` translates to `pp`
with the given permissions and every other user page translates as before. -/
def InsertRefines (s : Kern) (pgdir : ℕ) (l : List ℕ) (pp : ℕ) (va perm : Word) : Prop :=
  ∃ r s', s.pageInsert pgdir pp va perm = .ok (r, s') ∧
    (r = -eNoMem ↔ s.mem pgdir (pdx va) = 0#32 ∧ l = []) ∧
    (r = -eNoMem → s' = s) ∧
    (r ≠ -eNoMem → r = 0 ∧
      (∀ la, pgnum la = pgnum va → s'.checkVa2pa pgdir la = .ok (page2pa pp) ∧
        ∃ pde pte, walk s'.mem pgdir (vpage la) = some (pde, pte) ∧
          pteAddr pte = page2pa pp ∧ pte &&& 0xFFF#32 = perm ||| pteP) ∧
      (∀ la, la < utop → pgnum la ≠ pgnum va →
        walk s'.mem pgdir (vpage la) = walk s.mem pgdir (vpage la)) ∧
      ∀ x : VPage, x.User →
        s'.space pgdir x = (s.space pgdir).insert (vpage va) pp (perm ||| pteP) x)

/-- `page_remove(pgdir, va)` acts as a removal: the page of `va` does not translate any
more, and every other address translates as before, also above `UTOP`. -/
def RemoveRefines (s : Kern) (pgdir : ℕ) (va : Word) : Prop :=
  ∃ s', s.pageRemove pgdir va = .ok s' ∧
    (∀ la, pgnum la = pgnum va → walk s'.mem pgdir (vpage la) = none) ∧
    (∀ la, pgnum la ≠ pgnum va →
      walk s'.mem pgdir (vpage la) = walk s.mem pgdir (vpage la)) ∧
    s'.space pgdir = (s.space pgdir).remove (vpage va)

/-- The entry for `va` is empty or names a page of `pages[]`. -/
def SlotInBounds (s : Kern) (pgdir : ℕ) (va : Word) : Prop :=
  slot s.mem pgdir (vpage va) = 0#32 ∨ frameOf (slot s.mem pgdir (vpage va)) < s.npages

instance (s : Kern) (pgdir : ℕ) (va : Word) : Decidable (s.SlotInBounds pgdir va) :=
  inferInstanceAs (Decidable (_ ∨ _))

/-- `va` has no directory entry, or a present one, and then the entry in its page table is
empty or names a page of `pages[]`. -/
def InsertFits (s : Kern) (pgdir : ℕ) (va : Word) : Prop :=
  s.mem pgdir (pdx va) = 0#32 ∨ present (s.mem pgdir (pdx va)) ∧ s.SlotInBounds pgdir va

instance (s : Kern) (pgdir : ℕ) (va : Word) : Decidable (s.InsertFits pgdir va) :=
  inferInstanceAs (Decidable (_ ∨ _))

/-- The walk of `la` reads the table entry of `va`, as its directory entry or as its table
entry. -/
def ReadsEntry (m : Mem) (pgdir : ℕ) (va la : Word) : Prop :=
  pgdir = frameOf (m pgdir (pdx va)) ∧ pdx la = ptx va ∨
    frameOf (m pgdir (pdx la)) = frameOf (m pgdir (pdx va)) ∧ ptx la = ptx va

theorem walk_clear_of_reads {m : Mem} {la : Word} (h : ReadsEntry m pgdir va la) :
    walk (m.set (frameOf (m pgdir (pdx va))) (ptx va) 0#32) pgdir (vpage la) = none :=
  (walk_set_zero ..).trans (if_pos h)

theorem walk_clear_of_not_reads {m : Mem} {la : Word} (h : ¬ ReadsEntry m pgdir va la) :
    walk (m.set (frameOf (m pgdir (pdx va))) (ptx va) 0#32) pgdir (vpage la) =
      walk m pgdir (vpage la) :=
  (walk_set_zero ..).trans (if_neg h)

/-- No other address is translated through the table entry of `va`; and at and above `UTOP`
the page table and the page of `va` are pages of `pages[]`. -/
structure RemoveAlone (s : Kern) (pgdir : ℕ) (va : Word) : Prop where
  alone : ∀ la, pgnum la ≠ pgnum va → walk s.mem pgdir (vpage la) ≠ none →
    ¬ ReadsEntry s.mem pgdir va la
  bounds : utop ≤ va → frameOf (s.mem pgdir (pdx va)) < s.npages ∧
    frameOf (s.mem (frameOf (s.mem pgdir (pdx va))) (ptx va)) < s.npages

/-- The walk that `page_insert` leaves behind. -/
private theorem walk_after_insert {s₁ s' : Kern} (step : WalkStep s pgdir va s₁)
    (huser : (vpage va).User) (hpde : present (s₁.mem pgdir (pdx va)))
    (hmem : s'.mem = s₁.mem.set (frameOf (s₁.mem pgdir (pdx va))) (ptx va) (newPte pp perm))
    {x : VPage} (hx : x.User) :
    walk s'.mem pgdir x =
      if x = vpage va then some (s₁.mem pgdir (pdx va), newPte pp perm)
      else walk s.mem pgdir x := by
  have hset := walk_set (y := vpage va) (v := newPte pp perm) step.tables huser hpde hx
  rw [if_pos (present_newPte pp perm), step.walks x hx] at hset
  rw [hmem]
  exact hset

theorem insertRefines_of_fits (hwf : s.WellFormed pgdir l) (hva : va < utop)
    (hpp : pp < s.npages) (hperm : perm.toNat < 4096) (hfits : s.InsertFits pgdir va) :
    s.InsertRefines pgdir l pp va perm := by
  have huser : (vpage va).User := vpage_user hva
  have hpp20 := lt_of_lt_npages hpp
  have hcreate := or_pteP_ne_zero perm
  have hslot : s.SlotInBounds pgdir va :=
    hfits.elim (fun hzero => .inl (slot_of_eq (x := vpage va) hzero)) And.right
  rcases pgdirWalk_spec hwf hva hcreate with ⟨hpde, rfl, hwalk⟩ | ⟨hnot, s₁, step, hwalk⟩
  · refine ⟨-eNoMem, s, pageInsert_full hpde hwf.free, ?_, fun _ => rfl, fun h => absurd rfl h⟩
    simp [hpde]
  · -- an occupied entry and an empty one lead to the same memory
    obtain ⟨s', hinsert, hnpages, hmem⟩ := pageInsert_mem step huser hwalk hpp hslot
    have hpde₁ := step.pde_present (hfits.imp_right And.left)
    have hwalk' {x : VPage} (hx : x.User) := walk_after_insert step huser hpde₁ hmem hx
    have hzero : (0 : ℤ) ≠ -eNoMem := by decide
    refine ⟨0, s', hinsert, ?_, fun h => absurd h hzero, fun _ => ⟨rfl, ?_, ?_, ?_⟩⟩
    · simp only [hzero, hnot]
    · intro la hla
      have hpage : vpage la = vpage va := (vpage_eq_iff la va).mpr hla
      have hpdx : pdx la = pdx va := congrArg Prod.fst hpage
      have hentry := hwalk' huser
      rw [if_pos rfl, ← hpage] at hentry
      refine ⟨?_, _, _, hentry, pteAddr_newPte hpp20 hperm, newPte_low hpp20 hperm⟩
      rw [checkVa2pa_eq, hentry]
      · exact congrArg Except.ok (pteAddr_newPte hpp20 hperm)
      · intro _
        have hne := (step.tables.ne_pgdir (pdx va) huser step.pde).symm
        rw [hpdx, hmem, Mem.set_of_frame_ne hne, hnpages, ← step.npages]
        exact step.table_lt
    · intro la hla hne
      rw [hwalk' (vpage_user hla), if_neg fun h => hne ((vpage_eq_iff la va).mp h)]
    · intro x hx
      rw [space, hwalk' hx, AddressSpace.insert, Function.update_apply]
      split_ifs with hxv
      · simp [entryBits, frameOf_newPte hpp20 hperm, newPte_low hpp20 hperm]
      · rfl

/-- Outside the array bounds `page_insert` follows a page number that is not one of
`pages[]`. -/
theorem pageInsert_wild (hwf : s.WellFormed pgdir l) (hva : va < utop) (hpp : pp < s.npages)
    (hslot : ¬ s.SlotInBounds pgdir va) : s.pageInsert pgdir pp va perm = .error .wild := by
  have huser : (vpage va).User := vpage_user hva
  obtain ⟨hne, hout⟩ := not_or.mp hslot
  have hpde : s.mem pgdir (pdx va) ≠ 0#32 := fun h => hne (slot_of_eq h)
  have htbl := hwf.table_lt (pdx va) huser hpde
  rw [slot_of_ne (x := vpage va) hpde] at hne hout
  have hwild : (s.setRef pp (s.ref pp + 1#16)).pageRemove pgdir va = .error .wild :=
    pageRemove_error (s := s.setRef pp (s.ref pp + 1#16)) hpde htbl
      (pageDecref_wild (Nat.not_lt.mp hout))
  exact pageInsert_error (pgdirWalk_table hpde htbl) hpp hne hwild

/-- Under a directory entry that is not present `page_insert` reports success and maps
nothing. -/
theorem pageInsert_absent (perm : Word) (hwf : s.WellFormed pgdir l) (hva : va < utop)
    (hpp : pp < s.npages) (hpde : s.mem pgdir (pdx va) ≠ 0#32)
    (habsent : ¬ present (s.mem pgdir (pdx va))) (hslot : s.SlotInBounds pgdir va) :
    ∃ s', s.pageInsert pgdir pp va perm = .ok (0, s') ∧ walk s'.mem pgdir (vpage va) = none := by
  have huser : (vpage va).User := vpage_user hva
  have htbl := hwf.table_lt (pdx va) huser hpde
  have step : WalkStep s pgdir va s := ⟨rfl, hwf.tables, hpde, fun h => h.resolve_left hpde, htbl,
    fun _ _ => rfl, fun _ _ => rfl⟩
  obtain ⟨s', hinsert, -, hmem⟩ :=
    pageInsert_mem step huser (pgdirWalk_table hpde htbl) hpp hslot
  refine ⟨s', hinsert, walk_of_pde ?_⟩
  -- the directory is not written, so its entry is still not present
  rw [hmem]
  have hdir := set_table_pgdir (y := vpage va) (v := newPte pp perm) hwf.tables huser hpde
  change ¬ present (s.mem.set (frameOf (s.mem pgdir (vpage va).1)) (vpage va).2 _ pgdir _)
  rw [hdir]
  exact habsent

/-- In every well-formed state `page_insert` acts as an insertion exactly when there is no
directory entry or a present one, and the entry it replaces is empty or names a page of
`pages[]`. -/
theorem insertRefines_iff (hwf : s.WellFormed pgdir l) (hva : va < utop) (hpp : pp < s.npages)
    (hperm : perm.toNat < 4096) :
    s.InsertRefines pgdir l pp va perm ↔ s.InsertFits pgdir va := by
  refine ⟨fun hrefines => ?_, insertRefines_of_fits hwf hva hpp hperm⟩
  obtain ⟨r, s', hinsert, hfull, -, hdone⟩ := hrefines
  by_contra hfits
  obtain ⟨hpde, hpresent⟩ := not_or.mp hfits
  by_cases hslot : s.SlotInBounds pgdir va
  · obtain ⟨s'', hinsert', hwalk⟩ := pageInsert_absent perm hwf hva hpp hpde
      (fun h => hpresent ⟨h, hslot⟩) hslot
    rw [hinsert', Except.ok.injEq, Prod.mk.injEq] at hinsert
    obtain ⟨-, rfl⟩ := hinsert
    obtain ⟨-, hpage, -⟩ := hdone fun h => hpde (hfull.mp h).1
    obtain ⟨-, pde, pte, hsome, -⟩ := hpage va rfl
    rw [hwalk] at hsome
    exact absurd hsome (by simp)
  · rw [pageInsert_wild hwf hva hpp hslot] at hinsert
    exact absurd hinsert (by simp)

/-- Where a page is mapped, `page_remove` acts as a removal exactly when no other address is
translated through the entry it clears. -/
theorem removeRefines_iff (hwf : s.WellFormed pgdir l)
    (hmapped : walk s.mem pgdir (vpage va) ≠ none) :
    s.RemoveRefines pgdir va ↔ s.RemoveAlone pgdir va := by
  obtain ⟨hpresent, hpte⟩ := walk_ne_none_iff.mp hmapped
  have hpde : s.mem pgdir (pdx va) ≠ 0#32 := ne_zero_of_present hpresent
  constructor
  · rintro ⟨s', hremove, -, hother, -⟩
    have htbl : frameOf (s.mem pgdir (pdx va)) < s.npages := by
      by_contra hge
      obtain ⟨e, he⟩ := pageLookup_error hpde (Nat.not_lt.mp hge)
      rw [pageRemove, he] at hremove
      exact absurd hremove (by simp)
    have hpage : frameOf (s.mem (frameOf (s.mem pgdir (pdx va))) (ptx va)) < s.npages := by
      by_contra hge
      rw [pageRemove_error hpde htbl (pageDecref_wild (Nat.not_lt.mp hge))] at hremove
      exact absurd hremove (by simp)
    refine ⟨fun la hla hwalk hreads => ?_, fun _ => ⟨htbl, hpage⟩⟩
    obtain ⟨s'', hremove', -, hmem⟩ := pageRemove_mem hpde htbl hpage
    rw [hremove', Except.ok.injEq] at hremove
    subst hremove
    have hnone := walk_clear_of_reads hreads
    rw [← hmem, hother la hla] at hnone
    exact hwalk hnone
  · rintro ⟨halone, hbounds⟩
    have hin : frameOf (s.mem pgdir (pdx va)) < s.npages ∧
        frameOf (s.mem (frameOf (s.mem pgdir (pdx va))) (ptx va)) < s.npages := by
      by_cases hva : va < utop
      · have hentry := hwf.entry_lt (vpage va) (vpage_user hva)
          (by rw [slot_of_ne (x := vpage va) hpde]; exact hpte)
        rw [slot_of_ne (x := vpage va) hpde] at hentry
        exact ⟨hwf.table_lt _ (vpage_user hva) hpde, hentry⟩
      · exact hbounds (BitVec.not_lt.mp hva)
    obtain ⟨s', hremove, -, hmem⟩ := pageRemove_mem hpde hin.1 hin.2
    have hsame {la : Word} (hla : pgnum la = pgnum va) :
        walk s'.mem pgdir (vpage la) = none := by
      rw [(vpage_eq_iff la va).mpr hla, hmem]
      exact walk_clear_of_reads (.inr ⟨rfl, rfl⟩)
    have hother {la : Word} (hla : pgnum la ≠ pgnum va) :
        walk s'.mem pgdir (vpage la) = walk s.mem pgdir (vpage la) := by
      rw [hmem]
      -- a walk that reads the entry found nothing before
      by_cases hreads : ReadsEntry s.mem pgdir va la
      · rw [walk_clear_of_reads hreads, not_not.mp fun hwalk => halone la hla hwalk hreads]
      · exact walk_clear_of_not_reads hreads
    refine ⟨s', hremove, fun la => hsame, fun la => hother, ?_⟩
    funext x
    obtain ⟨la, rfl⟩ := exists_vpage x
    rw [space, AddressSpace.remove, Function.update_apply]
    by_cases hla : pgnum la = pgnum va
    · rw [hsame hla, if_pos ((vpage_eq_iff la va).mpr hla)]
      rfl
    · rw [hother hla, if_neg fun h => hla ((vpage_eq_iff la va).mp h)]
      rfl

/-- **Refinement of the address space.** In every well-formed state `page_insert` acts as
an insertion, and `page_remove` as a removal wherever a page is mapped, exactly under the
conditions on the entries of `va`. -/
theorem page_ops_refine (hwf : s.WellFormed pgdir l) :
    (∀ pp va perm, va < utop → pp < s.npages → perm.toNat < 4096 →
      (s.InsertRefines pgdir l pp va perm ↔ s.InsertFits pgdir va)) ∧
    ∀ va, walk s.mem pgdir (vpage va) ≠ none →
      (s.RemoveRefines pgdir va ↔ s.RemoveAlone pgdir va) :=
  ⟨fun _ _ _ hva hpp hperm => insertRefines_iff hwf hva hpp hperm,
    fun _ hmapped => removeRefines_iff hwf hmapped⟩

/-- The refinement at a state whose entry for address 0 maps page 4. -/
theorem page_ops_refine_small :
    ((smallState 0x4003#32).InsertRefines 1 [3] 5 0#32 2#32 ↔
      (smallState 0x4003#32).InsertFits 1 0#32) ∧
    ((smallState 0x4003#32).RemoveRefines 1 0#32 ↔ (smallState 0x4003#32).RemoveAlone 1 0#32) :=
  have hwf : (smallState 0x4003#32).WellFormed 1 [3] := smallState_wellFormed fun _ => by decide
  have hrefine := page_ops_refine hwf
  ⟨hrefine.1 5 0#32 2#32 (by decide) (by decide) (by decide), hrefine.2 0#32 (by decide)⟩

/-- An entry that is not present but nonzero takes `page_insert` out of `pages[]`. -/
theorem not_insertRefines_small :
    (smallState 0xFFFFF000#32).WellFormed 1 [3] ∧
      ¬ (smallState 0xFFFFF000#32).InsertRefines 1 [3] 5 0#32 2#32 := by
  have hwf : (smallState 0xFFFFF000#32).WellFormed 1 [3] :=
    smallState_wellFormed (fun h => absurd h (by decide))
  refine ⟨hwf, ?_⟩
  rintro ⟨r, s', hinsert, -⟩
  rw [pageInsert_wild hwf (by decide) (by decide) (by decide)] at hinsert
  exact absurd hinsert (by simp)

/-! ### Lookup -/

/-- `page_lookup` returns null exactly when `check_va2pa` finds no translation, and
otherwise the element of `pages[]` at the address it finds. -/
def LookupAgrees (s : Kern) (pgdir : ℕ) (va : Word) : Prop :=
  ∃ r s', s.pageLookup pgdir va = .ok (r, s') ∧
    (r = none ↔ s.checkVa2pa pgdir va = .ok (~~~0#32)) ∧
    ∀ pp pte, r = some (pp, pte) → s.checkVa2pa pgdir va = .ok (page2pa pp)

/-- If no page is mapped at `va`, then `page_remove` leaves every count, the free list
and every page table entry unchanged. -/
def RemoveSilent (s : Kern) (pgdir : ℕ) (va : Word) : Prop :=
  walk s.mem pgdir (vpage va) = none → ∃ s', s.pageRemove pgdir va = .ok s' ∧
    (∀ pp, s'.ref pp = s.ref pp) ∧ s'.freeStore = s.freeStore ∧ s'.mem = s.mem

/-- `va` has no directory entry at all, or it has a translation. -/
def EmptyOrMapped (s : Kern) (pgdir : ℕ) (va : Word) : Prop :=
  s.mem pgdir (pdx va) = 0#32 ∨ walk s.mem pgdir (vpage va) ≠ none

theorem pteAddr_ne_ones (pte : Word) : pteAddr pte ≠ ~~~0#32 := by
  intro h
  have hnat := congrArg BitVec.toNat h
  rw [toNat_pteAddr] at hnat
  simp at hnat
  omega

/-- The lookup agrees with the walk exactly where no directory entry hides an absent
translation. -/
theorem lookupAgrees_iff
    (htbl : ∀ d, present (s.mem pgdir d) → frameOf (s.mem pgdir d) < s.npages) :
    s.LookupAgrees pgdir va ↔ s.EmptyOrMapped pgdir va := by
  have hcheck : s.checkVa2pa pgdir va = _ := checkVa2pa_eq (htbl (pdx va))
  constructor
  · rintro ⟨r, s', hlookup, hnull, -⟩
    by_contra hcond
    -- a table without the entry: the lookup succeeds and the check finds nothing
    obtain ⟨hpde, hwalk⟩ := not_or.mp hcond
    rw [not_not.mp hwalk] at hcheck
    rcases Nat.lt_or_ge (frameOf (s.mem pgdir (pdx va))) s.npages with htable | htable
    · rw [pageLookup_table hpde htable] at hlookup
      have hr := hnull.mpr hcheck
      simp [hr] at hlookup
    · -- the lookup cannot read a table outside the memory
      obtain ⟨e, he⟩ : ∃ e, s.pageLookup pgdir va = .error e := pageLookup_error hpde htable
      rw [he] at hlookup
      exact absurd hlookup (by simp)
  · rintro (hpde | hwalk)
    · have hnone : walk s.mem pgdir (vpage va) = none := by
        refine walk_of_pde (x := vpage va) ?_
        rw [show (vpage va).1 = pdx va from rfl, hpde]
        exact not_present_zero
      rw [hnone] at hcheck
      exact ⟨none, s, pageLookup_none hpde, by simp [hcheck], by simp⟩
    · obtain ⟨hpde, hpte⟩ := walk_ne_none_iff.mp hwalk
      rw [walk_of_present hpde hpte] at hcheck
      refine ⟨_, s, pageLookup_table (ne_zero_of_present hpde) (htbl _ hpde), ?_, ?_⟩
      · simp only [reduceCtorEq, false_iff, hcheck, Except.ok.injEq]
        exact pteAddr_ne_ones _
      · rintro pp pte hsome
        obtain ⟨rfl, -⟩ := Prod.mk.inj (Option.some_inj.mp hsome)
        rw [hcheck]
        exact congrArg Except.ok (pteAddr_eq_page2pa _)

/-- Under a page table, removing an unmapped page drops a reference of some page. -/
theorem removeSilent_iff : s.RemoveSilent pgdir va ↔ s.EmptyOrMapped pgdir va := by
  constructor
  · intro hsilent
    by_contra hcond
    obtain ⟨hpde, hwalk⟩ := not_or.mp hcond
    obtain ⟨s', hremove, href, -, -⟩ := hsilent (not_not.mp hwalk)
    rcases Nat.lt_or_ge (frameOf (s.mem pgdir (pdx va))) s.npages with htable | htable
    · cases hdec : s.pageDecref (frameOf (s.mem (frameOf (s.mem pgdir (pdx va))) (ptx va))) with
      | error e =>
        rw [pageRemove_error hpde htable hdec] at hremove
        exact absurd hremove (by simp)
      | ok s₁ =>
        rw [pageRemove_eq hpde htable hdec, Except.ok.injEq] at hremove
        subst hremove
        -- the count of some page has gone down
        have hdown := href (frameOf (s.mem (frameOf (s.mem pgdir (pdx va))) (ptx va)))
        change s₁.ref _ = _ at hdown
        rw [pageDecref_ref hdec] at hdown
        bv_omega
    · obtain ⟨e, he⟩ : ∃ e, s.pageLookup pgdir va = .error e := pageLookup_error hpde htable
      rw [pageRemove, he] at hremove
      exact absurd hremove (by simp)
  · rintro (hpde | hwalk) hnone
    · exact ⟨s, pageRemove_none hpde, fun _ => rfl, rfl, rfl⟩
    · exact absurd hnone hwalk

/-- **Lookup and silent removal.** Whenever present entries name frames of memory, the
lookup agrees with the walk and the removal of an unmapped page does nothing exactly
for the addresses without a directory entry and those with a translation. -/
theorem lookup_respects_walk
    (htbl : ∀ d, present (s.mem pgdir d) → frameOf (s.mem pgdir d) < s.npages) :
    s.LookupAgrees pgdir va ∧ s.RemoveSilent pgdir va ↔ s.EmptyOrMapped pgdir va := by
  rw [lookupAgrees_iff htbl, removeSilent_iff, and_self]

private theorem smallState_tables (entry : Word) (d : Fin 1024)
    (h : present ((smallState entry).mem 1 d)) :
    frameOf ((smallState entry).mem 1 d) < (smallState entry).npages := by
  have htable : frameOf 0x2007#32 < 8 := by decide
  rw [smallState_pgdir] at h ⊢
  split_ifs at h ⊢
  · exact htable
  · exact absurd h not_present_zero

theorem lookup_respects_walk_small :
    (smallState 0x4003#32).LookupAgrees 1 0#32 ∧ (smallState 0x4003#32).RemoveSilent 1 0#32 ↔
      (smallState 0x4003#32).EmptyOrMapped 1 0#32 :=
  lookup_respects_walk (smallState_tables _)

/-- Under a page table with an empty entry the lookup returns page 0, and removing the
unmapped page drops a reference of page 0. -/
theorem not_lookupAgrees_small :
    (∀ d, present ((smallState 0#32).mem 1 d) →
      frameOf ((smallState 0#32).mem 1 d) < (smallState 0#32).npages) ∧
    ¬ (smallState 0#32).LookupAgrees 1 0#32 ∧ ¬ (smallState 0#32).RemoveSilent 1 0#32 := by
  refine ⟨smallState_tables _, ?_⟩
  rw [lookupAgrees_iff (smallState_tables _), removeSilent_iff, and_self, EmptyOrMapped, not_or]
  exact ⟨by decide, by decide⟩

end Kern

end JosVmx
