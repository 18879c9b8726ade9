import JosVmx.Kern.RefCount
import JosVmx.Lib.AsyncCache

/-!
# Stale TLB entries

The TLB is a cache of the two-level walk that the processor may fill at any moment, also
between two stores of one page function, and that `invlpg` flushes one page at a time.
The events of a page function are the stores and flushes in its log.

`page_remove` clears the entry before it flushes, and `page_insert` writes into entries
that were not present, so neither leaves a stale entry behind. Creating a page table is
different: `pgdir_walk` installs the new table before it clears it, and until then the
processor may read translations from whatever the page held.

## Main results

* `Kern.coheres_remove` — `page_remove` keeps the TLB coherent below `UTOP`
* `Kern.Owned.coheres_insert` — so does `page_insert`, if a page table that it makes holds
  no present word but the entry that it is going to write
-/

namespace JosVmx

open Lib

/-- A TLB: the entries it holds for virtual pages. -/
abbrev Tlb := VPage → Option (Word × Word)

/-- The walk as the lookup of the TLB, with the events of the page functions. -/
def tlbLookup (pgdir : ℕ) : Lookup Mem VPage (Word × Word) Event where
  look m x := walk m pgdir x
  apply ev m :=
    match ev with
    | .store f i v => m.set f i v
    | _ => m
  flush ev :=
    match ev with
    | .invlpg va => some (vpage va)
    | _ => none

/-- Pages above `UTOP` are not looked at. -/
def Outside : VPage → Word × Word → Prop := fun x _ => ¬ x.User

namespace Kern

/-- The events from `s` to `s'` take coherence but for `D` to coherence but for `D'`. -/
def Coheres (pgdir : ℕ) (s s' : Kern) (D D' : VPage → Word × Word → Prop) : Prop :=
  ∃ evs : List Event, s'.log = evs.reverse ++ s.log ∧
    s'.mem = (tlbLookup pgdir).replay s.mem evs ∧ (tlbLookup pgdir).Triple s.mem D evs D'

variable {pgdir pp pt : ℕ} {s s' s'' : Kern} {D D' D'' : VPage → Word × Word → Prop}
  {va perm : Word}
  {avail : ℕ → Prop} {l : List ℕ}

/-! ### The primitive accesses -/

theorem Coheres.trans (h : Coheres pgdir s s' D D') (h' : Coheres pgdir s' s'' D' D'') :
    Coheres pgdir s s'' D D'' := by
  obtain ⟨evs, hlog, hmem, htriple⟩ := h
  obtain ⟨evs', hlog', hmem', htriple'⟩ := h'
  refine ⟨evs ++ evs', ?_, ?_, ?_⟩
  · rw [hlog', hlog, List.reverse_append, List.append_assoc]
  · rw [hmem', hmem, Lookup.replay_append]
  · rw [hmem] at htriple'
    exact htriple.append htriple'

theorem coheres_quiet (hlog : s'.log = s.log) (hmem : s'.mem = s.mem) :
    Coheres pgdir s s' D D :=
  ⟨[], hlog, hmem, Lookup.triple_nil fun _ _ h => h⟩

/-- One event that the page functions log. -/
theorem coheres_event {ev : Event} (hlog : s'.log = ev :: s.log)
    (hmem : s'.mem = (tlbLookup pgdir).apply ev s.mem)
    (hev : ∀ x e, (tlbLookup pgdir).flush ev ≠ some x → walk s.mem pgdir x = some e ∨ D x e →
      walk s'.mem pgdir x = some e ∨ D' x e) : Coheres pgdir s s' D D' := by
  refine ⟨[ev], hlog, hmem, (Lookup.triple_nil fun _ _ h => h).cons ?_⟩
  rw [← hmem]
  exact hev

/-- Pages changing hands do not show in the TLB. -/
theorem coheres_alloc (hlog : s'.log = .alloc pp :: s.log) (hmem : s'.mem = s.mem) :
    Coheres pgdir s s' D D :=
  coheres_event hlog hmem fun _ _ _ h => hmem ▸ h

theorem coheres_free (hlog : s'.log = .free pp :: s.log) (hmem : s'.mem = s.mem) :
    Coheres pgdir s s' D D :=
  coheres_event hlog hmem fun _ _ _ h => hmem ▸ h

theorem coheres_store {f : ℕ} {i : Fin 1024} {v : Word}
    (hev : ∀ x e, walk s.mem pgdir x = some e ∨ D x e →
      walk (s.mem.set f i v) pgdir x = some e ∨ D' x e) :
    Coheres pgdir s (s.store f i v) D D' :=
  coheres_event rfl rfl fun x e _ h => hev x e h

theorem coheres_invlpg (hev : ∀ x e, x ≠ vpage va → D x e → D' x e) :
    Coheres pgdir s (s.invlpg va) D D' := by
  refine coheres_event rfl rfl fun x e hflush h => h.imp_right (hev x e ?_)
  exact fun heq => hflush (congrArg some heq.symm)

/-! ### Entries of user page tables -/

/-- Exceptions for one page. -/
def OutsideOr (y : VPage) : VPage → Word × Word → Prop := fun x _ => ¬ x.User ∨ x = y

/-- Writing an entry that is not present. -/
theorem coheres_write_entry (ht : UserTables s.mem pgdir) {y : VPage} {v : Word} (hy : y.User)
    (hpde : s.mem pgdir y.1 ≠ 0#32) (hold : ¬ present (slot s.mem pgdir y)) :
    Coheres pgdir s (s.store (frameOf (s.mem pgdir y.1)) y.2 v) Outside Outside := by
  refine coheres_store ?_
  rintro x e (hwalk | hout)
  · by_cases hx : x.User
    · have hxy : x ≠ y := by
        rintro rfl
        rw [walk_eq_user_slot ht hx, if_neg hold] at hwalk
        exact absurd hwalk.symm (Option.some_ne_none e)
      rw [walk_set ht.toDistinctTables hy (ht.present _ hy hpde) hx, if_neg hxy]
      exact .inl hwalk
    · exact .inr hx
  · exact .inr hout

/-- Clearing an entry makes what the TLB holds for its page stale. -/
theorem coheres_clear_entry (ht : UserTables s.mem pgdir) {y : VPage} (hy : y.User)
    (hpde : s.mem pgdir y.1 ≠ 0#32) :
    Coheres pgdir s (s.store (frameOf (s.mem pgdir y.1)) y.2 0#32) Outside (OutsideOr y) := by
  refine coheres_store ?_
  rintro x e (hwalk | hout)
  · by_cases hx : x.User
    · by_cases hxy : x = y
      · exact .inr (.inr hxy)
      · rw [walk_set ht.toDistinctTables hy (ht.present _ hy hpde) hx, if_neg hxy]
        exact .inl hwalk
    · exact .inr (.inl hx)
  · exact .inr (.inl hout)

/-- Removal frees the page before it clears the entry, which the TLB cannot see, and
flushes after it. -/
theorem coheres_remove (ht : UserTables s.mem pgdir) (hva : va < utop)
    (hpde : s.mem pgdir (pdx va) ≠ 0#32) (htbl : frameOf (s.mem pgdir (pdx va)) < s.npages)
    (hrun : s.pageRemove pgdir va = .ok s') : Coheres pgdir s s' Outside Outside := by
  have huser := vpage_user hva
  cases hdec : s.pageDecref (frameOf (s.mem (frameOf (s.mem pgdir (pdx va))) (ptx va))) with
  | error e =>
    rw [pageRemove_error hpde htbl hdec] at hrun
    exact absurd hrun (by simp)
  | ok s₁ =>
    rw [pageRemove_eq hpde htbl hdec, Except.ok.injEq] at hrun
    obtain ⟨hframe, hlog⟩ := pageDecref_frame hdec
    have hmem : s₁.mem = s.mem := by rw [hframe]
    have hfst : Coheres pgdir s s₁ Outside Outside := by
      rcases hlog with hlog | hlog
      · exact coheres_quiet hlog hmem
      · exact coheres_free hlog hmem
    have hclear := coheres_clear_entry (s := s₁) (y := vpage va) (hmem ▸ ht) huser (hmem ▸ hpde)
    have hflush : Coheres pgdir (s₁.store (frameOf (s₁.mem pgdir (pdx va))) (ptx va) 0#32)
        ((s₁.store (frameOf (s₁.mem pgdir (pdx va))) (ptx va) 0#32).invlpg va)
        (OutsideOr (vpage va)) Outside :=
      coheres_invlpg fun x e hne hx => hx.resolve_right hne
    have hall := (hfst.trans hclear).trans hflush
    rw [hmem] at hall
    exact hrun ▸ hall

/-! ### Creating a page table -/

/-- What the processor may have read through a new page table before it was cleared, when
the only present word in it is the entry `w` for `y`. -/
def OutsideOrNew (y : VPage) (pt : ℕ) (w : Word) : VPage → Word × Word → Prop :=
  fun x e => ¬ x.User ∨ x = y ∧ e = (newPde pt, w)

/-- A new page table that has been installed and is being cleared: of its words from `j`
on, only that for `y` may be present, and it is `w` then; the others are cleared. -/
structure Clearing (m : Mem) (pgdir pt j : ℕ) (y : VPage) (w : Word) : Prop where
  tables : UserTables m pgdir
  pde : m pgdir y.1 = newPde pt
  done : ∀ t : Fin 1024, 4 * t.val < j → ¬ present (m pt t)
  rest : ∀ t : Fin 1024, present (m pt t) → t = y.2 ∧ m pt t = w

variable {y : VPage} {w : Word} {j : ℕ}

/-- Clearing the next byte leaves its word not present. -/
theorem not_present_clear_byte (h : Clearing s.mem pgdir pt j y w) (hj : j < 4096) :
    ¬ present (setByte (s.mem pt (wordIdx j)) (j % 4) 0#8) := by
  have hidx : (wordIdx j).val = j % 4096 / 4 := rfl
  by_cases hlow : j % 4 = 0
  · have hpos : 0 < 4 := by decide
    have hbyte := getByte_setByte (s.mem pt (wordIdx j)) hpos hpos 0#8
    rw [if_pos rfl] at hbyte
    rw [hlow, present_iff]
    have hnat := congrArg BitVec.toNat hbyte
    simp only [getByte, BitVec.truncate_eq_setWidth, BitVec.toNat_setWidth, Nat.mul_zero,
      BitVec.ushiftRight_zero, BitVec.toNat_ofNat] at hnat
    omega
  · exact fun hpresent => h.done (wordIdx j) (by omega) (present_of_setByte_zero hpresent)

theorem Clearing.storeByte (h : Clearing s.mem pgdir pt j y w) (hpt : pt < 2 ^ 20) (hy : y.User)
    (hj : j < 4096) :
    Clearing (s.storeByte (pt * 4096 + j) 0#8).mem pgdir pt (j + 1) y w ∧
      Coheres pgdir s (s.storeByte (pt * 4096 + j) 0#8) (OutsideOrNew y pt w)
        (OutsideOrNew y pt w) := by
  have hnot := not_present_clear_byte h hj
  -- the address is byte `j` of the page `pt`
  have hframe : (pt * 4096 + j) / 4096 = pt := by omega
  have hidx : wordIdx (pt * 4096 + j) = wordIdx j := by
    rw [Fin.ext_iff]
    change (pt * 4096 + j) % 4096 / 4 = j % 4096 / 4
    omega
  have hbyte : (pt * 4096 + j) % 4 = j % 4 := by omega
  obtain ⟨i, hi⟩ : ∃ i, i = wordIdx j := ⟨_, rfl⟩
  have hival : i.val = j % 4096 / 4 := by rw [hi]; rfl
  -- the store is one of the whole word with the byte cleared in it
  obtain ⟨v, hv⟩ : ∃ v, v = setByte (s.mem pt (wordIdx j)) (j % 4) 0#8 := ⟨_, rfl⟩
  rw [← hv] at hnot
  have hstore : s.storeByte (pt * 4096 + j) 0#8 = s.store pt i v := by
    rw [Kern.storeByte, hframe, hidx, hbyte, hv, hi]
  have hne : s.mem pgdir y.1 ≠ 0#32 := h.pde ▸ ne_zero_of_present (present_newPde pt)
  have htbl : frameOf (s.mem pgdir y.1) = pt := by rw [h.pde, frameOf_newPde hpt]
  have hwalk {x : VPage} := walk_set (y := (y.1, i)) (x := x) (v := v) h.tables.toDistinctTables
    hy (h.tables.present _ hy hne)
  have htables := h.tables.set_table (y := (y.1, i)) (v := v) hy hne
  have hdir := set_table_pgdir (y := (y.1, i)) (v := v) h.tables.toDistinctTables hy hne y.1
  simp only [htbl] at hwalk htables hdir
  rw [hstore]
  constructor
  · refine ⟨htables, hdir.trans h.pde, fun t ht => ?_, fun t ht => ?_⟩
    · by_cases heq : t = i
      · rw [heq, mem_store, Mem.set_same]
        exact hnot
      · -- a word before the one of this byte was cleared earlier
        have hval : t.val ≠ i.val := fun hval => heq (Fin.ext hval)
        rw [mem_store, Mem.set_of_idx_ne heq]
        exact h.done t (by omega)
    · by_cases heq : t = i
      · rw [heq, mem_store, Mem.set_same] at ht
        exact absurd ht hnot
      · rw [mem_store, Mem.set_of_idx_ne heq] at ht ⊢
        exact h.rest t ht
  · refine coheres_store ?_
    rintro x e (hwalk' | hout)
    · -- only user pages have to stay coherent; the others count as outside
      by_cases hx : x.User
      · by_cases hxi : x = (y.1, i)
        · -- a present word that is cleared is `w`
          subst hxi
          rw [walk, h.pde, frameOf_newPde hpt] at hwalk'
          split_ifs at hwalk' with _ hpte
          obtain ⟨heq, hw⟩ := h.rest i hpte
          exact .inr (.inr ⟨Prod.ext rfl heq, by rw [← Option.some_inj.mp hwalk', ← hw]⟩)
        · rw [hwalk hx, if_neg hxi]
          exact .inl hwalk'
      · exact .inr (.inl hx)
    · exact .inr hout

theorem Clearing.memset (hpt : pt < 2 ^ 20) (hy : y.User) (n : ℕ)
    (h : Clearing s.mem pgdir pt j y w) (hj : j + n = 4096) :
    Coheres pgdir s (s.memset (pt * 4096 + j) 0#8 n) (OutsideOrNew y pt w)
      (OutsideOrNew y pt w) := by
  induction n generalizing s j with
  | zero =>
    rw [Kern.memset]
    exact coheres_quiet rfl rfl
  | succ n ih =>
    obtain ⟨hnext, hbyte⟩ := h.storeByte hpt hy (by omega)
    rw [Kern.memset, Nat.add_assoc]
    exact hbyte.trans (ih hnext (by omega))

theorem userTables_congr {m m' : Mem} (ht : UserTables m pgdir)
    (hdir : ∀ d, m' pgdir d = m pgdir d) : UserTables m' pgdir := by
  refine ⟨⟨?_, ?_⟩, ?_⟩ <;> simp only [hdir]
  · exact ht.ne_pgdir
  · exact ht.inj
  · exact ht.present

section NewTable

variable (ht : UserTables s.mem pgdir) (hva : va < utop) (hpde : s.mem pgdir (pdx va) = 0#32)
  (hpt : pt < 2 ^ 20) (hdir : pgdir ≠ pt)

include ht hpde in
/-- With the directory entry the processor sees the old contents of the new table. -/
theorem coheres_store_pde :
    Coheres pgdir s (s.store pgdir (pdx va) (newPde pt)) Outside
      (OutsideOrNew (vpage va) pt w) := by
  refine coheres_store ?_
  rintro x e (hwalk | hout)
  · by_cases hx : x.User
    · have hpresent := (walk_ne_none_iff.mp (hwalk ▸ Option.some_ne_none e)).1
      have hne := ne_zero_of_present hpresent
      have hd : x.1 ≠ pdx va := fun heq => hne (heq ▸ hpde)
      refine .inl ((walk_congr ?_ ?_).trans hwalk)
      · exact Mem.set_of_idx_ne hd ..
      · exact Mem.set_of_frame_ne (ht.ne_pgdir x.1 hx hne) ..
    · exact .inr (.inl hx)
  · exact .inr (.inl hout)

include ht hva hpde hpt hdir in
theorem coheres_installed (hfresh : ∀ d : Fin 1024, d.val < userEntries → s.mem pgdir d ≠ 0#32 →
      frameOf (s.mem pgdir d) ≠ pt)
    (hclean : ∀ t : Fin 1024, present (s.mem pt t) → t = ptx va ∧ s.mem pt t = w) :
    Coheres pgdir s (s.installed pgdir va pt) Outside (OutsideOrNew (vpage va) pt w) := by
  have hrow (d : Fin 1024) : (s.mem.set pgdir (pdx va) (newPde pt)) pgdir d =
      (s.installed pgdir va pt).mem pgdir d := by
    rw [mem_installed, if_neg hdir]
  have hother (t : Fin 1024) : (s.mem.set pgdir (pdx va) (newPde pt)) pt t = s.mem pt t :=
    Mem.set_of_frame_ne hdir.symm ..
  have hclearing : Clearing ((s.store pgdir (pdx va) (newPde pt)).setRef pt 1#16).mem pgdir pt 0
      (vpage va) w := by
    have htables : UserTables (s.installed pgdir va pt).mem pgdir :=
      userTables_installed hpt hdir hfresh ht
    refine ⟨userTables_congr htables hrow, Mem.set_same .., ?_, ?_⟩
    · exact fun t ht => absurd ht (Nat.not_lt_zero _)
    · intro t ht
      change present ((s.mem.set pgdir (pdx va) (newPde pt)) pt t) at ht
      change _ ∧ (s.mem.set pgdir (pdx va) (newPde pt)) pt t = w
      rw [hother] at ht ⊢
      exact hclean t ht
  have hmemset := hclearing.memset hpt (vpage_user hva) 4096 (Nat.zero_add _)
  have hquiet : Coheres pgdir (s.store pgdir (pdx va) (newPde pt))
      ((s.store pgdir (pdx va) (newPde pt)).setRef pt 1#16) (OutsideOrNew (vpage va) pt w)
      (OutsideOrNew (vpage va) pt w) := coheres_quiet rfl rfl
  rw [Nat.add_zero] at hmemset
  exact ((coheres_store_pde ht hpde).trans hquiet).trans hmemset

end NewTable

/-- The entry that the processor may have read is the one written into the new table. -/
theorem coheres_new_entry {r : BitVec 16} (ht : UserTables s.mem pgdir) (hy : y.User)
    (hpde : s.mem pgdir y.1 = newPde pt) (hpt : pt < 2 ^ 20) (hold : ¬ present (s.mem pt y.2))
    (hw : present w) :
    Coheres pgdir s ((s.setRef pp r).store pt y.2 w) (OutsideOrNew y pt w) Outside := by
  have hquiet : Coheres pgdir s (s.setRef pp r) (OutsideOrNew y pt w) (OutsideOrNew y pt w) :=
    coheres_quiet rfl rfl
  have hne : s.mem pgdir y.1 ≠ 0#32 := hpde ▸ ne_zero_of_present (present_newPde pt)
  have htbl : frameOf (s.mem pgdir y.1) = pt := by rw [hpde, frameOf_newPde hpt]
  have hset {x : VPage} (hx : x.User) :=
    walk_set (v := w) ht.toDistinctTables hy (ht.present _ hy hne) hx
  rw [htbl, hpde, if_pos hw] at hset
  refine hquiet.trans (coheres_store (s := s.setRef pp r) ?_)
  rw [mem_setRef]
  rintro x e (hwalk | hx | ⟨rfl, rfl⟩)
  · by_cases hx : x.User
    · have hxy : x ≠ y := by
        rintro rfl
        rw [walk_of_pte (htbl ▸ hold)] at hwalk
        exact absurd hwalk.symm (Option.some_ne_none e)
      rw [hset hx, if_neg hxy]
      exact .inl hwalk
    · exact .inr hx
  · exact .inr hx
  · rw [hset hy, if_pos rfl]
    exact .inl rfl

/-! ### Insertion -/

/-- If the call makes a page table, the page it takes for it holds no present word but, if
any, the entry that the call is going to write. -/
def TableClean (s : Kern) (pp : ℕ) (va perm : Word) : Prop :=
  s.mem s.kernPgdir (pdx va) = 0#32 → ∀ pt, s.pageFreeList = some pt →
    ∀ t : Fin 1024, present (s.mem pt t) → t = ptx va ∧ s.mem pt t = newPte pp perm

/-- Insertion where there is no page table yet. -/
theorem Owned.coheres_insert_new (h : Owned avail noExtra s l) (hva : va < utop)
    (hpp : s.Allocated pp) (hpde : s.mem s.kernPgdir (pdx va) = 0#32)
    (hclean : s.TableClean pp va perm) {r : ℤ}
    (hrun : s.pageInsert s.kernPgdir pp va perm = .ok (r, s')) :
    Coheres s.kernPgdir s s' Outside Outside := by
  have huser := vpage_user hva
  have hlt := h.lt_of_allocated hpp
  cases l with
  | nil =>
    rw [pageInsert_full hpde h.free, Except.ok.injEq, Prod.mk.injEq] at hrun
    rw [← hrun.2]
    exact coheres_quiet rfl rfl
  | cons pt l =>
    obtain ⟨hpt, hnot⟩ := (h.mem_iff pt).mp (List.mem_cons_self ..)
    have hpt20 := lt_of_lt_npages (h.avail_lt pt hpt)
    have hdir : s.kernPgdir ≠ pt := fun heq => h.pgdir (heq ▸ hpt)
    -- no table of the directory is the page that comes from the free list
    have hfresh := frameOf_ne_of_refs h.mapped.tables (h.mapped.refs_eq_zero hnot)
    obtain ⟨s₁, step, hinsert⟩ :=
      pageInsert_install va perm hpde h.free (h.avail_lt pt hpt) hdir hlt
    have hmem : s₁.mem = s.mem := step.mem
    have hlog : s₁.log = .alloc pt :: s.log := by rw [step.frame]
    have halloc : Coheres s.kernPgdir s s₁ Outside Outside := coheres_alloc hlog hmem
    have hentry (t : Fin 1024) : (s₁.installed s.kernPgdir va pt).mem pt t = 0#32 := by
      rw [mem_installed, if_pos rfl]
    rw [hinsert, Except.ok.injEq, Prod.mk.injEq] at hrun
    have hclean' := hclean hpde pt h.free.first_eq
    rw [← hmem] at hpde hfresh hclean'
    have ht : UserTables s₁.mem s.kernPgdir := hmem ▸ h.mapped.tables
    have hinstalled := coheres_installed ht hva hpde hpt20 hdir hfresh hclean'
    -- the new table is empty, so the entry that is written was not present
    have hnew : Coheres s.kernPgdir (s₁.installed s.kernPgdir va pt) s'
        (OutsideOrNew (vpage va) pt (newPte pp perm)) Outside := by
      rw [← hrun.2]
      refine coheres_new_entry (y := vpage va) ?_ huser ?_ hpt20 ?_ (present_newPte pp perm)
      · exact userTables_installed hpt20 hdir hfresh ht
      · exact (mem_installed_pgdir hdir (pdx va)).trans (if_pos rfl)
      · exact (hentry _).symm ▸ not_present_zero
    exact (halloc.trans hinstalled).trans hnew

/-- Insertion into a page table, over a page that is mapped there or not. -/
theorem Owned.coheres_insert_table (h : Owned avail noExtra s l) (hva : va < utop)
    (hpp : s.Allocated pp) (hpde : s.mem s.kernPgdir (pdx va) ≠ 0#32) {r : ℤ}
    (hrun : s.pageInsert s.kernPgdir pp va perm = .ok (r, s')) :
    Coheres s.kernPgdir s s' Outside Outside := by
  have huser := vpage_user hva
  have hlt := h.lt_of_allocated hpp
  have htbl := h.lt_of_allocated (h.mapped.table (pdx va) huser hpde)
  have hwalk : s.pgdirWalk s.kernPgdir va (perm ||| pteP) = _ := pgdirWalk_table hpde htbl
  have hslot := slot_of_ne (x := vpage va) hpde
  obtain ⟨u, hu⟩ : ∃ u, u = s.setRef pp (s.ref pp + 1#16) := ⟨_, rfl⟩
  have hpend : Coheres s.kernPgdir s u Outside Outside := by
    rw [hu]
    exact coheres_quiet rfl rfl
  have hmem : u.mem = s.mem := by rw [hu]; rfl
  have hnpages : u.npages = s.npages := by rw [hu]; rfl
  by_cases hzero : s.mem (frameOf (s.mem s.kernPgdir (pdx va))) (ptx va) = 0#32
  · -- nothing was mapped, so no entry of the cache is out of date
    rw [pageInsert_empty hwalk hlt hzero, Except.ok.injEq, Prod.mk.injEq, ← hu] at hrun
    have hwrite := coheres_write_entry (s := u) (y := vpage va) (v := newPte pp perm)
      (hmem ▸ h.mapped.tables) huser (hmem ▸ hpde) (by
        rw [hmem, hslot, vpage, hzero]
        exact not_present_zero)
    rw [hmem] at hwrite
    exact hrun.2 ▸ hpend.trans hwrite
  · -- the old mapping is removed and flushed before the new one is written
    have hslots := h.mapped.slots (vpage va) huser (hslot ▸ hzero)
    rw [hslot] at hslots
    have hpde_u : u.mem s.kernPgdir (pdx va) ≠ 0#32 := hmem ▸ hpde
    obtain ⟨s₂, hremove, hnp₂, hmem₂⟩ := pageRemove_mem hpde_u (by rw [hmem, hnpages]; exact htbl)
      (by rw [hmem, hnpages]; exact h.lt_of_allocated hslots.2)
    have hrem := coheres_remove (hmem ▸ h.mapped.tables) hva (hmem ▸ hpde)
      (by rw [hmem, hnpages]; exact htbl) hremove
    rw [pageInsert_occupied hwalk hlt hzero (hu ▸ hremove), Except.ok.injEq, Prod.mk.injEq] at hrun
    rw [hmem] at hmem₂
    have hset := set_table_pgdir (y := vpage va) (v := 0#32)
      h.mapped.tables.toDistinctTables huser hpde
    have ht₂ := h.mapped.tables.set_table (y := vpage va) (v := 0#32) huser hpde
    have hslot₂ := slot_set (y := vpage va) (v := 0#32) h.mapped.tables.toDistinctTables
      huser hpde huser
    have hdir : s₂.mem s.kernPgdir (pdx va) = s.mem s.kernPgdir (pdx va) := by
      rw [hmem₂]
      exact hset _
    have htables₂ : UserTables s₂.mem s.kernPgdir := hmem₂ ▸ ht₂
    have hwrite := coheres_write_entry htables₂ (y := vpage va) (v := newPte pp perm) huser
      (hdir ▸ hpde) (by
        rw [if_pos rfl] at hslot₂
        rw [hmem₂]
        exact hslot₂.symm ▸ not_present_zero)
    rw [show (vpage va).1 = pdx va from rfl, hdir] at hwrite
    exact hrun.2 ▸ (hpend.trans hrem).trans hwrite

theorem Owned.coheres_insert (h : Owned avail noExtra s l) (hva : va < utop)
    (hpp : s.Allocated pp) (hclean : s.TableClean pp va perm) {r : ℤ}
    (hrun : s.pageInsert s.kernPgdir pp va perm = .ok (r, s')) :
    Coheres s.kernPgdir s s' Outside Outside := by
  by_cases hpde : s.mem s.kernPgdir (pdx va) = 0#32
  · exact h.coheres_insert_new hva hpp hpde hclean hrun
  · exact h.coheres_insert_table hva hpp hpde hrun

end Kern

end JosVmx
