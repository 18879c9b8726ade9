import JosVmx.Kern.PageAlloc

/-!
# Page tables on the free list allocator

`pgdir_walk`, `page_insert`, `page_lookup`, `page_remove` and `tlb_invalidate` of
`kern/pmap.c`. Each function has one specification per way through it; callers use
these and never unfold the callee.

## Main results

* `Kern.pgdirWalk_table`, `Kern.pgdirWalk_full`, `Kern.pgdirWalk_alloc` — the walk uses
  the table that is there, fails for lack of a page, or installs a cleared page
* `Kern.pageInsert_full`, `Kern.pageInsert_empty`, `Kern.pageInsert_occupied`,
  `Kern.pageRemove_none`, `Kern.pageRemove_eq` — the callers, after the walk
-/

namespace JosVmx

namespace Kern

/-! ### The functions of the source -/

/-- The end of `pgdir_walk`: the entry for `va` in the table its directory entry names. -/
def pgdirPte (s : Kern) (pgdir : ℕ) (va : Word) : Except Fault (Option PtePtr × Kern) := do
  let pte ← s.kaddr (pteAddr (s.mem pgdir (pdx va)))
  .ok (some ⟨pte, ptx va⟩, s)

/-- Install a newly allocated page as the page table for `va` and clear it. -/
def pgdirInstall (s : Kern) (pgdir : ℕ) (va : Word) (pp : ℕ) : Except Fault Kern := do
  let s := s.store pgdir (pdx va) (page2pa pp ||| pteU ||| pteW ||| pteP)
  let s := s.setRef pp 1#16
  let pte ← s.kaddr (page2pa pp)
  .ok (s.memset (pte * 4096) 0#8 4096)

/-- Walk the two-level page table structure of `pgdir` to the page table entry for
`va`. The test for a missing table is on the whole directory entry, not on `PTE_P`. -/
def pgdirWalk (s : Kern) (pgdir : ℕ) (va create : Word) : Except Fault (Option PtePtr × Kern) :=
  if s.mem pgdir (pdx va) = 0#32 then
    if create = 0#32 then .ok (none, s)
    else do
      match ← s.pageAlloc with
      | (none, s) => .ok (none, s)
      | (some pp, s) => do
        let s ← s.pgdirInstall pgdir va pp
        s.pgdirPte pgdir va
  else s.pgdirPte pgdir va

/-- The page mapped at `va`, with the entry stored through `pte_store`. The entry's
present bit is not looked at. -/
def pageLookup (s : Kern) (pgdir : ℕ) (va : Word) :
    Except Fault (Option (ℕ × PtePtr) × Kern) := do
  match ← s.pgdirWalk pgdir va 0#32 with
  | (none, s) => .ok (none, s)
  | (some pte, s) => .ok (some (frameOf (s.mem pte.frame pte.idx), pte), s)

/-- Invalidate a TLB entry. -/
def tlbInvalidate (s : Kern) (va : Word) : Kern := s.invlpg va

/-- Unmap the physical page at `va`. -/
def pageRemove (s : Kern) (pgdir : ℕ) (va : Word) : Except Fault Kern := do
  match ← s.pageLookup pgdir va with
  | (none, s) => .ok s
  | (some (pp, pte), s) => do
    let s ← s.pageDecref pp
    let s := s.store pte.frame pte.idx 0#32
    .ok (s.tlbInvalidate va)

/-- Map the physical page `pp` at `va` with permissions `perm|PTE_P`. The occupied test
is written `(*pte && PTE_P) != 0`, which asks only whether the entry is nonzero. -/
def pageInsert (s : Kern) (pgdir : ℕ) (pp : ℕ) (va perm : Word) : Except Fault (ℤ × Kern) := do
  match ← s.pgdirWalk pgdir va (perm ||| pteP) with
  | (none, s) => .ok (-eNoMem, s)
  | (some pte, s) =>
    if s.npages ≤ pp then .error .wild
    else do
      let s := s.setRef pp (s.ref pp + 1#16)
      let s ← if s.mem pte.frame pte.idx ≠ 0#32 then s.pageRemove pgdir va else .ok s
      .ok (0, s.store pte.frame pte.idx (page2pa pp ||| pteP ||| perm))

/-! ### The walk -/

variable {s : Kern} {pgdir pp : ℕ} {va perm create : Word}

theorem pgdirPte_ok (h : frameOf (s.mem pgdir (pdx va)) < s.npages) :
    s.pgdirPte pgdir va = .ok (some ⟨frameOf (s.mem pgdir (pdx va)), ptx va⟩, s) := by
  rw [pgdirPte, kaddr_ok h]
  rfl

theorem pgdirPte_error (h : s.npages ≤ frameOf (s.mem pgdir (pdx va))) :
    ∃ e, s.pgdirPte pgdir va = .error e := by
  rw [pgdirPte, kaddr_error h]
  exact ⟨_, rfl⟩

/-- With a directory entry in place the walk only reads. -/
theorem pgdirWalk_table (hpde : s.mem pgdir (pdx va) ≠ 0#32)
    (htbl : frameOf (s.mem pgdir (pdx va)) < s.npages) :
    s.pgdirWalk pgdir va create = .ok (some ⟨frameOf (s.mem pgdir (pdx va)), ptx va⟩, s) := by
  rw [pgdirWalk, if_neg hpde, pgdirPte_ok htbl]

theorem pgdirWalk_error (hpde : s.mem pgdir (pdx va) ≠ 0#32)
    (htbl : s.npages ≤ frameOf (s.mem pgdir (pdx va))) :
    ∃ e, s.pgdirWalk pgdir va create = .error e := by
  rw [pgdirWalk, if_neg hpde]
  exact pgdirPte_error htbl

theorem pgdirWalk_nocreate (hpde : s.mem pgdir (pdx va) = 0#32) :
    s.pgdirWalk pgdir va 0#32 = .ok (none, s) := by
  rw [pgdirWalk, if_pos hpde, if_pos rfl]

/-- Without a directory entry and without free pages the walk gives up and changes
nothing. -/
theorem pgdirWalk_full (hpde : s.mem pgdir (pdx va) = 0#32) (hfree : s.FreeList []) :
    s.pgdirWalk pgdir va create = .ok (none, s) := by
  rw [pgdirWalk, if_pos hpde]
  split_ifs with hcreate
  · rfl
  · rw [pageAlloc_nil hfree]
    rfl

/-- The directory entry `pgdir_walk` writes for a new table. -/
def newPde (pp : ℕ) : Word := page2pa pp ||| pteU ||| pteW ||| pteP

/-- The state after a page has been installed as the table for `va` and cleared. -/
def installed (s : Kern) (pgdir : ℕ) (va : Word) (pp : ℕ) : Kern :=
  ((s.store pgdir (pdx va) (newPde pp)).setRef pp 1#16).memset (pp * 4096) 0#8 4096

@[simp] theorem installed_npages (s : Kern) (pgdir : ℕ) (va : Word) (pp : ℕ) :
    (s.installed pgdir va pp).npages = s.npages := by
  rw [installed, memset_npages]
  rfl

@[simp] theorem installed_kernPgdir (s : Kern) (pgdir : ℕ) (va : Word) (pp : ℕ) :
    (s.installed pgdir va pp).kernPgdir = s.kernPgdir := by
  rw [installed, memset_kernPgdir]
  rfl

/-- Besides memory, installing a table changes the count of its page. -/
theorem installed_pages (s : Kern) (pgdir : ℕ) (va : Word) (pp : ℕ) :
    (s.installed pgdir va pp).pages = (s.setRef pp 1#16).pages := by
  rw [installed, memset_pages]
  rfl

@[simp] theorem installed_freeStore (s : Kern) (pgdir : ℕ) (va : Word) (pp : ℕ) :
    (s.installed pgdir va pp).freeStore = s.freeStore := by
  rw [installed, freeStore, memset_pageFreeList, memset_pages]
  exact freeStore_setRef _

theorem allocated_installed (s : Kern) (pgdir : ℕ) (va : Word) (pp q : ℕ) :
    (s.installed pgdir va pp).Allocated q ↔ s.Allocated q := by
  rw [installed, allocated_memset]
  exact Iff.rfl

theorem newPde_eq (pp : ℕ) : newPde pp = page2pa pp ||| (pteU ||| pteW ||| pteP) := by
  simp only [newPde, BitVec.or_assoc]

theorem frameOf_newPde (h : pp < 2 ^ 20) : frameOf (newPde pp) = pp := by
  rw [newPde_eq]
  exact frameOf_page2pa_or h (by decide)

theorem present_newPde (pp : ℕ) : present (newPde pp) := by
  have hor := present_or (page2pa pp ||| pteU ||| pteW) 0#32
  rwa [BitVec.or_zero] at hor

theorem mem_installed (g : ℕ) (i : Fin 1024) :
    (s.installed pgdir va pp).mem g i =
      if g = pp then 0#32 else s.mem.set pgdir (pdx va) (newPde pp) g i := by
  rw [installed, mem_memset_frame]
  rfl

theorem pgdirInstall_eq (h : pp < s.npages) :
    s.pgdirInstall pgdir va pp = .ok (s.installed pgdir va pp) := by
  have hpn : (pgnum (page2pa pp)).toNat = pp := by
    rw [toNat_pgnum, toNat_page2pa (lt_of_lt_npages h)]
    omega
  have hkaddr : ((s.store pgdir (pdx va) (newPde pp)).setRef pp 1#16).kaddr (page2pa pp) =
      .ok pp := by
    rw [kaddr_ok (by rw [hpn]; exact h), hpn]
  change (do
    let pte ← ((s.store pgdir (pdx va) (newPde pp)).setRef pp 1#16).kaddr (page2pa pp)
    .ok (Kern.memset _ (pte * 4096) 0#8 4096)) = _
  rw [hkaddr, installed]
  rfl

/-- Without a directory entry the walk takes the first free page as the new table. -/
theorem pgdirWalk_alloc {pt : ℕ} {l : List ℕ} (hpde : s.mem pgdir (pdx va) = 0#32)
    (hcreate : create ≠ 0#32) (hfree : s.FreeList (pt :: l)) (hpt : pt < s.npages)
    (hne : pgdir ≠ pt) :
    ∃ s₁, AllocStep s pt l s₁ ∧
      s.pgdirWalk pgdir va create = .ok (some ⟨pt, ptx va⟩, s₁.installed pgdir va pt) := by
  obtain ⟨s₁, halloc, step⟩ := pageAlloc_cons hfree
  have hpt₁ : pt < s₁.npages := by
    rw [step.frame]
    exact hpt
  have hentry : (s₁.installed pgdir va pt).mem pgdir (pdx va) = newPde pt := by
    rw [mem_installed, if_neg hne, Mem.set_same]
  have hframe : frameOf ((s₁.installed pgdir va pt).mem pgdir (pdx va)) = pt := by
    rw [hentry, frameOf_newPde (lt_of_lt_npages hpt)]
  have hnpages := installed_npages s₁ pgdir va pt
  refine ⟨s₁, step, ?_⟩
  rw [pgdirWalk, if_pos hpde, if_neg hcreate, halloc]
  change (s₁.pgdirInstall pgdir va pt >>= fun s => s.pgdirPte pgdir va) = _
  rw [pgdirInstall_eq hpt₁, Lib.ok_bind, pgdirPte_ok (by rw [hframe, hnpages]; exact hpt₁), hframe]

/-! ### The callers -/

/-- `page_lookup` with a directory entry in place, whatever the table entry holds. -/
theorem pageLookup_table (hpde : s.mem pgdir (pdx va) ≠ 0#32)
    (htbl : frameOf (s.mem pgdir (pdx va)) < s.npages) :
    s.pageLookup pgdir va =
      .ok (some (frameOf (s.mem (frameOf (s.mem pgdir (pdx va))) (ptx va)),
        ⟨frameOf (s.mem pgdir (pdx va)), ptx va⟩), s) := by
  rw [pageLookup, pgdirWalk_table hpde htbl]
  rfl

theorem pageLookup_error (hpde : s.mem pgdir (pdx va) ≠ 0#32)
    (htbl : s.npages ≤ frameOf (s.mem pgdir (pdx va))) :
    ∃ e, s.pageLookup pgdir va = .error e := by
  obtain ⟨e, he⟩ : ∃ e, s.pgdirWalk pgdir va 0#32 = .error e := pgdirWalk_error hpde htbl
  exact ⟨e, by rw [pageLookup, he]; rfl⟩

theorem pageLookup_none (hpde : s.mem pgdir (pdx va) = 0#32) :
    s.pageLookup pgdir va = .ok (none, s) := by
  rw [pageLookup, pgdirWalk_nocreate hpde]
  rfl

/-- Without a page table `page_remove` does nothing. -/
theorem pageRemove_none (hpde : s.mem pgdir (pdx va) = 0#32) :
    s.pageRemove pgdir va = .ok s := by
  rw [pageRemove, pageLookup_none hpde]
  rfl

/-- With a page table `page_remove` drops a reference to the page the entry names,
clears the entry and flushes. -/
theorem pageRemove_eq (hpde : s.mem pgdir (pdx va) ≠ 0#32)
    (htbl : frameOf (s.mem pgdir (pdx va)) < s.npages) {s₁ : Kern}
    (hdec : s.pageDecref (frameOf (s.mem (frameOf (s.mem pgdir (pdx va))) (ptx va))) = .ok s₁) :
    s.pageRemove pgdir va =
      .ok ((s₁.store (frameOf (s.mem pgdir (pdx va))) (ptx va) 0#32).invlpg va) := by
  rw [pageRemove, pageLookup_table hpde htbl]
  change (s.pageDecref _ >>= fun s =>
    .ok ((s.store (frameOf _) (ptx va) 0#32).tlbInvalidate va)) = _
  rw [hdec]
  rfl

theorem pageRemove_error (hpde : s.mem pgdir (pdx va) ≠ 0#32)
    (htbl : frameOf (s.mem pgdir (pdx va)) < s.npages) {e : Fault}
    (hdec : s.pageDecref (frameOf (s.mem (frameOf (s.mem pgdir (pdx va))) (ptx va))) = .error e) :
    s.pageRemove pgdir va = .error e := by
  rw [pageRemove, pageLookup_table hpde htbl]
  change (s.pageDecref _ >>= _) = _
  rw [hdec]
  rfl

/-- `page_decref` changes the counts and the free list only. -/
theorem pageDecref_frame {s' : Kern} (h : s.pageDecref pp = .ok s') :
    s' = { s with pages := s'.pages, pageFreeList := s'.pageFreeList, log := s'.log } ∧
      (s'.log = s.log ∨ s'.log = .free pp :: s.log) := by
  rcases Nat.lt_or_ge pp s.npages with hpp | hpp
  · by_cases href : s.ref pp = 1#16
    · rw [pageDecref_last hpp href, Except.ok.injEq] at h
      subst h
      exact ⟨rfl, .inr rfl⟩
    · rw [pageDecref_pos hpp href, Except.ok.injEq] at h
      subst h
      exact ⟨rfl, .inl rfl⟩
  · rw [pageDecref_wild hpp] at h
    exact absurd h (by simp)

theorem pageDecref_ok (hpp : pp < s.npages) : ∃ s', s.pageDecref pp = .ok s' := by
  by_cases href : s.ref pp = 1#16
  · exact ⟨_, pageDecref_last hpp href⟩
  · exact ⟨_, pageDecref_pos hpp href⟩

/-- `page_insert` fails when the walk finds no table and no page for one. -/
theorem pageInsert_full (hpde : s.mem pgdir (pdx va) = 0#32) (hfree : s.FreeList []) :
    s.pageInsert pgdir pp va perm = .ok (-eNoMem, s) := by
  rw [pageInsert, pgdirWalk_full hpde hfree]
  rfl

/-- `page_insert` into an empty entry. -/
theorem pageInsert_empty {pte : PtePtr} {s₁ : Kern}
    (hwalk : s.pgdirWalk pgdir va (perm ||| pteP) = .ok (some pte, s₁)) (hpp : pp < s₁.npages)
    (hslot : s₁.mem pte.frame pte.idx = 0#32) :
    s.pageInsert pgdir pp va perm =
      .ok (0, (s₁.setRef pp (s₁.ref pp + 1#16)).store pte.frame pte.idx
        (page2pa pp ||| pteP ||| perm)) := by
  have hslot' : (s₁.setRef pp (s₁.ref pp + 1#16)).mem pte.frame pte.idx = 0#32 := hslot
  rw [pageInsert, hwalk]
  change (if s₁.npages ≤ pp then _ else _) = _
  rw [if_neg (Nat.not_le.mpr hpp), hslot', if_neg (not_not.mpr rfl)]
  rfl

/-- `page_insert` into a nonzero entry removes what is there first. -/
theorem pageInsert_occupied {pte : PtePtr} {s₁ s₂ : Kern}
    (hwalk : s.pgdirWalk pgdir va (perm ||| pteP) = .ok (some pte, s₁)) (hpp : pp < s₁.npages)
    (hslot : s₁.mem pte.frame pte.idx ≠ 0#32)
    (hremove : (s₁.setRef pp (s₁.ref pp + 1#16)).pageRemove pgdir va = .ok s₂) :
    s.pageInsert pgdir pp va perm =
      .ok (0, s₂.store pte.frame pte.idx (page2pa pp ||| pteP ||| perm)) := by
  have hslot' : (s₁.setRef pp (s₁.ref pp + 1#16)).mem pte.frame pte.idx ≠ 0#32 := hslot
  rw [pageInsert, hwalk]
  change (if s₁.npages ≤ pp then _ else _) = _
  rw [if_neg (Nat.not_le.mpr hpp), if_pos hslot', hremove]
  rfl

/-- A removal that goes wrong makes the insertion go wrong. -/
theorem pageInsert_error {pte : PtePtr} {s₁ : Kern} {e : Fault}
    (hwalk : s.pgdirWalk pgdir va (perm ||| pteP) = .ok (some pte, s₁)) (hpp : pp < s₁.npages)
    (hslot : s₁.mem pte.frame pte.idx ≠ 0#32)
    (hremove : (s₁.setRef pp (s₁.ref pp + 1#16)).pageRemove pgdir va = .error e) :
    s.pageInsert pgdir pp va perm = .error e := by
  have hslot' : (s₁.setRef pp (s₁.ref pp + 1#16)).mem pte.frame pte.idx ≠ 0#32 := hslot
  rw [pageInsert, hwalk]
  change (if s₁.npages ≤ pp then _ else _) = _
  rw [if_neg (Nat.not_le.mpr hpp), if_pos hslot', hremove]
  rfl

end Kern

end JosVmx
