import JosVmx.Kern.BootMem
import JosVmx.Kern.PageOwnership

/-!
# The self-test of the page functions

`page_check` of `kern/pmap.c`. It takes three pages, hides the rest of the free list, maps
and unmaps its pages at two addresses with one of them as page table, and then puts
everything back by hand.

The test needs the first two entries of `kern_pgdir` to be empty: the first is where it
maps its pages, and the second is where it expects an insertion to fail for lack of a page
table.

## Main results

* `Kern.pageCheck_transparent` — the test passes and leaves the free pages, the counts and
  the page directory as they were
-/

namespace JosVmx

open Lib

namespace Kern

/-! ### The function of the source -/

/-- `assert(page_alloc(&x) == 0)`. -/
def assertAlloc (s : Kern) (text : String) : Except Fault (ℕ × Kern) := do
  match ← s.pageAlloc with
  | (some pp, s) => .ok (pp, s)
  | (none, _) => .error (.assertion text)

/-- `assert(page_alloc(&pp) == 0 && pp == q)`. -/
def assertAllocPage (s : Kern) (q : ℕ) (text : String) : Except Fault Kern := do
  let (pp, s) ← s.assertAlloc text
  kassert (pp = q) text
  .ok s

def assertNoMem (s : Kern) : Except Fault Kern := do
  let (pp, s) ← s.pageAlloc
  kassert pp.isNone "page_alloc(&pp) == -E_NO_MEM"
  .ok s

/-- `assert(page_insert(kern_pgdir, pp, va, 0) == 0)`, or `< 0` if `fails`. -/
def assertInsert (s : Kern) (pp : ℕ) (va : Word) (fails : Bool) (text : String) :
    Except Fault Kern := do
  let (r, s) ← s.pageInsert s.kernPgdir pp va 0#32
  kassert (if fails then r < 0 else r = 0) text
  .ok s

def assertVa2pa (s : Kern) (va pa : Word) (text : String) : Except Fault Unit := do
  let pa' ← s.checkVa2pa s.kernPgdir va
  kassert (pa' = pa) text

def assertRef (s : Kern) (pp : ℕ) (r : BitVec 16) (text : String) : Except Fault Unit :=
  kassert (s.ref pp = r) text

def assertPde (s : Kern) (pp0 : ℕ) : Except Fault Unit :=
  kassert (pteAddr (s.mem s.kernPgdir 0) = page2pa pp0) "PTE_ADDR(kern_pgdir[0]) == page2pa(pp0)"

/-- Set the head of the free list. -/
def setPageFreeList (s : Kern) (fl : Option ℕ) : Kern := { s with pageFreeList := fl }

/-- The three pages of the test. A page that has been allocated is not the null pointer. -/
def checkAlloc (s : Kern) : Except Fault (ℕ × ℕ × ℕ × Kern) := do
  let (pp0, s) ← s.assertAlloc "page_alloc(&pp0) == 0"
  let (pp1, s) ← s.assertAlloc "page_alloc(&pp1) == 0"
  let (pp2, s) ← s.assertAlloc "page_alloc(&pp2) == 0"
  kassert (pp1 ≠ pp0) "pp1 && pp1 != pp0"
  kassert (pp2 ≠ pp1 ∧ pp2 ≠ pp0) "pp2 && pp2 != pp1 && pp2 != pp0"
  .ok (pp0, pp1, pp2, s)

/-- Nothing can be mapped without free pages. -/
def checkNoMem (pp1 : ℕ) (s : Kern) : Except Fault Kern := do
  let s ← s.assertNoMem
  let (pp, s) ← s.pageLookup s.kernPgdir 0#32
  kassert pp.isNone "page_lookup(kern_pgdir, (void *) 0x0, &ptep) == NULL"
  s.assertInsert pp1 0#32 true "page_insert(kern_pgdir, pp1, 0x0, 0) < 0"

/-- Free `pp0`, which becomes the page table, and map `pp1` and `pp2`. -/
def checkMap (pp0 pp1 pp2 : ℕ) (s : Kern) : Except Fault Kern := do
  let s := s.pageFree pp0
  let s ← s.assertInsert pp1 0#32 false "page_insert(kern_pgdir, pp1, 0x0, 0) == 0"
  s.assertPde pp0
  s.assertVa2pa 0#32 (page2pa pp1) "check_va2pa(kern_pgdir, 0x0) == page2pa(pp1)"
  s.assertRef pp1 1#16 "pp1->pp_ref == 1"
  s.assertRef pp0 1#16 "pp0->pp_ref == 1"
  let s ← s.assertInsert pp2 pgsize false "page_insert(kern_pgdir, pp2, (void*) PGSIZE, 0) == 0"
  s.assertVa2pa pgsize (page2pa pp2) "check_va2pa(kern_pgdir, PGSIZE) == page2pa(pp2)"
  s.assertRef pp2 1#16 "pp2->pp_ref == 1"
  s.assertNoMem

/-- Map `pp2` again where it is. -/
def checkRemap (pp2 : ℕ) (s : Kern) : Except Fault Kern := do
  let s ← s.assertInsert pp2 pgsize false "page_insert(kern_pgdir, pp2, (void*) PGSIZE, 0) == 0"
  s.assertVa2pa pgsize (page2pa pp2) "check_va2pa(kern_pgdir, PGSIZE) == page2pa(pp2)"
  s.assertRef pp2 1#16 "pp2->pp_ref == 1"
  s.assertNoMem

/-- Fail to map `pp0` where there is no page table, and replace `pp2` by `pp1`. -/
def checkReplace (pp0 pp1 pp2 : ℕ) (s : Kern) : Except Fault Kern := do
  let s ← s.assertInsert pp0 ptsize true "page_insert(kern_pgdir, pp0, (void*) PTSIZE, 0) < 0"
  let s ← s.assertInsert pp1 pgsize false "page_insert(kern_pgdir, pp1, (void*) PGSIZE, 0) == 0"
  s.assertVa2pa 0#32 (page2pa pp1) "check_va2pa(kern_pgdir, 0) == page2pa(pp1)"
  s.assertVa2pa pgsize (page2pa pp1) "check_va2pa(kern_pgdir, PGSIZE) == page2pa(pp1)"
  s.assertRef pp1 2#16 "pp1->pp_ref == 2"
  s.assertRef pp2 0#16 "pp2->pp_ref == 0"
  s.assertAllocPage pp2 "page_alloc(&pp) == 0 && pp == pp2"

/-- Unmap `pp1` at both addresses. -/
def checkUnmap (pp1 pp2 : ℕ) (s : Kern) : Except Fault Kern := do
  let s ← s.pageRemove s.kernPgdir 0#32
  s.assertVa2pa 0#32 (~~~0#32) "check_va2pa(kern_pgdir, 0x0) == ~0"
  s.assertVa2pa pgsize (page2pa pp1) "check_va2pa(kern_pgdir, PGSIZE) == page2pa(pp1)"
  s.assertRef pp1 1#16 "pp1->pp_ref == 1"
  s.assertRef pp2 0#16 "pp2->pp_ref == 0"
  let s ← s.pageRemove s.kernPgdir pgsize
  s.assertVa2pa 0#32 (~~~0#32) "check_va2pa(kern_pgdir, 0x0) == ~0"
  s.assertVa2pa pgsize (~~~0#32) "check_va2pa(kern_pgdir, PGSIZE) == ~0"
  s.assertRef pp1 0#16 "pp1->pp_ref == 0"
  s.assertRef pp2 0#16 "pp2->pp_ref == 0"
  let s ← s.assertAllocPage pp1 "page_alloc(&pp) == 0 && pp == pp1"
  s.assertNoMem

/-- Forcibly take `pp0` back, give the free list back and free the pages of the test. -/
def checkRestore (pp0 pp1 pp2 : ℕ) (fl : Option ℕ) (s : Kern) : Except Fault Kern := do
  s.assertPde pp0
  let s := s.store s.kernPgdir 0 0#32
  s.assertRef pp0 1#16 "pp0->pp_ref == 1"
  let s := s.setRef pp0 0#16
  let s := s.setPageFreeList fl
  .ok (((s.pageFree pp0).pageFree pp1).pageFree pp2)

/-- Check `page_alloc`, `page_insert`, `page_remove` and their kin. -/
def pageCheck (s : Kern) : Except Fault Kern := do
  let (pp0, pp1, pp2, s) ← s.checkAlloc
  let fl := s.pageFreeList
  let s := s.setFreeStore s.freeStore.init
  let s ← s.checkNoMem pp1
  let s ← s.checkMap pp0 pp1 pp2
  let s ← s.checkRemap pp2
  let s ← s.checkReplace pp0 pp1 pp2
  let s ← s.checkUnmap pp1 pp2
  s.checkRestore pp0 pp1 pp2 fl

/-! ### States of the test -/

/-- The globals that the page functions only read. -/
structure SameGlobals (s s' : Kern) : Prop where
  npages : s'.npages = s.npages
  kernPgdir : s'.kernPgdir = s.kernPgdir
  endSym : s'.endSym = s.endSym
  nextfree : s'.nextfree = s.nextfree

theorem AllocStep.sameGlobals {s s' : Kern} {pp : ℕ} {l : List ℕ} (step : AllocStep s pp l s') :
    SameGlobals s s' :=
  ⟨step.npages, step.kernPgdir, by rw [step.frame], by rw [step.frame]⟩

theorem DecrefStep.sameGlobals {s s' : Kern} {pp : ℕ} {l l' : List ℕ}
    (step : DecrefStep s pp l s' l') : SameGlobals s s' :=
  ⟨step.npages, step.kernPgdir, by rw [step.frame], by rw [step.frame]⟩

theorem SameGlobals.trans {s s' s'' : Kern} (h : SameGlobals s s') (h' : SameGlobals s' s'') :
    SameGlobals s s'' :=
  ⟨h'.npages.trans h.npages, h'.kernPgdir.trans h.kernPgdir, h'.endSym.trans h.endSym,
    h'.nextfree.trans h.nextfree⟩

theorem sameGlobals_pageFree (s : Kern) (pp : ℕ) : SameGlobals s (s.pageFree pp) :=
  ⟨rfl, rfl, rfl, rfl⟩

@[simp] theorem mem_pageFree (s : Kern) (pp : ℕ) : (s.pageFree pp).mem = s.mem := rfl

theorem sameGlobals_installed (s : Kern) (pgdir : ℕ) (va : Word) (pp : ℕ) :
    SameGlobals s (s.installed pgdir va pp) := by
  rw [installed, memset_frame]
  exact ⟨rfl, rfl, rfl, rfl⟩

/-- The state of the test on the pages `own`, since `s₀`: the free pages are `l`, the first
directory entry is `d`, the page table `p` has the entries `e`, and the counts are `r`. -/
structure Testing (s₀ : Kern) (own : List ℕ) (p : ℕ) (l : List ℕ) (d : Word)
    (e : Fin 1024 → Word) (r : ℕ → BitVec 16) (s : Kern) : Prop where
  globals : SameGlobals s₀ s
  free : s.FreeList l
  sub : ∀ q ∈ l, q ∈ own
  ref : ∀ q, s.ref q = r q
  rest : ∀ q, q ∉ own → s.pages q = s₀.pages q
  dir : ∀ i, s.mem s₀.kernPgdir i = if i = 0 then d else s₀.mem s₀.kernPgdir i
  table : d ≠ 0#32 → ∀ t, s.mem p t = e t
  mem : ∀ g, g ≠ p → g ≠ s₀.kernPgdir → s.mem g = s₀.mem g

variable {s₀ s s' : Kern} {own l : List ℕ} {p q pp : ℕ} {d va : Word} {e : Fin 1024 → Word}
  {r : ℕ → BitVec 16}

theorem assertAlloc_ok (h : s.pageAlloc = .ok (some pp, s')) (text : String) :
    s.assertAlloc text = .ok (pp, s') := by
  rw [assertAlloc, h]
  rfl

namespace Testing

theorem pde (h : Testing s₀ own p l d e r s) (hva : pdx va = 0) :
    s.mem s₀.kernPgdir (pdx va) = d := by
  rw [h.dir, if_pos hva]

theorem congr {r' : ℕ → BitVec 16} {e' : Fin 1024 → Word} (h : Testing s₀ own p l d e r s)
    (he : ∀ t, e t = e' t) (hr : ∀ q, r q = r' q) : Testing s₀ own p l d e' r' s where
  globals := h.globals
  free := h.free
  sub := h.sub
  ref q := (h.ref q).trans (hr q)
  rest := h.rest
  dir := h.dir
  table hd t := (h.table hd t).trans (he t)
  mem := h.mem

/-! Allocation and freeing. -/

theorem assertNoMem (h : Testing s₀ own p [] d e r s) : s.assertNoMem = .ok s := by
  rw [Kern.assertNoMem, pageAlloc_nil h.free]
  rfl

theorem pageFree (h : Testing s₀ own p l d e r s) (hq : q ∈ own) (hl : q ∉ l) :
    Testing s₀ own p (q :: l) d e r (s.pageFree q) := by
  have step := pageFree_spec h.free hl
  refine ⟨h.globals.trans (sameGlobals_pageFree s q), step.free, ?_,
    fun q' => (step.refs q').trans (h.ref q'), ?_, h.dir, h.table, h.mem⟩
  · exact List.forall_mem_cons.mpr ⟨hq, h.sub⟩
  · intro q' hq'
    rw [step.rest q' fun hmem => hq' ?_, h.rest q' hq']
    exact (List.mem_cons.mp hmem).elim (fun heq => heq ▸ hq) (h.sub q')

theorem alloc (h : Testing s₀ own p (q :: l) d e r s) :
    ∃ s', s.pageAlloc = .ok (some q, s') ∧
      Testing s₀ own p l d e (Function.update r q 0#16) s' := by
  obtain ⟨s', halloc, step⟩ := pageAlloc_cons h.free
  have hmem : s'.mem = s.mem := step.mem
  refine ⟨s', halloc, h.globals.trans ?_, step.free, ?_, ?_, ?_, hmem ▸ h.dir, hmem ▸ h.table,
    hmem ▸ h.mem⟩
  · exact step.sameGlobals
  · exact fun q' hq' => h.sub q' (List.mem_cons_of_mem q hq')
  · intro q'
    rw [Function.update_apply]
    split_ifs with heq
    · rw [heq, step.cleared]
    · rw [step.refs q' heq, h.ref]
  · intro q' hq'
    rw [step.rest q' fun hmem => hq' (h.sub q' hmem), h.rest q' hq']

theorem assertAllocPage (h : Testing s₀ own p [q] d e r s) (text : String) :
    ∃ s', s.assertAllocPage q text = .ok s' ∧
      Testing s₀ own p [] d e (Function.update r q 0#16) s' := by
  obtain ⟨s', halloc, h'⟩ := h.alloc
  refine ⟨s', ?_, h'⟩
  rw [Kern.assertAllocPage, assertAlloc_ok halloc]
  simp [kassert]

/-! Insertion and removal. -/

/-- Without a page table and without free pages nothing can be mapped. -/
theorem insert_full (h : Testing s₀ own p [] d e r s) (pp : ℕ)
    (hpde : s.mem s₀.kernPgdir (pdx va) = 0#32)
    (text : String) : s.assertInsert pp va true text = .ok s := by
  rw [assertInsert, h.globals.kernPgdir, pageInsert_full hpde h.free]
  rfl

/-- Count a reference. -/
theorem setRef (h : Testing s₀ own p l d e r s) (hq : q ∈ own) (n : BitVec 16) :
    Testing s₀ own p l d e (Function.update r q n) (s.setRef q n) := by
  refine ⟨h.globals.trans ⟨rfl, rfl, rfl, rfl⟩, freeList_setRef.mpr h.free, h.sub, ?_, ?_, h.dir,
    h.table, h.mem⟩
  · intro q'
    rw [Function.update_apply]
    split_ifs with heq
    · rw [heq, ref_setRef_same]
    · rw [ref_setRef_of_ne heq, h.ref]
  · intro q' hq'
    have hne : q' ≠ q := fun heq => hq' (heq ▸ hq)
    rw [pages_setRef_of_ne hne, h.rest q' hq']

/-- Write an entry of the page table. -/
theorem store (h : Testing s₀ own p l d e r s) (hp : p ≠ s₀.kernPgdir) (i : Fin 1024) (w : Word) :
    Testing s₀ own p l d (Function.update e i w) r (s.store p i w) := by
  refine ⟨h.globals.trans ⟨rfl, rfl, rfl, rfl⟩, h.free, h.sub, h.ref, h.rest, ?_, ?_, ?_⟩
  · intro j
    rw [mem_store, Mem.set_of_frame_ne hp.symm]
    exact h.dir j
  · intro hd t
    rw [mem_store, Function.update_apply]
    split_ifs with ht
    · rw [ht, Mem.set_same]
    · rw [Mem.set_of_idx_ne ht]
      exact h.table hd t
  · intro g hg hdir
    rw [← h.mem g hg hdir]
    funext t
    exact Mem.set_of_frame_ne hg ..

variable (hp : p ≠ s₀.kernPgdir) (hlt : ∀ q ∈ own, q < s₀.npages)

include hlt in
/-- The first insertion takes the free page for the page table. -/
theorem install (h : Testing s₀ own p [p] 0#32 e r s) (hp : p ≠ s₀.kernPgdir) (hva : pdx va = 0)
    (hpp : pp ∈ own) (hne : pp ≠ p) (text : String) :
    ∃ s', s.assertInsert pp va false text = .ok s' ∧
      Testing s₀ own p [] (newPde p) (Function.update (fun _ => 0#32) (ptx va) (newPte pp 0#32))
        (Function.update (Function.update r p 1#16) pp (r pp + 1#16)) s' := by
  have hown := h.sub p (List.mem_singleton_self p)
  have hp20 := lt_of_lt_npages (hlt p hown)
  have hcreate : 0#32 ||| pteP ≠ 0#32 := by decide
  obtain ⟨s₁, step, hwalk⟩ := pgdirWalk_alloc (h.pde hva) hcreate h.free
    (h.globals.npages ▸ hlt p hown) hp.symm
  -- `u` is the state with the new table, before the entry is written
  obtain ⟨u, hu⟩ : ∃ u, u = s₁.installed s₀.kernPgdir va p := ⟨_, rfl⟩
  have hmem : s₁.mem = s.mem := step.mem
  have hmem_u (g : ℕ) (t : Fin 1024) : u.mem g t =
      if g = p then 0#32 else s.mem.set s₀.kernPgdir (pdx va) (newPde p) g t := by
    rw [hu, mem_installed, hmem]
  -- the table is cleared and takes one reference; nothing else changes
  have htest : Testing s₀ own p [] (newPde p) (fun _ => 0#32) (Function.update r p 1#16) u := by
    refine ⟨h.globals.trans ?_, ?_, fun q hq => absurd hq List.not_mem_nil, ?_, ?_, ?_, ?_, ?_⟩
    · have hglobals := sameGlobals_installed s₁ s₀.kernPgdir va p
      rw [← hu] at hglobals
      refine SameGlobals.trans ?_ hglobals
      exact step.sameGlobals
    · rw [FreeList, hu, installed_freeStore]
      exact step.free
    · intro q
      rw [Kern.ref, hu, installed_pages]
      change (s₁.setRef p 1#16).ref q = _
      rw [Function.update_apply]
      split_ifs with heq
      · rw [heq, ref_setRef_same]
      · rw [ref_setRef_of_ne heq, step.refs q heq, h.ref]
    · intro q hq
      have hqp : q ≠ p := fun heq => hq (heq ▸ hown)
      rw [hu, installed_pages, pages_setRef_of_ne hqp,
        step.rest q fun hmem => hqp (List.mem_singleton.mp hmem), h.rest q hq]
    · intro i
      rw [hmem_u, if_neg hp.symm, Mem.set, hva]
      simp only [true_and]
      split_ifs
      · rfl
      · rw [h.dir, if_neg ‹_›]
    · intro _ t
      rw [hmem_u, if_pos rfl]
    · intro g hg hdir
      rw [← h.mem g hg hdir]
      funext t
      rw [hmem_u, if_neg hg, Mem.set_of_frame_ne hdir]
  rw [← hu] at hwalk
  have hinsert : s.pageInsert s₀.kernPgdir pp va 0#32 = _ := pageInsert_empty hwalk
    (htest.globals.npages ▸ hlt pp hpp) ((hmem_u ..).trans (if_pos rfl))
  -- the insertion counts the page and writes its entry
  have hnew := (htest.setRef hpp (u.ref pp + 1#16)).store hp (ptx va) (newPte pp 0#32)
  rw [htest.ref, Function.update_of_ne hne] at hnew
  refine ⟨_, ?_, hnew⟩
  rw [assertInsert, h.globals.kernPgdir, hinsert, htest.ref, Function.update_of_ne hne]
  rfl

/-! With the page table in place. -/

include hlt in
/-- The directory entry names the page table. -/
theorem table_pde (h : Testing s₀ own p l (newPde p) e r s) (hown : p ∈ own) (hva : pdx va = 0) :
    s.mem s₀.kernPgdir (pdx va) ≠ 0#32 ∧ frameOf (s.mem s₀.kernPgdir (pdx va)) = p ∧
      p < s.npages := by
  have hp := hlt p hown
  rw [h.pde hva, frameOf_newPde (lt_of_lt_npages hp), h.globals.npages]
  exact ⟨ne_zero_of_present (present_newPde p), rfl, hp⟩

theorem entry (h : Testing s₀ own p l (newPde p) e r s) (t : Fin 1024) : s.mem p t = e t :=
  h.table (ne_zero_of_present (present_newPde p)) t

include hp hlt in
/-- Insertion into an empty entry. -/
theorem insert (h : Testing s₀ own p l (newPde p) e r s) (hown : p ∈ own) (hva : pdx va = 0)
    (hpp : pp ∈ own) (he : e (ptx va) = 0#32) (text : String) :
    ∃ s', s.assertInsert pp va false text = .ok s' ∧
      Testing s₀ own p l (newPde p) (Function.update e (ptx va) (newPte pp 0#32))
        (Function.update r pp (r pp + 1#16)) s' := by
  obtain ⟨hpde, hframe, hpn⟩ := h.table_pde hlt hown hva
  have hwalk : s.pgdirWalk s₀.kernPgdir va (0#32 ||| pteP) = _ :=
    pgdirWalk_table hpde (hframe.symm ▸ hpn)
  rw [hframe] at hwalk
  have hinsert : s.pageInsert s₀.kernPgdir pp va 0#32 = _ := pageInsert_empty hwalk
    (h.globals.npages ▸ hlt pp hpp) ((h.entry _).trans he)
  have hnew := (h.setRef hpp (s.ref pp + 1#16)).store hp (ptx va) (newPte pp 0#32)
  rw [h.ref] at hnew
  refine ⟨_, ?_, hnew⟩
  rw [assertInsert, h.globals.kernPgdir, hinsert, h.ref]
  rfl

include hlt in
/-- Giving up a reference frees the page with the last one. -/
theorem decref (h : Testing s₀ own p l d e r s) (hq : q ∈ own) (hl : q ∉ l) :
    ∃ s', s.pageDecref q = .ok s' ∧ Testing s₀ own p (if r q = 1#16 then q :: l else l) d e
      (Function.update r q (r q - 1#16)) s' := by
  obtain ⟨s', l', hdec, step⟩ := pageDecref_spec h.free (h.globals.npages ▸ hlt q hq) hl
  have hmem : s'.mem = s.mem := step.mem
  have hl' : l' = if r q = 1#16 then q :: l else l := by
    rw [← h.ref]
    rcases step.cases with ⟨hne, rfl, -⟩ | ⟨heq, rfl, -⟩
    · rw [if_neg hne]
    · rw [if_pos heq]
  refine ⟨s', hdec, h.globals.trans ?_, hl' ▸ step.free, ?_, ?_, ?_, hmem ▸ h.dir, hmem ▸ h.table,
    hmem ▸ h.mem⟩
  · exact step.sameGlobals
  · split_ifs
    · exact List.forall_mem_cons.mpr ⟨hq, h.sub⟩
    · exact h.sub
  · intro q'
    rw [Function.update_apply]
    split_ifs with heq
    · rw [heq, step.ref, h.ref]
    · rw [step.refs q' heq, h.ref]
  · intro q' hq'
    rw [step.rest q' fun hmem => hq' ?_, h.rest q' hq']
    exact (List.mem_cons.mp hmem).elim (fun heq => heq ▸ hq) (h.sub q')

include hp hlt in
/-- Removal of a page of the test. -/
theorem remove (h : Testing s₀ own p l (newPde p) e r s) (hown : p ∈ own) (hva : pdx va = 0)
    (hq : q ∈ own) (hl : q ∉ l) (he : e (ptx va) = newPte q 0#32) :
    ∃ s', s.pageRemove s.kernPgdir va = .ok s' ∧
      Testing s₀ own p (if r q = 1#16 then q :: l else l) (newPde p)
        (Function.update e (ptx va) 0#32) (Function.update r q (r q - 1#16)) s' := by
  obtain ⟨hpde, hframe, hpn⟩ := h.table_pde hlt hown hva
  have hpage : frameOf (s.mem (frameOf (s.mem s₀.kernPgdir (pdx va))) (ptx va)) = q := by
    rw [hframe, h.entry, he, frameOf_newPte (lt_of_lt_npages (hlt q hq)) (by decide)]
  obtain ⟨s₁, hdec, h₁⟩ := h.decref hlt hq hl
  have hremove := pageRemove_eq hpde (hframe.symm ▸ hpn) (hpage.symm ▸ hdec)
  rw [hframe] at hremove
  have h₂ := h₁.store hp (ptx va) 0#32
  refine ⟨(s₁.store p (ptx va) 0#32).invlpg va, h.globals.kernPgdir ▸ hremove, ?_⟩
  exact ⟨h₂.globals.trans ⟨rfl, rfl, rfl, rfl⟩, h₂.free, h₂.sub, h₂.ref, h₂.rest, h₂.dir,
    h₂.table, h₂.mem⟩

include hp hlt in
/-- Insertion over a page of the test. -/
theorem replace (h : Testing s₀ own p l (newPde p) e r s) (hown : p ∈ own) (hva : pdx va = 0)
    (hpp : pp ∈ own) (hq : q ∈ own) (hl : q ∉ l) (he : e (ptx va) = newPte q 0#32) (text : String) :
    ∃ s', s.assertInsert pp va false text = .ok s' ∧
      Testing s₀ own p
        (if Function.update r pp (r pp + 1#16) q = 1#16 then q :: l else l) (newPde p)
        (Function.update e (ptx va) (newPte pp 0#32))
        (Function.update (Function.update r pp (r pp + 1#16)) q
          (Function.update r pp (r pp + 1#16) q - 1#16)) s' := by
  obtain ⟨hpde, hframe, hpn⟩ := h.table_pde hlt hown hva
  have hwalk : s.pgdirWalk s₀.kernPgdir va (0#32 ||| pteP) = _ :=
    pgdirWalk_table hpde (hframe.symm ▸ hpn)
  rw [hframe] at hwalk
  have hslot : s.mem p (ptx va) ≠ 0#32 := by
    rw [h.entry, he]
    exact ne_zero_of_present (present_newPte q 0#32)
  have h₁ := h.setRef hpp (s.ref pp + 1#16)
  obtain ⟨s₂, hremove, h₂⟩ := h₁.remove hp hlt hown hva hq hl he
  rw [h₁.globals.kernPgdir] at hremove
  have hinsert : s.pageInsert s₀.kernPgdir pp va 0#32 = _ := pageInsert_occupied hwalk
    (h.globals.npages ▸ hlt pp hpp) hslot hremove
  have h₃ := h₂.store hp (ptx va) (newPte pp 0#32)
  rw [Function.update_idem, h.ref] at h₃
  refine ⟨_, ?_, h₃⟩
  rw [assertInsert, h.globals.kernPgdir, hinsert]
  rfl

include hlt in
/-- What `check_va2pa` finds through the page table. -/
theorem va2pa (h : Testing s₀ own p l (newPde p) e r s) (hown : p ∈ own) (hva : pdx va = 0)
    {pa : Word} (hpa : (if present (e (ptx va)) then pteAddr (e (ptx va)) else ~~~0#32) = pa)
    (text : String) : s.assertVa2pa va pa text = .ok () := by
  obtain ⟨hpde, hframe, hpn⟩ := h.table_pde hlt hown hva
  have hpresent : present (s.mem s₀.kernPgdir (pdx va)) := by
    rw [h.pde hva]
    exact present_newPde p
  have hkaddr : s.kaddr (pteAddr (s.mem s₀.kernPgdir (pdx va))) = .ok p := by
    rw [← hframe] at hpn
    exact (kaddr_ok hpn).trans (congrArg Except.ok hframe)
  have hcheck : s.checkVa2pa s₀.kernPgdir va = .ok pa := by
    rw [checkVa2pa]
    simp only [hpresent, not_true, if_false, hkaddr, ok_bind, h.entry]
    rw [← hpa]
    split_ifs <;> rfl
  rw [assertVa2pa, h.globals.kernPgdir, hcheck, ok_bind, kassert, if_pos (decide_eq_true rfl)]

theorem assertRef (h : Testing s₀ own p l d e r s) {n : BitVec 16} (hn : r q = n) (text : String) :
    s.assertRef q n text = .ok () := by
  rw [Kern.assertRef, h.ref, hn, kassert, if_pos (decide_eq_true rfl)]

include hlt in
theorem assertPde (h : Testing s₀ own p l (newPde p) e r s) (hown : p ∈ own) :
    s.assertPde p = .ok () := by
  have hzero : pdx 0#32 = 0 := by decide
  have hpde := h.pde hzero
  have haddr : pteAddr (newPde p) = page2pa p := by
    rw [newPde_eq]
    exact pteAddr_page2pa_or (lt_of_lt_npages (hlt p hown)) (by decide)
  rw [hzero] at hpde
  rw [Kern.assertPde, h.globals.kernPgdir, hpde, haddr, kassert, if_pos (decide_eq_true rfl)]

end Testing

/-! ### The phases of the test -/

/-- The counts `a`, `b`, `c` for three pages. -/
def counts (r : ℕ → BitVec 16) (p0 p1 p2 : ℕ) (a b c : BitVec 16) : ℕ → BitVec 16 :=
  Function.update (Function.update (Function.update r p0 a) p1 b) p2 c

/-- A page table whose first two entries are in use. -/
def entries (e0 e1 : Word) : Fin 1024 → Word :=
  Function.update (Function.update (fun _ => 0#32) 0 e0) 1 e1

@[simp] theorem entries_zero (e0 e1 : Word) : entries e0 e1 0 = e0 := by
  simp [entries]

@[simp] theorem entries_one (e0 e1 : Word) : entries e0 e1 1 = e1 := by
  simp [entries]

@[simp] theorem update_entries_zero (e0 e1 w : Word) :
    Function.update (entries e0 e1) 0 w = entries w e1 := by
  rw [entries, Function.update_comm (by decide), Function.update_idem]
  rfl

@[simp] theorem update_entries_one (e0 e1 w : Word) :
    Function.update (entries e0 e1) 1 w = entries e0 w := Function.update_idem ..

theorem update_zero_eq_entries (w : Word) :
    Function.update (fun _ => 0#32) (0 : Fin 1024) w = entries w 0#32 := by
  have hone : Function.update (fun _ => 0#32) (0 : Fin 1024) w 1 = 0#32 := by simp
  have hself := Function.update_eq_self 1 (Function.update (fun _ => 0#32) (0 : Fin 1024) w)
  rw [hone] at hself
  exact hself.symm

/-- The three pages of the test: different pages of memory, the first of which is not the
page directory. -/
structure TestPages (s₀ : Kern) (p0 p1 p2 : ℕ) : Prop where
  ne01 : p0 ≠ p1
  ne02 : p0 ≠ p2
  ne12 : p1 ≠ p2
  lt : ∀ q ∈ [p0, p1, p2], q < s₀.npages
  pgdir : p0 ≠ s₀.kernPgdir

/-- The state of the test with the first directory entry `d`, the page table entries `e0`
and `e1` and the counts `a`, `b` and `c`. -/
abbrev Test (s₀ : Kern) (p0 p1 p2 : ℕ) (l : List ℕ) (d e0 e1 : Word) (a b c : BitVec 16)
    (s : Kern) : Prop :=
  Testing s₀ [p0, p1, p2] p0 l d (entries e0 e1) (counts s₀.ref p0 p1 p2 a b c) s

section Phases

variable {p0 p1 p2 : ℕ} {e0 e1 : Word} {a b c : BitVec 16} (hp : TestPages s₀ p0 p1 p2)

namespace TestPages

include hp

theorem counts_zero : counts r p0 p1 p2 a b c p0 = a := by
  simp [counts, hp.ne01, hp.ne02]

theorem counts_one : counts r p0 p1 p2 a b c p1 = b := by
  simp [counts, hp.ne12]

omit hp in
theorem counts_two : counts r p0 p1 p2 a b c p2 = c := by
  simp [counts]

theorem update_counts_zero (n : BitVec 16) :
    Function.update (counts r p0 p1 p2 a b c) p0 n = counts r p0 p1 p2 n b c := by
  rw [counts, Function.update_comm hp.ne02.symm, Function.update_comm hp.ne01.symm,
    Function.update_idem]
  rfl

theorem update_counts_one (n : BitVec 16) :
    Function.update (counts r p0 p1 p2 a b c) p1 n = counts r p0 p1 p2 a n c := by
  rw [counts, Function.update_comm hp.ne12.symm, Function.update_idem]
  rfl

omit hp in
theorem update_counts_two (n : BitVec 16) :
    Function.update (counts r p0 p1 p2 a b c) p2 n = counts r p0 p1 p2 a b n :=
  Function.update_idem ..

end TestPages

theorem pdx_pgsize : pdx pgsize = 0 := by decide

theorem ptx_pgsize : ptx pgsize = 1 := by decide

theorem pdx_zero : pdx 0#32 = 0 := by decide

theorem ptx_zero : ptx 0#32 = 0 := by decide

theorem Test.checkNoMem (h : Test s₀ p0 p1 p2 [] 0#32 e0 e1 a b c s) : s.checkNoMem p1 = .ok s := by
  have hpde := h.pde pdx_zero
  have hlookup : s.pageLookup s₀.kernPgdir 0#32 = .ok (none, s) := pageLookup_none hpde
  rw [Kern.checkNoMem, h.assertNoMem, ok_bind, h.globals.kernPgdir, hlookup, ok_bind]
  exact h.insert_full _ hpde _

section Mapped

include hp

theorem Test.mapped_zero (h : Test s₀ p0 p1 p2 l (newPde p0) (newPte q 0#32) e1 a b c s)
    (hq : q ∈ [p0, p1, p2]) (text : String) :
    s.assertVa2pa 0#32 (page2pa q) text = .ok () := by
  refine h.va2pa hp.lt (by simp) pdx_zero ?_ text
  rw [ptx_zero, entries_zero, if_pos (present_newPte q 0#32)]
  exact pteAddr_newPte (lt_of_lt_npages (hp.lt q hq)) (by decide)

theorem Test.mapped_one (h : Test s₀ p0 p1 p2 l (newPde p0) e0 (newPte q 0#32) a b c s)
    (hq : q ∈ [p0, p1, p2]) (text : String) :
    s.assertVa2pa pgsize (page2pa q) text = .ok () := by
  refine h.va2pa hp.lt (by simp) pdx_pgsize ?_ text
  rw [ptx_pgsize, entries_one, if_pos (present_newPte q 0#32)]
  exact pteAddr_newPte (lt_of_lt_npages (hp.lt q hq)) (by decide)

theorem Test.unmapped_zero (h : Test s₀ p0 p1 p2 l (newPde p0) 0#32 e1 a b c s) (text : String) :
    s.assertVa2pa 0#32 (~~~0#32) text = .ok () := by
  refine h.va2pa hp.lt (by simp) pdx_zero ?_ text
  rw [ptx_zero, entries_zero, if_neg not_present_zero]

theorem Test.unmapped_one (h : Test s₀ p0 p1 p2 l (newPde p0) e0 0#32 a b c s) (text : String) :
    s.assertVa2pa pgsize (~~~0#32) text = .ok () := by
  refine h.va2pa hp.lt (by simp) pdx_pgsize ?_ text
  rw [ptx_pgsize, entries_one, if_neg not_present_zero]

end Mapped

include hp in
theorem Test.checkMap (h : Test s₀ p0 p1 p2 [] 0#32 0#32 0#32 0#16 0#16 0#16 s) :
    ∃ s', s.checkMap p0 p1 p2 = .ok s' ∧
      Test s₀ p0 p1 p2 [] (newPde p0) (newPte p1 0#32) (newPte p2 0#32) 1#16 1#16 1#16 s' := by
  have hfree := h.pageFree (q := p0) (by simp) List.not_mem_nil
  have hmem₁ : p1 ∈ [p0, p1, p2] := by simp
  have hmem₂ : p2 ∈ [p0, p1, p2] := by simp
  obtain ⟨s₁, hinsert₁, h₁⟩ := hfree.install hp.lt hp.pgdir pdx_zero hmem₁
    hp.ne01.symm "page_insert(kern_pgdir, pp1, 0x0, 0) == 0"
  rw [ptx_zero, update_zero_eq_entries, hp.update_counts_zero, hp.update_counts_one,
    hp.counts_one, show 0#16 + 1#16 = 1#16 from rfl] at h₁
  obtain ⟨s₂, hinsert₂, h₂⟩ := h₁.insert hp.pgdir hp.lt (by simp) pdx_pgsize hmem₂
    (by rw [ptx_pgsize, entries_one]) "page_insert(kern_pgdir, pp2, (void*) PGSIZE, 0) == 0"
  rw [ptx_pgsize, update_entries_one, TestPages.update_counts_two, TestPages.counts_two,
    show 0#16 + 1#16 = 1#16 from rfl] at h₂
  refine ⟨s₂, ?_, h₂⟩
  rw [Kern.checkMap, hinsert₁, ok_bind, h₁.assertPde hp.lt (by simp), ok_bind,
    Test.mapped_zero hp h₁ (by simp), ok_bind, h₁.assertRef hp.counts_one, ok_bind,
    h₁.assertRef hp.counts_zero, ok_bind, hinsert₂, ok_bind, Test.mapped_one hp h₂ (by simp),
    ok_bind, h₂.assertRef TestPages.counts_two, ok_bind, h₂.assertNoMem]

include hp in
/-- Mapping a page where it is leaves its count alone. -/
theorem Test.checkRemap
    (h : Test s₀ p0 p1 p2 [] (newPde p0) (newPte p1 0#32) (newPte p2 0#32) 1#16 1#16 1#16 s) :
    ∃ s', s.checkRemap p2 = .ok s' ∧
      Test s₀ p0 p1 p2 [] (newPde p0) (newPte p1 0#32) (newPte p2 0#32) 1#16 1#16 1#16 s' := by
  have hmem₂ : p2 ∈ [p0, p1, p2] := by simp
  obtain ⟨s₁, hinsert, h₁⟩ := h.replace hp.pgdir hp.lt (by simp) pdx_pgsize hmem₂ hmem₂
    List.not_mem_nil (by rw [ptx_pgsize, entries_one])
    "page_insert(kern_pgdir, pp2, (void*) PGSIZE, 0) == 0"
  rw [ptx_pgsize, update_entries_one, TestPages.counts_two, TestPages.update_counts_two,
    TestPages.counts_two,
    TestPages.update_counts_two, if_neg (by decide), show 1#16 + 1#16 - 1#16 = 1#16 from rfl] at h₁
  refine ⟨s₁, ?_, h₁⟩
  rw [Kern.checkRemap, hinsert, ok_bind, Test.mapped_one hp h₁ (by simp), ok_bind,
    h₁.assertRef TestPages.counts_two, ok_bind, h₁.assertNoMem]

include hp in
theorem Test.checkReplace
    (h : Test s₀ p0 p1 p2 [] (newPde p0) (newPte p1 0#32) (newPte p2 0#32) 1#16 1#16 1#16 s)
    (hpde : s₀.mem s₀.kernPgdir 1 = 0#32) :
    ∃ s', s.checkReplace p0 p1 p2 = .ok s' ∧
      Test s₀ p0 p1 p2 [] (newPde p0) (newPte p1 0#32) (newPte p1 0#32) 1#16 2#16 0#16 s' := by
  have hlarge : s.mem s₀.kernPgdir (pdx ptsize) = 0#32 := by
    rw [show pdx ptsize = 1 by decide, h.dir, if_neg (by decide), hpde]
  have hfail := h.insert_full p0 hlarge
    "page_insert(kern_pgdir, pp0, (void*) PTSIZE, 0) < 0"
  have hmem₁ : p1 ∈ [p0, p1, p2] := by simp
  obtain ⟨s₁, hinsert, h₁⟩ := h.replace hp.pgdir hp.lt (by simp) pdx_pgsize hmem₁ (q := p2)
    (by simp) List.not_mem_nil (by rw [ptx_pgsize, entries_one])
    "page_insert(kern_pgdir, pp1, (void*) PGSIZE, 0) == 0"
  rw [ptx_pgsize, update_entries_one, hp.counts_one, hp.update_counts_one, TestPages.counts_two,
    TestPages.update_counts_two, if_pos rfl, show 1#16 + 1#16 = 2#16 from rfl,
    show 1#16 - 1#16 = 0#16 from rfl] at h₁
  obtain ⟨s₂, halloc, h₂⟩ := h₁.assertAllocPage "page_alloc(&pp) == 0 && pp == pp2"
  rw [TestPages.update_counts_two] at h₂
  refine ⟨s₂, ?_, h₂⟩
  rw [Kern.checkReplace, hfail, ok_bind, hinsert, ok_bind, Test.mapped_zero hp h₁ (by simp),
    ok_bind, Test.mapped_one hp h₁ (by simp), ok_bind, h₁.assertRef hp.counts_one, ok_bind,
    h₁.assertRef TestPages.counts_two, ok_bind, halloc]

include hp in
/-- With a page table behind the second directory entry the insertion that should fail
succeeds. -/
theorem Test.checkReplace_error
    (h : Test s₀ p0 p1 p2 [] (newPde p0) (newPte p1 0#32) (newPte p2 0#32) 1#16 1#16 1#16 s)
    (hpde : s₀.mem s₀.kernPgdir 1 ≠ 0#32) {pt : ℕ} (hframe : frameOf (s₀.mem s₀.kernPgdir 1) = pt)
    (hpt : pt < s₀.npages) (hne : pt ≠ p0) (hdir : pt ≠ s₀.kernPgdir)
    (hslot : s₀.mem pt 0 = 0#32) :
    s.checkReplace p0 p1 p2 =
      .error (.assertion "page_insert(kern_pgdir, pp0, (void*) PTSIZE, 0) < 0") := by
  have hpdx : pdx ptsize = 1 := by decide
  have hptx : ptx ptsize = 0 := by decide
  have hentry : s.mem s₀.kernPgdir (pdx ptsize) = s₀.mem s₀.kernPgdir 1 := by
    rw [hpdx, h.dir, if_neg (by decide)]
  have hwalk : s.pgdirWalk s₀.kernPgdir ptsize (0#32 ||| pteP) = _ :=
    pgdirWalk_table (hentry ▸ hpde) (by rw [hentry, hframe, h.globals.npages]; exact hpt)
  rw [hentry, hframe, hptx] at hwalk
  have hinsert : s.pageInsert s₀.kernPgdir p0 ptsize 0#32 = _ := pageInsert_empty hwalk
    (by rw [h.globals.npages]; exact hp.lt p0 (by simp)) (by rw [h.mem pt hne hdir]; exact hslot)
  rw [Kern.checkReplace, assertInsert, h.globals.kernPgdir, hinsert]
  rfl

include hp in
theorem Test.checkUnmap
    (h : Test s₀ p0 p1 p2 [] (newPde p0) (newPte p1 0#32) (newPte p1 0#32) 1#16 2#16 0#16 s) :
    ∃ s', s.checkUnmap p1 p2 = .ok s' ∧
      Test s₀ p0 p1 p2 [] (newPde p0) 0#32 0#32 1#16 0#16 0#16 s' := by
  obtain ⟨s₁, hremove₁, h₁⟩ := h.remove hp.pgdir hp.lt (by simp) pdx_zero (q := p1) (by simp)
    List.not_mem_nil (by rw [ptx_zero, entries_zero])
  rw [ptx_zero, update_entries_zero, hp.counts_one, hp.update_counts_one, if_neg (by decide),
    show 2#16 - 1#16 = 1#16 from rfl] at h₁
  obtain ⟨s₂, hremove₂, h₂⟩ := h₁.remove hp.pgdir hp.lt (by simp) pdx_pgsize (q := p1) (by simp)
    List.not_mem_nil (by rw [ptx_pgsize, entries_one])
  rw [ptx_pgsize, update_entries_one, hp.counts_one, hp.update_counts_one, if_pos rfl,
    show 1#16 - 1#16 = 0#16 from rfl] at h₂
  obtain ⟨s₃, halloc, h₃⟩ := h₂.assertAllocPage "page_alloc(&pp) == 0 && pp == pp1"
  rw [hp.update_counts_one] at h₃
  refine ⟨s₃, ?_, h₃⟩
  rw [Kern.checkUnmap, hremove₁, ok_bind, Test.unmapped_zero hp h₁, ok_bind,
    Test.mapped_one hp h₁ (by simp), ok_bind, h₁.assertRef hp.counts_one, ok_bind,
    h₁.assertRef TestPages.counts_two, ok_bind, hremove₂, ok_bind, Test.unmapped_zero hp h₂,
    ok_bind, Test.unmapped_one hp h₂, ok_bind, h₂.assertRef hp.counts_one, ok_bind,
    h₂.assertRef TestPages.counts_two, ok_bind, halloc, ok_bind, h₃.assertNoMem]

variable {rest : List ℕ}

/-- Taking the three pages. -/
theorem checkAlloc_ok (h : s.FreeList (p0 :: p1 :: p2 :: rest))
    (href : ∀ q ∈ [p0, p1, p2], s.ref q = 0#16) :
    ∃ s', s.checkAlloc = .ok (p0, p1, p2, s') ∧ s'.FreeList rest ∧ s'.mem = s.mem ∧
      SameGlobals s s' ∧ (∀ q, s'.ref q = s.ref q) ∧
      ∀ q, q ∉ p0 :: p1 :: p2 :: rest → s'.pages q = s.pages q := by
  have hnodup := h.nodup
  simp only [List.nodup_cons, List.mem_cons, not_or] at hnodup
  obtain ⟨a, halloc, ha⟩ := pageAlloc_cons h
  obtain ⟨b, halloc', hb⟩ := pageAlloc_cons ha.free
  obtain ⟨c, halloc'', hc⟩ := pageAlloc_cons hb.free
  refine ⟨c, ?_, hc.free, ?_, (ha.sameGlobals.trans hb.sameGlobals).trans hc.sameGlobals, ?_, ?_⟩
  · simp only [checkAlloc, assertAlloc_ok halloc, assertAlloc_ok halloc', assertAlloc_ok halloc'',
      ok_bind]
    simp [kassert, Ne.symm hnodup.1.1, Ne.symm hnodup.2.1.1, Ne.symm hnodup.1.2.1]
  · rw [hc.mem, hb.mem, ha.mem]
  · -- the counts of free pages are zero already
    intro q
    have href' : ∀ q, q ∈ [p0, p1, p2] → s.ref q = 0#16 := href
    by_cases hq2 : q = p2
    · rw [hq2, hc.cleared, href' p2 (by simp)]
    · rw [hc.refs q hq2]
      by_cases hq1 : q = p1
      · rw [hq1, hb.cleared, href' p1 (by simp)]
      · rw [hb.refs q hq1]
        by_cases hq0 : q = p0
        · rw [hq0, ha.cleared, href' p0 (by simp)]
        · exact ha.refs q hq0
  · intro q hq
    simp only [List.mem_cons, not_or] at hq
    rw [hc.rest q (by simp [hq]), hb.rest q (by simp [hq]), ha.rest q (by simp [hq])]

theorem counts_self (r : ℕ → BitVec 16) (p0 p1 p2 : ℕ) :
    counts r p0 p1 p2 (r p0) (r p1) (r p2) = r := by
  rw [counts, Function.update_eq_self, Function.update_eq_self, Function.update_eq_self]

/-- The start of the test, with the rest of the free list hidden. -/
theorem test_start (href : ∀ q ∈ [p0, p1, p2], s₀.ref q = 0#16)
    (hpde : s₀.mem s₀.kernPgdir 0 = 0#32) :
    Test s₀ p0 p1 p2 [] 0#32 0#32 0#32 0#16 0#16 0#16 (s₀.setFreeStore s₀.freeStore.init) := by
  have hcounts := counts_self s₀.ref p0 p1 p2
  rw [href p0 (by simp), href p1 (by simp), href p2 (by simp)] at hcounts
  refine ⟨⟨rfl, rfl, rfl, rfl⟩, rfl, fun q hq => absurd hq List.not_mem_nil, ?_, fun q _ => rfl, ?_,
    fun hd => absurd rfl hd, fun g _ _ => rfl⟩
  · intro q
    rw [hcounts]
    rfl
  · intro i
    change s₀.mem s₀.kernPgdir i = _
    split_ifs with hi
    · rw [hi, hpde]
    · rfl

include hp in
/-- Putting everything back. -/
theorem Test.checkRestore (h : Test s₀ p0 p1 p2 [] (newPde p0) 0#32 0#32 1#16 0#16 0#16 s)
    (hfree : s₀.FreeList rest) (hpde : s₀.mem s₀.kernPgdir 0 = 0#32)
    (href : ∀ q ∈ [p0, p1, p2], s₀.ref q = 0#16) (hrest : ∀ q ∈ [p0, p1, p2], q ∉ rest) :
    ∃ s', s.checkRestore p0 p1 p2 s₀.pageFreeList = .ok s' ∧ s'.FreeList (p2 :: p1 :: p0 :: rest) ∧
      SameGlobals s₀ s' ∧ (∀ g, g ≠ p0 → s'.mem g = s₀.mem g) ∧ (∀ q, s'.ref q = s₀.ref q) ∧
      ∀ q, q ∉ p0 :: p1 :: p2 :: rest → s'.pages q = s₀.pages q := by
  obtain ⟨u, hu⟩ : ∃ u, u = ((s.store s₀.kernPgdir 0 0#32).setRef p0 0#16).setPageFreeList
    s₀.pageFreeList := ⟨_, rfl⟩
  have hglobals : SameGlobals s₀ u := hu ▸ h.globals.trans ⟨rfl, rfl, rfl, rfl⟩
  -- the entry of the directory is cleared again, and only the table was written
  have hmem : ∀ g, g ≠ p0 → u.mem g = s₀.mem g := by
    intro g hg
    have hmem_u : u.mem = s.mem.set s₀.kernPgdir 0 0#32 := by rw [hu]; rfl
    funext t
    rw [hmem_u]
    by_cases hdir : g = s₀.kernPgdir
    · by_cases ht : t = 0
      · rw [hdir, ht, Mem.set_same, hpde]
      · rw [Mem.set_of_idx_ne ht, hdir, h.dir, if_neg ht]
    · rw [Mem.set_of_frame_ne hdir, h.mem g hg hdir]
  -- the three counts were zero before the test and are zero again
  have href_u : ∀ q, u.ref q = s₀.ref q := by
    intro q
    have hcounts := counts_self s₀.ref p0 p1 p2
    rw [href p0 (by simp), href p1 (by simp), href p2 (by simp)] at hcounts
    rw [← congrFun hcounts q, ← hp.update_counts_zero (a := 1#16), Function.update_apply, ← h.ref,
      hu]
    change ((s.store _ _ _).setRef p0 0#16).ref q = _
    split_ifs with hq
    · rw [hq, ref_setRef_same]
    · exact ref_setRef_of_ne hq _
  have hpages : ∀ q, q ∉ [p0, p1, p2] → u.pages q = s₀.pages q := by
    intro q hq
    rw [hu]
    exact (pages_setRef_of_ne (List.ne_of_not_mem_cons hq) _).trans (h.rest q hq)
  -- the links of the list were not touched, so it is given back as it was
  have hfree_u : u.FreeList rest := by
    refine ListStore.Represents.congr hfree (by rw [hu]; rfl) fun q hq => ?_
    change (u.pages q).ppLink = (s₀.pages q).ppLink
    rw [hpages q fun hmem => hrest q hmem hq]
  have hrest0 := hrest p0 (by simp)
  have hrest1 := hrest p1 (by simp)
  have hrest2 := hrest p2 (by simp)
  have step₀ := pageFree_spec hfree_u hrest0
  -- each page is freed once, behind the ones freed before it
  have hnot₁ : p1 ∉ p0 :: rest := by simp [hp.ne01.symm, hrest1]
  have hnot₂ : p2 ∉ p1 :: p0 :: rest := by simp [hp.ne02.symm, hp.ne12.symm, hrest2]
  have step₁ := pageFree_spec step₀.free hnot₁
  have step₂ := pageFree_spec step₁.free hnot₂
  have hglobals' := ((hglobals.trans (sameGlobals_pageFree u p0)).trans
    (sameGlobals_pageFree _ p1)).trans (sameGlobals_pageFree _ p2)
  refine ⟨_, ?_, step₂.free, hglobals', by simpa only [mem_pageFree] using hmem, ?_, ?_⟩
  · have hone : (s.store s₀.kernPgdir 0 0#32).assertRef p0 1#16 "pp0->pp_ref == 1" = .ok () := by
      have hcount := h.assertRef (n := 1#16) hp.counts_zero "pp0->pp_ref == 1"
      exact hcount
    rw [Kern.checkRestore, h.assertPde hp.lt (by simp), ok_bind, h.globals.kernPgdir]
    change (Kern.assertRef _ _ _ _ >>= fun _ => _) = _
    rw [hone, ok_bind, hu]
  · intro q
    rw [step₂.refs, step₁.refs, step₀.refs, href_u]
  · intro q hq
    simp only [List.mem_cons, not_or] at hq
    rw [step₂.rest q (by simp [hq]), step₁.rest q (by simp [hq]), step₀.rest q (by simp [hq]),
      hpages q (by simp [hq])]

end Phases

/-! ### The whole test -/

/-- States for the test, with free list `l`: the free pages are pages of memory without
references, and the page directory is not one of them. -/
structure CheckReady (s : Kern) (l : List ℕ) : Prop where
  free : s.FreeList l
  lt : ∀ pp ∈ l, pp < s.npages
  pgdir : s.kernPgdir ∉ l
  refs : ∀ pp ∈ l, s.ref pp = 0#16

/-- Nothing has changed but the order of the free list `l` and the contents of one free
page. -/
structure Transparent (s : Kern) (l : List ℕ) (s' : Kern) : Prop where
  globals : SameGlobals s s'
  free : ∃ l', s'.FreeList l' ∧ l'.Perm l
  refs : ∀ pp, s'.ref pp = s.ref pp
  rest : ∀ pp, pp ∉ l → s'.pages pp = s.pages pp
  pgdir : ∀ d, s'.mem s.kernPgdir d = s.mem s.kernPgdir d
  mem : ∃ pt ∈ l, ∀ g, g ≠ pt → s'.mem g = s.mem g

/-- The state when the pages have been taken, at the start of the phases. -/
theorem CheckReady.start {p0 p1 p2 : ℕ} {rest : List ℕ}
    (h : s.CheckReady (p0 :: p1 :: p2 :: rest)) (h0 : s.mem s.kernPgdir 0 = 0#32) :
    ∃ s₀, s.checkAlloc = .ok (p0, p1, p2, s₀) ∧ TestPages s₀ p0 p1 p2 ∧ s₀.FreeList rest ∧
      s₀.mem = s.mem ∧ SameGlobals s s₀ ∧ (∀ q, s₀.ref q = s.ref q) ∧
      (∀ q, q ∉ p0 :: p1 :: p2 :: rest → s₀.pages q = s.pages q) ∧
      Test s₀ p0 p1 p2 [] 0#32 0#32 0#32 0#16 0#16 0#16 (s₀.setFreeStore s₀.freeStore.init) := by
  have hsub : ∀ q ∈ [p0, p1, p2], q ∈ p0 :: p1 :: p2 :: rest := by simp
  have hnodup := h.free.nodup
  simp only [List.nodup_cons, List.mem_cons, not_or] at hnodup
  obtain ⟨s₀, halloc, hfree, hmem, hglobals, href, hpages⟩ :=
    checkAlloc_ok h.free fun q hq => h.refs q (hsub q hq)
  refine ⟨s₀, halloc, ⟨hnodup.1.1, hnodup.1.2.1, hnodup.2.1.1, ?_, ?_⟩, hfree, hmem, hglobals, href,
    hpages, ?_⟩
  · exact fun q hq => hglobals.npages ▸ h.lt q (hsub q hq)
  · intro heq
    exact h.pgdir (hglobals.kernPgdir ▸ heq ▸ List.mem_cons_self ..)
  · refine test_start (fun q hq => ?_) ?_
    · rw [href, h.refs q (hsub q hq)]
    · rw [hmem, hglobals.kernPgdir, h0]

/-- **The self-test is transparent.** With three free pages and the first two directory
entries empty, `page_check` passes and puts everything back. -/
theorem pageCheck_transparent {s : Kern} {l : List ℕ} (h : s.CheckReady l) (hlen : 3 ≤ l.length)
    (h0 : s.mem s.kernPgdir 0 = 0#32) (h1 : s.mem s.kernPgdir 1 = 0#32) :
    ∃ s', s.pageCheck = .ok s' ∧ s.Transparent l s' := by
  obtain ⟨p0, p1, p2, rest, rfl⟩ : ∃ p0 p1 p2 rest, l = p0 :: p1 :: p2 :: rest := by
    match l, hlen with
    | p0 :: p1 :: p2 :: rest, _ => exact ⟨p0, p1, p2, rest, rfl⟩
  obtain ⟨s₀, halloc, hp, hfree, hmem, hglobals, href, hpages, htest⟩ := h.start h0
  have hnodup := h.free.nodup
  simp only [List.nodup_cons, List.mem_cons, not_or] at hnodup
  obtain ⟨s₁, hmap, h₁⟩ := htest.checkMap hp
  obtain ⟨s₂, hremap, h₂⟩ := h₁.checkRemap hp
  obtain ⟨s₃, hreplace, h₃⟩ := h₂.checkReplace hp (by rw [hmem, hglobals.kernPgdir, h1])
  obtain ⟨s₄, hunmap, h₄⟩ := h₃.checkUnmap hp
  have href₀ : ∀ q ∈ [p0, p1, p2], s₀.ref q = 0#16 := by
    intro q hq
    rw [href]
    exact h.refs q (by simp at hq ⊢; omega)
  obtain ⟨s', hrestore, hfree', hglobals', hmem', href', hpages'⟩ := h₄.checkRestore hp hfree
    (by rw [hmem, hglobals.kernPgdir, h0]) href₀ (by simp [hnodup])
  refine ⟨s', ?_, ⟨hglobals.trans hglobals', ⟨_, hfree', ?_⟩, ?_, ?_, ?_, p0,
    List.mem_cons_self .., ?_⟩⟩
  · rw [pageCheck, halloc, ok_bind]
    change (Kern.checkNoMem _ _ >>= fun _ => _) = _
    rw [htest.checkNoMem, ok_bind, hmap, ok_bind, hremap, ok_bind, hreplace, ok_bind, hunmap,
      ok_bind, hrestore]
  · -- the pages of the test are now in front in the opposite order
    exact (List.reverse_perm [p0, p1, p2]).append_right rest
  · exact fun q => (href' q).trans (href q)
  · exact fun q hq => (hpages' q hq).trans (hpages q hq)
  · intro d
    rw [hmem' _ (fun heq => h.pgdir (heq ▸ List.mem_cons_self ..)), hmem]
  · exact fun g hg => (hmem' g hg).trans (congrFun hmem g)

/-! ### A small state with three free pages -/

/-- Eight pages of memory with the page directory in frame 1 and free pages 3, 4 and 5. The
second directory entry is a parameter. -/
def threeFree (pde : Word) : Kern where
  npages := 8
  npages_le := eight_le_maxPages
  kernPgdir := 1
  mem g i := if g = 1 ∧ i = 1 then pde else 0#32
  pages pp :=
    if pp = 3 then ⟨⟨some 4, .head⟩, 0#16⟩
    else if pp = 4 then ⟨⟨some 5, .next 3⟩, 0#16⟩
    else if pp = 5 then ⟨⟨none, .next 4⟩, 0#16⟩
    else ⟨⟨none, .null⟩, 1#16⟩
  pageFreeList := some 3
  endSym := 0xF0104000#32
  nextfree := 0xF0104000#32
  log := []

theorem threeFree_ready (pde : Word) : (threeFree pde).CheckReady [3, 4, 5] where
  free := ⟨rfl, rfl, rfl, rfl, rfl, rfl, rfl⟩
  lt := (by decide : ∀ pp ∈ [3, 4, 5], pp < 8)
  pgdir := (by decide : 1 ∉ [3, 4, 5])
  refs pp hpp := by
    simp only [List.mem_cons, List.not_mem_nil, or_false] at hpp
    rcases hpp with rfl | rfl | rfl <;> rfl

theorem pageCheck_transparent_small :
    ∃ s', (threeFree 0#32).pageCheck = .ok s' ∧ (threeFree 0#32).Transparent [3, 4, 5] s' :=
  pageCheck_transparent (threeFree_ready 0#32) (by decide) (by simp [threeFree])
    (by simp [threeFree])

/-- With a second directory entry in use the test fails. -/
theorem pageCheck_error_small : (threeFree 0x2007#32).CheckReady [3, 4, 5] ∧
    (threeFree 0x2007#32).mem 1 0 = 0#32 ∧
    (threeFree 0x2007#32).pageCheck =
      .error (.assertion "page_insert(kern_pgdir, pp0, (void*) PTSIZE, 0) < 0") := by
  have hready := threeFree_ready 0x2007#32
  have h0 : (threeFree 0x2007#32).mem 1 0 = 0#32 := by simp [threeFree]
  have h1 : (threeFree 0x2007#32).mem 1 1 = 0x2007#32 := by simp [threeFree]
  have hslot : (threeFree 0x2007#32).mem 2 0 = 0#32 := by simp [threeFree]
  obtain ⟨s₀, halloc, hp, -, hmem, hglobals, -, -, htest⟩ := hready.start h0
  obtain ⟨s₁, hmap, h₁⟩ := htest.checkMap hp
  obtain ⟨s₂, hremap, h₂⟩ := h₁.checkRemap hp
  have hkern : s₀.kernPgdir = 1 := hglobals.kernPgdir
  have hnpages : s₀.npages = 8 := hglobals.npages
  have hpde : s₀.mem s₀.kernPgdir 1 = 0x2007#32 := by rw [hmem, hkern, h1]
  have hframe : frameOf (s₀.mem s₀.kernPgdir 1) = 2 := by
    rw [hpde]
    decide
  have hreplace := h₂.checkReplace_error hp (by rw [hpde]; decide) hframe
    (by rw [hnpages]; decide) (by decide) (by rw [hkern]; decide) (by rw [hmem, hslot])
  refine ⟨hready, h0, ?_⟩
  rw [pageCheck, halloc, ok_bind]
  change (Kern.checkNoMem _ _ >>= fun _ => _) = _
  rw [htest.checkNoMem, ok_bind, hmap, ok_bind, hremap, ok_bind, hreplace, error_bind]

end Kern

end JosVmx
