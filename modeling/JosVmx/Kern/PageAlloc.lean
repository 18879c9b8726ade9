import JosVmx.Kern.BootMap

/-!
# The physical page allocator

`page_init`, `page_alloc`, `page_free` and `page_decref` of `kern/pmap.c`. Free pages
are on the intrusive list of `inc/queue.h`, whose links live in `pages[]`; the list
operations are those of the linked list library at the links of this array.

## Main results

* `Kern.pageAlloc_cons`, `Kern.pageFree_spec` — allocation takes the first page of the
  free list and freeing puts a page in front of it
* `Kern.pageDecref_pos`, `Kern.pageDecref_last` — a decrement frees the page exactly
  when the count reaches zero
-/

namespace JosVmx

open Lib

/-- The error codes of `inc/error.h` that the memory manager returns. -/
def eNoMem : ℤ := 4

namespace Kern

/-! ### The free list in `pages[]` -/

/-- The free list head with the links of all pages. -/
def freeStore (s : Kern) : ListStore ℕ := ⟨s.pageFreeList, fun pp => (s.pages pp).ppLink⟩

/-- Write the free list head and the links back. -/
def setFreeStore (s : Kern) (t : ListStore ℕ) : Kern :=
  { s with
    pageFreeList := t.first
    pages := fun pp => { s.pages pp with ppLink := t.link pp } }

/-- `LIST_INSERT_HEAD(&page_free_list, pp, pp_link)`. -/
def listInsertHead (s : Kern) (pp : ℕ) : Kern := s.setFreeStore (s.freeStore.insertHead pp)

/-- The free list holds exactly the pages of `l`, in this order. -/
def FreeList (s : Kern) (l : List ℕ) : Prop := s.freeStore.Represents l

/-! ### The functions of the source -/

/-- Null links and no references: `memset(pp, 0, sizeof(*pp))`. -/
def pageClear (s : Kern) (pp : ℕ) : Kern :=
  { s with pages := Function.update s.pages pp ⟨⟨none, .null⟩, 0#16⟩ }

/-- Allocate a physical page. The result is the page stored through `pp_store`, or
`none` for the return value `-E_NO_MEM`. -/
def pageAlloc (s : Kern) : Except Fault (Option ℕ × Kern) :=
  match s.pageFreeList with
  | none => .ok (none, s)
  | some pp =>
    match s.freeStore.remove pp with
    | none => .error .wild
    | some t => .ok (some pp, ((s.setFreeStore t).pageClear pp).note (.alloc pp))

/-- Return a page to the free list. -/
def pageFree (s : Kern) (pp : ℕ) : Kern := (s.listInsertHead pp).note (.free pp)

/-- Decrement the reference count on a page and free it if there are no more
references afterwards. -/
def pageDecref (s : Kern) (pp : ℕ) : Except Fault Kern :=
  if s.npages ≤ pp then .error .wild
  else
    let s := s.setRef pp ((s.pages pp).ppRef - 1#16)
    if (s.pages pp).ppRef = 0#16 then .ok (s.pageFree pp) else .ok s

/-- The last range test of `page_init`, `i >= PGNUM(PADDR(KERNBASE)) &&
i < PGNUM(PADDR(boot_alloc(0)))`. -/
def pageInitUsed (i : ℕ) (s : Kern) : Except Fault (Bool × Kern) := do
  let low ← paddr kernbase
  if (pgnum low).toNat ≤ i then
    let pa ← paddr (s.bootAlloc 0#32).1
    .ok (decide (i < (pgnum pa).toNat), (s.bootAlloc 0#32).2)
  else .ok (false, s)

/-- One round of `page_init`. -/
def pageInitPage (i : ℕ) (s : Kern) : Except Fault Kern :=
  let s := s.setRef i 0#16
  if i = 0 then .ok s
  else if (pgnum iophysmem).toNat ≤ i ∧ i < (pgnum extphysmem).toNat then .ok s
  else do
    let (used, s) ← pageInitUsed i s
    if used then .ok s else .ok (s.listInsertHead i)

/-- Initialize page structures and the free list. -/
def pageInit (s : Kern) : Except Fault Kern :=
  forLoop .diverge (fun i => decide (i < s.npages)) (· + 1) pageInitPage (s.npages + 1) 0
    (s.setFreeStore s.freeStore.init)

/-! ### Specifications -/

variable {s s' : Kern} {pp : ℕ} {l : List ℕ}

@[simp] theorem freeStore_note (e : Event) : (s.note e).freeStore = s.freeStore := rfl

@[simp] theorem freeStore_setFreeStore (t : ListStore ℕ) : (s.setFreeStore t).freeStore = t := rfl

@[simp] theorem freeStore_setRef (r : BitVec 16) : (s.setRef pp r).freeStore = s.freeStore := by
  have hlink : ∀ q, ((s.setRef pp r).pages q).ppLink = (s.pages q).ppLink := by
    intro q
    by_cases hq : q = pp
    · subst hq
      simp [setRef]
    · simp [setRef, hq]
  simp only [freeStore, hlink]
  rfl

/-- The reference count of a page. -/
def ref (s : Kern) (pp : ℕ) : BitVec 16 := (s.pages pp).ppRef

@[simp] theorem ref_setRef_same (r : BitVec 16) : (s.setRef pp r).ref pp = r := by
  simp [ref, setRef]

theorem ref_setRef_of_ne {q : ℕ} (h : q ≠ pp) (r : BitVec 16) :
    (s.setRef pp r).ref q = s.ref q := by
  simp [ref, setRef, h]

@[simp] theorem ref_setFreeStore (t : ListStore ℕ) (q : ℕ) :
    (s.setFreeStore t).ref q = s.ref q := rfl

@[simp] theorem ref_note (e : Event) (q : ℕ) : (s.note e).ref q = s.ref q := rfl

theorem FreeList.nodup (h : s.FreeList l) : l.Nodup := ListStore.Represents.nodup h

theorem FreeList.unique {l' : List ℕ} (h : s.FreeList l) (h' : s.FreeList l') : l = l' :=
  ListStore.Represents.unique h h'

theorem FreeList.first_eq (h : s.FreeList l) : s.pageFreeList = l.head? :=
  ListStore.Represents.first_eq h

/-- The allocator fails exactly on the empty list, and then changes nothing. -/
theorem pageAlloc_nil (h : s.FreeList []) : s.pageAlloc = .ok (none, s) := by
  have hfirst : s.pageFreeList = none := h.first_eq
  simp only [pageAlloc, hfirst]

/-- What a successful `page_alloc` does: it takes `pp` off a free list with rest `l`. -/
structure AllocStep (s : Kern) (pp : ℕ) (l : List ℕ) (s' : Kern) : Prop where
  frame : s' = { s with
    pages := s'.pages, pageFreeList := s'.pageFreeList, log := .alloc pp :: s.log }
  free : s'.FreeList l
  cleared : s'.ref pp = 0#16
  refs : ∀ q, q ≠ pp → s'.ref q = s.ref q
  rest : ∀ q, q ∉ pp :: l → s'.pages q = s.pages q

theorem AllocStep.npages (step : AllocStep s pp l s') : s'.npages = s.npages := by rw [step.frame]

theorem AllocStep.kernPgdir (step : AllocStep s pp l s') : s'.kernPgdir = s.kernPgdir := by
  rw [step.frame]

theorem AllocStep.mem (step : AllocStep s pp l s') : s'.mem = s.mem := by rw [step.frame]

/-- The page is allocated from then on. -/
theorem AllocStep.allocated_iff (step : AllocStep s pp l s') (q : ℕ) :
    s'.Allocated q ↔ q = pp ∨ s.Allocated q := by
  rw [Allocated, step.frame]
  exact Iff.rfl

theorem pageAlloc_cons (h : s.FreeList (pp :: l)) :
    ∃ s', s.pageAlloc = .ok (some pp, s') ∧ AllocStep s pp l s' := by
  obtain ⟨t, hremove, hrep, hfirst, hlink⟩ := ListStore.Represents.remove_head h
  have hpp : pp ∉ l := (List.nodup_cons.mp h.nodup).1
  have hs : s.pageFreeList = some pp := h.first_eq
  refine ⟨((s.setFreeStore t).pageClear pp).note (.alloc pp), ?_, rfl, ?_, ?_, ?_, ?_⟩
  · simp only [pageAlloc, hs, hremove]
  · -- clearing the allocated page leaves the links of the others
    refine hrep.congr rfl fun q hq => ?_
    have hne : q ≠ pp := fun heq => hpp (heq ▸ hq)
    simp [freeStore, note, pageClear, setFreeStore, hne]
  · simp [ref, note, pageClear]
  · intro q hq
    simp [ref, note, pageClear, setFreeStore, hq]
  · intro q hq
    rw [List.mem_cons, not_or] at hq
    have hhead : l.head? ≠ some q := fun hhead => hq.2 (List.mem_of_mem_head? hhead)
    simp [note, pageClear, setFreeStore, hq.1, hlink q hhead, freeStore]

/-- What putting `pp` in front of a free list `l` does. -/
structure InsertStep (s : Kern) (pp : ℕ) (l : List ℕ) (s' : Kern) : Prop where
  free : s'.FreeList (pp :: l)
  refs : ∀ q, s'.ref q = s.ref q
  rest : ∀ q, q ∉ pp :: l → s'.pages q = s.pages q

theorem listInsertHead_spec (h : s.FreeList l) (hpp : pp ∉ l) :
    InsertStep s pp l (s.listInsertHead pp) := by
  refine ⟨ListStore.Represents.insertHead h hpp, fun q => rfl, fun q hq => ?_⟩
  rw [List.mem_cons, not_or] at hq
  have hfirst : s.freeStore.first ≠ some q := by
    rw [ListStore.Represents.first_eq h]
    exact fun hhead => hq.2 (List.mem_of_mem_head? hhead)
  have hlink := ListStore.insertHead_link_of_ne (s := s.freeStore) hq.1 hfirst
  change { s.pages q with ppLink := (s.freeStore.insertHead pp).link q } = s.pages q
  rw [hlink]
  rfl

theorem pageFree_spec (h : s.FreeList l) (hpp : pp ∉ l) : InsertStep s pp l (s.pageFree pp) :=
  have step := listInsertHead_spec h hpp
  ⟨step.free, step.refs, step.rest⟩

/-- A reference count above one only goes down. -/
theorem pageDecref_pos (hpp : pp < s.npages) (href : s.ref pp ≠ 1#16) :
    s.pageDecref pp = .ok (s.setRef pp (s.ref pp - 1#16)) := by
  have hne : ¬ (s.ref pp - 1#16 = 0#16) := by
    intro h
    apply href
    bv_omega
  have hval : ((s.setRef pp ((s.pages pp).ppRef - 1#16)).pages pp).ppRef = s.ref pp - 1#16 :=
    ref_setRef_same _
  rw [pageDecref, if_neg (Nat.not_le.mpr hpp)]
  simp only [hval, if_neg hne]
  rfl

/-- The last reference gone, the page is freed. -/
theorem pageDecref_last (hpp : pp < s.npages) (href : s.ref pp = 1#16) :
    s.pageDecref pp = .ok ((s.setRef pp 0#16).pageFree pp) := by
  have hzero : (s.pages pp).ppRef - 1#16 = 0#16 := by
    rw [show (s.pages pp).ppRef = 1#16 from href]
    rfl
  have hval : ((s.setRef pp 0#16).pages pp).ppRef = 0#16 := ref_setRef_same _
  rw [pageDecref, if_neg (Nat.not_le.mpr hpp)]
  simp only [hzero, hval, if_true]

/-- Either way the count goes down by one. -/
theorem pageDecref_ref (h : s.pageDecref pp = .ok s') : s'.ref pp = s.ref pp - 1#16 := by
  have hpp : pp < s.npages := by
    by_contra hge
    simp [pageDecref, Nat.not_lt.mp hge] at h
  by_cases href : s.ref pp = 1#16
  · rw [pageDecref_last hpp href, Except.ok.injEq] at h
    rw [← h, href]
    exact ref_setRef_same _
  · rw [pageDecref_pos hpp href, Except.ok.injEq] at h
    rw [← h]
    exact ref_setRef_same _

theorem pageDecref_wild (hpp : s.npages ≤ pp) : s.pageDecref pp = .error .wild := by
  simp [pageDecref, hpp]

/-- What a decrement does, with `l'` the free list after it. -/
structure DecrefStep (s : Kern) (pp : ℕ) (l : List ℕ) (s' : Kern) (l' : List ℕ) : Prop where
  frame : s' = { s with pages := s'.pages, pageFreeList := s'.pageFreeList, log := s'.log }
  free : s'.FreeList l'
  ref : s'.ref pp = s.ref pp - 1#16
  refs : ∀ q, q ≠ pp → s'.ref q = s.ref q
  rest : ∀ q, q ∉ pp :: l → s'.pages q = s.pages q
  /-- the page is freed with its last reference -/
  cases : (s.ref pp ≠ 1#16 ∧ l' = l ∧ s'.log = s.log) ∨
    (s.ref pp = 1#16 ∧ l' = pp :: l ∧ s'.log = .free pp :: s.log)

theorem DecrefStep.npages {l' : List ℕ} (step : DecrefStep s pp l s' l') :
    s'.npages = s.npages := by rw [step.frame]

theorem DecrefStep.kernPgdir {l' : List ℕ} (step : DecrefStep s pp l s' l') :
    s'.kernPgdir = s.kernPgdir := by rw [step.frame]

theorem DecrefStep.mem {l' : List ℕ} (step : DecrefStep s pp l s' l') : s'.mem = s.mem := by
  rw [step.frame]

/-- Only the last reference takes its page from the allocated pages to the free ones. -/
theorem DecrefStep.allocated_cases {l' : List ℕ} (step : DecrefStep s pp l s' l') :
    (s.ref pp ≠ 1#16 ∧ l' = l ∧ ∀ q, s'.Allocated q ↔ s.Allocated q) ∨
      (s.ref pp = 1#16 ∧ l' = pp :: l ∧ ∀ q, s'.Allocated q ↔ q ≠ pp ∧ s.Allocated q) := by
  rcases step.cases with ⟨href, hl, hlog⟩ | ⟨href, hl, hlog⟩
  · exact .inl ⟨href, hl, fun q => by rw [Allocated, hlog]; exact Iff.rfl⟩
  · exact .inr ⟨href, hl, fun q => by rw [Allocated, hlog]; exact Iff.rfl⟩

theorem freeList_setRef {q : ℕ} {r : BitVec 16} : (s.setRef q r).FreeList l ↔ s.FreeList l := by
  rw [FreeList, FreeList, freeStore_setRef]

theorem pages_setRef_of_ne {q : ℕ} (h : q ≠ pp) (r : BitVec 16) :
    (s.setRef pp r).pages q = s.pages q := by
  simp [setRef, h]

theorem pageDecref_spec (h : s.FreeList l) (hpp : pp < s.npages) (hl : pp ∉ l) :
    ∃ s' l', s.pageDecref pp = .ok s' ∧ DecrefStep s pp l s' l' := by
  have hrest (r : BitVec 16) (q : ℕ) (hq : q ∉ pp :: l) : (s.setRef pp r).pages q = s.pages q :=
    pages_setRef_of_ne (List.ne_of_not_mem_cons hq) r
  by_cases href : s.ref pp = 1#16
  · have step := pageFree_spec (s := s.setRef pp 0#16) (freeList_setRef.mpr h) hl
    refine ⟨_, pp :: l, pageDecref_last hpp href, rfl, step.free, ?_, ?_, ?_, .inr ⟨href, rfl, rfl⟩⟩
    · rw [step.refs, ref_setRef_same, href]
      rfl
    · intro q hq
      rw [step.refs, ref_setRef_of_ne hq]
    · intro q hq
      rw [step.rest q hq, hrest _ q hq]
  · exact ⟨_, l, pageDecref_pos hpp href, rfl, freeList_setRef.mpr h, ref_setRef_same _,
      fun q hq => ref_setRef_of_ne hq _, hrest _, .inl ⟨href, rfl, rfl⟩⟩

end Kern

end JosVmx
