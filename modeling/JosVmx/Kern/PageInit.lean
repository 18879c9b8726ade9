import JosVmx.Kern.BootCheck

/-!
# The free list that `page_init` leaves

`page_init` runs over all pages and puts those on the free list that are not reserved.
Its last range test asks `boot_alloc(0)` where free memory begins, in every round; the
answer stays the same. All pages below it are left off the list, the base memory
included, because the range the test excludes starts at physical address 0.

## Main results

* `Kern.pageInit_ok` — the free list holds the pages from the first free one on, last
  page first
* `Kern.pageInit_usable_iff` — so it holds the usable pages, those of base memory apart
-/

namespace JosVmx

open Lib

namespace Kern

variable {s s' : Kern} {f : ℕ}

/-- The pages from `f` on and below `n`, last page first. -/
def freeFrom (f n : ℕ) : List ℕ := ((List.range n).filter (f ≤ ·)).reverse

theorem mem_freeFrom {n i : ℕ} : i ∈ freeFrom f n ↔ f ≤ i ∧ i < n := by
  simp [freeFrom, and_comm]

theorem freeFrom_succ_of_le {n : ℕ} (h : f ≤ n) : freeFrom f (n + 1) = n :: freeFrom f n := by
  simp [freeFrom, List.range_succ, h]

theorem freeFrom_succ_of_lt {n : ℕ} (h : n < f) : freeFrom f (n + 1) = freeFrom f n := by
  simp [freeFrom, List.range_succ, Nat.not_le.mpr h]

theorem nodup_freeFrom (f n : ℕ) : (freeFrom f n).Nodup :=
  List.nodup_reverse.mpr (List.nodup_range.filter _)

theorem length_freeFrom (f n : ℕ) : (freeFrom f n).length = n - f := by
  induction n with
  | zero => simp [freeFrom]
  | succ n ih =>
    rcases Nat.lt_or_ge n f with hlt | hle
    · rw [freeFrom_succ_of_lt hlt, ih]
      omega
    · rw [freeFrom_succ_of_le hle, List.length_cons, ih]
      omega

/-- The state `s'` after `k` rounds of `page_init` from `s`. -/
structure InitInv (s : Kern) (f k : ℕ) (s' : Kern) : Prop where
  npages : s'.npages = s.npages
  kernPgdir : s'.kernPgdir = s.kernPgdir
  mem : s'.mem = s.mem
  allocated : ∀ q, s'.Allocated q ↔ s.Allocated q
  next : s'.bootNext.toNat = (983040 + f) * 4096
  free : s'.FreeList (freeFrom f k)
  refs : ∀ i < k, s'.ref i = 0#16

theorem iterate_succ (k : ℕ) : (· + 1)^[k] 0 = k := by
  induction k with
  | zero => rfl
  | succ k ih => rw [Function.iterate_succ_apply', ih]

/-- The next page of `boot_alloc` answers the last range test. -/
theorem pageInitUsed_ok {i : ℕ} (hf : f < 2 ^ 16)
    (hnext : s.bootNext.toNat = (983040 + f) * 4096) :
    ∃ s', pageInitUsed i s = .ok (decide (i < f), s') ∧ s.BootFrame s' ∧ s'.mem = s.mem ∧
      s'.bootNext.toNat = (983040 + f) * 4096 := by
  obtain ⟨-, hframe, hpaddr, -⟩ := bootFrame_eq hnext
  have hpgnum : (pgnum (s.bootNext - kernbase)).toNat = f := hframe
  have hlow : paddr kernbase = .ok 0#32 := by decide
  have hzero : (pgnum 0#32).toNat = 0 := by decide
  have hnext' := bootNext_bootAlloc (n := 0#32) (k := 0) hnext (by decide) (by decide) hf
  rw [Nat.add_zero] at hnext'
  refine ⟨(s.bootAlloc 0#32).2, ?_, bootFrame_bootAlloc s 0#32, mem_bootAlloc s 0#32, hnext'⟩
  rw [pageInitUsed, hlow, ok_bind, if_pos (by rw [hzero]; exact Nat.zero_le i)]
  change (paddr s.bootNext >>= _) = _
  rw [hpaddr, ok_bind, hpgnum]

theorem BootFrame.freeStore (h : s.BootFrame s') : s'.freeStore = s.freeStore := by
  rw [h.eq]
  rfl

theorem BootFrame.ref (h : s.BootFrame s') (q : ℕ) : s'.ref q = s.ref q := by
  rw [h.eq]
  rfl

/-- A round that leaves its page off the list. -/
theorem InitInv.keep {k : ℕ} (inv : InitInv s f k s') (hk : k < f) {s'' : Kern}
    (hframe : (s'.setRef k 0#16).BootFrame s'') (hmem : s''.mem = s'.mem)
    (hnext : s''.bootNext.toNat = (983040 + f) * 4096) : InitInv s f (k + 1) s'' where
  npages := hframe.npages.trans inv.npages
  kernPgdir := hframe.kernPgdir.trans inv.kernPgdir
  mem := hmem.trans inv.mem
  allocated q := (hframe.allocated q).trans (inv.allocated q)
  next := hnext
  free := by
    rw [FreeList, hframe.freeStore, freeStore_setRef, freeFrom_succ_of_lt hk]
    exact inv.free
  refs i hi := by
    rw [hframe.ref]
    by_cases hik : i = k
    · rw [hik, ref_setRef_same]
    · rw [ref_setRef_of_ne hik]
      exact inv.refs i (by omega)

/-- A round that puts its page on the list. -/
theorem InitInv.add {k : ℕ} (inv : InitInv s f k s') (hk : f ≤ k) {s'' : Kern}
    (hframe : (s'.setRef k 0#16).BootFrame s'') (hmem : s''.mem = s'.mem)
    (hnext : s''.bootNext.toNat = (983040 + f) * 4096) :
    InitInv s f (k + 1) (s''.listInsertHead k) := by
  have hfree : s''.FreeList (freeFrom f k) := by
    rw [FreeList, hframe.freeStore, freeStore_setRef]
    exact inv.free
  have hnot : k ∉ freeFrom f k := fun hmem => Nat.lt_irrefl k (mem_freeFrom.mp hmem).2
  have step := listInsertHead_spec hfree hnot
  refine ⟨hframe.npages.trans inv.npages, hframe.kernPgdir.trans inv.kernPgdir,
    hmem.trans inv.mem, fun q => (hframe.allocated q).trans (inv.allocated q), hnext, ?_, ?_⟩
  · rw [freeFrom_succ_of_le hk]
    exact step.free
  · intro i hi
    rw [step.refs, hframe.ref]
    by_cases hik : i = k
    · rw [hik, ref_setRef_same]
    · rw [ref_setRef_of_ne hik]
      exact inv.refs i (by omega)

theorem pageInitPage_ok {k : ℕ} (hf : f < 2 ^ 16) (hext : 256 ≤ f) (inv : InitInv s f k s') :
    ∃ s'', pageInitPage k s' = .ok s'' ∧ InitInv s f (k + 1) s'' := by
  have hio : (pgnum iophysmem).toNat = 160 := by decide
  have hexthi : (pgnum extphysmem).toNat = 256 := by decide
  have hkeep (hk : k < f) : InitInv s f (k + 1) (s'.setRef k 0#16) :=
    inv.keep hk ⟨rfl, fun _ => .rfl⟩ rfl inv.next
  rw [pageInitPage, hio, hexthi]
  by_cases hzero : k = 0
  · exact ⟨_, if_pos hzero, hkeep (by omega)⟩
  by_cases hhole : 160 ≤ k ∧ k < 256
  · exact ⟨_, by rw [if_neg hzero, if_pos hhole], hkeep (by omega)⟩
  obtain ⟨s₁, hused, hframe, hmem, hnext⟩ :=
    pageInitUsed_ok (s := s'.setRef k 0#16) (i := k) hf inv.next
  rw [if_neg hzero, if_neg hhole, hused, ok_bind]
  by_cases hk : k < f
  · exact ⟨s₁, by simp [hk], inv.keep hk hframe hmem hnext⟩
  · exact ⟨_, by simp [hk], inv.add (Nat.not_lt.mp hk) hframe hmem hnext⟩

/-- `page_init` ends, and the free list holds the pages from that of `boot_alloc(0)`
on. -/
theorem pageInit_ok (hf : f < 2 ^ 16) (hext : 256 ≤ f)
    (hnext : s.bootNext.toNat = (983040 + f) * 4096) :
    ∃ s', s.pageInit = .ok s' ∧ InitInv s f s.npages s' := by
  have hinit : InitInv s f 0 (s.setFreeStore s.freeStore.init) :=
    ⟨rfl, rfl, rfl, fun _ => .rfl, hnext, ListStore.represents_init (s := s.freeStore),
      fun i hi => absurd hi (Nat.not_lt_zero i)⟩
  refine forLoop_ok (fun k s' => InitInv s f k s') (Nat.lt_succ_self _) ?_ ?_ hinit ?_
  · intro k hk
    rw [iterate_succ, decide_eq_true_eq]
    exact hk
  · rw [iterate_succ, decide_eq_false_iff_not]
    exact Nat.lt_irrefl _
  · intro k _ s₁ inv
    rw [iterate_succ]
    exact pageInitPage_ok hf hext inv

/-! ### The usable pages -/

/-- The address `boot_alloc` returns is page aligned. -/
theorem toNat_bootNext_mod (s : Kern) : s.bootNext.toNat % 4096 = 0 := by
  have hpg : pgsize.toNat = 4096 := rfl
  rw [bootNext, roundup, rounddown, BitVec.toNat_sub_of_le, BitVec.toNat_umod, hpg]
  · omega
  · rw [BitVec.le_def, BitVec.toNat_umod]
    exact Nat.mod_le _ _

/-- The address `boot_alloc(0)` returns, from its page number. -/
theorem toNat_bootNext_of_paddr {pa : Word} (hpa : paddr (s.bootAlloc 0#32).1 = .ok pa)
    (hf : (pgnum pa).toNat = f) : s.bootNext.toNat = (983040 + f) * 4096 := by
  have halign := toNat_bootNext_mod s
  have hbase : kernbase.toNat = 983040 * 4096 := rfl
  change paddr s.bootNext = .ok pa at hpa
  rw [paddr] at hpa
  split_ifs at hpa with hlt
  rw [BitVec.lt_def, hbase] at hlt
  rw [Except.ok.injEq] at hpa
  have hle : kernbase ≤ s.bootNext := by
    rw [BitVec.le_def, hbase]
    exact Nat.not_lt.mp hlt
  rw [← hpa, toNat_pgnum, BitVec.toNat_sub_of_le hle, hbase] at hf
  omega

/-- Base memory without page zero, which the comments of `page_init` call free. -/
def BaseMemory (i : ℕ) : Prop := 1 ≤ i ∧ i < (pgnum iophysmem).toNat

instance : DecidablePred BaseMemory := fun _ => inferInstanceAs (Decidable (_ ∧ _))

/-- What `page_init` should do about page `i`, with free list `l` after it: the page is on
the list, once, if it lies in base memory or behind the pages of `boot_alloc`, and its count
is zero. -/
def PageInitialized (f : ℕ) (s' : Kern) (l : List ℕ) (i : ℕ) : Prop :=
  l.count i = (if BaseMemory i ∨ f ≤ i then 1 else 0) ∧ s'.ref i = 0#16

/-- **The pages that `page_init` frees.** The pages behind those of `boot_alloc` are put on the
free list once, and page zero, the IO hole and the pages of `boot_alloc` are not; but no page
of base memory is put there. -/
theorem pageInit_usable_iff {pa : Word} (hpa : paddr (s.bootAlloc 0#32).1 = .ok pa)
    (hf : (pgnum pa).toNat = f) (hext : (pgnum extphysmem).toNat ≤ f) (hle : f ≤ s.npages) :
    ∃ s' l, s.pageInit = .ok s' ∧ s'.FreeList l ∧
      ∀ i < s.npages, PageInitialized f s' l i ↔ ¬ BaseMemory i := by
  have hexthi : (pgnum extphysmem).toNat = 256 := by decide
  have hio : (pgnum iophysmem).toNat = 160 := by decide
  have hmax : maxPages = 16639 := rfl
  have hnpages := s.npages_le
  obtain ⟨s', hinit, inv⟩ :=
    pageInit_ok (by omega) (by omega) (toNat_bootNext_of_paddr hpa hf)
  refine ⟨s', _, hinit, inv.free, fun i hi => ?_⟩
  have hmem : i ∈ freeFrom f s.npages ↔ f ≤ i := by
    rw [mem_freeFrom, and_iff_left hi]
  rw [PageInitialized, and_iff_left (inv.refs i hi)]
  by_cases hfi : f ≤ i
  · -- behind the pages of boot_alloc: on the list, once
    have hbase : ¬ BaseMemory i := by
      rw [BaseMemory, hio]
      omega
    rw [if_pos (.inr hfi), List.count_eq_one_of_mem inv.free.nodup (hmem.mpr hfi)]
    simp [hbase]
  · -- in front of them: not on the list
    rw [List.count_eq_zero_of_not_mem (mt hmem.mp hfi)]
    by_cases hbase : BaseMemory i <;> simp [hbase, hfi]

/-- The kernel ends at page 275, and nothing has been allocated behind it. -/
theorem pageInit_usable_iff_start :
    ∃ s' l, (filledBoot 0#32).start.pageInit = .ok s' ∧ s'.FreeList l ∧
      ∀ i < (filledBoot 0#32).start.npages, PageInitialized 275 s' l i ↔ ¬ BaseMemory i :=
  have hnext : paddr ((filledBoot 0#32).start.bootAlloc 0#32).1 = .ok 0x113000#32 := by decide
  pageInit_usable_iff hnext (by decide) (by decide) (by decide)

/-- On a machine with 16 megabytes of extended memory page 1 is lost. -/
theorem not_pageInitialized_base : ∃ s₀ s₁ l, bootMemInit (filledBoot 0#32) = .ok s₀ ∧
    s₀.pageInit = .ok s₁ ∧ s₁.FreeList l ∧ s₀.npages = 4352 ∧
    paddr (s₀.bootAlloc 0#32).1 = .ok (354#32 * pgsize) ∧ BaseMemory 1 ∧ 1 ∉ l ∧
    ¬ PageInitialized 354 s₁ l 1 := by
  obtain ⟨s₀, hboot, hstage, -⟩ := bootMemInit_ok (filledBoot_sufficient 0#32)
  have hend : (filledBoot 0#32).bootEnd = 354 := by decide
  have hnext := hstage.next
  rw [hend] at hnext
  obtain ⟨s₁, hinit, inv⟩ := pageInit_ok (by decide) (by decide) hnext
  have hnot : 1 ∉ freeFrom 354 s₀.npages := fun hmem => absurd (mem_freeFrom.mp hmem).1 (by decide)
  have haddr : s₀.bootNext = kernbase + 354#32 * pgsize := by
    rw [← BitVec.toNat_inj, hnext]
    decide
  refine ⟨s₀, s₁, _, hboot, hinit, inv.free, hstage.npages.trans (by decide), ?_, by decide, hnot,
    fun h => ?_⟩
  · change paddr s₀.bootNext = _
    rw [haddr]
    decide
  · have hcount := h.1
    rw [List.count_eq_zero_of_not_mem hnot, if_pos (.inl (by decide))] at hcount
    exact absurd hcount (by decide)

end Kern

end JosVmx
