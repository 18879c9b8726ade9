import JosVmx.Kern.PageRun

/-!
# The width of reference counts

`pp_ref` has 16 bits, and the user address space has nearly a million pages. When one page is
mapped at `k` addresses by successive calls of `page_insert`, its count is `k` modulo `2^16`,
for every `k` that the memory for page tables allows. Up to 65535 mappings the count is exact,
and the page is freed with its last mapping. With 65537 mappings the count is one, and the
first `page_remove` frees the page while 65536 mappings of it are left.

## Main results

* `Kern.MapRun.inv` — what successive insertions of a page do to its references
* `Kern.pageInsert_count_iff` — the count is the number of mappings up to 65535 of them, and
  no further
* `Kern.not_countExact_wrapped` — a machine on which the page is freed too early
-/

namespace JosVmx

open Lib

namespace Kern

/-- Successive successful calls of `page_insert` that map `pp`, with addresses and permissions. -/
inductive MapRun (pp : ℕ) (s : Kern) : List (Word × Word) → Kern → Prop
  | nil : MapRun pp s [] s
  | insert {calls : List (Word × Word)} {s' s'' : Kern} {va perm : Word}
      (hrun : MapRun pp s calls s')
      (hinsert : s'.pageInsert s'.kernPgdir pp va perm = .ok (0, s'')) :
      MapRun pp s (calls ++ [(va, perm)]) s''

variable {s s' s₀ s₁ : Kern} {avail : ℕ → Prop} {pp k : ℕ} {calls : List (Word × Word)}
  {va perm : Word} {l l' : List ℕ} {b : Boot}

/-- The virtual pages of the calls. -/
def callPages (calls : List (Word × Word)) : List VPage := calls.map fun c => vpage c.1

theorem callPages_append (calls : List (Word × Word)) (va perm : Word) :
    callPages (calls ++ [(va, perm)]) = callPages calls ++ [vpage va] := List.map_append

/-- Calls for distinct pages below `UTOP`. -/
structure UserCalls (calls : List (Word × Word)) : Prop where
  below : ∀ c ∈ calls, c.1 < utop
  perm : ∀ c ∈ calls, c.2.toNat < 4096
  distinct : (callPages calls).Nodup

/-- `page_remove` of one of the mappings of `pp` below `UTOP`. -/
def Unmap (pp : ℕ) (s s' : Kern) : Prop :=
  ∃ va, MapsTo s.mem s.kernPgdir pp (vpage va) ∧ s.pageRemove s.kernPgdir va = .ok s'

/-- The count of `pp` is `k`, and however mappings of the page are removed, it is on the free
list only when no mapping of it is left. -/
structure CountExact (pp k : ℕ) (s : Kern) : Prop where
  ref : (s.ref pp).toNat = k
  unmap : ∀ s', Relation.ReflTransGen (Unmap pp) s s' → ∀ l, s'.FreeList l → pp ∈ l →
    ∀ x, ¬ MapsTo s'.mem s'.kernPgdir pp x

/-! ### Insertions -/

/-- After an insertion the page is mapped at the address. -/
theorem Owned.Inserted.mapsTo (step : Owned.Inserted s pp va perm l s' l') (hva : va < utop)
    (hperm : perm.toNat < 4096) (hpp : pp < 2 ^ 20) (x : VPage) :
    MapsTo s'.mem s'.kernPgdir pp x ↔ x = vpage va ∨ MapsTo s.mem s.kernPgdir pp x := by
  by_cases hx : x.User
  · rw [MapsTo, MapsTo, step.slots x hx]
    by_cases heq : x = vpage va
    · rw [if_pos heq, frameOf_newPte hpp hperm]
      exact ⟨fun _ => .inl heq, fun _ => ⟨hx, present_newPte pp perm, rfl⟩⟩
    · rw [if_neg heq]
      exact (or_iff_right heq).symm
  · constructor
    · exact fun h => absurd h.1 hx
    · rintro (rfl | h)
      · exact absurd (vpage_user hva) hx
      · exact absurd h.1 hx

/-- A page with a reference is allocated. -/
theorem Owned.allocated_of_mapsTo {extra : ℕ → ℕ} (h : Owned avail extra s l) {x : VPage}
    (hx : MapsTo s.mem s.kernPgdir pp x) : s.Allocated pp := by
  obtain ⟨huser, hpresent, rfl⟩ := hx
  exact (h.mapped.slots x huser (ne_zero_of_present hpresent)).2

/-- The state after `pp`, unmapped before, has been mapped by `calls`. -/
structure MapInv (avail : ℕ → Prop) (pp : ℕ) (calls : List (Word × Word)) (s : Kern) : Prop where
  owned : ∃ l, Owned avail noExtra s l
  allocated : s.Allocated pp
  refs_eq : refs s.mem s.kernPgdir pp = calls.length
  refs_le : ∀ q, q ≠ pp → refs s.mem s.kernPgdir q ≤ 65535
  mapsTo_iff : ∀ x, MapsTo s.mem s.kernPgdir pp x ↔ x ∈ callPages calls

/-- An allocated page with count zero is not mapped. -/
theorem RunInv.mapInv (h : RunInv avail s) (hpp : s.Allocated pp) (href : s.ref pp = 0#16) :
    MapInv avail pp [] s := by
  obtain ⟨⟨l, howned⟩, hbound⟩ := h
  have hzero : refs s.mem s.kernPgdir pp = 0 := by
    have hcount := howned.count pp hpp
    have hle := hbound pp
    rw [href, noExtra, Nat.add_zero, ← BitVec.toNat_inj, BitVec.toNat_ofNat, BitVec.toNat_ofNat]
      at hcount
    omega
  refine ⟨⟨l, howned⟩, hpp, hzero, fun q _ => hbound q, fun x => ?_⟩
  exact ⟨fun hx => absurd hx ((refs_eq_zero_iff.mp hzero).1 x),
    fun hx => absurd hx List.not_mem_nil⟩

/-- One more insertion, at a new page. -/
theorem MapInv.insert (h : MapInv avail pp calls s) (hva : va < utop) (hperm : perm.toNat < 4096)
    (hnew : vpage va ∉ callPages calls)
    (hinsert : s.pageInsert s.kernPgdir pp va perm = .ok (0, s')) :
    MapInv avail pp (calls ++ [(va, perm)]) s' := by
  obtain ⟨l, howned⟩ := h.owned
  have hnot : ¬ MapsTo s.mem s.kernPgdir pp (vpage va) := fun hmaps =>
    hnew ((h.mapsTo_iff _).mp hmaps)
  -- the page that is replaced, if any, is not `pp`, and other pages have few references
  have hbound : slot s.mem s.kernPgdir (vpage va) ≠ 0#32 →
      refs s.mem s.kernPgdir (frameOf (slot s.mem s.kernPgdir (vpage va))) ≤ 65535 := by
    intro hslot
    refine h.refs_le _ fun heq => hnot ?_
    exact ⟨vpage_user hva, (howned.mapped.slots _ (vpage_user hva) hslot).1, heq⟩
  -- a failed insertion would not have returned 0
  rcases howned.insert hva hperm h.allocated hbound with
    ⟨-, -, hrun⟩ | ⟨t, l', hrun, ht, step⟩
  · rw [hrun, Except.ok.injEq, Prod.mk.injEq] at hinsert
    exact absurd hinsert.1 (by decide)
  · rw [hrun, Except.ok.injEq, Prod.mk.injEq] at hinsert
    obtain ⟨-, rfl⟩ := hinsert
    have hmaps := step.mapsTo hva hperm (lt_of_lt_npages (howned.lt_of_allocated h.allocated))
    have hcount := step.refs_eq pp h.allocated
    rw [if_neg hnot, if_pos rfl, Nat.add_zero, h.refs_eq] at hcount
    refine ⟨⟨l', ht⟩, ht.allocated_of_mapsTo ((hmaps (vpage va)).mpr (.inl rfl)), ?_,
      fun q hq => ?_, fun x => ?_⟩
    · rw [hcount, List.length_append]
      rfl
    · by_cases halloc : s.Allocated q
      · have hle := h.refs_le q hq
        have hrefs := step.refs_eq q halloc
        rw [if_neg (Ne.symm hq), Nat.add_zero] at hrefs
        omega
      · exact (step.refs_new q halloc).trans (by decide)
    · rw [hmaps, h.mapsTo_iff, callPages_append, List.mem_append, List.mem_singleton, or_comm]

/-- Successive insertions at distinct pages, however many. -/
theorem MapRun.inv (hrun : MapRun pp s calls s') (h : MapInv avail pp [] s)
    (hcalls : UserCalls calls) : MapInv avail pp calls s' := by
  induction hrun with
  | nil => exact h
  | @insert calls s' s'' va perm _ hinsert ih =>
    have hmem : (va, perm) ∈ calls ++ [(va, perm)] :=
      List.mem_append_right _ (List.mem_singleton_self _)
    have hdistinct := hcalls.distinct
    rw [callPages_append, List.nodup_append'] at hdistinct
    have hprefix : UserCalls calls :=
      ⟨fun c hc => hcalls.below c (List.mem_append_left _ hc),
        fun c hc => hcalls.perm c (List.mem_append_left _ hc), hdistinct.1⟩
    have hnew : vpage va ∉ callPages calls := fun hold =>
      hdistinct.2.2 hold (List.mem_singleton_self _)
    exact (ih hprefix).insert (hcalls.below _ hmem) (hcalls.perm _ hmem) hnew hinsert

/-- The count is the number of mappings modulo `2^16`. -/
theorem MapInv.ref (h : MapInv avail pp calls s) : s.ref pp = BitVec.ofNat 16 calls.length := by
  obtain ⟨l, howned⟩ := h.owned
  rw [howned.count pp h.allocated, h.refs_eq, noExtra, Nat.add_zero]

/-! ### Removals -/

/-- Removing mappings of a page keeps the invariant of runs. -/
theorem RunInv.unmap (h : RunInv avail s) (hstep : Unmap pp s s') : RunInv avail s' := by
  obtain ⟨⟨l, howned⟩, hbound⟩ := h
  obtain ⟨va, hmaps, hremove⟩ := hstep
  have hslot := ne_zero_of_present hmaps.2.1
  have hpde : s.mem s.kernPgdir (pdx va) ≠ 0#32 := fun hzero =>
    hslot (slot_of_eq (x := vpage va) hzero)
  obtain ⟨t, l', hrun, ht, step⟩ := howned.remove ((lt_utop_iff va).mpr hmaps.1) hpde hslot
    (Nat.le_succ_of_le (hbound _))
  rw [hrun, Except.ok.injEq] at hremove
  subst hremove
  exact ⟨⟨l', ht⟩, fun q => (Nat.le_add_right ..).trans ((step.refs_eq q).trans_le (hbound q))⟩

theorem RunInv.unmaps (h : RunInv avail s) (hrun : Relation.ReflTransGen (Unmap pp) s s') :
    RunInv avail s' := by
  induction hrun with
  | refl => exact h
  | tail _ hstep ih => exact ih.unmap hstep

/-- A free page is not mapped. -/
theorem RunInv.not_mapsTo (h : RunInv avail s) (hfree : s.FreeList l) (hpp : pp ∈ l) (x : VPage) :
    ¬ MapsTo s.mem s.kernPgdir pp x := by
  obtain ⟨⟨l', howned⟩, -⟩ := h
  rw [hfree.unique howned.free] at hpp
  exact fun hx => ((howned.mem_iff pp).mp hpp).2 (howned.allocated_of_mapsTo hx)

/-- A removal while the count is one frees the page, however often it is mapped. -/
theorem Owned.unmap_one (h : Owned avail noExtra s l) (hone : s.ref pp = 1#16)
    (hmaps : MapsTo s.mem s.kernPgdir pp (vpage va)) :
    ∃ s', Unmap pp s s' ∧ s'.FreeList (pp :: l) ∧ ∀ x, x ≠ vpage va →
      (MapsTo s'.mem s'.kernPgdir pp x ↔ MapsTo s.mem s.kernPgdir pp x) := by
  have hpp := h.allocated_of_mapsTo hmaps
  have hslot := ne_zero_of_present hmaps.2.1
  have hpde : s.mem s.kernPgdir (pdx va) ≠ 0#32 := fun hzero =>
    hslot (slot_of_eq (x := vpage va) hzero)
  have htbl := h.lt_of_allocated (h.mapped.table (pdx va) hmaps.1 hpde)
  have hentry : frameOf (s.mem (frameOf (s.mem s.kernPgdir (pdx va))) (ptx va)) = pp := by
    have hframe := hmaps.2.2
    rw [slot_of_ne (x := vpage va) hpde] at hframe
    exact hframe
  -- the count is one, so lowering it frees the page
  obtain ⟨t, l', hdec, step⟩ :=
    pageDecref_spec h.free (h.lt_of_allocated hpp) (h.not_mem_of_allocated hpp)
  obtain ⟨-, rfl, -⟩ : s.ref pp = 1#16 ∧ l' = pp :: l ∧ t.log = .free pp :: s.log :=
    step.cases.resolve_left fun hpos => hpos.1 hone
  have hmem : t.mem = s.mem := step.mem
  have hkern : t.kernPgdir = s.kernPgdir := step.kernPgdir
  refine ⟨_, ⟨va, hmaps, pageRemove_eq hpde htbl (by rw [hentry]; exact hdec)⟩, step.free,
    fun x hx => ?_⟩
  change MapsTo (t.mem.set _ _ 0#32) t.kernPgdir pp x ↔ _
  rw [hmem, hkern]
  refine and_congr_right fun huser => ?_
  have hset := slot_set (y := vpage va) (v := 0#32) h.mapped.tables.toDistinctTables hmaps.1 hpde
    huser
  rw [if_neg hx] at hset
  exact iff_of_eq (congrArg (fun w => present w ∧ frameOf w = pp) hset)

/-- Up to 65535 mappings keep the invariant of runs. -/
theorem MapInv.runInv (h : MapInv avail pp calls s) (hlen : calls.length < 2 ^ 16) :
    RunInv avail s := by
  refine ⟨h.owned, fun q => ?_⟩
  by_cases hq : q = pp
  · rw [hq, h.refs_eq]
    omega
  · exact h.refs_le q hq

/-- Up to 65535 mappings the count is exact. -/
theorem MapInv.countExact (h : MapInv avail pp calls s) (hlen : calls.length < 2 ^ 16) :
    CountExact pp calls.length s := by
  refine ⟨?_, fun s' hunmap l hfree hpp => ?_⟩
  rotate_left
  · exact ((h.runInv hlen).unmaps hunmap).not_mapsTo hfree hpp
  rw [h.ref, BitVec.toNat_ofNat, Nat.mod_eq_of_lt hlen]

/-- **Reference counts and their width.** From any state that a run of legal calls reaches, and
for any number of distinct pages below `UTOP` at which an allocated and unmapped page is then
mapped, the count is this number, and no removal frees the page while it is mapped elsewhere, if
and only if the number fits into 16 bits. -/
theorem pageInsert_count_iff (hs : b.Sufficient) (hboot : bootMemInit b = .ok s₀)
    (hinit : s₀.pageInit = .ok s₁) (hrun : Relation.ReflTransGen PageStep s₁ s)
    (hpp : s.Allocated pp) (href : s.ref pp = 0#16) (hcalls : UserCalls calls)
    (hmap : MapRun pp s calls s') :
    CountExact pp calls.length s' ↔ calls.length < 2 ^ 16 := by
  have hinv := hmap.inv (((pageInit_runInv hs hboot hinit).run hrun).mapInv hpp href) hcalls
  constructor
  · intro h
    rw [← h.ref]
    exact (s'.ref pp).isLt
  · exact hinv.countExact

/-! ### Mapping a page everywhere -/

/-- The call that maps a page at address `i * PGSIZE`. -/
def pageCall (i : ℕ) : Word × Word := (BitVec.ofNat 32 (i * 4096), 0#32)

/-- The calls for the first `k` pages of the address space. -/
def firstCalls (k : ℕ) : List (Word × Word) := (List.range k).map pageCall

theorem firstCalls_succ (k : ℕ) : firstCalls (k + 1) = firstCalls k ++ [pageCall k] := by
  rw [firstCalls, List.range_succ, List.map_append]
  rfl

theorem toNat_pageCall {i : ℕ} (hi : i < userEntries * 1024) :
    (pageCall i).1.toNat = i * 4096 := by
  have huser : userEntries = 955 := rfl
  rw [pageCall, BitVec.toNat_ofNat, Nat.mod_eq_of_lt (by omega)]

theorem val_pdx_pageCall {i : ℕ} (hi : i < userEntries * 1024) :
    (pdx (pageCall i).1).val = i / 1024 := by
  rw [val_pdx, toNat_pageCall hi]
  omega

/-- The position of a page in the address space. -/
def pageIndex (x : VPage) : ℕ := x.1.val * 1024 + x.2.val

theorem pageIndex_pageCall {i : ℕ} (hi : i < userEntries * 1024) :
    pageIndex (vpage (pageCall i).1) = i := by
  change (pdx _).val * 1024 + (ptx _).val = i
  rw [val_pdx_pageCall hi, val_ptx, toNat_pageCall hi]
  omega

theorem eq_vpage_pageCall {i : ℕ} (hi : i < userEntries * 1024) (x : VPage) :
    x = vpage (pageCall i).1 ↔ pageIndex x = i := by
  constructor
  · rintro rfl
    exact pageIndex_pageCall hi
  · intro hx
    have hd := x.2.isLt
    have hidx := pageIndex_pageCall hi
    simp only [pageIndex] at hx hidx
    have hd' := (vpage (pageCall i).1).2.isLt
    exact Prod.ext (Fin.ext (by omega)) (Fin.ext (by omega))

theorem pageCall_lt_utop {i : ℕ} (hi : i < userEntries * 1024) : (pageCall i).1 < utop := by
  rw [lt_utop_iff, val_pdx_pageCall hi]
  omega

/-- The calls are for distinct user pages. -/
theorem userCalls_firstCalls (hk : k ≤ userEntries * 1024) : UserCalls (firstCalls k) := by
  have hmem {c : Word × Word} (hc : c ∈ firstCalls k) :
      ∃ i < userEntries * 1024, pageCall i = c := by
    obtain ⟨i, hi, rfl⟩ := List.mem_map.mp hc
    exact ⟨i, Nat.lt_of_lt_of_le (List.mem_range.mp hi) hk, rfl⟩
  refine ⟨fun c hc => ?_, fun c hc => ?_, ?_⟩
  · obtain ⟨i, hi, rfl⟩ := hmem hc
    exact pageCall_lt_utop hi
  · obtain ⟨i, -, rfl⟩ := hmem hc
    exact (by decide : (0#32).toNat < 4096)
  · rw [callPages, firstCalls, List.map_map]
    refine List.Nodup.map_on (fun i hi j hj heq => ?_) List.nodup_range
    have hi' := pageIndex_pageCall (Nat.lt_of_lt_of_le (List.mem_range.mp hi) hk)
    have hj' := pageIndex_pageCall (Nat.lt_of_lt_of_le (List.mem_range.mp hj) hk)
    rw [← hi', ← hj']
    exact congrArg pageIndex heq

/-- The state after the first `k` pages have been mapped to `pp`: at most one page table for
each 1024 of them has been taken from the free list. -/
structure FirstPages (avail : ℕ → Prop) (pp k n : ℕ) (s : Kern) : Prop where
  owned : ∃ l, Owned avail noExtra s l ∧ n ≤ l.length + (k + 1023) / 1024
  allocated : s.Allocated pp
  slots : ∀ x : VPage, x.User →
    slot s.mem s.kernPgdir x = if pageIndex x < k then newPte pp 0#32 else 0#32

/-- A page table is missing only at the first page of its range. -/
theorem FirstPages.mod_eq_zero {n : ℕ} (h : FirstPages avail pp k n s)
    (hk : k < userEntries * 1024) (hpde : s.mem s.kernPgdir (pdx (pageCall k).1) = 0#32) :
    k % 1024 = 0 := by
  by_contra hmod
  have hprev : k - 1 < userEntries * 1024 := by omega
  have hslot := h.slots (vpage (pageCall (k - 1)).1) (vpage_user (pageCall_lt_utop hprev))
  have hsame : (vpage (pageCall (k - 1)).1).1 = pdx (pageCall k).1 := by
    rw [Fin.ext_iff]
    change (pdx _).val = _
    rw [val_pdx_pageCall hprev, val_pdx_pageCall hk]
    omega
  rw [pageIndex_pageCall hprev, if_pos (by omega), slot_of_eq (by rw [hsame]; exact hpde)] at hslot
  exact ne_zero_of_present (present_newPte pp 0#32) hslot.symm

/-- The next page can be mapped as long as there is memory for its page table. -/
theorem FirstPages.step {n : ℕ} (h : FirstPages avail pp k n s) (hk : k < userEntries * 1024)
    (hn : (k + 1 + 1023) / 1024 ≤ n) :
    ∃ s', s.pageInsert s.kernPgdir pp (pageCall k).1 (pageCall k).2 = .ok (0, s') ∧
      FirstPages avail pp (k + 1) n s' := by
  obtain ⟨l, howned, hlen⟩ := h.owned
  have hva := pageCall_lt_utop hk
  have hperm : (pageCall k).2.toNat < 4096 := by
    change (0#32).toNat < 4096
    decide
  have hempty := h.slots _ (vpage_user hva)
  rw [pageIndex_pageCall hk, if_neg (Nat.lt_irrefl k)] at hempty
  rcases howned.insert hva hperm h.allocated fun hslot => absurd hempty hslot with
    ⟨hpde, rfl, -⟩ | ⟨s', l', hrun, howned', step⟩
  · -- a table is missing only at the first page of its slot, and one is left then
    have hmod := h.mod_eq_zero hk hpde
    rw [List.length_nil] at hlen
    omega
  · have hmaps := step.mapsTo hva hperm (lt_of_lt_npages (howned.lt_of_allocated h.allocated))
    refine ⟨s', hrun, ⟨l', howned', ?_⟩,
      howned'.allocated_of_mapsTo ((hmaps _).mpr (.inl rfl)), fun x hx => ?_⟩
    · have hle := step.length_le
      split_ifs at hle with hpde
      · have hmod := h.mod_eq_zero hk hpde
        omega
      · omega
    · rw [step.slots x hx, h.slots x hx]
      simp only [eq_vpage_pageCall hk]
      by_cases hxk : pageIndex x = k
      · rw [if_pos hxk, if_pos (by omega)]
        rfl
      · rw [if_neg hxk]
        split_ifs <;> first | rfl | omega

/-- A page can be mapped at any number of pages, if there is memory for the page tables. -/
theorem FirstPages.run {n : ℕ} (h : FirstPages avail pp 0 n s) (hk : k ≤ userEntries * 1024)
    (hn : (k + 1023) / 1024 ≤ n) :
    ∃ s', MapRun pp s (firstCalls k) s' ∧ FirstPages avail pp k n s' := by
  induction k with
  | zero => exact ⟨s, .nil, h⟩
  | succ k ih =>
    obtain ⟨s', hrun, h'⟩ := ih (by omega) (by omega)
    obtain ⟨s'', hinsert, h''⟩ := h'.step (by omega) hn
    exact ⟨s'', by rw [firstCalls_succ]; exact hrun.insert hinsert, h''⟩

/-! ### A machine on which the count wraps around -/

/-- While nothing is allocated, all available pages are free. -/
theorem Owned.length_of_none {f n : ℕ} {extra : ℕ → ℕ} (h : Owned (· ∈ freeFrom f n) extra s l)
    (hnone : ∀ q, ¬ s.Allocated q) : l.length = n - f := by
  have hperm : l.Perm (freeFrom f n) :=
    (List.perm_ext_iff_of_nodup h.free.nodup (nodup_freeFrom f n)).mpr fun q =>
      (h.mem_iff q).trans (and_iff_left (hnone q))
  rw [hperm.length_eq, length_freeFrom]

/-- The machine after boot, when one page has been allocated. -/
theorem exists_firstPages : ∃ s₀ s₁ s₂, bootMemInit (filledBoot 0#32) = .ok s₀ ∧
    s₀.pageInit = .ok s₁ ∧ PageStep s₁ s₂ ∧ s₂.Allocated 4351 ∧ s₂.ref 4351 = 0#16 ∧
    RunInv (· ∈ freeFrom 354 4352) s₂ ∧ FirstPages (· ∈ freeFrom 354 4352) 4351 0 3997 s₂ := by
  obtain ⟨s₀, s₁, s₂, l, hboot, hinit, -, howned, -, -, -, hnone, hrun, step⟩ := exists_booted
  have hrefs (q : ℕ) : refs s₂.mem s₂.kernPgdir q = 0 := by
    rw [step.mem, step.kernPgdir]
    exact howned.mapped.refs_eq_zero (hnone q)
  have hbound (q : ℕ) : refs s₂.mem s₂.kernPgdir q ≤ 65535 := by
    rw [hrefs]
    exact Nat.zero_le _
  have halloc : s₂.Allocated 4351 := (step.allocated_iff 4351).mpr (.inl rfl)
  have hlen := howned.length_of_none hnone
  rw [List.length_cons] at hlen
  refine ⟨s₀, s₁, s₂, hboot, hinit, ⟨.alloc, trivial, hrun, hbound⟩, halloc, step.cleared,
    ⟨⟨_, howned.alloc step⟩, hbound⟩, ⟨_, howned.alloc step, by omega⟩, halloc, fun x hx => ?_⟩
  -- no page is allocated in s₁, so none is mapped
  rw [if_neg (Nat.not_lt_zero _), step.mem, step.kernPgdir]
  by_contra hslot
  exact hnone _ (howned.mapped.slots x hx hslot).2

theorem pageInsert_count_iff_booted : ∃ s₀ s₁ s s', bootMemInit (filledBoot 0#32) = .ok s₀ ∧
    s₀.pageInit = .ok s₁ ∧ MapRun 4351 s (firstCalls 3) s' ∧
    (CountExact 4351 (firstCalls 3).length s' ↔ (firstCalls 3).length < 2 ^ 16) := by
  obtain ⟨s₀, s₁, s, hboot, hinit, hstep, halloc, href, -, hfirst⟩ := exists_firstPages
  obtain ⟨s', hrun, -⟩ := hfirst.run (k := 3) (by decide) (by decide)
  exact ⟨s₀, s₁, s, s', hboot, hinit, hrun,
    pageInsert_count_iff (filledBoot_sufficient 0#32) hboot hinit (.single hstep) halloc href
      (userCalls_firstCalls (by decide)) hrun⟩

/-- With 65537 mappings the count is one. Removing the mapping at address 0 frees the page, and
the mapping at the next page is still there. -/
theorem not_countExact_wrapped : ∃ s₀ s₁ s s', bootMemInit (filledBoot 0#32) = .ok s₀ ∧
    s₀.pageInit = .ok s₁ ∧ PageStep s₁ s ∧ s.Allocated 4351 ∧ s.ref 4351 = 0#16 ∧
    UserCalls (firstCalls 65537) ∧ MapRun 4351 s (firstCalls 65537) s' ∧
    s'.ref 4351 = 1#16 ∧ ¬ CountExact 4351 65537 s' ∧
    ∃ s'' l, Unmap 4351 s' s'' ∧ s''.FreeList l ∧ 4351 ∈ l ∧
      MapsTo s''.mem s''.kernPgdir 4351 (vpage 0x1000#32) := by
  obtain ⟨s₀, s₁, s, hboot, hinit, hstep, halloc, href, hrunInv, hfirst⟩ := exists_firstPages
  obtain ⟨s', hrun, -⟩ := hfirst.run (k := 65537) (by decide) (by decide)
  have hcalls : UserCalls (firstCalls 65537) := userCalls_firstCalls (by decide)
  have hinv := hrun.inv (hrunInv.mapInv halloc href) hcalls
  have hlen : (firstCalls 65537).length = 65537 := by
    rw [firstCalls, List.length_map, List.length_range]
  -- 65537 is one more than a count can hold
  have hone : s'.ref 4351 = 1#16 := by
    rw [hinv.ref, hlen]
    decide
  have hmaps {i : ℕ} (hi : i < 65537) :
      MapsTo s'.mem s'.kernPgdir 4351 (vpage (pageCall i).1) := by
    rw [hinv.mapsTo_iff]
    exact List.mem_map_of_mem (List.mem_map_of_mem (List.mem_range.mpr hi))
  have hzero := hmaps (i := 0) (by decide)
  have hnext := hmaps (i := 1) (by decide)
  obtain ⟨l, howned⟩ := hinv.owned
  -- removing one mapping frees the page that 65536 others still reach
  obtain ⟨s'', hunmap, hfree, hmapsTo⟩ := howned.unmap_one hone hzero
  refine ⟨s₀, s₁, s, s', hboot, hinit, hstep, halloc, href, hcalls, hrun, hone, fun h => ?_,
    s'', _, hunmap, hfree, List.mem_cons_self .., (hmapsTo _ (by decide)).mpr hnext⟩
  have hcount := h.ref
  rw [hone] at hcount
  exact absurd hcount (by decide)

end Kern

end JosVmx
