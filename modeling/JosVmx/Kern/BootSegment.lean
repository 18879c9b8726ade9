import JosVmx.Kern.BootMap
import JosVmx.Lib.Rank

/-!
# Mapping a segment at boot

`boot_map_segment` creates page tables while it fills others. Its specification is
stated against the table each directory slot has in the end: the slot's own table if
the slot was present, and otherwise the next page of `boot_alloc` in slot order. The
invariant says which entries the finished rounds have written and that nothing else
has changed; a round first walks, which may install the table of one slot, and then
writes one entry.

## Main results

* `Kern.bootMapSegment_ok` — the loop ends in a state described entry by entry
* `Kern.SegmentInv.mapsRange` — the whole range is mapped, and present tables keep their
  entries outside it
-/

namespace JosVmx

open Lib

/-! ### The pages of a segment -/

/-- The number of rounds of the segment loop. -/
def segRounds (size : Word) : ℕ := (size.toNat + 4095) / 4096

/-- The address of round `j`. -/
def segAddr (la : Word) (j : ℕ) : Word := la + BitVec.ofNat 32 (4096 * j)

/-- The entry written in round `j`. -/
def segPte (pa perm : Word) (j : ℕ) : Word := (pa + BitVec.ofNat 32 (4096 * j)) ||| pteP ||| perm

/-- The range of a segment as the callers of `boot_map_segment` choose it. -/
structure SegmentRange (la size : Word) : Prop where
  aligned : la.toNat % 4096 = 0
  size_le : size.toNat ≤ 2 ^ 32 - 4096
  fits : la.toNat + size.toNat ≤ 2 ^ 32
  avoids_vpt : ∀ j < segRounds size, pdx (segAddr la j) ≠ pdx vpt

section Range

variable {la size : Word} {j k : ℕ}

theorem toNat_segAddr (h : SegmentRange la size) (hj : j < segRounds size) :
    (segAddr la j).toNat = la.toNat + 4096 * j := by
  have hfits := h.fits
  rw [segRounds] at hj
  rw [segAddr, BitVec.toNat_add, BitVec.toNat_ofNat]
  omega

/-- The directory slots of a segment come in increasing order. -/
theorem pdx_segAddr_le (h : SegmentRange la size) (hk : k < segRounds size) (hjk : j ≤ k) :
    pdx (segAddr la j) ≤ pdx (segAddr la k) := by
  rw [Fin.le_def, val_pdx, val_pdx, toNat_segAddr h hk, toNat_segAddr h (hjk.trans_lt hk)]
  omega

theorem segAddr_inj (h : SegmentRange la size) (hj : j < segRounds size)
    (hk : k < segRounds size) (hpdx : pdx (segAddr la j) = pdx (segAddr la k))
    (hptx : ptx (segAddr la j) = ptx (segAddr la k)) : j = k := by
  have hpage := (pgnum_eq_iff _ _).mpr ⟨hpdx, hptx⟩
  rw [← BitVec.toNat_inj, toNat_pgnum, toNat_pgnum, toNat_segAddr h hj, toNat_segAddr h hk] at hpage
  omega

/-- The addresses of the rounds are the page offsets below `size`. -/
theorem exists_segAddr {i : Word} (hi : i < size) (halign : i.toNat % 4096 = 0) :
    ∃ j < segRounds size, i = BitVec.ofNat 32 (4096 * j) := by
  rw [BitVec.lt_def] at hi
  refine ⟨i.toNat / 4096, ?_, ?_⟩
  · rw [segRounds]
    omega
  · rw [← BitVec.toNat_inj, BitVec.toNat_ofNat]
    have hlt := i.isLt
    omega

end Range

namespace Kern

/-! ### The tables of a segment -/

/-- The frame of the next page of `boot_alloc`. -/
def bootFrame (s : Kern) : ℕ := (pgnum (s.bootNext - kernbase)).toNat

/-- The directory slots of the segment that have no table yet. -/
def segMissing (s : Kern) (la size : Word) : Finset (Fin 1024) :=
  Finset.univ.filter fun d =>
    ¬ present (s.mem s.kernPgdir d) ∧ ∃ j < segRounds size, pdx (segAddr la j) = d

/-- The table a directory slot has when the segment has been mapped. -/
def segTable (s : Kern) (la size : Word) (d : Fin 1024) : ℕ :=
  if present (s.mem s.kernPgdir d) then frameOf (s.mem s.kernPgdir d)
  else s.bootFrame + rank (s.segMissing la size) d

/-- The directory entry of a table that the segment loop installs. -/
def segPde (s : Kern) (la size perm : Word) (d : Fin 1024) : Word :=
  page2pa (s.segTable la size d) ||| pteP ||| (pteP ||| perm)

/-- The tables of `kern_pgdir`, the self-map apart, are distinct frames other than
`kern_pgdir`. -/
structure BootTables (s : Kern) : Prop where
  ne_pgdir : ∀ d ≠ pdx vpt, present (s.mem s.kernPgdir d) →
    frameOf (s.mem s.kernPgdir d) ≠ s.kernPgdir
  inj : ∀ d ≠ pdx vpt, ∀ d' ≠ pdx vpt, present (s.mem s.kernPgdir d) →
    present (s.mem s.kernPgdir d') →
    frameOf (s.mem s.kernPgdir d) = frameOf (s.mem s.kernPgdir d') → d = d'

/-- The next `n` pages of `boot_alloc` lie in memory and hold neither `kern_pgdir` nor
one of its tables. -/
structure BootFresh (s : Kern) (n : ℕ) : Prop where
  base : kernbase ≤ s.bootNext
  lt : ∀ c < n, s.bootFrame + c < s.npages
  ne_pgdir : ∀ c < n, s.bootFrame + c ≠ s.kernPgdir
  ne_table : ∀ c < n, ∀ d ≠ pdx vpt, present (s.mem s.kernPgdir d) →
    frameOf (s.mem s.kernPgdir d) ≠ s.bootFrame + c

/-- The directory slots of the segment. -/
def InSegment (la size : Word) (d : Fin 1024) : Prop :=
  ∃ j < segRounds size, pdx (segAddr la j) = d

/-- What `boot_map_segment` relies on. -/
structure SegmentReady (s : Kern) (la size : Word) : Prop where
  range : SegmentRange la size
  tables : BootTables s
  table_lt : ∀ d, InSegment la size d → present (s.mem s.kernPgdir d) →
    frameOf (s.mem s.kernPgdir d) < s.npages
  fresh : BootFresh s (s.segMissing la size).card

section Tables

variable {s : Kern} {la size perm : Word} {d d' : Fin 1024}

theorem mem_segMissing : d ∈ s.segMissing la size ↔
    ¬ present (s.mem s.kernPgdir d) ∧ ∃ j < segRounds size, pdx (segAddr la j) = d := by
  simp [segMissing]

theorem InSegment.ne_vpt (h : SegmentRange la size) (hd : InSegment la size d) : d ≠ pdx vpt := by
  obtain ⟨j, hj, rfl⟩ := hd
  exact h.avoids_vpt j hj

theorem segTable_of_present (h : present (s.mem s.kernPgdir d)) :
    s.segTable la size d = frameOf (s.mem s.kernPgdir d) := if_pos h

theorem segTable_of_missing (h : d ∈ s.segMissing la size) :
    s.segTable la size d = s.bootFrame + rank (s.segMissing la size) d :=
  if_neg (mem_segMissing.mp h).1

theorem mem_segMissing_of_not_present (hd : InSegment la size d)
    (h : ¬ present (s.mem s.kernPgdir d)) : d ∈ s.segMissing la size := mem_segMissing.mpr ⟨h, hd⟩

theorem segTable_lt (hr : s.SegmentReady la size) (hd : InSegment la size d) :
    s.segTable la size d < s.npages := by
  by_cases h : present (s.mem s.kernPgdir d)
  · rw [segTable_of_present h]
    exact hr.table_lt d hd h
  · have hmem := mem_segMissing_of_not_present hd h
    rw [segTable_of_missing hmem]
    exact hr.fresh.lt _ (rank_lt_card hmem)

theorem segTable_ne_pgdir (hr : s.SegmentReady la size) (hd : InSegment la size d) :
    s.segTable la size d ≠ s.kernPgdir := by
  by_cases h : present (s.mem s.kernPgdir d)
  · rw [segTable_of_present h]
    exact hr.tables.ne_pgdir d (hd.ne_vpt hr.range) h
  · have hmem := mem_segMissing_of_not_present hd h
    rw [segTable_of_missing hmem]
    exact hr.fresh.ne_pgdir _ (rank_lt_card hmem)

/-- A slot of the segment shares its table with no present slot and no other slot of
the segment. -/
theorem segTable_inj (hr : s.SegmentReady la size) (hd : InSegment la size d)
    (hd' : d' ≠ pdx vpt) (hside : InSegment la size d' ∨ present (s.mem s.kernPgdir d'))
    (heq : s.segTable la size d = s.segTable la size d') : d = d' := by
  have hvpt := hd.ne_vpt hr.range
  by_cases h : present (s.mem s.kernPgdir d) <;> by_cases h' : present (s.mem s.kernPgdir d')
  · rw [segTable_of_present h, segTable_of_present h'] at heq
    exact hr.tables.inj d hvpt d' hd' h h' heq
  · have hmem' := mem_segMissing_of_not_present (hside.resolve_right h') h'
    rw [segTable_of_present h, segTable_of_missing hmem'] at heq
    exact absurd heq (hr.fresh.ne_table _ (rank_lt_card hmem') d hvpt h)
  · have hmem := mem_segMissing_of_not_present hd h
    rw [segTable_of_missing hmem, segTable_of_present h'] at heq
    exact absurd heq.symm (hr.fresh.ne_table _ (rank_lt_card hmem) d' hd' h')
  · have hmem := mem_segMissing_of_not_present hd h
    have hmem' := mem_segMissing_of_not_present (hside.resolve_right h') h'
    rw [segTable_of_missing hmem, segTable_of_missing hmem'] at heq
    exact rank_inj hmem hmem' (by omega)

theorem present_segPde : present (s.segPde la size perm d) := present_or _ _

theorem frameOf_segPde (h : s.segTable la size d < 2 ^ 20) (hperm : perm.toNat < 4096) :
    frameOf (s.segPde la size perm d) = s.segTable la size d := by
  rw [segPde, BitVec.or_assoc]
  exact frameOf_page2pa_or h (toNat_or_lt (by decide) (toNat_or_lt (by decide) hperm))

end Tables

/-! ### The invariant of the loop -/

/-- The missing slots among the first `j` rounds. -/
def segVisited (s : Kern) (la size : Word) (j : ℕ) : Finset (Fin 1024) :=
  (s.segMissing la size).filter fun d => ∃ k < j, pdx (segAddr la k) = d

/-- Only memory, the boot allocator and the log differ, and no page has been handed out. -/
structure BootFrame (s s' : Kern) : Prop where
  eq : s' = { s with mem := s'.mem, nextfree := s'.nextfree, log := s'.log }
  allocated : ∀ q, s'.Allocated q ↔ s.Allocated q

theorem BootFrame.trans {s s' s'' : Kern} (h : s.BootFrame s') (h' : s'.BootFrame s'') :
    s.BootFrame s'' :=
  ⟨h'.eq.trans (congrArg
    (fun t : Kern => { t with mem := s''.mem, nextfree := s''.nextfree, log := s''.log }) h.eq),
    fun q => (h'.allocated q).trans (h.allocated q)⟩

theorem BootFrame.npages {s s' : Kern} (h : s.BootFrame s') : s'.npages = s.npages := by
  rw [h.eq]

theorem BootFrame.kernPgdir {s s' : Kern} (h : s.BootFrame s') : s'.kernPgdir = s.kernPgdir := by
  rw [h.eq]

theorem BootFrame.pageFreeList {s s' : Kern} (h : s.BootFrame s') :
    s'.pageFreeList = s.pageFreeList := by
  rw [h.eq]

theorem bootFrame_store (s : Kern) (f : ℕ) (i : Fin 1024) (v : Word) :
    s.BootFrame (s.store f i v) := ⟨rfl, fun _ => .rfl⟩

theorem bootFrame_bootAlloc (s : Kern) (n : Word) : s.BootFrame (s.bootAlloc n).2 :=
  ⟨rfl, fun _ => .rfl⟩

theorem bootFrame_memset (s : Kern) (pa : ℕ) (c : BitVec 8) (n : ℕ) :
    s.BootFrame (s.memset pa c n) where
  eq := by
    rw [memset_frame]
  allocated q := allocated_memset s pa c n q

theorem bootNext_memset (s : Kern) (pa : ℕ) (c : BitVec 8) (n : ℕ) :
    (s.memset pa c n).bootNext = s.bootNext := by
  rw [memset_frame]
  rfl

/-- The state `s'` after `v` walks and `j` stores, from the state `s` before the loop. -/
structure SegmentInv (s : Kern) (la size pa perm : Word) (v j : ℕ) (s' : Kern) : Prop where
  frame : s.BootFrame s'
  next : s'.bootNext = s.bootNext + BitVec.ofNat 32 (4096 * (s.segVisited la size v).card)
  pde : ∀ d, s'.mem s.kernPgdir d =
    if d ∈ s.segVisited la size v then s.segPde la size perm d else s.mem s.kernPgdir d
  pte : ∀ k < j, s'.mem (s.segTable la size (pdx (segAddr la k))) (ptx (segAddr la k)) =
    segPte pa perm k
  other : ∀ g t, g ≠ s.kernPgdir →
    (∀ k < j, ¬ (g = s.segTable la size (pdx (segAddr la k)) ∧ t = ptx (segAddr la k))) →
    s'.mem g t = s.mem g t

section Visited

variable {s : Kern} {la size : Word} {j : ℕ} {d : Fin 1024}

theorem mem_segVisited : d ∈ s.segVisited la size j ↔
    d ∈ s.segMissing la size ∧ ∃ k < j, pdx (segAddr la k) = d := by
  simp [segVisited]

theorem segVisited_zero : s.segVisited la size 0 = ∅ := by
  simp [segVisited]

/-- In the end all missing slots have been visited. -/
theorem segVisited_rounds : s.segVisited la size (segRounds size) = s.segMissing la size := by
  ext d
  rw [mem_segVisited, and_iff_left_iff_imp]
  exact fun h => (mem_segMissing.mp h).2

/-- A round whose slot has a table visits no new slot. -/
theorem segVisited_succ_of_old
    (h : pdx (segAddr la j) ∈ s.segMissing la size → pdx (segAddr la j) ∈ s.segVisited la size j) :
    s.segVisited la size (j + 1) = s.segVisited la size j := by
  ext d
  constructor
  · intro hd
    obtain ⟨hmiss, k, hk, rfl⟩ := mem_segVisited.mp hd
    rcases Nat.lt_succ_iff_lt_or_eq.mp hk with hlt | rfl
    · exact mem_segVisited.mpr ⟨hmiss, k, hlt, rfl⟩
    · exact h hmiss
  · intro hd
    obtain ⟨hmiss, k, hk, rfl⟩ := mem_segVisited.mp hd
    exact mem_segVisited.mpr ⟨hmiss, k, hk.trans j.lt_succ_self, rfl⟩

theorem segVisited_succ_of_new (h : pdx (segAddr la j) ∈ s.segMissing la size) :
    s.segVisited la size (j + 1) = insert (pdx (segAddr la j)) (s.segVisited la size j) := by
  ext d
  rw [Finset.mem_insert, mem_segVisited, mem_segVisited]
  constructor
  · rintro ⟨hmiss, k, hk, rfl⟩
    rcases Nat.lt_succ_iff_lt_or_eq.mp hk with hlt | rfl
    · exact .inr ⟨hmiss, k, hlt, rfl⟩
    · exact .inl rfl
  · rintro (rfl | ⟨hmiss, k, hk, rfl⟩)
    · exact ⟨h, j, j.lt_succ_self, rfl⟩
    · exact ⟨hmiss, k, hk.trans j.lt_succ_self, rfl⟩

/-- When a missing slot comes up, the slots visited so far are those below it. -/
theorem card_segVisited (hr : SegmentRange la size) (hj : j < segRounds size)
    (hnew : pdx (segAddr la j) ∉ s.segVisited la size j)
    (hmiss : pdx (segAddr la j) ∈ s.segMissing la size) :
    (s.segVisited la size j).card = rank (s.segMissing la size) (pdx (segAddr la j)) := by
  refine congrArg Finset.card (Finset.ext fun d => ?_)
  rw [mem_segVisited, Finset.mem_filter]
  refine and_congr_right fun hd => ⟨?_, fun hlt => ?_⟩
  · rintro ⟨k, hk, rfl⟩
    refine lt_of_le_of_ne (pdx_segAddr_le hr hj hk.le) fun heq => hnew ?_
    exact mem_segVisited.mpr ⟨hmiss, k, hk, heq⟩
  · obtain ⟨-, k, hk, rfl⟩ := mem_segMissing.mp hd
    refine ⟨k, ?_, rfl⟩
    by_contra hle
    exact absurd (pdx_segAddr_le hr hk (Nat.not_lt.mp hle)) (Nat.not_le.mpr hlt)

end Visited

/-! ### One round -/

variable {s s' : Kern} {la size pa perm : Word} {j : ℕ}

theorem segmentInv_zero : SegmentInv s la size pa perm 0 0 s where
  frame := ⟨rfl, fun _ => .rfl⟩
  next := by simp [segVisited_zero]
  pde d := by simp [segVisited_zero]
  pte k hk := absurd hk (Nat.not_lt_zero k)
  other _ _ _ _ := rfl

theorem toNat_bootNext_aligned (s : Kern) : s.bootNext.toNat % 4096 = 0 := by
  have hround (a : Word) : (roundup a pgsize).toNat % 4096 = 0 := by
    have hpg : pgsize.toNat = 4096 := rfl
    rw [roundup, rounddown, BitVec.toNat_sub_of_le, BitVec.toNat_umod, hpg]
    · omega
    · rw [BitVec.le_def, BitVec.toNat_umod]
      exact Nat.mod_le _ _
  exact hround _

/-- The next address of `boot_alloc` is that of its frame. -/
theorem toNat_bootNext (h : kernbase ≤ s.bootNext) :
    s.bootNext.toNat = kernbase.toNat + s.bootFrame * 4096 := by
  have haligned := toNat_bootNext_aligned s
  have hbase : kernbase.toNat = 983040 * 4096 := by decide
  rw [bootFrame, toNat_pgnum, BitVec.toNat_sub_of_le h, hbase]
  rw [BitVec.le_def, hbase] at h
  omega

/-- The `c`-th page from the next address of `boot_alloc`. -/
theorem bootNext_add {n c : ℕ} (h : s.BootFresh n) (hc : c < n) :
    (s.bootNext + BitVec.ofNat 32 (4096 * c)).toNat =
      kernbase.toNat + (s.bootFrame + c) * 4096 := by
  have hlt := h.lt c hc
  have hmax : s.npages ≤ 16639 := s.npages_le
  have hbase : kernbase.toNat = 983040 * 4096 := by decide
  rw [BitVec.toNat_add, BitVec.toNat_ofNat, toNat_bootNext h.base, hbase]
  omega

/-- `boot_alloc` gives the page after those it has given, and moves on by one page. -/
theorem bootAlloc_page {n c : ℕ} (h : s.BootFresh n) (hc : c < n)
    (hnext : s'.bootNext = s.bootNext + BitVec.ofNat 32 (4096 * c)) :
    paddr s'.bootNext = .ok (page2pa (s.bootFrame + c)) ∧ s'.bootNext ≠ 0#32 ∧
      (s'.bootAlloc pgsize).2.bootNext =
        s.bootNext + BitVec.ofNat 32 (4096 * (c + 1)) := by
  have hval := bootNext_add h hc
  rw [← hnext] at hval
  have hlt := h.lt c hc
  have hmax : s.npages ≤ 16639 := s.npages_le
  have hbase : kernbase.toNat = 983040 * 4096 := by decide
  have hpg : pgsize.toNat = 4096 := rfl
  rw [hbase] at hval
  have hge : kernbase ≤ s'.bootNext := by
    rw [BitVec.le_def, hbase, hval]
    omega
  refine ⟨?_, ?_, ?_⟩
  · rw [paddr, if_neg (BitVec.not_lt.mpr hge), Except.ok.injEq, ← BitVec.toNat_inj,
      BitVec.toNat_sub_of_le hge, hbase, hval, toNat_page2pa (by omega)]
    omega
  · intro hzero
    rw [hzero] at hval
    simp at hval
    omega
  · have hsum : (s'.bootNext + pgsize).toNat = s'.bootNext.toNat + 4096 := by
      rw [BitVec.toNat_add, hpg]
      omega
    -- the addition does not wrap around to 0, where `boot_alloc` would start again
    have hne : s'.bootNext + pgsize ≠ 0#32 := by
      intro hzero
      rw [hzero] at hsum
      simp at hsum
    rw [bootAlloc_eq]
    change roundup (if s'.bootNext + pgsize = 0#32 then _ else s'.bootNext + pgsize) pgsize = _
    rw [if_neg hne, roundup_aligned (by omega), hnext, ← BitVec.toNat_inj]
    simp only [BitVec.toNat_add, BitVec.toNat_ofNat, hpg]
    omega

theorem bootNext_store (f : ℕ) (i : Fin 1024) (v : Word) :
    (s.store f i v).bootNext = s.bootNext := rfl

theorem bootPte_ok {la : Word} (h : frameOf (s.mem s.kernPgdir (pdx la)) < s.npages) :
    s.bootPte la = .ok (some ⟨frameOf (s.mem s.kernPgdir (pdx la)), ptx la⟩, s) := by
  rw [bootPte, kaddr_ok h]
  rfl

/-- A present slot of the segment leads to its table. -/
theorem SegmentInv.bootPte (hr : s.SegmentReady la size) (hperm : perm.toNat < 4096)
    (inv : SegmentInv s la size pa perm v j s') {a : Word} (ha : InSegment la size (pdx a))
    (hpresent : present (s'.mem s.kernPgdir (pdx a))) :
    s'.bootPte a = .ok (some ⟨s.segTable la size (pdx a), ptx a⟩, s') := by
  have hlt := segTable_lt hr ha
  have hframe : frameOf (s'.mem s'.kernPgdir (pdx a)) = s.segTable la size (pdx a) := by
    rw [inv.frame.kernPgdir]
    rw [inv.pde] at hpresent ⊢
    split_ifs at hpresent ⊢
    · exact frameOf_segPde (lt_of_lt_npages hlt) hperm
    · exact (segTable_of_present hpresent).symm
  rw [bootPte_ok (by rw [hframe, inv.frame.npages]; exact hlt), hframe]

/-- The walk of a round finds the table of its slot, or installs it. -/
theorem segment_walk (hr : s.SegmentReady la size) (hperm : perm.toNat < 4096)
    (hj : j < segRounds size) (inv : SegmentInv s la size pa perm j j s') :
    ∃ s'', s'.bootPgdirWalk (segAddr la j) (pteP ||| perm) =
        .ok (some ⟨s.segTable la size (pdx (segAddr la j)), ptx (segAddr la j)⟩, s'') ∧
      SegmentInv s la size pa perm (j + 1) j s'' := by
  have hin : InSegment la size (pdx (segAddr la j)) := ⟨j, hj, rfl⟩
  by_cases hpresent : present (s'.mem s.kernPgdir (pdx (segAddr la j)))
  · have hvisited : s.segVisited la size (j + 1) = s.segVisited la size j := by
      refine segVisited_succ_of_old fun hmiss => ?_
      by_contra hnew
      rw [inv.pde, if_neg hnew] at hpresent
      exact (mem_segMissing.mp hmiss).1 hpresent
    refine ⟨s', ?_, inv.frame, ?_, ?_, inv.pte, inv.other⟩
    · rw [bootPgdirWalk, inv.frame.kernPgdir, if_neg (not_not.mpr hpresent)]
      exact inv.bootPte hr hperm hin hpresent
    · rw [hvisited]
      exact inv.next
    · rw [hvisited]
      exact inv.pde
  · have hnew : pdx (segAddr la j) ∉ s.segVisited la size j := fun h =>
      hpresent (by rw [inv.pde, if_pos h]; exact present_segPde)
    have hmiss : pdx (segAddr la j) ∈ s.segMissing la size :=
      mem_segMissing_of_not_present hin (by rwa [inv.pde, if_neg hnew] at hpresent)
    have hcard := card_segVisited hr.range hj hnew hmiss
    have hnext := inv.next
    rw [hcard] at hnext
    obtain ⟨hpaddr, hne, hbump⟩ := bootAlloc_page hr.fresh (rank_lt_card hmiss) hnext
    have htable := segTable_of_missing hmiss
    have hlt := segTable_lt hr hin
    -- the state after the directory entry has been written
    obtain ⟨s₁, hs₁⟩ : ∃ s₁, s₁ = (s'.bootAlloc pgsize).2.store s.kernPgdir (pdx (segAddr la j))
      (s.segPde la size perm (pdx (segAddr la j))) := ⟨_, rfl⟩
    have hmem (g : ℕ) (t : Fin 1024) : s₁.mem g t =
        s'.mem.set s.kernPgdir (pdx (segAddr la j))
          (s.segPde la size perm (pdx (segAddr la j))) g t := by
      rw [hs₁]
      rfl
    have inv₁ : SegmentInv s la size pa perm (j + 1) j s₁ := by
      refine ⟨?_, ?_, ?_, ?_, ?_⟩
      · rw [hs₁]
        exact (inv.frame.trans (bootFrame_bootAlloc s' pgsize)).trans (bootFrame_store ..)
      · rw [segVisited_succ_of_new hmiss, Finset.card_insert_of_notMem hnew, hcard, hs₁,
          bootNext_store]
        exact hbump
      · intro d
        rw [hmem, segVisited_succ_of_new hmiss]
        by_cases hd : d = pdx (segAddr la j)
        · rw [hd, Mem.set_same, if_pos (Finset.mem_insert_self ..)]
        · rw [Mem.set_of_idx_ne hd, inv.pde]
          simp only [Finset.mem_insert, hd, false_or]
      · intro k hk
        rw [hmem, Mem.set_of_frame_ne (segTable_ne_pgdir hr ⟨k, hk.trans hj, rfl⟩)]
        exact inv.pte k hk
      · intro g t hg hother
        rw [hmem, Mem.set_of_frame_ne hg]
        exact inv.other g t hg hother
    refine ⟨s₁, ?_, inv₁⟩
    have hcreate : pteP ||| perm ≠ 0#32 := by
      have hor := present_or 0#32 perm
      rw [BitVec.zero_or] at hor
      exact ne_zero_of_present hor
    have hpte := inv₁.bootPte hr hperm hin
      (by rw [hmem, Mem.set_same]; exact present_segPde)
    have haddr : pteAddr (page2pa (s.segTable la size (pdx (segAddr la j)))) =
        page2pa (s.segTable la size (pdx (segAddr la j))) := by
      rw [← BitVec.toNat_inj, toNat_pteAddr, toNat_page2pa (lt_of_lt_npages hlt)]
      omega
    rw [bootPgdirWalk, inv.frame.kernPgdir, if_pos hpresent, if_neg hcreate]
    change (if s'.bootNext = 0#32 then _ else (paddr s'.bootNext >>= fun pa =>
      ((s'.bootAlloc pgsize).2.store s'.kernPgdir (pdx (segAddr la j))
        (pteAddr pa ||| pteP ||| (pteP ||| perm))).bootPte (segAddr la j))) = _
    rw [if_neg hne, hpaddr, ok_bind, ← htable, haddr, inv.frame.kernPgdir, ← segPde, ← hs₁]
    exact hpte

/-- The store of a round writes the entry of its page. -/
theorem segment_store (hr : s.SegmentReady la size) (hj : j < segRounds size)
    (inv : SegmentInv s la size pa perm (j + 1) j s') :
    SegmentInv s la size pa perm (j + 1) (j + 1)
      (s'.store (s.segTable la size (pdx (segAddr la j))) (ptx (segAddr la j))
        (segPte pa perm j)) := by
  have hin : InSegment la size (pdx (segAddr la j)) := ⟨j, hj, rfl⟩
  have hmem (g : ℕ) (t : Fin 1024) :
      (s'.store (s.segTable la size (pdx (segAddr la j))) (ptx (segAddr la j))
        (segPte pa perm j)).mem g t = s'.mem.set (s.segTable la size (pdx (segAddr la j)))
          (ptx (segAddr la j)) (segPte pa perm j) g t := rfl
  refine ⟨?_, inv.next, ?_, ?_, ?_⟩
  · exact inv.frame.trans (bootFrame_store ..)
  · intro d
    -- a table is not the directory
    rw [hmem, Mem.set_of_frame_ne (segTable_ne_pgdir hr hin).symm]
    exact inv.pde d
  · intro k hk
    rw [hmem]
    rcases Nat.lt_succ_iff_lt_or_eq.mp hk with hlt | rfl
    · -- an earlier round has another page, hence another entry
      have hne : ¬ (s.segTable la size (pdx (segAddr la k)) =
          s.segTable la size (pdx (segAddr la j)) ∧ ptx (segAddr la k) = ptx (segAddr la j)) := by
        rintro ⟨htable, hptx⟩
        have hk' : k < segRounds size := hlt.trans hj
        have hpdx := segTable_inj hr ⟨k, hk', rfl⟩ (hin.ne_vpt hr.range) (.inl hin) htable
        exact hlt.ne (segAddr_inj hr.range hk' hj hpdx hptx)
      rw [Mem.set, if_neg hne]
      exact inv.pte k hlt
    · exact Mem.set_same ..
  · intro g t hg hother
    rw [hmem, Mem.set, if_neg (hother j j.lt_succ_self)]
    exact inv.other g t hg fun k hk => hother k (hk.trans j.lt_succ_self)

/-! ### The whole loop -/

/-- The state after a segment has been mapped. -/
abbrev SegmentMapped (s : Kern) (la size pa perm : Word) (s' : Kern) : Prop :=
  SegmentInv s la size pa perm (segRounds size) (segRounds size) s'

theorem iterate_pgsize (j : ℕ) : (· + pgsize)^[j] 0#32 = BitVec.ofNat 32 (4096 * j) := by
  induction j with
  | zero => rfl
  | succ j ih =>
    rw [Function.iterate_succ_apply', ih, pgsize, ← BitVec.toNat_inj]
    simp only [BitVec.toNat_add, BitVec.toNat_ofNat]
    omega

/-- `boot_map_segment` maps its whole range. -/
theorem bootMapSegment_ok (pa perm : Word) (hr : s.SegmentReady la size)
    (hperm : perm.toNat < 4096) :
    ∃ s', s.bootMapSegment la size pa perm = .ok s' ∧ SegmentMapped s la size pa perm s' := by
  have hsize := hr.range.size_le
  have hrounds : segRounds size < pageRounds := by
    rw [segRounds, pageRounds]
    omega
  have hlt {j : ℕ} : BitVec.ofNat 32 (4096 * j) < size ↔ 4096 * j % 2 ^ 32 < size.toNat := by
    rw [BitVec.lt_def, BitVec.toNat_ofNat]
  refine forLoop_ok (fun j s' => SegmentInv s la size pa perm j j s') hrounds ?_ ?_
    segmentInv_zero ?_
  · intro j hj
    rw [segRounds] at hj
    rw [iterate_pgsize, decide_eq_true_eq, hlt]
    omega
  · rw [iterate_pgsize, decide_eq_false_iff_not, hlt, segRounds]
    omega
  · intro j hj s₁ inv
    obtain ⟨s₂, hwalk, inv₂⟩ := segment_walk hr hperm hj inv
    refine ⟨_, ?_, segment_store hr hj inv₂⟩
    rw [iterate_pgsize, bootMapPage]
    change (s₁.bootPgdirWalk (segAddr la j) (pteP ||| perm) >>= _) = _
    rw [hwalk]
    rfl

/-! ### What the callers see -/

/-- Every page offset of the segment has the entry asked for, and the tables that were
present keep their entries outside the range. -/
structure MapsRange (s s' : Kern) (la size pa perm : Word) : Prop where
  pde : ∀ i : Word, i < size → i.toNat % 4096 = 0 → present (s'.mem s.kernPgdir (pdx (la + i)))
  pte : ∀ i : Word, i < size → i.toNat % 4096 = 0 →
    s'.mem (frameOf (s'.mem s.kernPgdir (pdx (la + i)))) (ptx (la + i)) = (pa + i) ||| pteP ||| perm
  outside : ∀ d ≠ pdx vpt, present (s.mem s.kernPgdir d) →
    s'.mem s.kernPgdir d = s.mem s.kernPgdir d ∧ ∀ t : Fin 1024,
      (∀ i : Word, i < size → i.toNat % 4096 = 0 → (pdx (la + i), ptx (la + i)) ≠ (d, t)) →
      s'.mem (frameOf (s.mem s.kernPgdir d)) t = s.mem (frameOf (s.mem s.kernPgdir d)) t

/-- Every slot of a mapped segment is present and names the slot's table. -/
theorem SegmentInv.slot (hr : s.SegmentReady la size) (hperm : perm.toNat < 4096)
    (h : SegmentMapped s la size pa perm s') {d : Fin 1024} (hd : InSegment la size d) :
    present (s'.mem s.kernPgdir d) ∧ frameOf (s'.mem s.kernPgdir d) = s.segTable la size d := by
  rw [h.pde, segVisited_rounds]
  split_ifs with hmiss
  · exact ⟨present_segPde, frameOf_segPde (lt_of_lt_npages (segTable_lt hr hd)) hperm⟩
  · have hpresent : present (s.mem s.kernPgdir d) := by
      by_contra hnot
      exact hmiss (mem_segMissing_of_not_present hd hnot)
    exact ⟨hpresent, (segTable_of_present hpresent).symm⟩

theorem SegmentInv.mapsRange (hr : s.SegmentReady la size) (hperm : perm.toNat < 4096)
    (h : SegmentMapped s la size pa perm s') : MapsRange s s' la size pa perm := by
  refine ⟨?_, ?_, ?_⟩
  · intro i hi halign
    obtain ⟨j, hj, rfl⟩ := exists_segAddr hi halign
    exact (h.slot hr hperm ⟨j, hj, rfl⟩).1
  · intro i hi halign
    obtain ⟨j, hj, rfl⟩ := exists_segAddr hi halign
    have hframe := (h.slot hr hperm ⟨j, hj, rfl⟩).2
    rw [segAddr] at hframe
    rw [hframe]
    exact h.pte j hj
  · intro d hd hpresent
    refine ⟨?_, fun t hout => h.other _ t (hr.tables.ne_pgdir d hd hpresent) fun j hj heq => ?_⟩
    · rw [h.pde, if_neg]
      exact fun hvis => (mem_segMissing.mp (mem_segVisited.mp hvis).1).1 hpresent
    · -- only the slot `d` itself has this table
      have hin : InSegment la size (pdx (segAddr la j)) := ⟨j, hj, rfl⟩
      have hslot := segTable_inj hr hin hd (.inr hpresent)
        (by rw [segTable_of_present hpresent]; exact heq.1.symm)
      -- the address that a round maps there lies in the segment
      refine hout (BitVec.ofNat 32 (4096 * j)) ?_ ?_ (Prod.ext hslot heq.2.symm)
      · have hsize := hr.range.size_le
        rw [segRounds] at hj
        rw [BitVec.lt_def, BitVec.toNat_ofNat]
        omega
      · rw [BitVec.toNat_ofNat]
        omega

end Kern

end JosVmx
