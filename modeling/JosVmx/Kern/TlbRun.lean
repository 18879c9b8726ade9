import JosVmx.Kern.TlbCoherence

/-!
# Runs with a TLB

The machine as the memory manager sees it: calls of the page functions on the current page
directory, with the processor filling and dropping TLB entries in between and inside them,
and the rest of the system writing to memory other than the page tables.

A page that is handed out as a page table keeps what its last user left in it until
`pgdir_walk` clears it. One present word in it is enough for a stale TLB entry.

## Main results

* `Kern.tlb_coherent` — in every run whose new page tables hold no present word, the TLB
  agrees with the walk below `UTOP` whenever a page function has returned
* `Kern.exists_stale` — a present word in a new page table can leave a stale entry
-/

namespace JosVmx

open Lib

namespace Kern

variable {avail : ℕ → Prop} {s s' s₀ : Kern} {t t' : Tlb} {l : List ℕ} {pp pt : ℕ} {va perm : Word}

/-! ### Calls -/

/-- A call on user addresses. -/
def Callable (s : Kern) : PageOp → Prop
  | .remove va => va < utop
  | op => op.Legal s

/-- Removing an address whose entry is empty does not free page 0, the page that
`page_lookup` finds there. -/
def KeepsPageZero (s : Kern) (va : Word) : Prop :=
  s.mem s.kernPgdir (pdx va) ≠ 0#32 → slot s.mem s.kernPgdir (vpage va) = 0#32 → s.ref 0 ≠ 1#16

/-- The condition on a call for the TLB to stay coherent. -/
def CleanCall (s : Kern) : PageOp → Prop
  | .insert pp va perm => s.TableClean pp va perm
  | .remove va => s.KeepsPageZero va
  | _ => True

/-- Removing an address whose entry is empty. -/
theorem Owned.removeEmpty (h : Owned avail noExtra s l) (h0 : ¬ avail 0) (hva : va < utop)
    (hpde : s.mem s.kernPgdir (pdx va) ≠ 0#32)
    (hslot : slot s.mem s.kernPgdir (vpage va) = 0#32) (href : s.ref 0 ≠ 1#16) :
    ∃ s', s.pageRemove s.kernPgdir va = .ok s' ∧ Owned avail noExtra s' l ∧
      s'.kernPgdir = s.kernPgdir := by
  have huser := vpage_user hva
  have htbl := h.lt_of_allocated (h.mapped.table (pdx va) huser hpde)
  have hentry := slot_of_ne (x := vpage va) hpde
  have hframe : frameOf 0#32 = 0 := by decide
  have hzero : s.mem (frameOf (s.mem s.kernPgdir (pdx va))) (ptx va) = 0#32 :=
    hentry.symm.trans hslot
  -- the entry is zero, so its page is 0, and page 0 loses a count
  have hdec : s.pageDecref (frameOf (s.mem (frameOf (s.mem s.kernPgdir (pdx va))) (ptx va))) =
      .ok (s.setRef 0 (s.ref 0 - 1#16)) := by
    rw [hzero, hframe]
    exact pageDecref_pos (Nat.zero_lt_of_lt htbl) href
  refine ⟨_, pageRemove_eq hpde htbl hdec, ?_, rfl⟩
  · -- the entry is cleared again
    have hmem : s.mem.set (frameOf (s.mem s.kernPgdir (pdx va))) (ptx va) 0#32 = s.mem := by
      funext g i
      by_cases hgi : g = frameOf (s.mem s.kernPgdir (pdx va)) ∧ i = ptx va
      · rw [hgi.1, hgi.2, Mem.set_same]
        exact hslot.symm.trans hentry
      · exact if_neg hgi
    refine ⟨freeList_setRef.mpr h.free, h.mem_iff, h.avail_of_allocated, h.avail_lt, h.pgdir,
      ?_, ?_⟩
    · change Mapped s.Allocated (s.mem.set _ _ _) s.kernPgdir
      rw [hmem]
      exact h.mapped
    · intro q hq
      -- page 0 is not available, so no page in use lost a count
      have hne : q ≠ 0 := fun heq => h0 (heq ▸ h.avail_of_allocated q hq)
      change (s.setRef 0 _).ref q = BitVec.ofNat 16 (refs (s.mem.set _ _ _) s.kernPgdir q + _)
      rw [hmem, ref_setRef_of_ne hne]
      exact h.count q hq

/-- Calls that keep page 0 keep the invariant. -/
theorem Owned.runCall (h : Owned avail noExtra s l) (h0 : ¬ avail 0)
    (hbound : ∀ q, refs s.mem s.kernPgdir q ≤ 65535) {op : PageOp} (hop : s.Callable op)
    (hclean : s.CleanCall op) (hrun : op.run s = .ok s') :
    ∃ l', Owned avail noExtra s' l' ∧ s'.kernPgdir = s.kernPgdir := by
  by_cases hlegal : op.Legal s
  · obtain ⟨s'', l', hrun', h', hkern⟩ := h.run hbound hlegal
    rw [hrun, Except.ok.injEq] at hrun'
    subst hrun'
    exact ⟨l', h', hkern⟩
  · cases op with
    | remove va =>
      have hnot := not_and.mp hlegal hop
      rw [not_or, not_not, walk_eq_user_slot h.mapped.tables (vpage_user hop)] at hnot
      have hslot : slot s.mem s.kernPgdir (vpage va) = 0#32 := by
        by_contra hne
        rw [if_pos (h.mapped.slots _ (vpage_user hop) hne).1] at hnot
        exact Option.some_ne_none _ hnot.1
      obtain ⟨s'', hrun', h', hkern⟩ := h.removeEmpty h0 hop hnot.2 hslot (hclean hnot.2 hslot)
      rw [PageOp.run, hrun', Except.ok.injEq] at hrun
      subst hrun
      exact ⟨l, h', hkern⟩
    | alloc => exact absurd hop hlegal
    | free => exact absurd hop hlegal
    | insert => exact absurd hop hlegal

/-- What a call with a clean page table does to the TLB. -/
theorem Owned.coheres_run (h : Owned avail noExtra s l) {op : PageOp} (hop : s.Callable op)
    (hclean : s.CleanCall op) (hrun : op.run s = .ok s') :
    Coheres s.kernPgdir s s' Outside Outside := by
  cases op with
  | alloc =>
    cases l with
    | nil =>
      rw [PageOp.run, pageAlloc_nil h.free, ok_bind, Except.ok.injEq] at hrun
      exact hrun ▸ coheres_quiet rfl rfl
    | cons pp l =>
      obtain ⟨s₁, halloc, step⟩ := pageAlloc_cons h.free
      rw [PageOp.run, halloc, ok_bind, Except.ok.injEq] at hrun
      subst hrun
      exact coheres_alloc (by rw [step.frame]) step.mem
  | free pp =>
    rw [PageOp.run, Except.ok.injEq] at hrun
    exact hrun ▸ coheres_free rfl rfl
  | insert pp va perm =>
    rw [PageOp.run] at hrun
    obtain ⟨⟨r, s₁⟩, hinsert, hok⟩ := bind_eq_ok hrun
    rw [Except.ok.injEq] at hok
    exact hok ▸ h.coheres_insert hop.2.1 hop.1 hclean hinsert
  | remove va =>
    rw [PageOp.run] at hrun
    by_cases hpde : s.mem s.kernPgdir (pdx va) = 0#32
    · -- without a table there is nothing to remove and nothing to flush
      rw [pageRemove_none hpde, Except.ok.injEq] at hrun
      exact hrun ▸ coheres_quiet rfl rfl
    · have htbl := h.lt_of_allocated (h.mapped.table (pdx va) (vpage_user hop) hpde)
      exact coheres_remove h.mapped.tables hop hpde htbl hrun

/-! ### Steps of the machine -/

/-- The memory that the processor walks for user addresses is the same. -/
structure SameTables (m m' : Mem) (pgdir : ℕ) : Prop where
  dir : ∀ d, m' pgdir d = m pgdir d
  table : ∀ d : Fin 1024, d.val < userEntries → m pgdir d ≠ 0#32 →
    ∀ i, m' (frameOf (m pgdir d)) i = m (frameOf (m pgdir d)) i

/-- The state with other memory contents. -/
def withMem (s : Kern) (m : Mem) : Kern := { s with mem := m }

/-- The steps of the machine, with calls that satisfy `ok`. A call happens with fills in
between its stores, and no page is referenced more than 65535 times after it. -/
inductive MachineStep (ok : Kern → PageOp → Prop) : Kern × Tlb → Kern × Tlb → Prop
  | call {s s' t t' op evs} (hop : s.Callable op) (hok : ok s op) (hrun : op.run s = .ok s')
      (hbound : ∀ pp, refs s'.mem s'.kernPgdir pp ≤ 65535)
      (hlog : s'.log = evs.reverse ++ s.log)
      (hevs : (tlbLookup s.kernPgdir).Run (s.mem, t) evs (s'.mem, t')) :
      MachineStep ok (s, t) (s', t')
  | fill {s t x e} (hwalk : walk s.mem s.kernPgdir x = some e) :
      MachineStep ok (s, t) (s, Function.update t x (some e))
  | drop {s t x} : MachineStep ok (s, t) (s, Function.update t x none)
  | write {s t m} (hsame : SameTables s.mem m s.kernPgdir) : MachineStep ok (s, t) (s.withMem m, t)

theorem MachineStep.mono {ok ok' : Kern → PageOp → Prop} {st st' : Kern × Tlb}
    (hok : ∀ s op, ok s op → ok' s op) (h : MachineStep ok st st') : MachineStep ok' st st' := by
  cases h with
  | call hop h hrun hbound hlog hevs => exact .call hop (hok _ _ h) hrun hbound hlog hevs
  | fill hwalk => exact .fill hwalk
  | drop => exact .drop
  | write hsame => exact .write hsame

/-- Every TLB entry below `UTOP` is the current translation, and names an allocated page. -/
def TlbCoherent (s : Kern) (t : Tlb) : Prop :=
  ∀ x e, x.User → t x = some e → walk s.mem s.kernPgdir x = some e ∧ s.Allocated (frameOf e.2)

/-- The invariant of the machine. -/
structure MachineInv (avail : ℕ → Prop) (st : Kern × Tlb) : Prop where
  kern : RunInv avail st.1
  tlb : (tlbLookup st.1.kernPgdir).CoherentBut Outside st.1.mem st.2

theorem machineInv_iff : MachineInv avail (s, t) ↔ RunInv avail s ∧ TlbCoherent s t := by
  constructor
  · rintro ⟨hkern, htlb⟩
    obtain ⟨⟨l, howned⟩, -⟩ := id hkern
    refine ⟨hkern, fun x e hx he => ?_⟩
    have hwalk : walk s.mem s.kernPgdir x = some e := (htlb x e he).resolve_right (not_not.mpr hx)
    refine ⟨hwalk, ?_⟩
    rw [walk_eq_user_slot howned.mapped.tables hx] at hwalk
    split_ifs at hwalk with hpresent
    rw [← Option.some_inj.mp hwalk]
    exact (howned.mapped.slots x hx (ne_zero_of_present hpresent)).2
  · rintro ⟨hkern, htlb⟩
    refine ⟨hkern, fun x e he => ?_⟩
    by_cases hx : x.User
    · exact .inl (htlb x e hx he).1
    · exact .inr hx

section SameTables

variable {m m' : Mem} {pgdir : ℕ} (hsame : SameTables m m' pgdir)

include hsame

theorem slot_congr {x : VPage} (hx : x.User) : slot m' pgdir x = slot m pgdir x := by
  by_cases hpde : m pgdir x.1 = 0#32
  · rw [slot_of_eq hpde, slot_of_eq (by rw [hsame.dir, hpde])]
  · rw [slot_of_ne hpde, slot_of_ne (by rw [hsame.dir]; exact hpde), hsame.dir,
      hsame.table x.1 hx hpde]

theorem refs_congr (q : ℕ) : refs m' pgdir q = refs m pgdir q := by
  have hmap : ∀ x, MapsTo m' pgdir q x ↔ MapsTo m pgdir q x :=
    fun x => and_congr_right fun hx => by rw [slot_congr hsame hx]
  have htable : ∀ d, TableAt m' pgdir q d ↔ TableAt m pgdir q d :=
    fun d => by rw [TableAt, TableAt, hsame.dir]
  rw [refs, refs, Finset.filter_congr fun x _ => hmap x, Finset.filter_congr fun d _ => htable d]

theorem mapped_congr {own : ℕ → Prop} (h : Mapped own m pgdir) : Mapped own m' pgdir where
  tables := userTables_congr h.tables hsame.dir
  table d hd hne := by
    rw [hsame.dir] at hne ⊢
    exact h.table d hd hne
  slots x hx hne := by
    rw [slot_congr hsame hx] at hne ⊢
    exact h.slots x hx hne

theorem walk_congr_tables {own : ℕ → Prop} (h : Mapped own m pgdir) {x : VPage} (hx : x.User) :
    walk m' pgdir x = walk m pgdir x := by
  rw [walk_eq_user_slot (mapped_congr hsame h).tables hx, walk_eq_user_slot h.tables hx,
    slot_congr hsame hx, hsame.dir]

end SameTables

theorem Owned.withMem (h : Owned avail noExtra s l) {m : Mem}
    (hsame : SameTables s.mem m s.kernPgdir) : Owned avail noExtra (s.withMem m) l where
  free := h.free
  mem_iff := h.mem_iff
  avail_of_allocated := h.avail_of_allocated
  avail_lt := h.avail_lt
  pgdir := h.pgdir
  mapped := mapped_congr hsame h.mapped
  count q hq := by
    change s.ref q = BitVec.ofNat 16 (refs m s.kernPgdir q + noExtra q)
    rw [refs_congr hsame]
    exact h.count q hq

theorem RunInv.withMem (h : RunInv avail s) {m : Mem} (hsame : SameTables s.mem m s.kernPgdir) :
    RunInv avail (s.withMem m) := by
  obtain ⟨⟨l, howned⟩, hbound⟩ := h
  refine ⟨⟨l, howned.withMem hsame⟩, fun q => ?_⟩
  change refs m s.kernPgdir q ≤ 65535
  rw [refs_congr hsame]
  exact hbound q

variable {st st' : Kern × Tlb}

/-- Every step keeps the invariant. -/
theorem MachineInv.step (h0 : ¬ avail 0) (h : MachineInv avail st)
    (hstep : MachineStep CleanCall st st') : MachineInv avail st' := by
  obtain ⟨hkern, htlb⟩ := h
  cases hstep with
  | call hop hok hrun hbound hlog hevs =>
    obtain ⟨⟨l, howned⟩, hbound₀⟩ := hkern
    obtain ⟨l', howned', hkern'⟩ := howned.runCall h0 hbound₀ hop hok hrun
    obtain ⟨evs', hlog', -, htriple⟩ := howned.coheres_run hop hok hrun
    rw [hlog, List.append_cancel_right_eq, List.reverse_inj] at hlog'
    subst hlog'
    refine ⟨⟨⟨l', howned'⟩, hbound⟩, ?_⟩
    rw [hkern']
    exact (htriple _ _ htlb hevs).2
  | fill hwalk => exact ⟨hkern, htlb.fill hwalk⟩
  | drop => exact ⟨hkern, htlb.drop _⟩
  | @write s t m hsame =>
    obtain ⟨⟨l, howned⟩, -⟩ := id hkern
    refine ⟨hkern.withMem hsame, fun x e he => ?_⟩
    by_cases hx : x.User
    · refine (htlb x e he).imp_left fun hwalk => ?_
      exact (walk_congr_tables hsame howned.mapped hx).trans hwalk
    · exact .inr hx

theorem MachineInv.run (h0 : ¬ avail 0) (h : MachineInv avail st)
    (hrun : Relation.ReflTransGen (MachineStep CleanCall) st st') : MachineInv avail st' := by
  induction hrun with
  | refl => exact h
  | tail _ hstep ih => exact ih.step h0 hstep

/-- **TLB coherence.** In a run from a state in which the pages are owned and the TLB is
coherent, the TLB is coherent whenever a call has returned, if every page table that a call
makes comes clean from the allocator. -/
theorem tlb_coherent (h0 : ¬ avail 0) (h : RunInv avail s₀) {t₀ : Tlb} (htlb : TlbCoherent s₀ t₀)
    (hrun : Relation.ReflTransGen (MachineStep CleanCall) (s₀, t₀) (s, t)) : TlbCoherent s t :=
  (machineInv_iff.mp ((machineInv_iff.mpr ⟨h, htlb⟩).run h0 hrun)).2

/-! ### Page tables that are not clean -/

/-- The events from `s` to `s'` flush nothing. -/
structure Stores (pgdir : ℕ) (s s' : Kern) (evs : List Event) : Prop where
  log : s'.log = evs.reverse ++ s.log
  mem : s'.mem = (tlbLookup pgdir).replay s.mem evs
  flush : ∀ ev ∈ evs, (tlbLookup pgdir).flush ev = none

section Stores

variable {pgdir : ℕ} {s₁ s₂ : Kern} {evs evs' : List Event}

theorem Stores.trans (h : Stores pgdir s s₁ evs) (h' : Stores pgdir s₁ s₂ evs') :
    Stores pgdir s s₂ (evs ++ evs') where
  log := by rw [h'.log, h.log, List.reverse_append, List.append_assoc]
  mem := by rw [h'.mem, h.mem, Lookup.replay_append]
  flush ev hev := (List.mem_append.mp hev).elim (h.flush ev) (h'.flush ev)

theorem stores_store (f : ℕ) (i : Fin 1024) (v : Word) :
    Stores pgdir s (s.store f i v) [.store f i v] :=
  ⟨rfl, rfl, fun _ hev => List.mem_singleton.mp hev ▸ rfl⟩

theorem stores_memset (pa : ℕ) (c : BitVec 8) (n : ℕ) :
    ∃ evs, Stores pgdir s (s.memset pa c n) evs := by
  induction n generalizing s pa with
  | zero =>
    rw [Kern.memset]
    exact ⟨[], rfl, rfl, fun _ hev => absurd hev (List.not_mem_nil)⟩
  | succ n ih =>
    obtain ⟨evs, hevs⟩ := ih (s := s.storeByte pa c) (pa + 1)
    rw [Kern.memset]
    exact ⟨_, (stores_store ..).trans hevs⟩

/-- Events without a flush run with a fill between any two of them. -/
theorem Stores.run_fill (h : Stores pgdir s s₁ evs) (h' : Stores pgdir s₁ s₂ evs') {x : VPage}
    {e : Word × Word} (hwalk : walk s₁.mem pgdir x = some e) :
    (tlbLookup pgdir).Run (s.mem, t) (evs ++ evs') (s₂.mem, Function.update t x (some e)) := by
  have hfst := Lookup.run_of_flush_none (m := s.mem) (c := t) h.flush
  have hsnd := Lookup.run_of_flush_none (m := s₁.mem) (c := Function.update t x (some e)) h'.flush
  rw [← h.mem] at hfst
  rw [← h'.mem] at hsnd
  exact hfst.append (.fill hwalk hsnd)

/-- Making a page table stores its directory entry before it clears the table. -/
theorem stores_install (pgdir : ℕ) (va : Word) (step : AllocStep s pt l s₁) :
    ∃ u evs evs', Stores pgdir s u evs ∧ Stores pgdir u (s₁.installed pgdir va pt) evs' ∧
      u.mem = s.mem.set pgdir (pdx va) (newPde pt) := by
  have hlog : s₁.log = .alloc pt :: s.log := by rw [step.frame]
  have halloc : Stores pgdir s s₁ [.alloc pt] :=
    ⟨hlog, step.mem, fun _ hev => List.mem_singleton.mp hev ▸ rfl⟩
  have hstore := halloc.trans (stores_store pgdir (pdx va) (newPde pt))
  obtain ⟨u, hu⟩ : ∃ u, u = (s₁.store pgdir (pdx va) (newPde pt)).setRef pt 1#16 := ⟨_, rfl⟩
  obtain ⟨evs, hevs⟩ : ∃ evs, Stores pgdir u (u.memset (pt * 4096) 0#8 4096) evs := stores_memset ..
  have hinstalled : s₁.installed pgdir va pt = u.memset (pt * 4096) 0#8 4096 := by
    rw [installed, hu]
  rw [← hinstalled] at hevs
  have hmem : u.mem = s.mem.set pgdir (pdx va) (newPde pt) := by
    rw [hu, mem_setRef, mem_store, step.mem]
  have hfst : Stores pgdir s u ([.alloc pt] ++ [.store pgdir (pdx va) (newPde pt)]) := by
    rw [hu]
    exact ⟨hstore.log, hstore.mem, hstore.flush⟩
  exact ⟨u, _, evs, hfst, hevs, hmem⟩

end Stores

/-- With the directory entry in place, the page translates what it held before. -/
theorem walk_dirty {m : Mem} {K : ℕ} {d i : Fin 1024} (hpt : pt < 2 ^ 20) (hdir : K ≠ pt)
    (hi : present (m pt i)) :
    walk (m.set K d (newPde pt)) K (d, i) = some (newPde pt, m pt i) := by
  have hframe := frameOf_newPde hpt
  have hpte : (m.set K d (newPde pt)) pt i = m pt i := Mem.set_of_frame_ne hdir.symm ..
  rw [walk_of_present, Mem.set_same, hframe, hpte]
  · rw [Mem.set_same]
    exact present_newPde pt
  · rw [Mem.set_same, hframe, hpte]
    exact hi

/-- A present word in a page that becomes a page table, other than the entry that
`page_insert` writes, can stay behind in the TLB. -/
theorem exists_stale (h : Owned avail noExtra s (pt :: l))
    (hpp : s.Allocated pp) (hpde : s.mem s.kernPgdir (pdx va) = 0#32) {i : Fin 1024}
    (hi : present (s.mem pt i)) (hne : ¬ (i = ptx va ∧ s.mem pt i = newPte pp perm)) :
    ∃ s' evs, s.pageInsert s.kernPgdir pp va perm = .ok (0, s') ∧ s'.kernPgdir = s.kernPgdir ∧
      s'.log = evs.reverse ++ s.log ∧
      (tlbLookup s.kernPgdir).Run (s.mem, t) evs
        (s'.mem, Function.update t (pdx va, i) (some (newPde pt, s.mem pt i))) ∧
      walk s'.mem s.kernPgdir (pdx va, i) ≠ some (newPde pt, s.mem pt i) := by
  obtain ⟨hpt, hnot⟩ := (h.mem_iff pt).mp (List.mem_cons_self ..)
  have hlt := h.avail_lt pt hpt
  have hdir : s.kernPgdir ≠ pt := fun heq => h.pgdir (heq ▸ hpt)
  obtain ⟨s₁, step, hinsert⟩ :=
    pageInsert_install va perm hpde h.free hlt hdir (h.lt_of_allocated hpp)
  obtain ⟨u, evs, evs', hfst, hmid, hmem_u⟩ := stores_install s.kernPgdir va step
  -- `u` follows the store of the directory entry, `v` the clearing, `w` the insertion
  obtain ⟨v, hv⟩ : ∃ v, v = s₁.installed s.kernPgdir va pt := ⟨_, rfl⟩
  obtain ⟨w, hw⟩ : ∃ w, w = (v.setRef pp (v.ref pp + 1#16)).store pt (ptx va) (newPte pp perm) :=
    ⟨_, rfl⟩
  rw [← hv] at hmid
  rw [← hv, ← hw] at hinsert
  have hsnd : Stores s.kernPgdir u w (evs' ++ [.store pt (ptx va) (newPte pp perm)]) := by
    rw [hw]
    exact hmid.trans ⟨rfl, rfl, fun _ hev => List.mem_singleton.mp hev ▸ rfl⟩
  -- the fill happens between the store of the directory entry and the clearing of the table
  have hfill : walk u.mem s.kernPgdir (pdx va, i) = some (newPde pt, s.mem pt i) := by
    rw [hmem_u]
    exact walk_dirty (lt_of_lt_npages hlt) hdir hi
  have hmem_w : w.mem = v.mem.set pt (ptx va) (newPte pp perm) := by
    rw [hw]
    rfl
  have hmem_v (g : ℕ) (j : Fin 1024) : v.mem g j =
      if g = pt then 0#32 else s.mem.set s.kernPgdir (pdx va) (newPde pt) g j := by
    rw [hv, mem_installed, step.mem]
  refine ⟨w, _, hinsert, ?_, (hfst.trans hsnd).log, hfst.run_fill hsnd hfill, fun heq => ?_⟩
  · rw [hw]
    change v.kernPgdir = s.kernPgdir
    rw [hv, installed_kernPgdir, step.kernPgdir]
  · have hpde_w : w.mem s.kernPgdir (pdx va) = newPde pt := by
      rw [hmem_w, Mem.set_of_frame_ne hdir, hmem_v, if_neg hdir, Mem.set_same]
    rw [walk, hpde_w, if_pos (present_newPde pt), frameOf_newPde (lt_of_lt_npages hlt)] at heq
    split_ifs at heq with hpresent
    have hpte : w.mem pt i = s.mem pt i := (Prod.mk.inj (Option.some_inj.mp heq)).2
    -- the word is gone unless it is the one that the insertion writes
    by_cases hit : i = ptx va
    · refine hne ⟨hit, ?_⟩
      rw [← hpte, hmem_w, hit, Mem.set_same]
    · rw [hmem_w, Mem.set_of_idx_ne hit, hmem_v, if_pos rfl] at hpresent
      exact not_present_zero hpresent

/-- Writing to a free page leaves the user page tables alone. -/
theorem Owned.sameTables (h : Owned avail noExtra s l) (hpt : pt ∈ l) {m : Mem}
    (hm : ∀ g, g ≠ pt → m g = s.mem g) : SameTables s.mem m s.kernPgdir where
  dir d := by
    rw [hm]
    rintro rfl
    exact h.pgdir ((h.mem_iff _).mp hpt).1
  table d hd hne j := by
    rw [hm]
    rintro rfl
    exact h.not_mem_of_allocated (h.mapped.table d hd hne) hpt

/-- A clean call while the TLB is empty and is not filled. -/
theorem Owned.machineStep (h : Owned avail noExtra s l) {op : PageOp} (hop : s.Callable op)
    (hclean : s.CleanCall op) (hrun : op.run s = .ok s')
    (hbound : ∀ q, refs s'.mem s'.kernPgdir q ≤ 65535) :
    MachineStep CleanCall (s, fun _ => none) (s', fun _ => none) := by
  obtain ⟨evs, hlog, hmem, -⟩ := h.coheres_run hop hclean hrun
  refine .call hop hclean hrun hbound hlog ?_
  rw [hmem]
  exact Lookup.run_of_empty

/-- Removing one of several mappings of a page drops the TLB entry of this one. -/
theorem Owned.machineStep_remove (h : Owned avail noExtra s l) (hva : va < utop)
    (hslot : slot s.mem s.kernPgdir (vpage va) ≠ 0#32)
    (href : s.ref (frameOf (slot s.mem s.kernPgdir (vpage va))) ≠ 1#16)
    (hbound : ∀ q, refs s.mem s.kernPgdir q ≤ 65535) :
    ∃ s', (PageOp.remove va).run s = .ok s' ∧
      MachineStep CleanCall (s, t) (s', Function.update t (vpage va) none) := by
  have hpde : s.mem s.kernPgdir (pdx va) ≠ 0#32 := fun hzero =>
    hslot (slot_of_eq (x := vpage va) hzero)
  have htbl := h.lt_of_allocated (h.mapped.table (pdx va) (vpage_user hva) hpde)
  have hpage := h.lt_of_allocated (h.mapped.slots _ (vpage_user hva) hslot).2
  have hop : s.Callable (.remove va) := hva
  have hclean : s.CleanCall (.remove va) := fun _ hzero => absurd hzero hslot
  obtain ⟨s', l', hrun, -, step⟩ := h.remove hva hpde hslot (Nat.le_succ_of_le (hbound _))
  have hlog : s'.log = [.store (frameOf (s.mem s.kernPgdir (pdx va))) (ptx va) 0#32,
      .invlpg va].reverse ++ s.log := by
    rw [slot_of_ne (x := vpage va) hpde] at href hpage
    rw [pageRemove_eq hpde htbl (pageDecref_pos hpage href), Except.ok.injEq] at hrun
    rw [← hrun]
    rfl
  refine ⟨s', hrun, .call hop hclean hrun (fun q => ?_) hlog ?_⟩
  · exact (Nat.le_add_right ..).trans ((step.refs_eq q).trans_le (hbound q))
  · rw [step.mem]
    exact .event (.event (.done _))

/-- The machine after boot with an empty TLB, and after one page has been allocated. -/
theorem exists_booted_machine : ∃ s₀ s₁ s₂ l, bootMemInit (filledBoot 0#32) = .ok s₀ ∧
    s₀.pageInit = .ok s₁ ∧ RunInv (· ∈ freeFrom 354 4352) s₁ ∧
    MachineInv (· ∈ freeFrom 354 4352) (s₂, fun _ => none) ∧
    Owned (· ∈ freeFrom 354 4352) noExtra s₂ (4350 :: l) ∧ s₂.Allocated 4351 ∧
    s₂.mem s₂.kernPgdir 0 = 0#32 ∧ (∀ q, refs s₂.mem s₂.kernPgdir q = 0) ∧
    MachineStep CleanCall (s₁, fun _ => none) (s₂, fun _ => none) := by
  obtain ⟨s₀, s₁, s₂, l, hboot, hinit, hstage, howned, hmem, hkern, -, hnone, hrun, step⟩ :=
    exists_booted
  have hrefs₁ (q : ℕ) : refs s₁.mem s₁.kernPgdir q = 0 := howned.mapped.refs_eq_zero (hnone q)
  have hinv₁ : RunInv (· ∈ freeFrom 354 4352) s₁ := ⟨⟨_, howned⟩, fun q => by rw [hrefs₁]; decide⟩
  have hrefs₂ (q : ℕ) : refs s₂.mem s₂.kernPgdir q = 0 := by
    rw [step.mem, step.kernPgdir]
    exact hrefs₁ q
  -- the boot code maps nothing at address 0
  have hlow : s₂.mem s₂.kernPgdir 0 = 0#32 := by
    have hF : (filledBoot 0#32).firstFree = 275 := by decide
    have hpgdir := hstage.pgdir 0
    rw [step.mem, step.kernPgdir, hmem, hkern, hstage.kernPgdir, hpgdir]
    decide
  have hstep : MachineStep CleanCall (s₁, fun _ => none) (s₂, fun _ => none) := by
    have hop : s₁.Callable .alloc := trivial
    have hlog : s₂.log = [.alloc 4351].reverse ++ s₁.log := by
      rw [step.frame]
      rfl
    refine .call hop trivial hrun (fun q => ?_) hlog ?_
    · rw [hrefs₂]
      decide
    · rw [step.mem]
      exact .event (.done _)
  refine ⟨s₀, s₁, s₂, l, hboot, hinit, hinv₁, ⟨⟨⟨_, howned.alloc step⟩, ?_⟩, ?_⟩,
    howned.alloc step, ?_, hlow, hrefs₂, hstep⟩
  · intro q
    rw [hrefs₂]
    decide
  · exact fun x e he => absurd he.symm (Option.some_ne_none e)
  · exact (step.allocated_iff 4351).mpr (.inl rfl)

/-- After page 4351 has been allocated and another part of the kernel has cleared the free
page 4350, the first can be mapped with the second as its page table. -/
theorem exists_cleared_machine : ∃ s₀ s₁ u l, bootMemInit (filledBoot 0#32) = .ok s₀ ∧
    s₀.pageInit = .ok s₁ ∧ RunInv (· ∈ freeFrom 354 4352) s₁ ∧
    Relation.ReflTransGen (MachineStep CleanCall) (s₁, fun _ => none) (u, fun _ => none) ∧
    Owned (· ∈ freeFrom 354 4352) noExtra u (4350 :: l) ∧
    MapInv (· ∈ freeFrom 354 4352) 4351 [] u ∧
    FirstPages (· ∈ freeFrom 354 4352) 4351 0 1 u ∧ ∀ i, u.mem 4350 i = 0#32 := by
  obtain ⟨s₀, s₁, s₂, l, hboot, hinit, hinv, hmachine, howned, halloc, hlow, hrefs, hstep⟩ :=
    exists_booted_machine
  obtain ⟨m, hm⟩ : ∃ m : Mem, m = fun g i => if g = 4350 then 0#32 else s₂.mem g i := ⟨_, rfl⟩
  have hsame := howned.sameTables (m := m) (List.mem_cons_self ..) fun g hg => by
    rw [hm]
    exact funext fun i => if_neg hg
  have href : s₂.ref 4351 = 0#16 := by
    rw [howned.count 4351 halloc, hrefs]
    rfl
  have howned_u := howned.withMem hsame
  refine ⟨s₀, s₁, s₂.withMem m, l, hboot, hinit, hinv, .tail (.single hstep) (.write hsame),
    howned_u, (hmachine.kern.withMem hsame).mapInv halloc href, ⟨⟨_, howned_u, ?_⟩, halloc, ?_⟩, ?_⟩
  · rw [List.length_cons]
    omega
  · -- nothing is referenced, so no entry is in use
    intro x hx
    rw [if_neg (Nat.not_lt_zero _)]
    by_contra hslot
    have hpos := refs_pos_of_mapsTo ⟨hx, (howned_u.mapped.slots x hx hslot).1, rfl⟩
    change 0 < refs m s₂.kernPgdir _ at hpos
    rw [refs_congr hsame, hrefs] at hpos
    exact Nat.lt_irrefl 0 hpos
  · intro i
    change m 4350 i = _
    rw [hm]
    exact if_pos rfl

/-- A run with all kinds of steps: page 4351 is mapped at two addresses, the TLB is filled with
both translations, and one mapping is removed. Its entry is gone and the other one is left. -/
theorem tlb_coherent_booted : ∃ s₀ s₁ u v w s t, bootMemInit (filledBoot 0#32) = .ok s₀ ∧
    s₀.pageInit = .ok s₁ ∧ (PageOp.insert 4351 0#32 0#32).run u = .ok v ∧
    (PageOp.insert 4351 0x1000#32 0#32).run v = .ok w ∧ (PageOp.remove 0#32).run w = .ok s ∧
    Relation.ReflTransGen (MachineStep CleanCall) (s₁, fun _ => none) (s, t) ∧
    (∃ pde, t (vpage 0x1000#32) = some (pde, newPte 4351 0#32)) ∧ t (vpage 0#32) = none ∧
    TlbCoherent s t := by
  obtain ⟨s₀, s₁, u, l, hboot, hinit, hinv, hrun, howned, hmap, hfirst, hzero⟩ :=
    exists_cleared_machine
  have h0 : 0 ∉ freeFrom 354 4352 := by
    rw [mem_freeFrom]
    decide
  -- the first mapping takes page 4350 for its page table
  obtain ⟨v, hinsert_v, hfirst_v⟩ := hfirst.step (by decide) (by decide)
  have hmap_v := hmap.insert (pageCall_lt_utop (by decide)) (by decide) List.not_mem_nil hinsert_v
  have hrun_v : (PageOp.insert 4351 0#32 0#32).run u = .ok v := by
    rw [PageOp.run]
    exact congrArg (fun r => r >>= fun p : ℤ × Kern => Except.ok p.2) hinsert_v
  have hclean : u.CleanCall (.insert 4351 0#32 0#32) := by
    intro _ pt hpt i hpresent
    rw [howned.free.first_eq, List.head?_cons, Option.some_inj] at hpt
    rw [← hpt, hzero] at hpresent
    exact absurd hpresent not_present_zero
  have hop_u : u.Callable (.insert 4351 0#32 0#32) := ⟨hmap.allocated, by decide, by decide⟩
  have hstep_v := howned.machineStep hop_u hclean hrun_v
    (hmap_v.runInv (by decide)).2
  -- the second one finds it
  obtain ⟨w, hinsert_w, hfirst_w⟩ := hfirst_v.step (by decide) (by decide)
  have hmap_w := hmap_v.insert (pageCall_lt_utop (by decide)) (by decide) (by decide) hinsert_w
  have hrun_w : (PageOp.insert 4351 0x1000#32 0#32).run v = .ok w := by
    rw [PageOp.run]
    exact congrArg (fun r => r >>= fun p : ℤ × Kern => Except.ok p.2) hinsert_w
  obtain ⟨lv, howned_v, -⟩ := hfirst_v.owned
  have hpde_v : v.mem v.kernPgdir (pdx 0x1000#32) ≠ 0#32 := by
    intro hpde
    have hslot := hfirst_v.slots (0, 0) (by decide)
    rw [slot_of_eq hpde, if_pos (by decide)] at hslot
    exact ne_zero_of_present (present_newPte 4351 0#32) hslot.symm
  have hop_v : v.Callable (.insert 4351 0x1000#32 0#32) :=
    ⟨hmap_v.allocated, by decide, by decide⟩
  have hstep_w := howned_v.machineStep hop_v (fun hpde => absurd hpde hpde_v) hrun_w
    (hmap_w.runInv (by decide)).2
  -- both translations are cached, and one mapping is removed
  obtain ⟨lw, howned_w, -⟩ := hfirst_w.owned
  have hslot_w {x : VPage} (hx : x.User) (hlt : pageIndex x < 2) :
      slot w.mem w.kernPgdir x = newPte 4351 0#32 := (hfirst_w.slots x hx).trans (if_pos hlt)
  have hwalk_w {x : VPage} (hx : x.User) (hlt : pageIndex x < 2) :
      walk w.mem w.kernPgdir x = some (w.mem w.kernPgdir x.1, newPte 4351 0#32) := by
    rw [walk_eq_user_slot howned_w.mapped.tables hx, hslot_w hx hlt,
      if_pos (present_newPte 4351 0#32)]
  obtain ⟨t₁, ht₁⟩ : ∃ t₁ : Tlb, t₁ = Function.update (fun _ => none) (vpage 0#32)
    (some (w.mem w.kernPgdir (vpage 0#32).1, newPte 4351 0#32)) := ⟨_, rfl⟩
  obtain ⟨t₂, ht₂⟩ : ∃ t₂ : Tlb, t₂ = Function.update t₁ (vpage 0x1000#32)
    (some (w.mem w.kernPgdir (vpage 0x1000#32).1, newPte 4351 0#32)) := ⟨_, rfl⟩
  have hfill₁ : MachineStep CleanCall (w, fun _ => none) (w, t₁) :=
    ht₁ ▸ .fill (hwalk_w (by decide) (by decide))
  have hfill₂ : MachineStep CleanCall (w, t₁) (w, t₂) :=
    ht₂ ▸ .fill (hwalk_w (by decide) (by decide))
  have hslot : slot w.mem w.kernPgdir (vpage 0#32) = newPte 4351 0#32 :=
    hslot_w (by decide) (by decide)
  have hne : slot w.mem w.kernPgdir (vpage 0#32) ≠ 0#32 := by
    rw [hslot]
    exact ne_zero_of_present (present_newPte 4351 0#32)
  -- two mappings count two, so the page stays allocated
  have href : w.ref (frameOf (slot w.mem w.kernPgdir (vpage 0#32))) ≠ 1#16 := by
    rw [hslot, frameOf_newPte (by decide) (by decide), hmap_w.ref]
    decide
  obtain ⟨s, hremove, hstep_s⟩ :=
    howned_w.machineStep_remove (t := t₂) (by decide) hne href (hmap_w.runInv (by decide)).2
  have hrun_s := ((((hrun.tail hstep_v).tail hstep_w).tail hfill₁).tail hfill₂).tail hstep_s
  refine ⟨s₀, s₁, u, v, w, s, _, hboot, hinit, hrun_v, hrun_w, hremove, hrun_s,
    ⟨w.mem w.kernPgdir (vpage 0x1000#32).1, ?_⟩, Function.update_self .., ?_⟩
  · rw [Function.update_of_ne (by decide), ht₂, Function.update_self]
  · exact tlb_coherent h0 hinv (fun x e _ he => absurd he.symm (Option.some_ne_none e)) hrun_s

/-- A page that is handed out as a page table with a word of an earlier user in it leaves a
translation of address `0x1000` in the TLB that no page table holds. -/
theorem not_tlbCoherent_dirty : ∃ s₀ s₁ s t, bootMemInit (filledBoot 0#32) = .ok s₀ ∧
    s₀.pageInit = .ok s₁ ∧
    Relation.ReflTransGen (MachineStep fun _ _ => True) (s₁, fun _ => none) (s, t) ∧
    ¬ TlbCoherent s t := by
  obtain ⟨s₀, s₁, s₂, l, hboot, hinit, -, -, howned, halloc, hlow, hrefs, hstep⟩ :=
    exists_booted_machine
  -- another part of the kernel writes a word into the free page 4350
  have hsame := howned.sameTables (m := s₂.mem.set 4350 1 0x5003#32) (List.mem_cons_self ..)
    fun g hg => funext fun i => Mem.set_of_frame_ne hg ..
  obtain ⟨u, hu⟩ : ∃ u, u = s₂.withMem (s₂.mem.set 4350 1 0x5003#32) := ⟨_, rfl⟩
  have hmem_u : u.mem = s₂.mem.set 4350 1 0x5003#32 := by rw [hu]; rfl
  have hkern_u : u.kernPgdir = s₂.kernPgdir := by rw [hu]; rfl
  have hrefs_u (q : ℕ) : refs u.mem u.kernPgdir q = 0 := by
    rw [hmem_u, hkern_u, refs_congr hsame, hrefs]
  have hlow_u : u.mem u.kernPgdir (pdx 0#32) = 0#32 := by
    rw [hmem_u, hkern_u, hsame.dir]
    exact hlow
  have hword : u.mem 4350 1 = 0x5003#32 := by rw [hmem_u, Mem.set_same]
  have howned' : Owned (· ∈ freeFrom 354 4352) noExtra u (4350 :: l) := hu ▸ howned.withMem hsame
  have halloc_u : u.Allocated 4351 := by
    rw [hu]
    exact halloc
  have hva : 0#32 < utop := by decide
  have hne : ¬ ((1 : Fin 1024) = ptx 0#32 ∧ u.mem 4350 1 = newPte 4351 0#32) :=
    fun heq => absurd heq.1 (by decide)
  obtain ⟨w, evs, hinsert, hkern, hlog, hrun, hwalk⟩ := exists_stale (t := fun _ => none)
    howned' halloc_u hlow_u (by rw [hword]; decide) hne
  rw [hword] at hrun hwalk
  obtain ⟨t, ht⟩ : ∃ t : Tlb, t = Function.update (fun _ => none) (pdx 0#32, 1)
    (some (newPde 4350, 0x5003#32)) := ⟨_, rfl⟩
  rw [← ht] at hrun
  refine ⟨s₀, s₁, w, t, hboot, hinit, ?_, ?_⟩
  · have hfst : MachineStep (fun _ _ => True) (s₁, fun _ => none) (s₂, fun _ => none) :=
      hstep.mono fun _ _ _ => trivial
    have hsnd : MachineStep (fun _ _ => True) (s₂, fun _ => none) (u, fun _ => none) :=
      hu ▸ .write hsame
    have htrd : MachineStep (fun _ _ => True) (u, fun _ => none) (w, t) := by
      have hop : u.Callable (.insert 4351 0#32 0#32) := ⟨halloc_u, by decide, by decide⟩
      refine .call hop trivial ?_ ?_ hlog hrun
      · rw [PageOp.run, hinsert]
        rfl
      · intro q
        have hperm : (0#32 : Word).toNat < 4096 := by decide
        have hle := howned'.refs_insert_le hva hperm halloc_u
          (fun hslot => absurd (slot_of_eq hlow_u) hslot) hinsert q
        rw [hrefs_u] at hle
        omega
    exact .tail (.tail (.single hfst) hsnd) htrd
  · intro hcoh
    have hentry := (hcoh (pdx 0#32, 1) (newPde 4350, 0x5003#32) (by decide) ?_).1
    · rw [hkern] at hentry
      exact hwalk hentry
    · rw [ht]
      exact Function.update_self ..

end Kern

end JosVmx
