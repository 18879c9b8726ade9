import JosVmx.Kern.PageInit
import JosVmx.Kern.PageOwnership
import Mathlib.Logic.Relation

/-!
# Runs of the page functions

The page functions as operations on `kern_pgdir`, called in any order from the state
that `page_init` leaves. The counts of the source are about user mappings: the
mapping of all physical memory at `KERNBASE` shows every page and is counted nowhere,
so the run theorem is about addresses below `UTOP`, for the references it counts and
for the addresses it removes.

## Main results

* `Kern.page_ownership` — in every run no page is lost, duplicated, or freed while it is
  mapped, and the counts are exact
-/

namespace JosVmx

open Lib

/-- A call of a page function on `kern_pgdir`. -/
inductive PageOp
  | alloc
  | free (pp : ℕ)
  | insert (pp : ℕ) (va perm : Word)
  | remove (va : Word)
  deriving DecidableEq, Repr

namespace PageOp

/-- The call, its return value apart. -/
def run (s : Kern) : PageOp → Except Fault Kern
  | alloc => do
    let (_, s) ← s.pageAlloc
    .ok s
  | free pp => .ok (s.pageFree pp)
  | insert pp va perm => do
    let (_, s) ← s.pageInsert s.kernPgdir pp va perm
    .ok s
  | remove va => s.pageRemove s.kernPgdir va

/-- What the callers of the page functions respect. -/
def Legal (s : Kern) : PageOp → Prop
  | alloc => True
  | free pp => s.Allocated pp ∧ s.ref pp = 0#16
  | insert pp va perm => s.Allocated pp ∧ va < utop ∧ perm.toNat < 4096
  | remove va => va < utop ∧
      (walk s.mem s.kernPgdir (vpage va) ≠ none ∨ s.mem s.kernPgdir (pdx va) = 0#32)

end PageOp

namespace Kern

variable {s s' s₀ s₁ : Kern} {avail : ℕ → Prop} {l : List ℕ} {b : Boot}

/-- A legal call after which no page has more than 65535 references. -/
def PageStep (s s' : Kern) : Prop :=
  ∃ op : PageOp, op.Legal s ∧ op.run s = .ok s' ∧ ∀ pp, refs s'.mem s'.kernPgdir pp ≤ 65535

/-- A legal call succeeds and keeps the invariant. -/
theorem Owned.run (h : Owned avail noExtra s l) (hbound : ∀ q, refs s.mem s.kernPgdir q ≤ 65535)
    {op : PageOp} (hop : op.Legal s) :
    ∃ s' l', op.run s = .ok s' ∧ Owned avail noExtra s' l' ∧ s'.kernPgdir = s.kernPgdir := by
  cases op with
  | alloc =>
    cases l with
    | nil => exact ⟨s, [], by rw [PageOp.run, pageAlloc_nil h.free]; rfl, h, rfl⟩
    | cons pp l =>
      obtain ⟨s', hrun, step⟩ := pageAlloc_cons h.free
      exact ⟨s', l, by rw [PageOp.run, hrun]; rfl, h.alloc step, step.kernPgdir⟩
  | free pp => exact ⟨_, _, rfl, h.pageFree hop.1 hop.2 (hbound pp), rfl⟩
  | insert pp va perm =>
    rcases h.insert hop.2.1 hop.2.2 hop.1 fun _ => hbound _ with
      ⟨-, -, hrun⟩ | ⟨s', l', hrun, h', step⟩
    · exact ⟨s, l, by rw [PageOp.run, hrun]; rfl, h, rfl⟩
    · exact ⟨s', l', by rw [PageOp.run, hrun]; rfl, h', step.kernPgdir⟩
  | remove va =>
    obtain ⟨hva, hmapped | hpde⟩ := hop
    · obtain ⟨hpresent, hpte⟩ := walk_ne_none_iff.mp hmapped
      have hpde := ne_zero_of_present hpresent
      have hslot : slot s.mem s.kernPgdir (vpage va) ≠ 0#32 := by
        rw [slot_of_ne hpde]
        exact ne_zero_of_present hpte
      obtain ⟨s', l', hrun, h', step⟩ :=
        h.remove hva hpde hslot (Nat.le_succ_of_le (hbound _))
      exact ⟨s', l', hrun, h', step.kernPgdir⟩
    · exact ⟨s, l, pageRemove_none hpde, h, rfl⟩

/-- An insertion adds at most one reference to any page. -/
theorem Owned.refs_insert_le {pp : ℕ} {va perm : Word} (h : Owned avail noExtra s l)
    (hva : va < utop) (hperm : perm.toNat < 4096) (hpp : s.Allocated pp)
    (hbound : slot s.mem s.kernPgdir (vpage va) ≠ 0#32 →
      refs s.mem s.kernPgdir (frameOf (slot s.mem s.kernPgdir (vpage va))) ≤ 65535)
    (hrun : s.pageInsert s.kernPgdir pp va perm = .ok (0, s')) (q : ℕ) :
    refs s'.mem s'.kernPgdir q ≤ refs s.mem s.kernPgdir q + 1 := by
  rcases h.insert hva hperm hpp hbound with ⟨-, -, hfull⟩ | ⟨t, l', hinsert, -, step⟩
  · rw [hfull, Except.ok.injEq, Prod.mk.injEq] at hrun
    exact absurd hrun.1 (by decide)
  · rw [hinsert, Except.ok.injEq, Prod.mk.injEq] at hrun
    rw [← hrun.2]
    by_cases halloc : s.Allocated q
    · have hrefs := step.refs_eq q halloc
      split_ifs at hrefs <;> omega
    · exact (step.refs_new q halloc).trans (Nat.le_add_left ..)

/-- A legal call adds at most one reference to any page. -/
theorem Owned.refs_run_le (h : Owned avail noExtra s l)
    (hbound : ∀ q, refs s.mem s.kernPgdir q ≤ 65535) {op : PageOp} (hop : op.Legal s)
    (hrun : op.run s = .ok s') (q : ℕ) :
    refs s'.mem s'.kernPgdir q ≤ refs s.mem s.kernPgdir q + 1 := by
  cases op with
  | alloc =>
    cases l with
    | nil =>
      rw [PageOp.run, pageAlloc_nil h.free, ok_bind, Except.ok.injEq] at hrun
      exact hrun ▸ Nat.le_succ _
    | cons pp l =>
      obtain ⟨t, halloc, step⟩ := pageAlloc_cons h.free
      rw [PageOp.run, halloc, ok_bind, Except.ok.injEq] at hrun
      rw [← hrun, step.mem, step.kernPgdir]
      exact Nat.le_succ _
  | free pp =>
    rw [PageOp.run, Except.ok.injEq] at hrun
    exact hrun ▸ Nat.le_succ _
  | insert pp va perm =>
    rw [PageOp.run] at hrun
    obtain ⟨⟨r, t⟩, hinsert, hok⟩ := bind_eq_ok hrun
    rw [Except.ok.injEq] at hok
    -- without a page table for `va` and without a free page nothing changes
    rcases h.insert hop.2.1 hop.2.2 hop.1 fun _ => hbound _ with
      ⟨-, -, hfull⟩ | ⟨u, l', hdone, -, -⟩
    · rw [hfull, Except.ok.injEq, Prod.mk.injEq] at hinsert
      rw [← hok, ← hinsert.2]
      exact Nat.le_succ _
    · rw [hdone, Except.ok.injEq, Prod.mk.injEq] at hinsert
      rw [← hok, ← hinsert.2]
      exact h.refs_insert_le hop.2.1 hop.2.2 hop.1 (fun _ => hbound _) hdone q
  | remove va =>
    rw [PageOp.run] at hrun
    obtain ⟨hva, hmapped | hpde⟩ := hop
    · obtain ⟨hpresent, hpte⟩ := walk_ne_none_iff.mp hmapped
      have hpde := ne_zero_of_present hpresent
      have hslot : slot s.mem s.kernPgdir (vpage va) ≠ 0#32 := by
        rw [slot_of_ne hpde]
        exact ne_zero_of_present hpte
      obtain ⟨t, l', hremove, -, step⟩ := h.remove hva hpde hslot (Nat.le_succ_of_le (hbound _))
      rw [hremove, Except.ok.injEq] at hrun
      have hrefs := step.refs_eq q
      rw [← hrun]
      omega
    · rw [pageRemove_none hpde, Except.ok.injEq] at hrun
      exact hrun ▸ Nat.le_succ _

/-- The invariant of runs: the pages are owned and no count has wrapped around. -/
def RunInv (avail : ℕ → Prop) (s : Kern) : Prop :=
  (∃ l, Owned avail noExtra s l) ∧ ∀ q, refs s.mem s.kernPgdir q ≤ 65535

theorem RunInv.step (h : RunInv avail s) (hstep : PageStep s s') : RunInv avail s' := by
  obtain ⟨⟨l, howned⟩, hbound⟩ := h
  obtain ⟨op, hop, hrun, hbound'⟩ := hstep
  obtain ⟨s'', l', hrun', howned', -⟩ := howned.run hbound hop
  rw [hrun, Except.ok.injEq] at hrun'
  exact ⟨⟨l', hrun' ▸ howned'⟩, hbound'⟩

theorem RunInv.run (h : RunInv avail s) (hrun : Relation.ReflTransGen PageStep s s') :
    RunInv avail s' := by
  induction hrun with
  | refl => exact h
  | tail _ hstep ih => exact ih.step hstep

/-! ### The start of a run -/

theorem Boot.bootEnd_ge : 256 ≤ b.bootEnd := by
  have hge := b.firstFree_ge
  have hle := b.firstFree_add_le_bootEnd
  omega

/-- The state that `page_init` leaves, from that of `boot_mem_init`. -/
theorem pageInit_owned (hs : b.Sufficient) (hboot : bootMemInit b = .ok s₀)
    (hinit : s₀.pageInit = .ok s₁) :
    PhysStage b b.bootEnd s₀ ∧ InitInv s₀ b.bootEnd s₀.npages s₁ ∧
      Owned (· ∈ freeFrom b.bootEnd s₀.npages) noExtra s₁ (freeFrom b.bootEnd s₀.npages) := by
  obtain ⟨s, hboot', hstage, -⟩ := bootMemInit_ok hs
  rw [hboot, Except.ok.injEq] at hboot'
  subst hboot'
  obtain ⟨s', hinit', inv⟩ := pageInit_ok (b.bootEnd_lt hs) Boot.bootEnd_ge hstage.next
  rw [hinit, Except.ok.injEq] at hinit'
  subst hinit'
  have hnone (q : ℕ) : ¬ s₁.Allocated q := fun hq => hstage.allocated q ((inv.allocated q).mp hq)
  -- no user entry of the page directory is in use
  have hlow (d : Fin 1024) (hd : d.val < userEntries) : s₁.mem s₁.kernPgdir d = 0#32 := by
    have huser : userEntries = 955 := rfl
    have hslot : Boot.stackSlot.val = 958 := rfl
    have hvpt := val_pdx_vpt
    rw [inv.mem, inv.kernPgdir, hstage.kernPgdir, hstage.pgdir]
    rcases mappedPde_cases (b := b) d with ⟨-, hpde⟩ | ⟨rfl, -⟩ | ⟨rfl, -⟩ | ⟨hd', -⟩
    · exact hpde
    all_goals omega
  refine ⟨hstage, inv, ?_⟩
  constructor
  · exact inv.free
  · exact fun q => (and_iff_left (hnone q)).symm
  · exact fun q hq => absurd hq (hnone q)
  · exact fun q hq => inv.npages ▸ (mem_freeFrom.mp hq).2
  · rw [inv.kernPgdir, hstage.kernPgdir, mem_freeFrom]
    have hle := b.firstFree_add_le_bootEnd
    omega
  · refine ⟨⟨⟨?_, ?_⟩, ?_⟩, ?_, ?_⟩
    · exact fun d hd hne => absurd (hlow d hd) hne
    · exact fun d _ hd _ hne => absurd (hlow d hd) hne
    · exact fun d hd hne => absurd (hlow d hd) hne
    · exact fun d hd hne => absurd (hlow d hd) hne
    · exact fun x hx hne => absurd (slot_of_eq (hlow x.1 hx)) hne
  · exact fun q hq => absurd hq (hnone q)

/-- The invariant of runs holds where they start. -/
theorem pageInit_runInv (hs : b.Sufficient) (hboot : bootMemInit b = .ok s₀)
    (hinit : s₀.pageInit = .ok s₁) : RunInv (· ∈ freeFrom b.bootEnd s₀.npages) s₁ := by
  obtain ⟨hstage, inv, howned⟩ := pageInit_owned hs hboot hinit
  refine ⟨⟨_, howned⟩, fun q => ?_⟩
  have hnone : ¬ s₁.Allocated q := fun hq => hstage.allocated q ((inv.allocated q).mp hq)
  rw [howned.mapped.refs_eq_zero hnone]
  exact Nat.zero_le _

/-- In `s` every page that was free in `s₁` is free or allocated, not both; no other page
is; the counts are exact; and free pages are not referenced. -/
def OwnershipHolds (s₁ s : Kern) : Prop :=
  ∃ l₁ l, s₁.FreeList l₁ ∧ s.FreeList l ∧ l.Nodup ∧
    (∀ pp ∈ l₁, pp ∈ l ∧ ¬ s.Allocated pp ∨ pp ∉ l ∧ s.Allocated pp) ∧
    (∀ pp, pp ∈ l ∨ s.Allocated pp → pp ∈ l₁) ∧
    (∀ pp ∈ l₁, pp ≠ 0 ∧ ¬ (iophysmem.toNat / 4096 ≤ pp ∧ pp < extphysmem.toNat / 4096) ∧
      s₁.bootFrame ≤ pp) ∧
    (∀ pp, s.Allocated pp → (s.ref pp).toNat = refs s.mem s.kernPgdir pp) ∧
    ∀ pp ∈ l, (∀ x, ¬ MapsTo s.mem s.kernPgdir pp x) ∧ ∀ d, ¬ TableAt s.mem s.kernPgdir pp d

/-- **Ownership of pages.** From the state that `page_init` leaves, no run of legal calls
loses a page, hands it out twice or frees it while it is referenced below `UTOP`; the
counts are the numbers of references below `UTOP`; and every legal call succeeds. -/
theorem page_ownership (hs : b.Sufficient) (hboot : bootMemInit b = .ok s₀)
    (hinit : s₀.pageInit = .ok s₁) (hrun : Relation.ReflTransGen PageStep s₁ s) :
    OwnershipHolds s₁ s ∧ ∀ op : PageOp, op.Legal s → ∃ s', op.run s = .ok s' := by
  obtain ⟨hstage, inv, howned₁⟩ := pageInit_owned hs hboot hinit
  obtain ⟨⟨l, howned⟩, hbound⟩ := (pageInit_runInv hs hboot hinit).run hrun
  constructor
  · refine ⟨_, l, howned₁.free, howned.free, howned.free.nodup, ?_, ?_, ?_, ?_, ?_⟩
    · intro pp hpp
      by_cases halloc : s.Allocated pp
      · exact .inr ⟨howned.not_mem_of_allocated halloc, halloc⟩
      · exact .inl ⟨(howned.mem_iff pp).mpr ⟨hpp, halloc⟩, halloc⟩
    · rintro pp (hpp | hpp)
      · exact ((howned.mem_iff pp).mp hpp).1
      · exact howned.avail_of_allocated pp hpp
    · -- the frames that were handed out at boot end behind the hole
      intro pp hpp
      have hge := Boot.bootEnd_ge (b := b)
      have hmem := (mem_freeFrom.mp hpp).1
      have hext : extphysmem.toNat / 4096 = 256 := by decide
      rw [(bootFrame_eq inv.next).2.1, hext]
      omega
    · intro pp hpp
      have hcount := howned.count pp hpp
      have hle := hbound pp
      rw [hcount, noExtra, Nat.add_zero, BitVec.toNat_ofNat]
      omega
    · intro pp hpp
      exact refs_eq_zero_iff.mp (howned.mapped.refs_eq_zero ((howned.mem_iff pp).mp hpp).2)
  · intro op hop
    obtain ⟨s', -, hrun', -⟩ := howned.run hbound hop
    exact ⟨s', hrun'⟩

/-! ### A machine after boot -/

/-- The states of a machine with clear memory: after boot, after `page_init`, and after
one page has been allocated. -/
theorem exists_booted : ∃ s₀ s₁ s₂ l, bootMemInit (filledBoot 0#32) = .ok s₀ ∧
    s₀.pageInit = .ok s₁ ∧ PhysStage (filledBoot 0#32) 354 s₀ ∧
    Owned (· ∈ freeFrom 354 4352) noExtra s₁ (4351 :: 4350 :: l) ∧
    s₁.mem = s₀.mem ∧ s₁.kernPgdir = s₀.kernPgdir ∧ s₁.npages = 4352 ∧
    (∀ q, ¬ s₁.Allocated q) ∧
    PageOp.alloc.run s₁ = .ok s₂ ∧ AllocStep s₁ 4351 (4350 :: l) s₂ := by
  have hs := filledBoot_sufficient 0#32
  obtain ⟨s₀, hboot, hstage, -⟩ := bootMemInit_ok hs
  obtain ⟨s₁, hinit, inv⟩ :=
    pageInit_ok ((filledBoot 0#32).bootEnd_lt hs) Boot.bootEnd_ge hstage.next
  have howned := (pageInit_owned hs hboot hinit).2.2
  have hend : (filledBoot 0#32).bootEnd = 354 := by decide
  have hnpages : s₀.npages = 4352 := hstage.npages.trans (by decide)
  have hlist : freeFrom 354 4352 = 4351 :: 4350 :: freeFrom 354 4350 := by
    rw [freeFrom_succ_of_le (by decide), freeFrom_succ_of_le (by decide)]
  rw [hend] at hstage howned
  rw [hnpages, hlist] at howned
  obtain ⟨s₂, halloc, step⟩ := pageAlloc_cons howned.free
  rw [← hlist] at howned
  refine ⟨s₀, s₁, s₂, _, hboot, hinit, hstage, hlist ▸ howned, inv.mem, inv.kernPgdir,
    inv.npages.trans hnpages, ?_, ?_, step⟩
  · exact fun q hq => hstage.allocated q ((inv.allocated q).mp hq)
  · rw [PageOp.run, halloc]
    rfl

/-- A run with every call: two pages are allocated and the second is freed, which then becomes
the page table when the first is mapped at address 0; and the mapping is removed. -/
theorem page_ownership_booted : ∃ s₀ s₁ s₂ s₃ s₄ s₅ s, bootMemInit (filledBoot 0#32) = .ok s₀ ∧
    s₀.pageInit = .ok s₁ ∧ PageOp.alloc.run s₁ = .ok s₂ ∧ PageOp.alloc.run s₂ = .ok s₃ ∧
    (PageOp.free 4350).run s₃ = .ok s₄ ∧ (PageOp.insert 4351 0#32 0#32).run s₄ = .ok s₅ ∧
    (PageOp.remove 0#32).run s₅ = .ok s ∧ Relation.ReflTransGen PageStep s₁ s ∧
    OwnershipHolds s₁ s ∧ ∀ op : PageOp, op.Legal s → ∃ s', op.run s = .ok s' := by
  obtain ⟨s₀, s₁, s₂, l, hboot, hinit, -, howned₁, -, -, -, hnone, hrun₂, step₂⟩ := exists_booted
  have hrefs₁ (q : ℕ) : refs s₁.mem s₁.kernPgdir q = 0 := howned₁.mapped.refs_eq_zero (hnone q)
  have hbound₂ (q : ℕ) : refs s₂.mem s₂.kernPgdir q ≤ 65535 := by
    rw [step₂.mem, step₂.kernPgdir, hrefs₁]
    decide
  -- the second page is allocated as well, and freed
  have howned₂ := howned₁.alloc step₂
  obtain ⟨s₃, halloc₃, step₃⟩ := pageAlloc_cons howned₂.free
  have hrun₃ : PageOp.alloc.run s₂ = .ok s₃ := by
    rw [PageOp.run, halloc₃]
    rfl
  have howned₃ := howned₂.alloc step₃
  have hrefs₃ (q : ℕ) : refs s₃.mem s₃.kernPgdir q = 0 := by
    rw [step₃.mem, step₃.kernPgdir, step₂.mem, step₂.kernPgdir, hrefs₁]
  have hfree : s₃.Allocated 4350 ∧ s₃.ref 4350 = 0#16 :=
    ⟨(step₃.allocated_iff _).mpr (.inl rfl), step₃.cleared⟩
  have howned₄ := howned₃.pageFree hfree.1 hfree.2 (by rw [hrefs₃]; decide)
  -- the first page is mapped, with the second as page table
  have halloc₄ : (s₃.pageFree 4350).Allocated 4351 :=
    ⟨by decide, (step₃.allocated_iff _).mpr (.inr ((step₂.allocated_iff _).mpr (.inl rfl)))⟩
  have hbound₄ (q : ℕ) : refs (s₃.pageFree 4350).mem (s₃.pageFree 4350).kernPgdir q ≤ 65535 := by
    change refs s₃.mem s₃.kernPgdir q ≤ 65535
    rw [hrefs₃]
    decide
  have hinsert : PageOp.Legal (s₃.pageFree 4350) (.insert 4351 0#32 0#32) :=
    ⟨halloc₄, by decide, by decide⟩
  obtain ⟨s₅, l₅, hinsert₅, howned₅, step₅⟩ := (howned₄.insert hinsert.2.1 hinsert.2.2 hinsert.1
    fun _ => hbound₄ _).resolve_left fun h => absurd h.2.1 (List.cons_ne_nil _ _)
  have hrun₅ : (PageOp.insert 4351 0#32 0#32).run (s₃.pageFree 4350) = .ok s₅ := by
    rw [PageOp.run, hinsert₅]
    rfl
  have hrefs₅ (q : ℕ) : refs s₅.mem s₅.kernPgdir q ≤ 1 := by
    have hle := howned₄.refs_run_le hbound₄ hinsert hrun₅ q
    change _ ≤ refs s₃.mem s₃.kernPgdir q + 1 at hle
    rwa [hrefs₃] at hle
  have hbound₅ (q : ℕ) : refs s₅.mem s₅.kernPgdir q ≤ 65535 := (hrefs₅ q).trans (by decide)
  have hremove : PageOp.Legal s₅ (.remove 0#32) := by
    refine ⟨by decide, .inl ?_⟩
    rw [walk_eq_user_slot howned₅.mapped.tables (by decide), step₅.slots _ (by decide), if_pos rfl,
      if_pos (present_newPte 4351 0#32)]
    exact (Option.some_ne_none _)
  obtain ⟨s₆, l₆, hrun₆, howned₆, -⟩ := howned₅.run hbound₅ hremove
  have hbound₆ (q : ℕ) : refs s₆.mem s₆.kernPgdir q ≤ 65535 :=
    (howned₅.refs_run_le hbound₅ hremove hrun₆ q).trans
      ((Nat.succ_le_succ (hrefs₅ q)).trans (by decide))
  have hstep₂ : PageStep s₁ s₂ := ⟨.alloc, trivial, hrun₂, hbound₂⟩
  have hstep₃ : PageStep s₂ s₃ := ⟨.alloc, trivial, hrun₃, hbound₄⟩
  have hstep₄ : PageStep s₃ (s₃.pageFree 4350) := ⟨.free 4350, hfree, rfl, hbound₄⟩
  have hstep₅ : PageStep (s₃.pageFree 4350) s₅ := ⟨_, hinsert, hrun₅, hbound₅⟩
  have hsteps := (((Relation.ReflTransGen.single hstep₂).tail hstep₃).tail hstep₄).tail hstep₅
  have hsteps' := hsteps.tail (c := s₆) ⟨_, hremove, hrun₆, hbound₆⟩
  exact ⟨s₀, s₁, s₂, s₃, _, s₅, s₆, hboot, hinit, hrun₂, hrun₃, rfl, hrun₅, hrun₆, hsteps',
    page_ownership (filledBoot_sufficient 0#32) hboot hinit hsteps'⟩

/-- The page translates to `pp`, above or below `UTOP`. -/
def ShowsPage (m : Mem) (pgdir pp : ℕ) (x : VPage) : Prop :=
  (walk m pgdir x).map (fun e => frameOf e.2) = some pp

instance (m : Mem) (pgdir pp : ℕ) : DecidablePred (ShowsPage m pgdir pp) :=
  fun _ => inferInstanceAs (Decidable (_ = _))

/-- The directory entry uses `pp` as a page table, above or below `UTOP`. -/
def NamesTable (m : Mem) (pgdir pp : ℕ) (d : Fin 1024) : Prop :=
  present (m pgdir d) ∧ frameOf (m pgdir d) = pp

instance (m : Mem) (pgdir pp : ℕ) : DecidablePred (NamesTable m pgdir pp) :=
  fun _ => inferInstanceAs (Decidable (_ ∧ _))

/-- The references to a page from all present entries, those above `UTOP` included. -/
def allRefs (m : Mem) (pgdir pp : ℕ) : ℕ :=
  (Finset.univ.filter (ShowsPage m pgdir pp)).card +
    (Finset.univ.filter (NamesTable m pgdir pp)).card

theorem allRefs_ne_zero {m : Mem} {pgdir pp : ℕ} {x : VPage} (h : ShowsPage m pgdir pp x) :
    allRefs m pgdir pp ≠ 0 := by
  rw [allRefs, ne_eq, Nat.add_eq_zero_iff, Finset.card_eq_zero, Finset.filter_eq_empty_iff]
  simp only [Finset.mem_univ, forall_true_left]
  exact fun hzero => hzero.1 h

/-- The kernel address of page 4351. -/
def kernelAddr : Word := kernbase + 4351#32 * pgsize

theorem vpage_kernelAddr : vpage kernelAddr = (964, 255) := by decide

/-- Page 4351 is mapped at its kernel address. -/
structure KernelMapped (s : Kern) : Prop where
  kernPgdir : s.kernPgdir = 275
  npages : s.npages = 4352
  pde : s.mem 275 964 = Boot.tablePde 281
  pte : s.mem 281 255 = segPte 0#32 pteW 4351

theorem frameOf_kernelPde : frameOf (Boot.tablePde 281) = 281 := by decide

theorem frameOf_kernelPte : frameOf (segPte 0#32 pteW 4351) = 4351 := by decide

theorem KernelMapped.walk (h : KernelMapped s) : JosVmx.walk s.mem s.kernPgdir (vpage kernelAddr) =
    some (Boot.tablePde 281, segPte 0#32 pteW 4351) := by
  rw [vpage_kernelAddr, h.kernPgdir, JosVmx.walk, h.pde, if_pos present_tablePde,
    frameOf_kernelPde, h.pte, if_pos (present_segPte 0#32 pteW 4351)]

/-- Mapping the page at address 0 as well takes page 4350 for a page table, and counts one
reference. -/
theorem KernelMapped.insert (h : KernelMapped s) (hlow : s.mem 275 (pdx 0#32) = 0#32)
    (hfree : s.FreeList (4350 :: l)) (href : s.ref 4351 = 0#16) :
    ∃ u, s.pageInsert 275 4351 0#32 0#32 = .ok (0, u) ∧ KernelMapped u ∧ u.FreeList l ∧
      u.ref 4351 = 1#16 ∧ u.mem 275 (pdx 0#32) = newPde 4350 ∧
      u.mem 4350 (ptx 0#32) = newPte 4351 0#32 := by
  have hpp : 4351 < s.npages := by
    rw [h.npages]
    decide
  obtain ⟨s', step, hinsert⟩ := pageInsert_install 0#32 0#32 hlow hfree
    (Nat.lt_of_succ_lt hpp) (by decide) hpp
  obtain ⟨t, ht⟩ : ∃ t, t = s'.installed 275 0#32 4350 := ⟨_, rfl⟩
  obtain ⟨u, hu⟩ : ∃ u, u = (t.setRef 4351 (t.ref 4351 + 1#16)).store 4350 (ptx 0#32)
    (newPte 4351 0#32) := ⟨_, rfl⟩
  rw [← ht, ← hu] at hinsert
  have href_t : t.ref 4351 = 0#16 := by
    rw [ref, ht, installed_pages]
    change (s'.setRef 4350 1#16).ref 4351 = _
    rw [ref_setRef_of_ne (by decide), step.refs _ (by decide), href]
  have hfree_t : t.FreeList l := by
    rw [FreeList, ht, installed_freeStore]
    exact step.free
  -- outside the new table only its directory entry has changed
  have hmem_u (g : ℕ) (i : Fin 1024) (hg : g ≠ 4350) :
      u.mem g i = s.mem.set 275 (pdx 0#32) (newPde 4350) g i := by
    rw [hu, mem_store, Mem.set_of_frame_ne hg]
    change t.mem g i = _
    rw [ht, mem_installed, if_neg hg, step.frame]
  refine ⟨u, hinsert, ⟨?_, ?_, ?_, ?_⟩, ?_, ?_, ?_, ?_⟩
  · rw [hu]
    change t.kernPgdir = 275
    rw [ht, installed_kernPgdir, step.frame, h.kernPgdir]
  · rw [hu]
    change t.npages = 4352
    rw [ht, installed_npages, step.frame, h.npages]
  · rw [hmem_u _ _ (by decide), Mem.set_of_idx_ne (by decide), h.pde]
  · rw [hmem_u _ _ (by decide), Mem.set_of_frame_ne (by decide), h.pte]
  · rw [hu]
    exact freeList_setRef.mpr hfree_t
  · rw [hu]
    change (t.setRef 4351 (t.ref 4351 + 1#16)).ref 4351 = _
    rw [ref_setRef_same, href_t]
    rfl
  · rw [hmem_u _ _ (by decide), Mem.set_same]
  · rw [hu, mem_store, Mem.set_same]

/-- Removing the mapping at the kernel address gives up the only reference. -/
theorem KernelMapped.remove (h : KernelMapped s) (hfree : s.FreeList l) (hnot : 4351 ∉ l)
    (href : s.ref 4351 = 1#16) :
    ∃ v, s.pageRemove 275 kernelAddr = .ok v ∧ v.kernPgdir = 275 ∧ v.FreeList (4351 :: l) ∧
      ∀ g i, g ≠ 281 → v.mem g i = s.mem g i := by
  have hlt : 4351 < s.npages := by
    rw [h.npages]
    decide
  have hla : pdx kernelAddr = 964 ∧ ptx kernelAddr = 255 := Prod.mk.inj vpage_kernelAddr
  have hpde : s.mem 275 (pdx kernelAddr) = Boot.tablePde 281 := by rw [hla.1, h.pde]
  have hframe : frameOf (s.mem 275 (pdx kernelAddr)) = 281 := by rw [hpde, frameOf_kernelPde]
  have hentry : frameOf (s.mem 281 (ptx kernelAddr)) = 4351 := by
    rw [hla.2, h.pte, frameOf_kernelPte]
  have hrun : s.pageRemove 275 kernelAddr = _ :=
    pageRemove_eq (hpde ▸ ne_zero_of_present present_tablePde)
      (by rw [hframe, h.npages]; decide)
      (by rw [hframe, hentry]; exact pageDecref_last hlt href)
  rw [hframe, hla.2] at hrun
  have step := pageFree_spec (s := s.setRef 4351 0#16) (freeList_setRef.mpr hfree) hnot
  exact ⟨_, hrun, h.kernPgdir, step.free, fun g i hg => Mem.set_of_frame_ne hg ..⟩

/-- Counting all entries, the invariant fails: a page that has just been allocated is
mapped at its kernel address, without a reference. Removing the mapping of a kernel
address takes a reference that was counted for a user mapping, and frees a page that
is still mapped. -/
theorem not_ownership_kernbase : ∃ s₀ s₁ s₂ s₃ s₄, bootMemInit (filledBoot 0#32) = .ok s₀ ∧
    s₀.pageInit = .ok s₁ ∧ PageOp.alloc.run s₁ = .ok s₂ ∧ s₂.Allocated 4351 ∧
    (s₂.ref 4351).toNat ≠ allRefs s₂.mem s₂.kernPgdir 4351 ∧
    (PageOp.insert 4351 0#32 0#32).Legal s₂ ∧ (PageOp.insert 4351 0#32 0#32).run s₂ = .ok s₃ ∧
    walk s₃.mem s₃.kernPgdir (vpage kernelAddr) ≠ none ∧
    s₃.pageRemove s₃.kernPgdir kernelAddr = .ok s₄ ∧
    (∃ l, s₄.FreeList l ∧ 4351 ∈ l) ∧ MapsTo s₄.mem s₄.kernPgdir 4351 (vpage 0#32) := by
  obtain ⟨s₀, s₁, s₂, l, hboot, hinit, hstage, howned, hmem, hkern, hnpages, -, hrun, step⟩ :=
    exists_booted
  have hF : (filledBoot 0#32).firstFree = 275 := by decide
  have hmem₂ : s₂.mem = s₀.mem := step.mem.trans hmem
  have hkern₂ : s₂.kernPgdir = 275 :=
    step.kernPgdir.trans (hkern.trans (hstage.kernPgdir.trans hF))
  have hnpages₂ : s₂.npages = 4352 := step.npages.trans hnpages
  have halloc : s₂.Allocated 4351 := (step.allocated_iff 4351).mpr (.inl rfl)
  -- boot_mem_init has mapped the page at its kernel address, and nothing at address 0
  have hphys := hstage.phys 4 255 (by decide)
  have hpgdir := hstage.pgdir
  rw [hF] at hphys hpgdir
  have hmapped₂ : KernelMapped s₂ := by
    refine ⟨hkern₂, hnpages₂, ?_, ?_⟩
    · rw [hmem₂, hpgdir]
      decide
    · rw [hmem₂]
      exact hphys
  have hlow : s₂.mem 275 (pdx 0#32) = 0#32 := by
    rw [hmem₂]
    exact (hpgdir 0).trans (by decide)
  have hshows : ShowsPage s₂.mem s₂.kernPgdir 4351 (vpage kernelAddr) := by
    rw [ShowsPage, hmapped₂.walk]
    exact congrArg some frameOf_kernelPte
  obtain ⟨u, hinsert, hmapped, hfree, href, hpde, hpte⟩ :=
    hmapped₂.insert hlow (howned.alloc step).free step.cleared
  have hnot : 4351 ∉ l := by
    have hnodup := howned.free.nodup
    rw [List.nodup_cons, List.mem_cons, not_or] at hnodup
    exact hnodup.1.2
  obtain ⟨v, hremove, hkern_v, hfree_v, hmem_v⟩ := hmapped.remove hfree hnot href
  refine ⟨s₀, s₁, s₂, u, v, hboot, hinit, hrun, halloc, ?_, ⟨halloc, by decide, by decide⟩, ?_, ?_,
    ?_, ⟨4351 :: l, hfree_v, List.mem_cons_self ..⟩, ?_⟩
  · rw [step.cleared]
    exact (allRefs_ne_zero hshows).symm
  · rw [PageOp.run, hkern₂, hinsert]
    rfl
  · rw [hmapped.walk]
    exact Option.some_ne_none _
  · rw [hmapped.kernPgdir]
    exact hremove
  · -- the page is still mapped at address 0
    have hpde_v : v.mem 275 (pdx 0#32) = newPde 4350 := by rw [hmem_v _ _ (by decide), hpde]
    have hframe : frameOf (newPde 4350) = 4350 := by decide
    have hne : v.mem 275 (vpage 0#32).1 ≠ 0#32 :=
      ne_zero_of_present (hpde_v.symm ▸ present_newPde 4350)
    have hslot : slot v.mem v.kernPgdir (vpage 0#32) = newPte 4351 0#32 := by
      rw [hkern_v, slot_of_ne hne]
      change v.mem (frameOf (v.mem 275 (pdx 0#32))) (ptx 0#32) = _
      rw [hpde_v, hframe, hmem_v _ _ (by decide), hpte]
    rw [MapsTo, hslot]
    exact ⟨by decide, by decide, by decide⟩

end Kern

end JosVmx
