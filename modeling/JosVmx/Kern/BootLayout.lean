import JosVmx.Kern.BootMem
import JosVmx.Kern.Walk
import Mathlib.Order.Interval.Finset.Fin

/-!
# The page tables that boot leaves

The memory after each stage of `boot_mem_init`, word by word, for every memory size
that holds the page tables. The page directory is the first free page after the kernel
image, the table of the kernel stack the second, and the tables of physical memory the
64 pages after it. The table of the kernel stack keeps what memory held before in the
entries below those of the stack.

## Main results

* `Kern.bootMap_ok`, `Kern.bootPages_ok` — the stages of `boot_mem_init` succeed one after
  the other
-/

namespace JosVmx

open Lib

namespace Boot

variable (b : Boot)

/-- The first free page after the kernel image. -/
def firstFree : ℕ := (b.endSym.toNat + 4095) / 4096 - 983040

/-- Memory holds the page directory, the table of the kernel stack and the 64 tables of
physical memory. -/
def Sufficient : Prop := b.firstFree + 66 ≤ b.i386MemDetect.toNat

instance : Decidable b.Sufficient := inferInstanceAs (Decidable (_ ≤ _))

/-- The first page after all that `boot_alloc` gives: the page tables and the array of
pages. -/
def bootEnd : ℕ := b.firstFree + 66 + (b.i386MemDetect.toNat * 12 + 4095) / 4096

/-- The physical address of the boot stack. -/
def stackPa : Word := b.bootstack - kernbase

/-- The directory slot of the kernel stack. -/
def stackSlot : Fin 1024 := 958

/-- The entry of `kern_pgdir` for itself. -/
def selfPde : Word := page2pa b.firstFree ||| pteW ||| pteP

/-- A directory entry made by `boot_pgdir_walk`, for the table in frame `f`. -/
def tablePde (f : ℕ) : Word := page2pa f ||| pteP ||| (pteP ||| pteW)

/-- The entry `t` of the kernel stack's table. -/
def stackPte (t : Fin 1024) : Word :=
  if 1016 ≤ t.val then segPte b.stackPa pteW (t.val - 1016) else b.ram (b.firstFree + 1) t

/-- The page directory after both segments have been mapped. -/
def mappedPde (d : Fin 1024) : Word :=
  if d = stackSlot then tablePde (b.firstFree + 1)
  else if d = pdx vpt then b.selfPde
  else if 960 ≤ d.val then tablePde (b.firstFree + 2 + (d.val - 960))
  else 0#32

variable {b}

theorem endSym_ge : 983304 * 4096 ≤ b.endSym.toNat := by
  have hge : 983296 * 4096 ≤ b.bootstack.toNat := b.bootstack_ge
  have hle := b.bootstack_le
  have hsize : kstksize.toNat = 8 * 4096 := by decide
  rw [hsize] at hle
  omega

theorem firstFree_ge : 264 ≤ b.firstFree := by
  have hge := b.endSym_ge
  unfold firstFree
  omega

theorem firstFree_le (h : b.Sufficient) : b.firstFree ≤ 16573 := by
  have hmax : b.i386MemDetect.toNat ≤ 16639 := b.toNat_i386MemDetect_le
  rw [Sufficient] at h
  omega

theorem firstFree_add_le_bootEnd : b.firstFree + 66 ≤ b.bootEnd := Nat.le_add_right ..

theorem bootEnd_lt (h : b.Sufficient) : b.bootEnd < 2 ^ 16 := by
  have hmax : b.i386MemDetect.toNat ≤ 16639 := b.toNat_i386MemDetect_le
  have hle := b.firstFree_le h
  unfold bootEnd
  omega

theorem paddr_bootstack : Kern.paddr b.bootstack = .ok b.stackPa := by
  have hge : 983296 * 4096 ≤ b.bootstack.toNat := b.bootstack_ge
  have hbase : kernbase.toNat = 983040 * 4096 := by decide
  refine if_neg (BitVec.not_lt.mpr ?_)
  rw [BitVec.le_def, hbase]
  omega

end Boot

namespace Kern

variable {b : Boot} {s s' : Kern} {f : ℕ}

/-- What every stage keeps: the size of memory, the page directory, no free pages and no
allocated ones. The next page of `boot_alloc` is `f`. -/
structure BootStage (b : Boot) (f : ℕ) (s : Kern) : Prop where
  npages : s.npages = b.i386MemDetect.toNat
  kernPgdir : s.kernPgdir = b.firstFree
  list : s.pageFreeList = none
  allocated : ∀ q, ¬ s.Allocated q
  next : s.bootNext.toNat = (983040 + f) * 4096

theorem BootStage.of_frame {f' : ℕ} (h : BootStage b f s) (hframe : s.BootFrame s')
    (hnext : s'.bootNext.toNat = (983040 + f') * 4096) : BootStage b f' s' where
  npages := hframe.npages.trans h.npages
  kernPgdir := hframe.kernPgdir.trans h.kernPgdir
  list := hframe.pageFreeList.trans h.list
  allocated q hq := h.allocated q ((hframe.allocated q).mp hq)
  next := hnext

/-- The address of the next page of `boot_alloc`, as an address and as a frame. -/
theorem bootFrame_eq (hnext : s.bootNext.toNat = (983040 + f) * 4096) :
    kernbase ≤ s.bootNext ∧ s.bootFrame = f ∧ paddr s.bootNext = .ok (s.bootNext - kernbase) ∧
      (s.bootNext - kernbase).toNat = f * 4096 := by
  have hval : kernbase.toNat = 983040 * 4096 := by decide
  have hbase : kernbase ≤ s.bootNext := by
    rw [BitVec.le_def, hval]
    omega
  have hsub : (s.bootNext - kernbase).toNat = f * 4096 := by
    rw [BitVec.toNat_sub_of_le hbase, hval]
    omega
  refine ⟨hbase, ?_, if_neg (BitVec.not_lt.mpr hbase), hsub⟩
  rw [bootFrame, toNat_pgnum, hsub]
  omega

/-! ### The page directory -/

theorem toNat_bootNext_start (h : b.Sufficient) :
    b.start.bootNext.toNat = (983040 + b.firstFree) * 4096 := by
  have hge := b.endSym_ge
  have hle := b.firstFree_le h
  have hff : b.firstFree = (b.endSym.toNat + 4095) / 4096 - 983040 := rfl
  have hround : (roundup b.endSym pgsize).toNat = (b.endSym.toNat + 4095) / 4096 * 4096 :=
    toNat_roundup_pgsize (by omega)
  change (roundup (roundup b.endSym pgsize) pgsize).toNat = _
  rw [roundup_aligned (by omega), hround]
  omega

/-- The state after the page directory has been set up. -/
structure PgdirStage (b : Boot) (s : Kern) : Prop extends BootStage b (b.firstFree + 1) s where
  pgdir : ∀ d, s.mem b.firstFree d = if d = pdx vpt then b.selfPde else 0#32
  ram : ∀ g t, g ≠ b.firstFree → s.mem g t = b.ram g t

/-- `boot_alloc` moves on by the size of what it has given. -/
theorem bootNext_bootAlloc {n : Word} {k : ℕ}
    (hnext : s.bootNext.toNat = (983040 + f) * 4096) (hn : n.toNat ≤ k * 4096)
    (hn' : k * 4096 < n.toNat + 4096) (hlt : f + k < 2 ^ 16) :
    (s.bootAlloc n).2.bootNext.toNat = (983040 + (f + k)) * 4096 := by
  have hsum : (s.bootNext + n).toNat = s.bootNext.toNat + n.toNat := by
    rw [BitVec.toNat_add]
    omega
  have hne : s.bootNext + n ≠ 0#32 := by
    intro hzero
    rw [hzero] at hsum
    simp at hsum
    omega
  change (roundup (if s.bootNext + n = 0#32 then _ else s.bootNext + n) pgsize).toNat = _
  rw [if_neg hne, toNat_roundup_pgsize (by omega), hsum]
  omega

theorem BootFrame.setKernPgdir (h : s.BootFrame s') (f : ℕ) :
    (s.setKernPgdir f).BootFrame (s'.setKernPgdir f) :=
  ⟨congrArg (Kern.setKernPgdir · f) h.eq, h.allocated⟩

/-- The page directory goes to the next page of `boot_alloc`, and is cleared but for its
entry for itself. -/
theorem bootPgdir_eq (hnext : s.bootNext.toNat = (983040 + f) * 4096) (hf : f + 1 < 2 ^ 16) :
    ∃ s', s.bootPgdir = .ok s' ∧ (s.setKernPgdir f).BootFrame s' ∧
      s'.bootNext.toNat = (983040 + (f + 1)) * 4096 ∧
      ∀ g t, s'.mem g t =
        if g = f then (if t = pdx vpt then page2pa f ||| pteW ||| pteP else 0#32)
        else s.mem g t := by
  obtain ⟨-, hframe, hpaddr, hsub⟩ := bootFrame_eq hnext
  -- the directory is the page at the boot allocator's next address
  have hpa : s.bootNext - kernbase = page2pa f := by
    rw [← BitVec.toNat_inj, hsub, toNat_page2pa (by omega)]
  have hpgnum : (pgnum (page2pa f)).toNat = f := by
    rw [← hpa]
    exact hframe
  -- the state with the pointer stored and the page cleared
  obtain ⟨s₁, hs₁⟩ : ∃ s₁, s₁ = (s.bootAlloc pgsize).2.setKernPgdir f := ⟨_, rfl⟩
  have hframe₁ : (s.setKernPgdir f).BootFrame s₁ := by
    rw [hs₁]
    exact (bootFrame_bootAlloc s pgsize).setKernPgdir f
  have hframe₂ := hframe₁.trans (bootFrame_memset s₁ (f * 4096) 0#8 4096)
  have hclear := mem_memset_frame s₁ f
  refine ⟨(s₁.memset (f * 4096) 0#8 4096).store f (pdx vpt) (page2pa f ||| pteW ||| pteP), ?_,
    hframe₂.trans (bootFrame_store ..), ?_, ?_⟩
  · change (paddr s.bootNext >>= fun pa => .ok
      ((((s.bootAlloc pgsize).2.setKernPgdir (pgnum pa).toNat).memset pa.toNat 0#8 4096).store
        (((s.bootAlloc pgsize).2.setKernPgdir (pgnum pa).toNat).memset pa.toNat 0#8 4096).kernPgdir
        (pdx vpt) (pa ||| pteW ||| pteP))) = _
    have hkern : (s₁.memset (f * 4096) 0#8 4096).kernPgdir = f := by
      rw [hframe₂.kernPgdir]
      rfl
    rw [hpaddr, ok_bind, hpa, hpgnum, toNat_page2pa (by omega), ← hs₁, hkern]
  · have hnext₁ := bootNext_bootAlloc (n := pgsize) (k := 1) hnext (by decide) (by decide) hf
    rw [bootNext_store, bootNext_memset, hs₁, bootNext_setKernPgdir, hnext₁]
  · intro g t
    have hmem : s₁.mem = s.mem := by
      rw [hs₁, mem_setKernPgdir, mem_bootAlloc]
    change (Mem.set _ f (pdx vpt) _) g t = _
    by_cases hg : g = f
    · rw [if_pos hg, hg]
      split_ifs with ht
      · rw [ht, Mem.set_same]
      · rw [Mem.set_of_idx_ne ht, hclear, if_pos rfl]
    · rw [if_neg hg, Mem.set_of_frame_ne hg, hclear, if_neg hg, hmem]

theorem bootPgdir_ok (h : b.Sufficient) :
    ∃ s, b.start.bootPgdir = .ok s ∧ PgdirStage b s := by
  have hle := b.firstFree_le h
  obtain ⟨s, hrun, hframe, hnext, hmem⟩ := bootPgdir_eq (toNat_bootNext_start h) (by omega)
  refine ⟨s, hrun, ⟨hframe.npages, hframe.kernPgdir, hframe.pageFreeList, ?_, hnext⟩,
    fun d => ?_, fun g t hg => ?_⟩
  · exact fun q hq => (hframe.allocated q).mp hq
  · rw [hmem, if_pos rfl]
    rfl
  · rw [hmem, if_neg hg]
    rfl

/-! ### The segment of the kernel stack -/

/-- The lowest address of the kernel stack. -/
abbrev stackBase : Word := kstacktop - kstksize

theorem segRounds_stack : segRounds kstksize = 8 := by decide

theorem val_pdx_vpt : (pdx vpt).val = 959 := by decide

/-- The pages of the kernel stack have the last entries of one table. -/
theorem segAddr_stack {j : ℕ} (hj : j < 8) :
    pdx (segAddr stackBase j) = Boot.stackSlot ∧ (ptx (segAddr stackBase j)).val = 1016 + j := by
  have hbase : stackBase.toNat = 982008 * 4096 := by decide
  have hslot : Boot.stackSlot.val = 958 := rfl
  rw [Fin.ext_iff, val_pdx, val_ptx, hslot, segAddr, BitVec.toNat_add, BitVec.toNat_ofNat, hbase]
  omega

theorem stackRange : SegmentRange stackBase kstksize where
  aligned := by decide
  size_le := by decide
  fits := by decide
  avoids_vpt j hj := by
    rw [segRounds_stack] at hj
    rw [(segAddr_stack hj).1]
    decide

theorem inSegment_stack {d : Fin 1024} : InSegment stackBase kstksize d ↔ d = Boot.stackSlot := by
  constructor
  · rintro ⟨j, hj, rfl⟩
    rw [segRounds_stack] at hj
    exact (segAddr_stack hj).1
  · rintro rfl
    exact ⟨0, by decide, (segAddr_stack (by decide)).1⟩

theorem segMissing_stack (h : PgdirStage b s) :
    s.segMissing stackBase kstksize = {Boot.stackSlot} := by
  ext d
  rw [mem_segMissing, Finset.mem_singleton, ← inSegment_stack, InSegment, and_iff_right_iff_imp]
  intro hd
  have hslot : d ≠ pdx vpt := InSegment.ne_vpt stackRange hd
  rw [h.kernPgdir, h.pgdir, if_neg hslot]
  exact not_present_zero

theorem stackReady (hs : b.Sufficient) (h : PgdirStage b s) :
    s.SegmentReady stackBase kstksize := by
  have habsent {d : Fin 1024} (hd : d ≠ pdx vpt) : ¬ present (s.mem s.kernPgdir d) := by
    rw [h.kernPgdir, h.pgdir, if_neg hd]
    exact not_present_zero
  obtain ⟨hbase, hframe, -, -⟩ := bootFrame_eq h.next
  have hsuff : b.firstFree + 66 ≤ b.i386MemDetect.toNat := hs
  refine ⟨stackRange, ⟨?_, ?_⟩, ?_, ?_⟩
  · exact fun d hd hp => absurd hp (habsent hd)
  · exact fun d hd _ _ hp => absurd hp (habsent hd)
  · exact fun d hd hp => absurd hp (habsent (hd.ne_vpt stackRange))
  · rw [segMissing_stack h, Finset.card_singleton]
    refine ⟨hbase, ?_, ?_, fun c _ d hd hp => absurd hp (habsent hd)⟩
    · intro c hc
      rw [hframe, h.npages]
      omega
    · intro c hc
      rw [hframe, h.kernPgdir]
      omega

/-- The state after the kernel stack has been mapped. -/
structure StackStage (b : Boot) (s : Kern) : Prop extends BootStage b (b.firstFree + 2) s where
  pgdir : ∀ d, s.mem b.firstFree d = if d = Boot.stackSlot then Boot.tablePde (b.firstFree + 1)
    else if d = pdx vpt then b.selfPde else 0#32
  stack : ∀ t, s.mem (b.firstFree + 1) t = b.stackPte t

theorem stackStage (hs : b.Sufficient) (h : PgdirStage b s)
    (hmap : SegmentMapped s stackBase kstksize b.stackPa pteW s') : StackStage b s' := by
  have hle := b.firstFree_le hs
  have hframe := (bootFrame_eq h.next).2.1
  have hmiss := segMissing_stack h
  have htable : s.segTable stackBase kstksize Boot.stackSlot = b.firstFree + 1 := by
    have hrank : rank {Boot.stackSlot} Boot.stackSlot = 0 := by decide
    have hmem : Boot.stackSlot ∈ s.segMissing stackBase kstksize := by
      rw [hmiss]
      exact Finset.mem_singleton_self _
    rw [segTable_of_missing hmem, hmiss, hframe, hrank]
  refine ⟨h.toBootStage.of_frame hmap.frame ?_, ?_, ?_⟩
  · have hnext := h.next
    rw [hmap.next, segVisited_rounds, hmiss, Finset.card_singleton, BitVec.toNat_add,
      BitVec.toNat_ofNat]
    omega
  · intro d
    have hpde := hmap.pde d
    rw [segVisited_rounds, hmiss, h.kernPgdir, h.pgdir] at hpde
    rw [hpde]
    by_cases hd : d = Boot.stackSlot
    · rw [if_pos (Finset.mem_singleton.mpr hd), if_pos hd, hd, segPde, htable]
      rfl
    · rw [if_neg (Finset.mem_singleton.not.mpr hd), if_neg hd]
  · intro t
    have hrounds := segRounds_stack
    -- the stack takes the last 8 entries of its table
    rw [Boot.stackPte]
    split_ifs with ht
    · have hj : t.val - 1016 < 8 := by omega
      obtain ⟨hpdx, hptx⟩ := segAddr_stack hj
      have hpte := hmap.pte (t.val - 1016) (by rw [hrounds]; exact hj)
      have hidx : ptx (segAddr stackBase (t.val - 1016)) = t := by
        rw [Fin.ext_iff, hptx]
        omega
      rwa [hpdx, htable, hidx] at hpte
    · rw [hmap.other (b.firstFree + 1) t (by rw [h.kernPgdir]; omega) ?_,
        h.ram (b.firstFree + 1) t (by omega)]
      rintro j hj ⟨-, rfl⟩
      rw [hrounds] at hj
      have hptx := (segAddr_stack hj).2
      omega

/-! ### The segment of physical memory -/

/-- The size of the segment of physical memory, one byte short of a multiple of
`PGSIZE`. -/
abbrev physSize : Word := 0xffffffff#32 - kernbase

theorem segRounds_phys : segRounds physSize = 65536 := by decide

theorem segAddr_phys {j : ℕ} (hj : j < 65536) :
    (pdx (segAddr kernbase j)).val = 960 + j / 1024 ∧
      (ptx (segAddr kernbase j)).val = j % 1024 := by
  have hbase : kernbase.toNat = 983040 * 4096 := by decide
  rw [val_pdx, val_ptx, segAddr, BitVec.toNat_add, BitVec.toNat_ofNat, hbase]
  omega

theorem physRange : SegmentRange kernbase physSize where
  aligned := by decide
  size_le := by decide
  fits := by decide
  avoids_vpt j hj := by
    rw [segRounds_phys] at hj
    rw [ne_eq, Fin.ext_iff, val_pdx_vpt, (segAddr_phys hj).1]
    omega

theorem inSegment_phys {d : Fin 1024} : InSegment kernbase physSize d ↔ pdx kernbase ≤ d := by
  have hslot : (pdx kernbase).val = 960 := by decide
  rw [Fin.le_def, hslot]
  constructor
  · rintro ⟨j, hj, rfl⟩
    rw [segRounds_phys] at hj
    rw [(segAddr_phys hj).1]
    omega
  · intro hd
    have hlt := d.isLt
    refine ⟨(d.val - 960) * 1024, by rw [segRounds_phys]; omega, ?_⟩
    rw [Fin.ext_iff, (segAddr_phys (by omega)).1]
    omega

theorem StackStage.pde_phys (h : StackStage b s) {d : Fin 1024} (hd : pdx kernbase ≤ d) :
    s.mem b.firstFree d = 0#32 := by
  have hslot : (pdx kernbase).val = 960 := by decide
  have hstack : Boot.stackSlot.val = 958 := rfl
  rw [Fin.le_def, hslot] at hd
  have hvpt := val_pdx_vpt
  rw [h.pgdir, if_neg, if_neg] <;> rintro rfl <;> omega

theorem segMissing_phys (h : StackStage b s) :
    s.segMissing kernbase physSize = Finset.Ici (pdx kernbase) := by
  ext d
  rw [mem_segMissing, Finset.mem_Ici, ← inSegment_phys, InSegment, and_iff_right_iff_imp]
  intro hd
  rw [h.kernPgdir, h.pde_phys (inSegment_phys.mp hd)]
  exact not_present_zero

theorem rank_phys (d : Fin 1024) : rank (Finset.Ici (pdx kernbase)) d = d.val - 960 := by
  have hslot : (pdx kernbase).val = 960 := by decide
  have hfilter : (Finset.Ici (pdx kernbase)).filter (· < d) = Finset.Ico (pdx kernbase) d := by
    ext e
    rw [Finset.mem_filter, Finset.mem_Ici, Finset.mem_Ico]
  rw [rank, hfilter, Fin.card_Ico, hslot]

/-- The slots that are present before physical memory is mapped, the self-map apart. -/
theorem StackStage.eq_stackSlot (h : StackStage b s) {d : Fin 1024} (hd : d ≠ pdx vpt)
    (hp : present (s.mem s.kernPgdir d)) : d = Boot.stackSlot := by
  by_contra hne
  rw [h.kernPgdir, h.pgdir, if_neg hne, if_neg hd] at hp
  exact not_present_zero hp

theorem frameOf_tablePde (hf : f < 2 ^ 20) : frameOf (Boot.tablePde f) = f := by
  rw [Boot.tablePde, BitVec.or_assoc]
  exact frameOf_page2pa_or hf (by decide)

theorem StackStage.frameOf_stackSlot (hs : b.Sufficient) (h : StackStage b s) :
    frameOf (s.mem s.kernPgdir Boot.stackSlot) = b.firstFree + 1 := by
  have hle := b.firstFree_le hs
  rw [h.kernPgdir, h.pgdir, if_pos rfl, frameOf_tablePde (by omega)]

theorem physReady (hs : b.Sufficient) (h : StackStage b s) :
    s.SegmentReady kernbase physSize := by
  have hsuff : b.firstFree + 66 ≤ b.i386MemDetect.toNat := hs
  obtain ⟨hbase, hframe, -, -⟩ := bootFrame_eq h.next
  have hslot : (pdx kernbase).val = 960 := by decide
  have hstack := h.frameOf_stackSlot hs
  refine ⟨physRange, ⟨?_, ?_⟩, ?_, ?_⟩
  · intro d hd hp
    rw [h.eq_stackSlot hd hp, hstack, h.kernPgdir]
    omega
  · -- only the slot of the stack has a table so far
    intro d hd d' hd' hp hp' _
    rw [h.eq_stackSlot hd hp, h.eq_stackSlot hd' hp']
  · intro d hd hp
    rw [h.eq_stackSlot (hd.ne_vpt physRange) hp, hstack, h.npages]
    omega
  · rw [segMissing_phys h, Fin.card_Ici, hslot]
    refine ⟨hbase, ?_, ?_, ?_⟩
    · intro c hc
      rw [hframe, h.npages]
      omega
    · intro c hc
      rw [hframe, h.kernPgdir]
      omega
    · intro c hc d hd hp
      rw [h.eq_stackSlot hd hp, hstack, hframe]
      omega

/-- The state after physical memory has been mapped. -/
structure PhysStage (b : Boot) (f : ℕ) (s : Kern) : Prop extends BootStage b f s where
  pgdir : ∀ d, s.mem b.firstFree d = b.mappedPde d
  stack : ∀ t, s.mem (b.firstFree + 1) t = b.stackPte t
  phys : ∀ (k : ℕ) (t : Fin 1024), k < 64 →
    s.mem (b.firstFree + 2 + k) t = segPte 0#32 pteW (k * 1024 + t.val)

theorem physStage (hs : b.Sufficient) (h : StackStage b s)
    (hmap : SegmentMapped s kernbase physSize 0#32 pteW s') :
    PhysStage b (b.firstFree + 66) s' := by
  have hle := b.firstFree_le hs
  have hframe := (bootFrame_eq h.next).2.1
  have hmiss := segMissing_phys h
  have hslot : (pdx kernbase).val = 960 := by decide
  -- the tables follow each other in the order of their slots
  have htable {d : Fin 1024} (hd : pdx kernbase ≤ d) :
      s.segTable kernbase physSize d = b.firstFree + 2 + (d.val - 960) := by
    rw [segTable_of_missing (by rw [hmiss]; exact Finset.mem_Ici.mpr hd), hmiss, hframe, rank_phys]
  refine ⟨h.toBootStage.of_frame hmap.frame ?_, ?_, ?_, ?_⟩
  · have hnext := h.next
    rw [hmap.next, segVisited_rounds, hmiss, Fin.card_Ici, hslot, BitVec.toNat_add,
      BitVec.toNat_ofNat]
    omega
  · intro d
    have hpde := hmap.pde d
    rw [segVisited_rounds, hmiss, h.kernPgdir, h.pgdir] at hpde
    rw [hpde, Boot.mappedPde]
    have hvpt := val_pdx_vpt
    have hstack : Boot.stackSlot.val = 958 := rfl
    by_cases hd : pdx kernbase ≤ d
    · have hd' : 960 ≤ d.val := hslot ▸ hd
      rw [if_pos (Finset.mem_Ici.mpr hd), if_neg (by rintro rfl; omega),
        if_neg (by rintro rfl; omega), if_pos hd', segPde, htable hd, Boot.tablePde]
    · have hd' : ¬ 960 ≤ d.val := hslot ▸ hd
      rw [if_neg (Finset.mem_Ici.not.mpr hd), if_neg hd']
  · intro t
    rw [hmap.other (b.firstFree + 1) t (by rw [h.kernPgdir]; omega) ?_, h.stack]
    rintro j hj ⟨heq, -⟩
    rw [htable (inSegment_phys.mp ⟨j, hj, rfl⟩)] at heq
    omega
  · intro k t hk
    have ht := t.isLt
    -- entry `t` of table `k` was written in round `1024 k + t`
    have hj : k * 1024 + t.val < 65536 := by omega
    obtain ⟨hpdx, hptx⟩ := segAddr_phys hj
    have hpte := hmap.pte (k * 1024 + t.val) (by rw [segRounds_phys]; exact hj)
    have hin : pdx kernbase ≤ pdx (segAddr kernbase (k * 1024 + t.val)) := by
      rw [Fin.le_def, hslot, hpdx]
      omega
    have hidx : ptx (segAddr kernbase (k * 1024 + t.val)) = t := by
      rw [Fin.ext_iff, hptx]
      omega
    have hframe' : b.firstFree + 2 + ((pdx (segAddr kernbase (k * 1024 + t.val))).val - 960) =
        b.firstFree + 2 + k := by
      rw [hpdx]
      omega
    rw [htable hin, hframe', hidx] at hpte
    exact hpte

theorem bootMap_ok (hs : b.Sufficient) :
    ∃ s₁ s₂ s₃, b.start.bootPgdir = .ok s₁ ∧ PgdirStage b s₁ ∧
      s₁.bootMapSegment stackBase kstksize b.stackPa pteW = .ok s₂ ∧ StackStage b s₂ ∧
      s₂.bootMapSegment kernbase physSize 0#32 pteW = .ok s₃ ∧
      PhysStage b (b.firstFree + 66) s₃ ∧ bootMap b = .ok s₃ := by
  obtain ⟨s₁, hpgdir, h₁⟩ := bootPgdir_ok hs
  obtain ⟨s₂, hstack, hmap₂⟩ :=
    bootMapSegment_ok b.stackPa pteW (stackReady hs h₁) (by decide)
  have h₂ := stackStage hs h₁ hmap₂
  obtain ⟨s₃, hphys, hmap₃⟩ :=
    bootMapSegment_ok 0#32 pteW (physReady hs h₂) (by decide)
  refine ⟨s₁, s₂, s₃, hpgdir, h₁, hstack, h₂, hphys, physStage hs h₂ hmap₃, ?_⟩
  rw [bootMap, hpgdir, ok_bind, Boot.paddr_bootstack, ok_bind, hstack, ok_bind, hphys]

/-! ### The array of pages -/

/-- Clearing memory above the page tables leaves them alone. -/
theorem bootPages_ok (hs : b.Sufficient) (h : PhysStage b (b.firstFree + 66) s) :
    ∃ s', s.bootPages = .ok s' ∧ PhysStage b b.bootEnd s' ∧
      ∀ q, s'.pages q = ⟨⟨none, .null⟩, 0#16⟩ := by
  have hle := b.firstFree_le hs
  have hmax : s.npages ≤ 16639 := s.npages_le
  obtain ⟨n, hn⟩ : ∃ n, n = BitVec.ofNat 32 s.npages * sizeofPage := ⟨_, rfl⟩
  have hn' : n.toNat = s.npages * 12 := by
    rw [hn, sizeofPage, BitVec.toNat_mul, BitVec.toNat_ofNat, BitVec.toNat_ofNat]
    omega
  obtain ⟨-, -, hpaddr, hsub⟩ := bootFrame_eq h.next
  have hnext := bootNext_bootAlloc (n := n) (k := (s.npages * 12 + 4095) / 4096) h.next
    (by omega) (by omega) (by omega)
  rw [h.npages] at hnext
  have hframe := (bootFrame_bootAlloc s n).trans
    (bootFrame_memset (s.bootAlloc n).2 (s.bootNext - kernbase).toNat 0#8 n.toNat)
  have hstage : BootStage b b.bootEnd _ :=
    h.toBootStage.of_frame hframe (by rw [bootNext_memset]; exact hnext)
  -- the array begins behind the tables, so they keep their entries
  have hmem (g : ℕ) (t : Fin 1024) (hg : g < b.firstFree + 66) :
      ((s.bootAlloc n).2.memset (s.bootNext - kernbase).toNat 0#8 n.toNat).mem g t =
        s.mem g t := by
    have ht := t.isLt
    rw [mem_memset_of_outside _ _ (by omega), mem_bootAlloc]
  refine ⟨((s.bootAlloc n).2.memset (s.bootNext - kernbase).toNat 0#8 n.toNat).setPages
    fun _ => ⟨⟨none, .null⟩, 0#16⟩, ?_, ⟨⟨hstage.npages, hstage.kernPgdir, hstage.list,
    hstage.allocated, hstage.next⟩, ?_, ?_, ?_⟩, fun q => rfl⟩
  · change (paddr s.bootNext >>= fun pa =>
      .ok (((s.bootAlloc _).2.memset pa.toNat 0#8 _).setPages _)) = _
    rw [hpaddr, ok_bind, ← hn]
  · intro d
    exact (hmem _ d (by omega)).trans (h.pgdir d)
  · intro t
    exact (hmem _ t (by omega)).trans (h.stack t)
  · intro k t hk
    exact (hmem _ t (by omega)).trans (h.phys k t hk)

end Kern

end JosVmx
