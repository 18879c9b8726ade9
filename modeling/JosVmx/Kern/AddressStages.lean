import JosVmx.Kern.BootImage
import JosVmx.Lib.Interleave

/-!
# Where the kernel is

The kernel is linked at `KERNBASE` and loaded at address 0. `entry.S` makes up for the difference
with segments that start at `-KERNBASE`; the end of `boot_mem_init` turns paging on and goes over
to segments that start at 0. In between, the address `KERNBASE + x` always has to mean the byte `x`
of memory, for the code itself runs there: with the old segments through the entry 0 of the page
directory, which is set for just this time, and with the new ones through the entries from
`PDX(KERNBASE)` on.

This module describes the stages of the way, as conditions that the TLB cannot break.

## Main definitions

* `AtKernbase` — the kernel is at `KERNBASE`
* `FlatSpace` — the address space of a page directory, and no other
* `Unpaged`, `PgdirLoaded`, `Paged`, `PagedGdt` — the stages

## Main results

* `Unpaged.atKernbase`, `Paged.atKernbase` — the kernel is at `KERNBASE` in all of them
* `Kern.PhysStage.highMapped`, `Kern.PhysStage.lowMapped` — what the tables of `boot_mem_init` map
-/

namespace JosVmx

open Lib

/-! ### Where the kernel is -/

/-- The segment that `entry.S` sets up. -/
def shiftedSegment : CachedSegment := ⟨-kernbase, 0xffffffff#32⟩

/-- A segment of all addresses. -/
def flatSegment : CachedSegment := ⟨0#32, 0xffffffff#32⟩

/-- The registers that the kernel's accesses go through. -/
def kernelSegs : List SegReg := [.cs, .ds, .es, .ss]

/-- The kernel is at `KERNBASE`, with the first four megabytes of memory. -/
def AtKernbase (c : Processor) : Prop :=
  ∀ r ∈ kernelSegs, ∀ x : Word, x < 0x400000#32 → c.address r (kernbase + x) 1 = .ok x

/-- What the page tables in memory make of a linear address. -/
def tablesPhysical (m : Mem) (pgdir : ℕ) (la : Word) : Except AccessFault Word :=
  (translate m pgdir la).elim (.error .page) .ok

/-- All segments are flat, and linear addresses are those of the page directory. -/
structure FlatSpace (m : Mem) (pgdir : ℕ) (c : Processor) : Prop where
  segment : ∀ r, c.segment r = flatSegment
  mem : c.mem = m
  physical : ∀ la, c.physical la = tablesPhysical m pgdir la

section Access

variable {c : Processor} {r : SegReg} {base va la x : Word} {n : ℕ}

theorem Processor.linear_ok (h : c.segment r = ⟨base, 0xffffffff#32⟩)
    (hva : va.toNat + n ≤ 2 ^ 32) :
    c.linear r va n = .ok (base + va) := by
  have hlimit : (0xffffffff#32).toNat + 1 = 2 ^ 32 := rfl
  rw [Processor.linear, h]
  exact if_pos (hlimit ▸ hva)

theorem Processor.physical_unpaged (h : ¬ c.Paging) : c.physical la = .ok la := if_neg h

theorem neg_kernbase_add (x : Word) : -kernbase + (kernbase + x) = x := by
  rw [← BitVec.add_assoc, BitVec.add_left_neg, BitVec.zero_add]

theorem Processor.address_ok {pa : Word} (h : c.segment r = ⟨base, 0xffffffff#32⟩)
    (hva : va.toNat + n ≤ 2 ^ 32) (hpa : c.physical (base + va) = .ok pa) :
    c.address r va n = .ok pa := by
  rw [Processor.address, Processor.linear_ok h hva, ok_bind, hpa]

/-- An event of the TLB drops translations, and adds those of the page tables in use. -/
theorem Processor.tlbEvent_eq (e : Processor.TlbEvent) (c : Processor) :
    ∃ tlb, Processor.tlbEvent e c = { c with tlb := tlb } ∧ ∀ x p, tlb x = some p →
      c.tlb x = some p ∨ c.Paging ∧ walk c.mem c.pgdir x = some p := by
  cases e with
  | fill la =>
    by_cases hpaging : c.Paging
    · cases hwalk : walk c.mem c.pgdir (vpage la) with
      | none =>
        refine ⟨c.tlb, ?_, fun x p h => .inl h⟩
        simp only [Processor.tlbEvent, if_pos hpaging, hwalk]
      | some q =>
        refine ⟨Function.update c.tlb (vpage la) (some q), ?_, fun x p h => ?_⟩
        · simp only [Processor.tlbEvent, if_pos hpaging, hwalk]
        · by_cases hx : x = vpage la
          · rw [hx, Function.update_self] at h
            exact .inr ⟨hpaging, hx ▸ hwalk.trans h⟩
          · rw [Function.update_of_ne hx] at h
            exact .inl h
    · exact ⟨c.tlb, if_neg hpaging, fun x p h => .inl h⟩
  | evict la =>
    refine ⟨Function.update c.tlb (vpage la) none, rfl, fun x p h => .inl ?_⟩
    by_cases hx : x = vpage la
    · rw [hx, Function.update_self] at h
      exact absurd h.symm (Option.some_ne_none p)
    · rwa [Function.update_of_ne hx] at h

end Access

/-! ### Page tables that map the kernel -/

/-- The page tables translate `la` to `x`. -/
def Translates (m : Mem) (pgdir : ℕ) (la x : Word) : Prop :=
  ∃ p, walk m pgdir (vpage la) = some p ∧ pteAddr p.2 ||| (la &&& 0xFFF#32) = x

/-- The addresses from `KERNBASE` on are mapped. -/
def HighMapped (m : Mem) (pgdir : ℕ) : Prop :=
  ∀ x : Word, x < 0x10000000#32 → Translates m pgdir (kernbase + x) x

/-- The first four megabytes are mapped to themselves. -/
def LowMapped (m : Mem) (pgdir : ℕ) : Prop := ∀ x : Word, x < 0x400000#32 → Translates m pgdir x x

section Tables

variable {m : Mem} {pgdir : ℕ} {la x v : Word} {y : VPage} {p : Word × Word}

/-- An entry of physical memory, with an offset in its page. -/
theorem segPte_or_offset {j : ℕ} (h : j * 4096 + la.toNat % 4096 = x.toNat) :
    pteAddr (segPte 0#32 pteW j) ||| (la &&& 0xFFF#32) = x := by
  have hlt := x.isLt
  have hpage : BitVec.ofNat 32 (4096 * j) = page2pa j := by
    rw [← BitVec.toNat_inj, toNat_page2pa (by omega), BitVec.toNat_ofNat]
    omega
  have hoffset := toNat_offset la
  rw [Kern.pteAddr_segPte (by decide), BitVec.zero_add, hpage, ← BitVec.toNat_inj,
    toNat_page2pa_or (by omega) (by omega), hoffset, h]

/-- What is translated without the entry 0 of the directory is translated with it. -/
theorem walk_of_walk_set_zero (h : walk (m.set pgdir 0 0#32) pgdir y = some p) :
    walk m pgdir y = some p := by
  obtain ⟨hpde, hpte⟩ := walk_ne_none_iff.mp (h ▸ Option.some_ne_none p)
  have hslot : y.1 ≠ 0 := by
    intro hzero
    rw [hzero, Mem.set_same] at hpde
    exact not_present_zero hpde
  have hdir : m.set pgdir 0 0#32 pgdir y.1 = m pgdir y.1 := Mem.set_of_idx_ne hslot ..
  rw [hdir] at hpte
  have htable : m.set pgdir 0 0#32 (frameOf (m pgdir y.1)) y.2 = m (frameOf (m pgdir y.1)) y.2 := by
    refine if_neg fun heq => ?_
    rw [heq.1, heq.2, Mem.set_same] at hpte
    exact not_present_zero hpte
  rw [← h, walk_congr hdir htable]

end Tables

namespace Kern

variable {b : Boot} {s : Kern} {f : ℕ}

/-- The entries from `PDX(KERNBASE)` on do not depend on the entry 0. -/
theorem PhysStage.highMapped (hs : b.Sufficient) (h : PhysStage b f s) (v : Word) :
    HighMapped (s.mem.set s.kernPgdir 0 v) s.kernPgdir := by
  intro x hx
  have hle := b.firstFree_le hs
  have hsize : (0x10000000#32).toNat = 0x10000000 := rfl
  have hbase : kernbase.toNat = 983040 * 4096 := by decide
  rw [BitVec.lt_def, hsize] at hx
  have haddr : (kernbase + x).toNat = 983040 * 4096 + x.toNat := by
    rw [BitVec.toNat_add, hbase]
    omega
  have hpdx : (pdx (kernbase + x)).val = 960 + x.toNat / 4194304 := by
    rw [val_pdx, haddr]
    omega
  have hptx : (ptx (kernbase + x)).val = x.toNat / 4096 % 1024 := by
    rw [val_ptx, haddr]
    omega
  have hd : 960 ≤ (pdx (kernbase + x)).val := by omega
  -- the table is one of those of the physical memory, not the stack's and not the window
  have hpde : s.mem s.kernPgdir (pdx (kernbase + x)) =
      Boot.tablePde (b.firstFree + 2 + ((pdx (kernbase + x)).val - 960)) := by
    have hslot : Boot.stackSlot.val = 958 := rfl
    have hvpt := val_pdx_vpt
    rcases mappedPde_cases (b := b) (pdx (kernbase + x)) with ⟨hd', -⟩ | ⟨hd', -⟩ | ⟨hd', -⟩ |
      ⟨-, hpde⟩
    · omega
    · rw [hd', hslot] at hd
      omega
    · rw [hd', hvpt] at hd
      omega
    · rw [h.kernPgdir, h.pgdir, hpde]
  have hwalk := h.walk_phys hs hd (ptx (kernbase + x))
  have hne : pdx (kernbase + x) ≠ 0 := by
    intro hzero
    rw [hzero] at hd
    exact absurd hd (by decide)
  have hframe : frameOf (s.mem s.kernPgdir (pdx (kernbase + x))) ≠ s.kernPgdir := by
    have hlt := (pdx (kernbase + x)).isLt
    rw [hpde, frameOf_tablePde (by omega), h.kernPgdir]
    omega
  -- entry 0 of the directory is not on the way
  have hset : walk (s.mem.set s.kernPgdir 0 v) s.kernPgdir (vpage (kernbase + x)) =
      walk s.mem s.kernPgdir (vpage (kernbase + x)) :=
    walk_congr (Mem.set_of_idx_ne hne ..) (Mem.set_of_frame_ne hframe ..)
  have hoffset : ((pdx (kernbase + x)).val - 960) * 1024 + (ptx (kernbase + x)).val =
      x.toNat / 4096 := by
    rw [hpdx, hptx]
    omega
  have hparts : x.toNat / 4096 * 4096 + (kernbase + x).toNat % 4096 = x.toNat := by
    rw [haddr, Nat.mul_add_mod_self_right]
    exact Nat.div_add_mod' ..
  rw [hoffset] at hwalk
  exact ⟨_, hset.trans hwalk, segPte_or_offset hparts⟩

/-- With the entry of `PDX(KERNBASE)` in it, the entry 0 maps the first four megabytes. -/
theorem PhysStage.lowMapped (hs : b.Sufficient) (h : PhysStage b f s) :
    LowMapped (s.mem.set s.kernPgdir 0 (s.mem s.kernPgdir (pdx kernbase))) s.kernPgdir := by
  intro x hx
  have hle := b.firstFree_le hs
  have hsize : (0x400000#32).toNat = 4194304 := rfl
  rw [BitVec.lt_def, hsize] at hx
  have hpdx : pdx x = 0 := by
    apply Fin.ext
    exact (val_pdx x).trans (Nat.div_eq_of_lt hx)
  have hpde : s.mem s.kernPgdir (pdx kernbase) = Boot.tablePde (b.firstFree + 2) := by
    have hslot : (pdx kernbase).val = 960 := by decide
    rw [h.kernPgdir, h.pgdir, Boot.mappedPde, if_neg (by decide), if_neg (by decide),
      if_pos hslot.ge, hslot, Nat.sub_self, Nat.add_zero]
  have hframe : frameOf (Boot.tablePde (b.firstFree + 2)) = b.firstFree + 2 :=
    frameOf_tablePde (by omega)
  have hne : b.firstFree + 2 ≠ s.kernPgdir := by
    rw [h.kernPgdir]
    omega
  -- entry 0 names the first table of the physical memory
  have hpte := h.phys 0 (ptx x) (by decide)
  rw [Nat.zero_mul, Nat.zero_add, Nat.add_zero] at hpte
  rw [hpde]
  refine ⟨(Boot.tablePde (b.firstFree + 2), segPte 0#32 pteW (ptx x).val), ?_, segPte_or_offset ?_⟩
  · rw [vpage, hpdx, walk_of_present] <;> dsimp only <;> rw [Mem.set_same]
    · rw [hframe, Mem.set_of_frame_ne hne, hpte]
    · exact present_tablePde
    · rw [hframe, Mem.set_of_frame_ne hne, hpte]
      exact present_segPte _ _ _
  · rw [val_ptx]
    omega

end Kern

/-! ### Before paging -/

/-- Paging is off, and the kernel's segments are those of `entry.S`. -/
structure Unpaged (m : Mem) (c : Processor) : Prop where
  mem : c.mem = m
  off : ¬ c.Paging
  segment : ∀ r ∈ kernelSegs, c.segment r = shiftedSegment

/-- The page directory has been loaded, too. -/
structure PgdirLoaded (m : Mem) (pgdir : ℕ) (c : Processor) : Prop extends Unpaged m c where
  dir : c.pgdir = pgdir
  tlb : ∀ x, c.tlb x = none

section Unpaged

variable {m : Mem} {pgdir n : ℕ} {c : Processor} {x : Word}

theorem Unpaged.address (h : Unpaged m c) {r : SegReg} (hr : r ∈ kernelSegs)
    (hx : (kernbase + x).toNat + n ≤ 2 ^ 32) : c.address r (kernbase + x) n = .ok x := by
  refine Processor.address_ok (h.segment r hr) hx ?_
  rw [neg_kernbase_add, Processor.physical_unpaged h.off]

theorem Unpaged.atKernbase (h : Unpaged m c) : AtKernbase c :=
  fun _ hr x _ => h.address hr (kernbase + x).isLt

theorem Unpaged.tlb (h : Unpaged m c) (tlb : Tlb) : Unpaged m { c with tlb := tlb } :=
  ⟨h.mem, h.off, h.segment⟩

theorem unpaged_stable : Stable Processor.tlbEvent (Unpaged m) := by
  intro e c h
  obtain ⟨tlb, heq, -⟩ := Processor.tlbEvent_eq e c
  exact heq ▸ h.tlb tlb

/-- Nothing is filled into the TLB while paging is off. -/
theorem pgdirLoaded_stable : Stable Processor.tlbEvent (PgdirLoaded m pgdir) := by
  intro e c h
  obtain ⟨tlb, heq, hsub⟩ := Processor.tlbEvent_eq e c
  rw [heq]
  refine ⟨h.toUnpaged.tlb tlb, h.dir, fun x => ?_⟩
  cases hx : tlb x with
  | none => exact hx
  | some p =>
    rcases hsub x p hx with hold | ⟨hon, -⟩
    · exact absurd (h.tlb x) (hold ▸ Option.some_ne_none p)
    · exact absurd hon h.off

end Unpaged

/-! ### With paging -/

/-- Paging is on with the tables in `m`, and the TLB holds translations of the tables in `mt`. The
registers `flats` are flat, the kernel's others are those of `entry.S`. -/
structure Paged (mt m : Mem) (pgdir : ℕ) (flats : List SegReg) (c : Processor) : Prop where
  mem : c.mem = m
  on : c.Paging
  dir : c.pgdir = pgdir
  tlb : ∀ x p, c.tlb x = some p → walk mt pgdir x = some p
  flat : ∀ r ∈ flats, c.segment r = flatSegment
  shifted : ∀ r ∈ kernelSegs, r ∉ flats → c.segment r = shiftedSegment

/-- The descriptor table of `kern/pmap.c` is in use, too. -/
structure PagedGdt (gdt : Word) (mt m : Mem) (pgdir : ℕ) (flats : List SegReg)
    (c : Processor) : Prop extends Paged mt m pgdir flats c where
  gdtBase : c.gdtBase = gdt
  gdtLimit : c.gdtLimit = 47#16

section Paged

variable {mt m : Mem} {pgdir n : ℕ} {flats : List SegReg} {c : Processor} {la x gdt : Word}

/-- Whether or not the TLB is used, an address goes where both tables send it. -/
theorem Paged.physical (h : Paged mt m pgdir flats c) (hmt : Translates mt pgdir la x)
    (hm : Translates m pgdir la x) : c.physical la = .ok x := by
  obtain ⟨p, hwalk, hp⟩ := hm
  obtain ⟨pt, hwalkt, hpt⟩ := hmt
  have hentries : ∃ q, c.entries (vpage la) = some q ∧ pteAddr q.2 ||| (la &&& 0xFFF#32) = x := by
    rw [Processor.entries, h.mem, h.dir]
    cases htlb : c.tlb (vpage la) with
    | none => exact ⟨p, hwalk, hp⟩
    | some q =>
      have hq : q = pt := Option.some_inj.mp ((h.tlb _ q htlb).symm.trans hwalkt)
      exact ⟨q, rfl, hq ▸ hpt⟩
  obtain ⟨q, hq, hx⟩ := hentries
  rw [Processor.physical, if_pos h.on, hq]
  exact congrArg Except.ok hx

/-- An access through a flat register. -/
theorem Paged.address_flat (h : Paged mt m pgdir flats c) (hmt : HighMapped mt pgdir)
    (hm : HighMapped m pgdir) {r : SegReg} (hr : r ∈ flats) (hx : x < 0x10000000#32)
    (hn : (kernbase + x).toNat + n ≤ 2 ^ 32) : c.address r (kernbase + x) n = .ok x := by
  refine Processor.address_ok (h.flat r hr) hn ?_
  rw [BitVec.zero_add]
  exact h.physical (hmt x hx) (hm x hx)

/-- An access through a register of `entry.S`. -/
theorem Paged.address_shifted (h : Paged mt m pgdir flats c) (hmt : LowMapped mt pgdir)
    (hm : LowMapped m pgdir) {r : SegReg} (hr : r ∈ kernelSegs) (hflat : r ∉ flats)
    (hx : x < 0x400000#32) (hn : (kernbase + x).toNat + n ≤ 2 ^ 32) :
    c.address r (kernbase + x) n = .ok x := by
  refine Processor.address_ok (h.shifted r hr hflat) hn ?_
  rw [neg_kernbase_add]
  exact h.physical (hmt x hx) (hm x hx)

/-- While a register of `entry.S` is in use, the entry 0 is needed. -/
theorem Paged.atKernbase (h : Paged mt m pgdir flats c) (hmt : HighMapped mt pgdir)
    (hm : HighMapped m pgdir)
    (hlow : (∀ r ∈ kernelSegs, r ∈ flats) ∨ LowMapped mt pgdir ∧ LowMapped m pgdir) :
    AtKernbase c := by
  intro r hr x hx
  by_cases hflat : r ∈ flats
  · have hx' : x < 0x10000000#32 := BitVec.lt_trans hx (by decide)
    exact h.address_flat hmt hm hflat hx' (kernbase + x).isLt
  · obtain ⟨hmt, hm⟩ := hlow.resolve_left fun hall => hflat (hall r hr)
    exact h.address_shifted hmt hm hr hflat hx (kernbase + x).isLt

theorem Paged.event (h : Paged mt m pgdir flats c)
    (hsub : ∀ x p, walk m pgdir x = some p → walk mt pgdir x = some p) (e : Processor.TlbEvent) :
    ∃ tlb, Processor.tlbEvent e c = { c with tlb := tlb } ∧
      Paged mt m pgdir flats { c with tlb := tlb } := by
  obtain ⟨tlb, heq, hnew⟩ := Processor.tlbEvent_eq e c
  refine ⟨tlb, heq, h.mem, h.on, h.dir, fun x p hx => ?_, h.flat, h.shifted⟩
  rcases hnew x p hx with hold | ⟨-, hwalk⟩
  · exact h.tlb x p hold
  · rw [h.mem, h.dir] at hwalk
    exact hsub x p hwalk

theorem paged_stable (hsub : ∀ x p, walk m pgdir x = some p → walk mt pgdir x = some p) :
    Stable Processor.tlbEvent (Paged mt m pgdir flats) := by
  intro e c h
  obtain ⟨tlb, heq, hpaged⟩ := h.event hsub e
  exact heq ▸ hpaged

theorem pagedGdt_stable (hsub : ∀ x p, walk m pgdir x = some p → walk mt pgdir x = some p) :
    Stable Processor.tlbEvent (PagedGdt gdt mt m pgdir flats) := by
  intro e c h
  obtain ⟨tlb, heq, hpaged⟩ := h.toPaged.event hsub e
  exact heq ▸ ⟨hpaged, h.gdtBase, h.gdtLimit⟩

end Paged

end JosVmx
