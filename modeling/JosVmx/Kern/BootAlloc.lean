import JosVmx.Kern.BootCheck
import JosVmx.Lib.Bump

/-!
# Sequences of `boot_alloc` calls

`boot_alloc` is a bump allocator, and while its regions fit into memory it is as good as one.
The comment above it says that it panics when memory is exhausted; it never looks where memory
ends, so the first request that does not fit is granted like the others. From there on the
pointer may even come round to zero, where the test for the first call starts over.

## Main results

* `Kern.bootAlloc_granted_iff` — the calls return real, unused memory exactly as long as the
  requests, rounded up to pages, fit into memory above the kernel
-/

namespace JosVmx

open Lib

namespace Kern

variable {s : Kern} {v : ℕ} {n : Word} {ns : List Word}

/-- The regions that successive calls of `boot_alloc` return, as addresses and sizes. -/
def bootRegions (s : Kern) : List Word → List Region
  | [] => []
  | n :: ns => ((s.bootAlloc n).1.toNat, n.toNat) :: (s.bootAlloc n).2.bootRegions ns

/-- Where memory ends, as a kernel address. -/
def memLimit (s : Kern) : ℕ := kernbase.toNat + s.npages * 4096

theorem memLimit_lt (s : Kern) : s.memLimit + 4096 < 2 ^ 32 := by
  have hmax : maxPages = 16639 := rfl
  have hbase : kernbase.toNat = 4026531840 := rfl
  have hnpages := s.npages_le
  rw [memLimit]
  omega

theorem dvd_memLimit (s : Kern) : 4096 ∣ s.memLimit :=
  Nat.dvd_add (by decide) (Nat.dvd_mul_left ..)

@[simp] theorem memLimit_bootAlloc (s : Kern) (n : Word) :
    (s.bootAlloc n).2.memLimit = s.memLimit := rfl

theorem toNat_roundup {a : Word} (h : a.toNat + 4095 < 2 ^ 32) :
    (roundup a pgsize).toNat = alignUp 4096 a.toNat := by
  rw [toNat_roundup_pgsize h, alignUp, Nat.ceilDiv_eq_add_pred_div]
  omega

/-- The state of the allocator before a call: its next address is `v`, above the kernel. -/
structure BumpAt (s : Kern) (v : ℕ) : Prop where
  next : s.bootNext.toNat = v
  aligned : 4096 ∣ v
  ge : alignUp 4096 s.endSym.toNat ≤ v

/-- A request that fits moves the pointer behind its pages. -/
theorem BumpAt.alloc (h : s.BumpAt v) (hfit : v + n.toNat ≤ s.memLimit) :
    (s.bootAlloc n).2.BumpAt (v + alignUp 4096 n.toNat) := by
  have hlimit := s.memLimit_lt
  have hpos : 0 < 4096 := by decide
  have hend : s.endSym.toNat ≤ v := (alignUp_le_iff hpos h.aligned).mp h.ge
  have hsum : (s.bootNext + n).toNat = v + n.toNat := by
    rw [BitVec.toNat_add, h.next, Nat.mod_eq_of_lt (by omega)]
  have hnext : (s.bootAlloc n).2.bootNext =
      roundup (if s.bootNext + n = 0#32 then roundup s.endSym pgsize else s.bootNext + n) pgsize :=
    rfl
  refine ⟨?_, Nat.dvd_add h.aligned (dvd_alignUp ..), le_trans h.ge (Nat.le_add_right ..)⟩
  rw [hnext]
  split_ifs with hzero
  · -- the pointer is zero only if the kernel ends there
    have hv : v + n.toNat = 0 := by rw [← hsum, hzero]; rfl
    have hend0 : s.endSym = 0#32 := by
      rw [← BitVec.toNat_inj]
      change s.endSym.toNat = 0
      omega
    have hn : n.toNat = 0 := by omega
    rw [hend0, hn, show v = 0 by omega]
    decide
  · rw [toNat_roundup (by omega), hsum, alignUp_add hpos h.aligned]

/-- As long as the requests fit, `boot_alloc` is a bump allocator. -/
theorem BumpAt.regions_eq (h : s.BumpAt v)
    (hfit : v + extent 4096 (ns.map (·.toNat)) ≤ s.memLimit) :
    s.bootRegions ns = regions 4096 v (ns.map (·.toNat)) := by
  induction ns generalizing s v with
  | nil => rfl
  | cons n ns ih =>
    simp only [List.map_cons, extent_cons, ← Nat.add_assoc] at hfit
    have hn := le_alignUp (show 0 < 4096 by decide) n.toNat
    have hnext := h.alloc (n := n) (by omega)
    have hrest := ih hnext (by rw [memLimit_bootAlloc]; exact hfit)
    rw [bootRegions, hrest, bootAlloc_eq, h.next]
    rfl

/-- If all regions end below the limit, the requests fit. -/
theorem BumpAt.fits (h : s.BumpAt v) (hns : ns ≠ [])
    (hle : ∀ r ∈ s.bootRegions ns, r.1 + r.2 ≤ s.memLimit) :
    v + extent 4096 (ns.map (·.toNat)) ≤ s.memLimit := by
  induction ns generalizing s v with
  | nil => exact absurd rfl hns
  | cons n ns ih =>
    have hfirst := hle _ (List.mem_cons_self ..)
    rw [bootAlloc_eq, h.next] at hfirst
    have hpages := (add_alignUp_le_iff (by decide) h.aligned s.dvd_memLimit).mpr hfirst
    rw [List.map_cons, extent_cons, ← Nat.add_assoc]
    by_cases hns' : ns = []
    · rw [hns']
      exact hpages
    · have hrest := ih (h.alloc hfirst) hns' fun r hr => hle r (List.mem_cons_of_mem _ hr)
      rwa [memLimit_bootAlloc] at hrest

/-- Before the first call the allocator starts behind the kernel, unless rounding up the end of
the kernel wraps around. -/
theorem bumpAt_start (hs : s.nextfree = 0#32) (hend : s.endSym.toNat + 4095 < 2 ^ 32) :
    s.BumpAt (alignUp 4096 s.endSym.toNat) := by
  have hfirst := toNat_roundup hend
  have haligned : (roundup s.endSym pgsize).toNat % 4096 = 0 := by
    rw [hfirst]
    exact Nat.mod_eq_zero_of_dvd (dvd_alignUp ..)
  refine ⟨?_, dvd_alignUp .., le_rfl⟩
  rw [bootNext, if_pos hs, roundup_aligned haligned, hfirst]

/-- **What `boot_alloc` hands out.** The regions of a sequence of calls are page aligned, lie
in memory above the kernel and are disjoint, and `boot_alloc(0)` tells where the next region
will be, if and only if the requests, each rounded up to whole pages, fit into that memory. -/
theorem bootAlloc_granted_iff (hs : s.nextfree = 0#32) (ns : List Word) :
    Granted 4096 (alignUp 4096 s.endSym.toNat) s.memLimit (s.bootRegions ns) ↔
      (ns ≠ [] →
        alignUp 4096 s.endSym.toNat + extent 4096 (ns.map (·.toNat)) ≤ s.memLimit) := by
  have hlimit := s.memLimit_lt
  have hpos : 0 < 4096 := by decide
  have hup := le_alignUp hpos s.endSym.toNat
  constructor
  · intro h hns
    by_cases hend : s.endSym.toNat + 4095 < 2 ^ 32
    · exact (bumpAt_start hs hend).fits hns h.le_limit
    · -- the first region would have to start at 2^32
      obtain ⟨n, ns, rfl⟩ := List.exists_cons_of_ne_nil hns
      have hbase := h.base_le _ (List.mem_cons_self ..)
      have hfirst := (s.bootAlloc n).1.isLt
      have hwrap : 2 ^ 32 ≤ alignUp 4096 s.endSym.toNat := by
        rw [alignUp, Nat.ceilDiv_eq_add_pred_div]
        omega
      exact absurd (le_trans hwrap hbase) (Nat.not_le.mpr hfirst)
  · intro h
    by_cases hns : ns = []
    · rw [hns]
      exact granted_nil ..
    · have hfit := h hns
      rw [(bumpAt_start hs (by omega)).regions_eq hfit]
      exact granted_regions hpos (dvd_alignUp ..) hfit

/-- Two pages and a bit, and the page after them. -/
theorem bootAlloc_granted_iff_pages :
    Granted 4096 (alignUp 4096 0xF0112345) (filledBoot 0#32).start.memLimit
        ((filledBoot 0#32).start.bootRegions [0x2001#32, 0#32, 0x1000#32]) ↔
      ([0x2001#32, 0#32, 0x1000#32] ≠ [] →
        alignUp 4096 0xF0112345 + extent 4096 [0x2001, 0, 0x1000] ≤
          (filledBoot 0#32).start.memLimit) :=
  bootAlloc_granted_iff (s := (filledBoot 0#32).start) rfl [0x2001#32, 0#32, 0x1000#32]

/-- With 16 megabytes of extended memory a request for all addresses up to `2^32` is granted.
It leaves the pointer at zero, and the next call returns the same memory again. -/
theorem not_granted_wrapped :
    (filledBoot 0#32).start.bootRegions [0x0FEED000#32, 0x1000#32] =
        [(0xF0113000, 0x0FEED000), (0xF0113000, 0x1000)] ∧
      (filledBoot 0#32).start.memLimit = 0xF1100000 ∧
      ¬ Granted 4096 (alignUp 4096 0xF0112345) (filledBoot 0#32).start.memLimit
        ((filledBoot 0#32).start.bootRegions [0x0FEED000#32, 0x1000#32]) := by
  have hregions : (filledBoot 0#32).start.bootRegions [0x0FEED000#32, 0x1000#32] =
      [(0xF0113000, 0x0FEED000), (0xF0113000, 0x1000)] := by decide
  have hlimit : (filledBoot 0#32).start.memLimit = 0xF1100000 := by decide
  refine ⟨hregions, hlimit, fun h => ?_⟩
  have hle := h.le_limit (0xF0113000, 0x0FEED000) (by rw [hregions]; exact List.mem_cons_self ..)
  rw [hlimit] at hle
  exact absurd hle (by decide)

end Kern

end JosVmx
