import JosVmx.Inc.Mmu
import JosVmx.Lib.LinkedList

/-!
# The state of the memory manager

The globals of `kern/pmap.c`, the physical memory its page tables live in, and the
primitive accesses the code makes to them.

Physical memory is a family of frames of 1024 words. A page directory or page table
occupies one frame, so the page-aligned pointers of the source are frame numbers
and a `pte_t *` is a frame number with an index. The array `pages[]` is kept as a
typed array beside it: a `struct Page *` is its index, and an index at or above
`npages` may be formed but not dereferenced.

The field `log` records, newest first, what the rest of the machine can observe: the
stores to page table memory in program order, the TLB invalidations, and the pages
that the allocator hands out and takes back. The code never reads it.

## Main definitions

* `Kern` — the state
* `Kern.store`, `Kern.memset`, `Kern.invlpg` — accesses that reach the log
* `Kern.kaddr`, `paddr` — the address conversions of `kern/pmap.h` with their panics
* `Kern.Handed` — the pages handed out by `page_alloc` and not yet taken back
-/

namespace JosVmx

/-- How a run of the kernel can fail to go on. -/
inductive Fault
  /-- `panic` with its format string and arguments -/
  | panic (fmt : String) (args : List Word)
  /-- a failed `assert` with the text of its condition -/
  | assertion (text : String)
  /-- an access through a pointer that names no object -/
  | wild
  /-- a loop that never ends -/
  | diverge
  deriving DecidableEq, Repr

/-- What the memory manager does to the machine around it. -/
inductive Event
  | store (frame : ℕ) (idx : Fin 1024) (val : Word)
  | invlpg (va : Word)
  | alloc (pp : ℕ)
  | free (pp : ℕ)
  deriving DecidableEq, Repr

/-- `struct Page`. -/
structure Page where
  /-- free list link -/
  ppLink : Lib.Link ℕ
  /-- the count of pointers to this page -/
  ppRef : BitVec 16
  deriving DecidableEq, Repr

/-- The most pages that the two byte counters of the CMOS can report, `EXTPHYSMEM / PGSIZE`
and `65535 * 1024 / PGSIZE`. -/
def maxPages : ℕ := 16639

theorem eight_le_maxPages : 8 ≤ maxPages := by decide

/-- Physical memory as frames of words. -/
abbrev Mem := ℕ → Fin 1024 → Word

/-- The globals of `kern/pmap.c` and physical memory. -/
structure Kern where
  /-- amount of physical memory (in pages) -/
  npages : ℕ
  /-- `i386_mem_detect` cannot report more than this -/
  npages_le : npages ≤ maxPages
  /-- frame of the kernel's initial page directory -/
  kernPgdir : ℕ
  mem : Mem
  /-- physical page state array -/
  pages : ℕ → Page
  /-- free list of physical pages -/
  pageFreeList : Option ℕ
  /-- the linker's `end` symbol -/
  endSym : Word
  /-- `boot_alloc`'s pointer to the next byte of free memory -/
  nextfree : Word
  log : List Event

/-! ### Words and bytes of physical memory -/

/-- Replace one word of memory. -/
def Mem.set (m : Mem) (f : ℕ) (i : Fin 1024) (v : Word) : Mem :=
  fun g j => if g = f ∧ j = i then v else m g j

@[simp] theorem Mem.set_same (m : Mem) (f : ℕ) (i : Fin 1024) (v : Word) : m.set f i v f i = v := by
  simp [Mem.set]

theorem Mem.set_of_frame_ne {g f : ℕ} (h : g ≠ f) (m : Mem) (i j : Fin 1024) (v : Word) :
    m.set f i v g j = m g j := by
  simp [Mem.set, h]

theorem Mem.set_of_idx_ne {i j : Fin 1024} (h : j ≠ i) (m : Mem) (g f : ℕ) (v : Word) :
    m.set f i v g j = m g j := by
  simp [Mem.set, h]

theorem Mem.set_set (m : Mem) (f : ℕ) (i : Fin 1024) (v w : Word) :
    (m.set f i v).set f i w = m.set f i w := by
  funext g j
  by_cases h : g = f ∧ j = i <;> simp [Mem.set, h]

/-- Replace byte `k` of a little-endian word. -/
def setByte (w : Word) (k : ℕ) (b : BitVec 8) : Word :=
  (w &&& ~~~(0xFF#32 <<< (8 * k))) ||| (b.zeroExtend 32 <<< (8 * k))

/-- Byte `k` of a little-endian word. -/
def getByte (w : Word) (k : ℕ) : BitVec 8 := (w >>> (8 * k)).truncate 8

theorem getByte_setByte (w : Word) {k k' : ℕ} (hk : k < 4) (hk' : k' < 4) (b : BitVec 8) :
    getByte (setByte w k b) k' = if k' = k then b else getByte w k' := by
  apply BitVec.eq_of_getLsbD_eq
  intro i hi
  interval_cases k <;> interval_cases k' <;> interval_cases i <;> simp [getByte, setByte]

/-- A word is determined by its bytes. -/
theorem eq_of_getByte_eq {w w' : Word} (h : ∀ k < 4, getByte w k = getByte w' k) : w = w' := by
  apply BitVec.eq_of_getLsbD_eq
  intro i hi
  have hbyte := congrArg (fun b => b.getLsbD (i % 8)) (h (i / 8) (by omega))
  have hmod : i % 8 < 8 := Nat.mod_lt _ (by decide)
  simpa [getByte, hmod, show 8 * (i / 8) + i % 8 = i from by omega] using hbyte

/-- Clearing a byte of a word never makes it present. -/
theorem present_of_setByte_zero {w : Word} {k : ℕ} (h : present (setByte w k 0#8)) :
    present w := by
  intro hw
  apply h
  have hzero : (0#8).zeroExtend 32 <<< (8 * k) = 0#32 := by simp
  rw [setByte, hzero, BitVec.or_zero, BitVec.and_assoc,
    BitVec.and_comm (~~~(0xFF#32 <<< (8 * k))), ← BitVec.and_assoc, hw, BitVec.zero_and]

namespace Kern

theorem lt_of_lt_npages {s : Kern} {pp : ℕ} (h : pp < s.npages) : pp < 2 ^ 20 :=
  Nat.lt_of_lt_of_le h (s.npages_le.trans (by decide))

/-- Append an event to the log. -/
def note (s : Kern) (e : Event) : Kern := { s with log := e :: s.log }

/-- Store a word of page table memory. -/
def store (s : Kern) (f : ℕ) (i : Fin 1024) (v : Word) : Kern :=
  { s with mem := s.mem.set f i v, log := .store f i v :: s.log }

/-- Invalidate the TLB entry of a page. -/
def invlpg (s : Kern) (va : Word) : Kern := s.note (.invlpg va)

/-- The index of the word that holds a physical byte address. -/
def wordIdx (pa : ℕ) : Fin 1024 := ⟨pa % 4096 / 4, by omega⟩

/-- Store one byte at a physical address. -/
def storeByte (s : Kern) (pa : ℕ) (b : BitVec 8) : Kern :=
  s.store (pa / 4096) (wordIdx pa) (setByte (s.mem (pa / 4096) (wordIdx pa)) (pa % 4) b)

/-- `memset` on the `n` bytes from physical address `pa`. -/
def memset (s : Kern) (pa : ℕ) (c : BitVec 8) : ℕ → Kern
  | 0 => s
  | n + 1 => (s.storeByte pa c).memset (pa + 1) c n

/-- Set the reference count of a page. -/
def setRef (s : Kern) (pp : ℕ) (r : BitVec 16) : Kern :=
  { s with pages := Function.update s.pages pp { s.pages pp with ppRef := r } }

/-- Convert a physical address to the frame behind its kernel virtual address. -/
def kaddr (s : Kern) (pa : Word) : Except Fault ℕ :=
  if s.npages ≤ (pgnum pa).toNat then .error (.panic "KADDR called with invalid pa %08lx" [pa])
  else .ok (pgnum pa).toNat

/-- The pages that have been handed out and not taken back since the log began. -/
def Handed : List Event → ℕ → Prop
  | [], _ => False
  | .alloc pp :: log, q => q = pp ∨ Handed log q
  | .free pp :: log, q => q ≠ pp ∧ Handed log q
  | .store .. :: log, q => Handed log q
  | .invlpg _ :: log, q => Handed log q

instance : ∀ (log : List Event) (q : ℕ), Decidable (Handed log q)
  | [], _ => inferInstanceAs (Decidable False)
  | .alloc _ :: log, q =>
    have := instDecidableHanded log q
    inferInstanceAs (Decidable (_ ∨ _))
  | .free _ :: log, q =>
    have := instDecidableHanded log q
    inferInstanceAs (Decidable (_ ∧ _))
  | .store .. :: log, q => instDecidableHanded log q
  | .invlpg _ :: log, q => instDecidableHanded log q

/-- The pages that are allocated. -/
def Allocated (s : Kern) (pp : ℕ) : Prop := Handed s.log pp

instance (s : Kern) (pp : ℕ) : Decidable (s.Allocated pp) :=
  inferInstanceAs (Decidable (Handed _ _))

/-- Convert a kernel virtual address to a physical address. -/
def paddr (kva : Word) : Except Fault Word :=
  if kva < kernbase then .error (.panic "PADDR called with invalid kva %08lx" [kva])
  else .ok (kva - kernbase)

theorem kaddr_ok {s : Kern} {pa : Word} (h : (pgnum pa).toNat < s.npages) :
    s.kaddr pa = .ok (pgnum pa).toNat := by
  simp [kaddr, Nat.not_le.mpr h]

theorem kaddr_error {s : Kern} {pa : Word} (h : s.npages ≤ (pgnum pa).toNat) :
    s.kaddr pa = .error (.panic "KADDR called with invalid pa %08lx" [pa]) := by
  simp [kaddr, h]

/-! ### What `memset` does to memory -/

/-- The byte of memory at a physical address. -/
def byteAt (m : Mem) (a : ℕ) : BitVec 8 := getByte (m (a / 4096) (wordIdx a)) (a % 4)

/-- Memory is determined word by word by the bytes of its addresses. -/
theorem word_eq_of_byteAt_eq (m m' : Mem) {g : ℕ} {i : Fin 1024}
    (h : ∀ k < 4, byteAt m (g * 4096 + i * 4 + k) = byteAt m' (g * 4096 + i * 4 + k)) :
    m g i = m' g i := by
  refine eq_of_getByte_eq fun k hk => ?_
  have hbyte := h k hk
  have hi := i.isLt
  have hframe : (g * 4096 + i * 4 + k) / 4096 = g := by omega
  have hidx : wordIdx (g * 4096 + i * 4 + k) = i := by
    rw [Fin.ext_iff, wordIdx]
    change (g * 4096 + i * 4 + k) % 4096 / 4 = i
    omega
  have hoff : (g * 4096 + i * 4 + k) % 4 = k := by omega
  rwa [byteAt, byteAt, hframe, hidx, hoff] at hbyte

theorem byteAt_storeByte (s : Kern) (pa a : ℕ) (b : BitVec 8) :
    byteAt (s.storeByte pa b).mem a = if a = pa then b else byteAt s.mem a := by
  by_cases hword : a / 4096 = pa / 4096 ∧ wordIdx a = wordIdx pa
  · have hidx : a % 4096 / 4 = pa % 4096 / 4 := congrArg Fin.val hword.2
    have hiff : a % 4 = pa % 4 ↔ a = pa := by
      have := hword.1
      omega
    simp only [byteAt, storeByte, store, hword.1, hword.2, Mem.set_same,
      getByte_setByte _ (Nat.mod_lt pa (by decide)) (Nat.mod_lt a (by decide)), hiff]
  · have hne : a ≠ pa := by
      rintro rfl
      exact hword ⟨rfl, rfl⟩
    simp only [byteAt, storeByte, store, Mem.set, if_neg hword, if_neg hne]

/-- `memset` sets the bytes of its range and no others. -/
theorem byteAt_memset (s : Kern) (pa a : ℕ) (c : BitVec 8) (n : ℕ) :
    byteAt (s.memset pa c n).mem a = if pa ≤ a ∧ a < pa + n then c else byteAt s.mem a := by
  induction n generalizing s pa with
  | zero =>
    rw [memset, if_neg (by omega)]
  | succ n ih =>
    rw [memset, ih, byteAt_storeByte]
    split_ifs <;> first | rfl | omega

/-- `memset` only changes memory, and the log of the stores to it. -/
theorem memset_frame (s : Kern) (pa : ℕ) (c : BitVec 8) (n : ℕ) :
    s.memset pa c n =
      { s with mem := (s.memset pa c n).mem, log := (s.memset pa c n).log } := by
  induction n generalizing s pa with
  | zero => rfl
  | succ n ih => exact ih (s.storeByte pa c) (pa + 1)

@[simp] theorem memset_npages (s : Kern) (pa : ℕ) (c : BitVec 8) (n : ℕ) :
    (s.memset pa c n).npages = s.npages := by
  rw [memset_frame]

@[simp] theorem memset_kernPgdir (s : Kern) (pa : ℕ) (c : BitVec 8) (n : ℕ) :
    (s.memset pa c n).kernPgdir = s.kernPgdir := by
  rw [memset_frame]

@[simp] theorem memset_pages (s : Kern) (pa : ℕ) (c : BitVec 8) (n : ℕ) :
    (s.memset pa c n).pages = s.pages := by
  rw [memset_frame]

@[simp] theorem memset_pageFreeList (s : Kern) (pa : ℕ) (c : BitVec 8) (n : ℕ) :
    (s.memset pa c n).pageFreeList = s.pageFreeList := by
  rw [memset_frame]

@[simp] theorem mem_store (s : Kern) (f : ℕ) (i : Fin 1024) (v : Word) :
    (s.store f i v).mem = s.mem.set f i v := rfl

@[simp] theorem mem_setRef (s : Kern) (pp : ℕ) (r : BitVec 16) : (s.setRef pp r).mem = s.mem := rfl

/-- `memset` hands out no page and takes none back. -/
theorem allocated_memset (s : Kern) (pa : ℕ) (c : BitVec 8) (n q : ℕ) :
    (s.memset pa c n).Allocated q ↔ s.Allocated q := by
  induction n generalizing s pa with
  | zero => exact Iff.rfl
  | succ n ih => exact ih (s.storeByte pa c) (pa + 1)

/-- Words outside the range keep their values. -/
theorem mem_memset_of_outside (s : Kern) {pa n g : ℕ} {i : Fin 1024} (c : BitVec 8)
    (h : g * 4096 + i * 4 + 4 ≤ pa ∨ pa + n ≤ g * 4096 + i * 4) :
    (s.memset pa c n).mem g i = s.mem g i := by
  refine word_eq_of_byteAt_eq _ _ fun k hk => ?_
  rw [byteAt_memset, if_neg (by omega)]

theorem byteAt_zero (a : ℕ) : byteAt (fun _ _ => 0#32) a = 0#8 := by
  simp [byteAt, getByte]

/-- Clearing a whole frame. -/
theorem mem_memset_frame (s : Kern) (f g : ℕ) (i : Fin 1024) :
    (s.memset (f * 4096) 0#8 4096).mem g i = if g = f then 0#32 else s.mem g i := by
  have hi := i.isLt
  by_cases hg : g = f
  · subst hg
    rw [if_pos rfl]
    refine word_eq_of_byteAt_eq _ (fun _ _ => 0#32) fun k hk => ?_
    rw [byteAt_memset, if_pos (by omega), byteAt_zero]
  · rw [if_neg hg]
    exact mem_memset_of_outside s 0#8 (by omega)

-- its lemmas say what it does; unfolding it goes byte by byte
attribute [irreducible] memset

end Kern

end JosVmx
