import Mathlib.Data.Nat.Bitwise
import Mathlib.Data.Fin.Basic
import Mathlib.Tactic.IntervalCases

/-!
# Linear addresses and page table entries

The paging half of `inc/mmu.h` and the memory map of `inc/memlayout.h`. A linear
address has a page directory index, a page table index and an offset in its page;
a page table entry has a frame address in its high twenty bits and flags in its
low twelve.

The macros are stated on 32-bit words as the headers write them. The lemmas below
each macro give its value in the naturals, and later modules only use those.
-/

namespace JosVmx

/-- A 32-bit machine word: `uint32_t`, `uintptr_t`, `physaddr_t`, `pte_t`, `pde_t`. -/
abbrev Word := BitVec 32

/-! ### Constants -/

/-- Bytes mapped by a page. -/
def pgsize : Word := 4096#32

/-- Bytes mapped by a page directory entry, `PGSIZE*NPTENTRIES`. -/
def ptsize : Word := 0x400000#32

/-- All physical memory is mapped at this address. -/
def kernbase : Word := 0xF0000000#32

def iophysmem : Word := 0x0A0000#32

def extphysmem : Word := 0x100000#32

/-- The virtual page table window. -/
def vpt : Word := kernbase - ptsize

def kstacktop : Word := vpt

def kstksize : Word := 8#32 * pgsize

def ulim : Word := kstacktop - ptsize

def uvpt : Word := ulim - ptsize

def upages : Word := uvpt - ptsize

def uenvs : Word := upages - ptsize

/-- Top of the user-accessible address space. -/
def utop : Word := uenvs

/-! Page table entry flags. -/

def pteP : Word := 0x001#32

def pteW : Word := 0x002#32

def pteU : Word := 0x004#32

/-! ### The parts of a linear address -/

/-- `NPDENTRIES` and `NPTENTRIES` are positive, so a literal is an index. -/
instance nptentriesNeZero : NeZero (1024 : ℕ) := ⟨by decide⟩

/-- Page number field of an address. -/
def pgnum (la : Word) : Word := la >>> 12

/-- Page directory index. -/
def pdx (la : Word) : Fin 1024 :=
  ⟨((la >>> 22) &&& 0x3FF#32).toNat, by
    rw [BitVec.toNat_and]
    exact Nat.lt_of_le_of_lt Nat.and_le_right (by decide)⟩

/-- Page table index. -/
def ptx (la : Word) : Fin 1024 :=
  ⟨((la >>> 12) &&& 0x3FF#32).toNat, by
    rw [BitVec.toNat_and]
    exact Nat.lt_of_le_of_lt Nat.and_le_right (by decide)⟩

/-- Address in a page table entry, `(physaddr_t) (pte) & ~0xFFF`. -/
def pteAddr (pte : Word) : Word := pte &&& ~~~0xFFF#32

/-- Round down to the nearest multiple of `n`. -/
def rounddown (a n : Word) : Word := a - a % n

/-- Round up to the nearest multiple of `n`. -/
def roundup (a n : Word) : Word := rounddown (a + n - 1#32) n

theorem toNat_pgnum (la : Word) : (pgnum la).toNat = la.toNat / 4096 := by
  simp [pgnum, BitVec.toNat_ushiftRight, Nat.shiftRight_eq_div_pow]

theorem pgnum_lt (la : Word) : (pgnum la).toNat < 2 ^ 20 := by
  rw [toNat_pgnum]
  omega

theorem val_pdx (la : Word) : (pdx la).val = la.toNat / 4194304 := by
  have hmask : (0x3FF#32).toNat = 2 ^ 10 - 1 := rfl
  have hlt := la.isLt
  simp only [pdx, BitVec.toNat_and, BitVec.toNat_ushiftRight, Nat.shiftRight_eq_div_pow, hmask,
    Nat.and_two_pow_sub_one_eq_mod]
  omega

theorem val_ptx (la : Word) : (ptx la).val = la.toNat / 4096 % 1024 := by
  have hmask : (0x3FF#32).toNat = 2 ^ 10 - 1 := rfl
  simp only [ptx, BitVec.toNat_and, BitVec.toNat_ushiftRight, Nat.shiftRight_eq_div_pow, hmask,
    Nat.and_two_pow_sub_one_eq_mod]

/-- Two addresses lie in one page exactly when both of their indices agree. -/
theorem pgnum_eq_iff (la la' : Word) :
    pgnum la = pgnum la' ↔ pdx la = pdx la' ∧ ptx la = ptx la' := by
  rw [← BitVec.toNat_inj, Fin.ext_iff, Fin.ext_iff, toNat_pgnum, toNat_pgnum, val_pdx, val_pdx,
    val_ptx, val_ptx]
  have hlt := la.isLt
  have hlt' := la'.isLt
  omega

/-- The number of page directory entries below `UTOP`. -/
def userEntries : ℕ := 955

/-- An address is below `UTOP` exactly when its directory entry is a user entry. -/
theorem lt_utop_iff (la : Word) : la < utop ↔ (pdx la).val < userEntries := by
  have hutop : utop.toNat = 955 * 4194304 := by decide
  rw [BitVec.lt_def, hutop, val_pdx, userEntries]
  omega

/-! ### The parts of a page table entry -/

/-- The entry is present. -/
def present (pte : Word) : Prop := pte &&& pteP ≠ 0#32

instance (pte : Word) : Decidable (present pte) := inferInstanceAs (Decidable (_ ≠ _))

/-- The number of the frame an entry names, `PGNUM(PTE_ADDR(pte))`. -/
def frameOf (pte : Word) : ℕ := (pgnum (pteAddr pte)).toNat

theorem pteAddr_eq_shift (pte : Word) : pteAddr pte = (pte >>> 12) <<< 12 := by
  apply BitVec.eq_of_getLsbD_eq
  intro i hi
  interval_cases i <;> simp [pteAddr]

theorem toNat_pteAddr (pte : Word) : (pteAddr pte).toNat = pte.toNat / 4096 * 4096 := by
  have hlt := pte.isLt
  rw [pteAddr_eq_shift, BitVec.toNat_shiftLeft, BitVec.toNat_ushiftRight, Nat.shiftLeft_eq,
    Nat.shiftRight_eq_div_pow]
  omega

theorem frameOf_eq (pte : Word) : frameOf pte = pte.toNat / 4096 := by
  rw [frameOf, toNat_pgnum, toNat_pteAddr]
  omega

theorem frameOf_lt (pte : Word) : frameOf pte < 2 ^ 20 := pgnum_lt _

theorem present_iff (pte : Word) : present pte ↔ pte.toNat % 2 = 1 := by
  have hval : (pte &&& pteP).toNat = pte.toNat % 2 := by
    have hmask : pteP.toNat = 2 ^ 1 - 1 := rfl
    rw [BitVec.toNat_and, hmask, Nat.and_two_pow_sub_one_eq_mod]
  rw [present, ne_eq, ← BitVec.toNat_inj, hval]
  simp

theorem not_present_zero : ¬ present 0#32 := by decide

theorem ne_zero_of_present {pte : Word} (h : present pte) : pte ≠ 0#32 := by
  rintro rfl
  exact not_present_zero h

/-- The starting physical address of a page, `page2ppn(pp) << PGSHIFT`. -/
def page2pa (pp : ℕ) : Word := BitVec.ofNat 32 pp <<< 12

theorem toNat_page2pa {pp : ℕ} (h : pp < 2 ^ 20) : (page2pa pp).toNat = pp * 4096 := by
  rw [page2pa, BitVec.toNat_shiftLeft, BitVec.toNat_ofNat, Nat.shiftLeft_eq]
  omega

/-- Flags below bit twelve do not disturb a frame address. -/
theorem toNat_page2pa_or {pp : ℕ} (h : pp < 2 ^ 20) {flags : Word} (hf : flags.toNat < 4096) :
    (page2pa pp ||| flags).toNat = pp * 4096 + flags.toNat := by
  rw [BitVec.toNat_or, toNat_page2pa h]
  have hor := Nat.two_pow_add_eq_or_of_lt (i := 12) hf pp
  rw [show pp * 4096 = 2 ^ 12 * pp from Nat.mul_comm _ _, hor]

theorem frameOf_page2pa_or {pp : ℕ} (h : pp < 2 ^ 20) {flags : Word} (hf : flags.toNat < 4096) :
    frameOf (page2pa pp ||| flags) = pp := by
  rw [frameOf_eq, toNat_page2pa_or h hf]
  omega

theorem pteAddr_page2pa_or {pp : ℕ} (h : pp < 2 ^ 20) {flags : Word} (hf : flags.toNat < 4096) :
    pteAddr (page2pa pp ||| flags) = page2pa pp := by
  rw [← BitVec.toNat_inj, toNat_pteAddr, toNat_page2pa_or h hf, toNat_page2pa h]
  omega

theorem toNat_or_lt {a b : Word} (ha : a.toNat < 4096) (hb : b.toNat < 4096) :
    (a ||| b).toNat < 4096 := by
  rw [BitVec.toNat_or]
  exact Nat.or_lt_two_pow (n := 12) ha hb

/-- Or-ing `PTE_P` into an entry makes it present. -/
theorem present_or (a b : Word) : present (a ||| pteP ||| b) := by
  intro h
  have hbit := congrArg (fun w => w.getLsbD 0) h
  simp [pteP] at hbit

/-- The argument `create` that `page_insert` passes to the walk is not zero. -/
theorem or_pteP_ne_zero (perm : Word) : perm ||| pteP ≠ 0#32 := by
  have hpresent := present_or 0#32 perm
  rw [BitVec.zero_or, BitVec.or_comm] at hpresent
  exact ne_zero_of_present hpresent

/-- A physical address taken from an entry is the address of the frame it names. -/
theorem pteAddr_eq_page2pa (pte : Word) : pteAddr pte = page2pa (frameOf pte) := by
  rw [← BitVec.toNat_inj, toNat_pteAddr, toNat_page2pa (frameOf_lt pte), frameOf_eq]

end JosVmx
