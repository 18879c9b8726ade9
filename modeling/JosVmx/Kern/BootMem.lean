import JosVmx.Kern.BootSegment
import JosVmx.Kern.PageAlloc

/-!
# Initial memory mappings

`i386_mem_detect`, `boot_mem_init` and `boot_mem_check` of `kern/pmap.c`, from any
contents of memory and any memory size.

## Main definitions

* `Boot` — what the boot loader, the CMOS and the linker leave to the kernel
* `Kern.bootMemInit`, `Kern.bootMemCheck` — the functions of the source
* `Boot.Sufficient` — the page tables of `boot_alloc` lie in memory
-/

namespace JosVmx

open Lib

/-! ### Before the kernel starts -/

/-- The machine as the boot loader leaves it, and the symbols of the kernel image. The
linker places the image at `0xF0100000`, and in it the page-aligned boot stack before
`end`. -/
structure Boot where
  /-- the bytes of the CMOS -/
  cmos : ℕ → BitVec 8
  ram : Mem
  /-- the linker's `end` symbol -/
  endSym : Word
  /-- lowest address in the boot-time kernel stack -/
  bootstack : Word
  bootstack_aligned : bootstack.toNat % 4096 = 0
  bootstack_ge : 0xF0100000#32 ≤ bootstack
  bootstack_le : bootstack.toNat + kstksize.toNat ≤ endSym.toNat

namespace Boot

variable (b : Boot)

/-- The CMOS register of the base memory size. -/
def nvramBaselo : ℕ := 0x15

/-- The CMOS register of the extended memory size. -/
def nvramExtlo : ℕ := 0x17

/-- A 16-bit value of the CMOS. -/
def nvramRead (r : ℕ) : Word :=
  (b.cmos r).zeroExtend 32 ||| ((b.cmos (r + 1)).zeroExtend 32 <<< 8)

/-- The number of pages of memory, from the amounts of base and extended memory. -/
def i386MemDetect : Word :=
  let nBasePages := b.nvramRead nvramBaselo * 1024#32 / pgsize
  let nExtendedPages := b.nvramRead nvramExtlo * 1024#32 / pgsize
  if nExtendedPages ≠ 0#32 then extphysmem / pgsize + nExtendedPages else nBasePages

theorem toNat_nvramRead_lt (r : ℕ) : (b.nvramRead r).toNat < 2 ^ 16 := by
  have hlow := (b.cmos r).isLt
  have hhigh := (b.cmos (r + 1)).isLt
  have hshift : (((b.cmos (r + 1)).zeroExtend 32) <<< 8).toNat < 2 ^ 16 := by
    simp only [BitVec.toNat_shiftLeft, BitVec.truncate_eq_setWidth, BitVec.toNat_setWidth,
      Nat.shiftLeft_eq]
    omega
  rw [nvramRead, BitVec.toNat_or]
  refine Nat.or_lt_two_pow (n := 16) ?_ hshift
  simp only [BitVec.truncate_eq_setWidth, BitVec.toNat_setWidth]
  omega

theorem toNat_i386MemDetect_le : b.i386MemDetect.toNat ≤ maxPages := by
  have hpages (r : ℕ) : (b.nvramRead r * 1024#32 / pgsize).toNat ≤ 16383 := by
    have hlt := b.toNat_nvramRead_lt r
    have hpg : pgsize.toNat = 4096 := rfl
    rw [BitVec.toNat_udiv, BitVec.toNat_mul, BitVec.toNat_ofNat, hpg]
    omega
  have hbase := hpages nvramBaselo
  have hext := hpages nvramExtlo
  have hlow : (extphysmem / pgsize).toNat = 256 := by decide
  rw [i386MemDetect, maxPages]
  split_ifs
  · rw [BitVec.toNat_add, hlow]
    omega
  · omega

/-- The state in which `boot_mem_init` goes to work, after `i386_mem_detect`. -/
def start : Kern where
  npages := b.i386MemDetect.toNat
  npages_le := b.toNat_i386MemDetect_le
  kernPgdir := 0
  mem := b.ram
  pages := fun _ => ⟨⟨none, .null⟩, 0#16⟩
  pageFreeList := none
  endSym := b.endSym
  nextfree := 0#32
  log := []

end Boot

namespace Kern

/-! ### The functions of the source -/

/-- `assert(x)` with the text of `x`. -/
def kassert (x : Bool) (text : String) : Except Fault Unit :=
  if x then .ok () else .error (.assertion text)

/-- A round of the first loop of `boot_mem_check`. -/
def checkPhys (s : Kern) (i : Word) : Except Fault Unit := do
  let pa ← s.checkVa2pa s.kernPgdir (kernbase + i)
  kassert (pa = i) "check_va2pa(kern_pgdir, KERNBASE + i) == i"

/-- A round of the second loop of `boot_mem_check`. -/
def checkStack (s : Kern) (bootstack i : Word) : Except Fault Unit := do
  let pa ← s.checkVa2pa s.kernPgdir (kstacktop - kstksize + i)
  let base ← paddr bootstack
  kassert (pa = base + i)
    "check_va2pa(kern_pgdir, KSTACKTOP - KSTKSIZE + i) == PADDR(bootstack) + i"

/-- A round of the third loop of `boot_mem_check`. -/
def checkPde (s : Kern) (i : Fin 1024) : Except Fault Unit :=
  if i = pdx vpt ∨ i = pdx (kstacktop - 1#32) then
    kassert (s.mem s.kernPgdir i ≠ 0#32) "kern_pgdir[i]"
  else if pdx kernbase ≤ i then kassert (s.mem s.kernPgdir i ≠ 0#32) "kern_pgdir[i]"
  else kassert (s.mem s.kernPgdir i = 0#32) "kern_pgdir[i] == 0"

/-- Check that the kernel part of virtual address space has been set up roughly
correctly. -/
def bootMemCheck (s : Kern) (bootstack : Word) : Except Fault Unit := do
  forLoop .diverge (fun i => decide (kernbase + i ≠ 0#32)) (· + pgsize)
    (fun i _ => s.checkPhys i) pageRounds 0#32 ()
  forLoop .diverge (fun i => decide (i < kstksize)) (· + pgsize)
    (fun i _ => s.checkStack bootstack i) pageRounds 0#32 ()
  (List.finRange 1024).forM s.checkPde

/-- Point `kern_pgdir` to a frame. -/
def setKernPgdir (s : Kern) (f : ℕ) : Kern := { s with kernPgdir := f }

/-- Allocate `kern_pgdir`, clear it, and insert it in itself as a page table. -/
def bootPgdir (s : Kern) : Except Fault Kern :=
  match s.bootAlloc pgsize with
  | (kva, s) => do
    let pa ← paddr kva
    let s := (s.setKernPgdir (pgnum pa).toNat).memset pa.toNat 0#8 4096
    .ok (s.store s.kernPgdir (pdx vpt) (pa ||| pteW ||| pteP))

@[simp] theorem mem_setKernPgdir (s : Kern) (f : ℕ) : (s.setKernPgdir f).mem = s.mem := rfl

theorem bootNext_setKernPgdir (s : Kern) (f : ℕ) : (s.setKernPgdir f).bootNext = s.bootNext := rfl

/-- Replace the array `pages`. -/
def setPages (s : Kern) (pages : ℕ → Page) : Kern := { s with pages := pages }

/-- The size of `struct Page`. -/
def sizeofPage : Word := 12#32

/-- Allocate `pages` and clear it. -/
def bootPages (s : Kern) : Except Fault Kern :=
  let n := BitVec.ofNat 32 s.npages * sizeofPage
  match s.bootAlloc n with
  | (kva, s) => do
    let pa ← paddr kva
    .ok ((s.memset pa.toNat 0#8 n.toNat).setPages fun _ => ⟨⟨none, .null⟩, 0#16⟩)

/-- The part of `boot_mem_init` up to `boot_mem_check`. -/
def bootMap (b : Boot) : Except Fault Kern := do
  let s ← b.start.bootPgdir
  let stack ← paddr b.bootstack
  let s ← s.bootMapSegment (kstacktop - kstksize) kstksize stack pteW
  s.bootMapSegment kernbase (0xffffffff#32 - kernbase) 0#32 pteW

/-- Set up the kernel's page directory and turn on paging. While the segment registers
are reloaded, address 0 is mapped like `KERNBASE`. -/
def bootMemInit (b : Boot) : Except Fault Kern := do
  let s ← bootMap b
  let s ← s.bootPages
  s.bootMemCheck b.bootstack
  let s := s.store s.kernPgdir 0 (s.mem s.kernPgdir (pdx kernbase))
  .ok (s.store s.kernPgdir 0 0#32)

end Kern

end JosVmx
