import JosVmx.Kern.State
import JosVmx.Lib.Loop

/-!
# Page tables before the free list exists

The boot-time half of `kern/pmap.c`: the bump allocator `boot_alloc`, the walk that
creates page tables with it, and the loop that maps a segment. `check_va2pa` reads the
finished tables the way the processor does.
-/

namespace JosVmx

/-- A `pte_t *`: a frame of page table memory and an index into it. -/
structure PtePtr where
  frame : ℕ
  idx : Fin 1024
  deriving DecidableEq, Repr

/-- Loops that step an address by `PGSIZE` repeat after this many rounds. -/
def pageRounds : ℕ := 2 ^ 20 + 1

namespace Kern

/-! ### The boot-time allocator -/

/-- The address the next call of `boot_alloc` returns. -/
def bootNext (s : Kern) : Word :=
  roundup (if s.nextfree = 0#32 then roundup s.endSym pgsize else s.nextfree) pgsize

/-- Allocate enough pages of contiguous physical memory to hold `n` bytes, without
initializing them. Returns a kernel virtual address. -/
def bootAlloc (s : Kern) (n : Word) : Word × Kern :=
  let nextfree := if s.nextfree = 0#32 then roundup s.endSym pgsize else s.nextfree
  let nextfree := roundup nextfree pgsize
  let v := nextfree
  (v, { s with nextfree := nextfree + n })

/-! ### The boot-time page table walk -/

/-- The end of `boot_pgdir_walk`: the entry for `la` in the table its directory entry
names. -/
def bootPte (s : Kern) (la : Word) : Except Fault (Option PtePtr × Kern) := do
  let pte ← s.kaddr (pteAddr (s.mem s.kernPgdir (pdx la)))
  .ok (some ⟨pte, ptx la⟩, s)

/-- Walk the table structure of `kern_pgdir` to the page table entry for `la`. The
parameter `create` is declared `bool` but carries the permissions of a new directory
entry; as an unsigned enumeration it keeps all of its bits. -/
def bootPgdirWalk (s : Kern) (la create : Word) : Except Fault (Option PtePtr × Kern) :=
  if ¬ present (s.mem s.kernPgdir (pdx la)) then
    if create = 0#32 then .ok (none, s)
    else
      match s.bootAlloc pgsize with
      | (pte, s) =>
        if pte = 0#32 then .ok (none, s)
        else do
          let pa ← paddr pte
          (s.store s.kernPgdir (pdx la) (pteAddr pa ||| pteP ||| create)).bootPte la
  else s.bootPte la

/-- One round of `boot_map_segment`. -/
def bootMapPage (la pa perm i : Word) (s : Kern) : Except Fault Kern := do
  match ← s.bootPgdirWalk (la + i) (pteP ||| perm) with
  | (none, _) => .error .wild
  | (some pte, s) => .ok (s.store pte.frame pte.idx ((pa + i) ||| pteP ||| perm))

/-- Map `[la, la+size)` of linear address space to physical `[pa, pa+size)` in
`kern_pgdir`, with permission bits `perm|PTE_P`. -/
def bootMapSegment (s : Kern) (la size pa perm : Word) : Except Fault Kern :=
  Lib.forLoop .diverge (fun i : Word => decide (i < size)) (· + pgsize) (bootMapPage la pa perm)
    pageRounds 0#32 s

/-- The physical address of the page containing `va`, or `~0`. -/
def checkVa2pa (s : Kern) (pgdir : ℕ) (va : Word) : Except Fault Word :=
  let pde := s.mem pgdir (pdx va)
  if ¬ present pde then .ok (~~~0#32)
  else do
    let p ← s.kaddr (pteAddr pde)
    if ¬ present (s.mem p (ptx va)) then .ok (~~~0#32)
    else .ok (pteAddr (s.mem p (ptx va)))

/-! ### Values of the allocator -/

theorem bootAlloc_eq (s : Kern) (n : Word) :
    s.bootAlloc n = (s.bootNext, { s with nextfree := s.bootNext + n }) := rfl

@[simp] theorem mem_bootAlloc (s : Kern) (n : Word) : (s.bootAlloc n).2.mem = s.mem := rfl

end Kern

theorem toNat_roundup_pgsize {a : Word} (h : a.toNat + 4095 < 2 ^ 32) :
    (roundup a pgsize).toNat = (a.toNat + 4095) / 4096 * 4096 := by
  have hpg : pgsize.toNat = 4096 := rfl
  have hsum : (a + pgsize - 1#32).toNat = a.toNat + 4095 := by
    have : a + pgsize - 1#32 = a + 4095#32 := by
      rw [pgsize]
      bv_omega
    rw [this, BitVec.toNat_add]
    simp only [BitVec.toNat_ofNat]
    omega
  rw [roundup, rounddown, BitVec.toNat_sub_of_le, BitVec.toNat_umod, hsum, hpg]
  · omega
  · rw [BitVec.le_def, BitVec.toNat_umod]
    exact Nat.mod_le _ _

/-- Rounding up an aligned address does nothing. -/
theorem roundup_aligned {a : Word} (h : a.toNat % 4096 = 0) : roundup a pgsize = a := by
  have hlt := a.isLt
  rw [← BitVec.toNat_inj, toNat_roundup_pgsize (by omega)]
  omega

end JosVmx
