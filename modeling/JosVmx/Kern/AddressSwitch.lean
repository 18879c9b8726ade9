import JosVmx.Kern.AddressStages

/-!
# From segments to pages

The instructions that bring the kernel to `KERNBASE`, at the start of `entry.S`, and those that
keep it there, at the end of `boot_mem_init`. Paging is turned on with segment registers that are
then loaded one by one, from a table that is read through the new page tables, and the TLB may be
filled and emptied at any moment.

## Main definitions

* `entryS`, `addressSwitch` — the instructions

## Main results

* `kernel_addresses` — the kernel is at `KERNBASE` all the time, and in the end in the address space
  of its page directory
-/

namespace JosVmx

open Lib

/-! ### The code -/

/-- `GD_KT`, and `CODE_SEL` of `entry.S`. -/
def gdKt : BitVec 16 := 0x08#16

/-- `GD_KD`, and `DATA_SEL` of `entry.S`. -/
def gdKd : BitVec 16 := 0x10#16

namespace Processor

/-- `lcr3(PADDR(kva))`. -/
def loadPgdir (kva : Word) (c : Processor) : Except AccessFault Processor :=
  match Kern.paddr kva with
  | .ok pa => .ok (c.movCr3 pa)
  | .error _ => .error .panic

/-- `kern_pgdir[0] = kern_pgdir[PDX(KERNBASE)]`. -/
def mapLow (kernPgdir : Word) (c : Processor) : Except AccessFault Processor := do
  let pde ← c.loadWord (kernPgdir + BitVec.ofNat 32 (4 * (pdx kernbase).val))
  c.storeWord kernPgdir pde

end Processor

/-- The start of `entry.S`, behind the warm boot flag that it leaves to the BIOS. -/
def entryS (mygdtdesc : Word) : List (Processor → Except AccessFault Processor) :=
  [fun c => c.lgdt (mygdtdesc - kernbase), fun c => c.movSeg .ds gdKd, fun c => c.movSeg .es gdKd,
    fun c => c.movSeg .ss gdKd, fun c => c.movSeg .cs gdKt]

/-- The end of `boot_mem_init`, behind `boot_mem_check`. -/
def addressSwitch (kernPgdir gdtPd : Word) : List (Processor → Except AccessFault Processor) :=
  [Processor.mapLow kernPgdir, Processor.loadPgdir kernPgdir,
    fun c => .ok (c.movCr0 (c.cr0 ||| (cr0Pe ||| cr0Pg))),
    fun c => c.lgdt gdtPd, fun c => c.movSeg .gs gdKd, fun c => c.movSeg .fs gdKd,
    fun c => c.movSeg .es gdKd, fun c => c.movSeg .ds gdKd, fun c => c.movSeg .ss gdKd,
    fun c => c.movSeg .cs gdKt, fun c => .ok c.lldtNull, fun c => c.storeWord kernPgdir 0#32,
    Processor.loadPgdir kernPgdir]

/-! ### The instructions -/

section Steps

variable {mt m : Mem} {f n : ℕ} {flats : List SegReg} {c : Processor} {gdt gdtPd v : Word}
  {b : Boot} {r : SegReg} {sel : BitVec 16}

/-- The kernel's pointer to the page directory in frame `f`. -/
def pgdirVa (f : ℕ) : Word := kernbase + page2pa f

theorem pgdirVa_lt (hf : f < 2 ^ 16) : page2pa f < 0x10000000#32 := by
  rw [BitVec.lt_def, toNat_page2pa (by omega), BitVec.toNat_ofNat]
  omega

theorem toNat_pgdirVa (hf : f < 2 ^ 16) : (pgdirVa f).toNat = (983040 + f) * 4096 := by
  have hbase : kernbase.toNat = 983040 * 4096 := by decide
  rw [pgdirVa, BitVec.toNat_add, hbase, toNat_page2pa (by omega)]
  omega

theorem paddr_pgdirVa (hf : f < 2 ^ 16) : Kern.paddr (pgdirVa f) = .ok (page2pa f) := by
  have hbase : kernbase.toNat = 983040 * 4096 := by decide
  have hge : ¬ pgdirVa f < kernbase := by
    rw [BitVec.lt_def, toNat_pgdirVa hf, hbase]
    omega
  have hsub : pgdirVa f - kernbase = page2pa f := by
    rw [pgdirVa, BitVec.add_comm, BitVec.add_sub_cancel]
  rw [Kern.paddr, if_neg hge, hsub]

/-- The physical address of a word of the page directory. -/
theorem pgdir_word (hf : f < 2 ^ 16) (d : Fin 1024) :
    (page2pa f + BitVec.ofNat 32 (4 * d.val)).toNat / 4096 = f ∧
      Kern.wordIdx (page2pa f + BitVec.ofNat 32 (4 * d.val)).toNat = d := by
  have hd := d.isLt
  have haddr : (page2pa f + BitVec.ofNat 32 (4 * d.val)).toNat = f * 4096 + 4 * d.val := by
    rw [BitVec.toNat_add, toNat_page2pa (by omega), BitVec.toNat_ofNat]
    omega
  rw [haddr]
  refine ⟨by omega, Fin.ext ?_⟩
  change (f * 4096 + 4 * d.val) % 4096 / 4 = d.val
  omega

theorem Processor.storeWord_pgdir (hf : f < 2 ^ 16)
    (haddr : c.address .ds (pgdirVa f) 4 = .ok (page2pa f)) :
    c.storeWord (pgdirVa f) v = .ok { c with mem := c.mem.set f 0 v } := by
  obtain ⟨hframe, hidx⟩ := pgdir_word hf 0
  rw [Fin.val_zero, Nat.mul_zero, BitVec.add_zero] at hframe hidx
  rw [Processor.storeWord, haddr, ok_bind, hframe, hidx]

/-- The entry of `PDX(KERNBASE)` is copied to the entry 0. -/
theorem Unpaged.mapLow (h : Unpaged m c) (hf : f < 2 ^ 16) :
    ∃ c', c.mapLow (pgdirVa f) = .ok c' ∧ Unpaged (m.set f 0 (m f (pdx kernbase))) c' := by
  have hslot : (pdx kernbase).val = 960 := by decide
  obtain ⟨hframe, hidx⟩ := pgdir_word hf (pdx kernbase)
  have hva := toNat_pgdirVa hf
  have hassoc : pgdirVa f + BitVec.ofNat 32 (4 * (pdx kernbase).val) =
      kernbase + (page2pa f + BitVec.ofNat 32 (4 * (pdx kernbase).val)) := by
    rw [pgdirVa, BitVec.add_assoc]
  have hlt : (pgdirVa f + BitVec.ofNat 32 (4 * (pdx kernbase).val)).toNat + 4 ≤ 2 ^ 32 := by
    rw [BitVec.toNat_add, hva, BitVec.toNat_ofNat, hslot]
    omega
  have hload : c.loadWord (pgdirVa f + BitVec.ofNat 32 (4 * (pdx kernbase).val)) =
      .ok (m f (pdx kernbase)) := by
    rw [hassoc] at hlt ⊢
    rw [Processor.loadWord, h.address (by decide) hlt, ok_bind, hframe, hidx, h.mem]
  have hstore := Processor.storeWord_pgdir (v := m f (pdx kernbase)) hf
    (h.address (r := .ds) (n := 4) (by decide) (show (pgdirVa f).toNat + 4 ≤ 2 ^ 32 by omega))
  refine ⟨{ c with mem := c.mem.set f 0 (m f (pdx kernbase)) }, ?_,
    ⟨congrArg (Mem.set · f 0 _) h.mem, h.off, h.segment⟩⟩
  rw [Processor.mapLow, hload, ok_bind, hstore]

theorem pgdir_movCr3 (hf : f < 2 ^ 16) : (c.movCr3 (page2pa f)).pgdir = f := by
  have hframe : frameOf (page2pa f ||| 0#32) = f := frameOf_page2pa_or (by omega) (by decide)
  rwa [BitVec.or_zero] at hframe

theorem Processor.loadPgdir_ok (hf : f < 2 ^ 16) :
    c.loadPgdir (pgdirVa f) = .ok (c.movCr3 (page2pa f)) := by
  rw [Processor.loadPgdir, paddr_pgdirVa hf]

theorem Unpaged.loadPgdir (h : Unpaged m c) (hf : f < 2 ^ 16) :
    ∃ c', c.loadPgdir (pgdirVa f) = .ok c' ∧ PgdirLoaded m f c' :=
  ⟨_, Processor.loadPgdir_ok hf, ⟨h.mem, h.off, h.segment⟩, pgdir_movCr3 hf, fun _ => rfl⟩

/-- Paging is turned on with an empty TLB. -/
theorem PgdirLoaded.movCr0 (h : PgdirLoaded m f c) :
    Paged m m f [] (c.movCr0 (c.cr0 ||| (cr0Pe ||| cr0Pg))) where
  mem := h.mem
  on := by
    have hpg : (c.cr0 ||| (cr0Pe ||| cr0Pg)) &&& cr0Pg = cr0Pg := by
      ext i hi
      simp only [BitVec.getElem_and, BitVec.getElem_or]
      cases cr0Pg[i] <;> simp
    change (c.cr0 ||| (cr0Pe ||| cr0Pg)) &&& cr0Pg ≠ 0#32
    rw [hpg]
    decide
  dir := h.dir
  tlb x p hx := absurd ((h.tlb x).symm.trans hx).symm (Option.some_ne_none p)
  flat r hr := absurd hr List.not_mem_nil
  shifted r hr _ := h.segment r hr

/-- `gdt_pd` is read with the old data segment, so through the entry 0. -/
theorem Paged.lgdt (h : Paged m m f [] c) (hlow : LowMapped m f) (hin : b.InImage gdtPd 6)
    (hpd : HoldsBytes (physMem m) (gdtPd - kernbase) (pseudodesc 47#16 gdt)) :
    ∃ c', c.lgdt gdtPd = .ok c' ∧ PagedGdt gdt m m f [] c' := by
  obtain ⟨hge, hle, hend⟩ := hin.bounds
  have hphysical {i : ℕ} (hi : i < 6) :
      c.physical (gdtPd - kernbase + BitVec.ofNat 32 i) =
        .ok (gdtPd - kernbase + BitVec.ofNat 32 i) :=
    h.physical (hlow _ (hin.lt hi)) (hlow _ (hin.lt hi))
  -- `ds` still has the base that takes `KERNBASE` away, so the linear address is a low one
  have hlinear : c.linear .ds gdtPd 6 = .ok (gdtPd - kernbase) := by
    rw [Processor.linear_ok (h.shifted .ds (by decide) List.not_mem_nil) (by omega),
      BitVec.add_comm, ← BitVec.sub_eq_add_neg]
  have hlimit : c.Reads (gdtPd - kernbase) (47#16).toNat 2 := by
    intro i hi
    refine ⟨_, hphysical (by omega), ?_⟩
    rw [h.mem]
    exact hpd.limit hi
  have hbase : c.Reads (gdtPd - kernbase + 2#32) gdt.toNat 4 := by
    intro i hi
    have hadd : gdtPd - kernbase + 2#32 + BitVec.ofNat 32 i =
        gdtPd - kernbase + BitVec.ofNat 32 (2 + i) := by
      rw [BitVec.add_assoc]
      exact congrArg (gdtPd - kernbase + ·) (BitVec.ofNat_add 2 i).symm
    refine ⟨gdtPd - kernbase + 2#32 + BitVec.ofNat 32 i, ?_, ?_⟩
    · rw [hadd]
      exact hphysical (by omega)
    · rw [h.mem]
      exact hpd.base hi
  exact ⟨_, Processor.lgdt_ok hlinear hlimit hbase,
    ⟨h.mem, h.on, h.dir, h.tlb, h.flat, h.shifted⟩, rfl, rfl⟩

/-- The descriptor is read at its linear address, so through the entries from `PDX(KERNBASE)` on. -/
theorem PagedGdt.movSeg (h : PagedGdt gdt m m f flats c) (hhigh : HighMapped m f)
    (hin : b.InImage gdt 48)
    (hgdt : HoldsBytes (physMem m) (gdt - kernbase) (gdtTable.flatMap Segdesc.bytes))
    {type : Word} (hsel : sel.toNat / 8 < 6)
    (hd : gdtTable[sel.toNat / 8]? = some (seg type 0#32 0xffffffff#32 0#32))
    (hload : Processor.Loadable r (.ofBits (seg type 0#32 0xffffffff#32 0#32).bits)) :
    ∃ c', c.movSeg r sel = .ok c' ∧ PagedGdt gdt m m f (r :: flats) c' := by
  -- the GDT register holds an address of the kernel, so the descriptor is read through its tables
  have hreads : c.Reads (c.gdtBase + BitVec.ofNat 32 (8 * (sel.toNat / 8)))
      (seg type 0#32 0xffffffff#32 0#32).bits 8 := by
    intro k hk
    have hadd : c.gdtBase + BitVec.ofNat 32 (8 * (sel.toNat / 8)) + BitVec.ofNat 32 k =
        kernbase + (gdt - kernbase + BitVec.ofNat 32 (8 * (sel.toNat / 8) + k)) := by
      rw [h.gdtBase, BitVec.ofNat_add, ← BitVec.add_assoc, ← BitVec.add_assoc,
        BitVec.add_comm kernbase, BitVec.sub_add_cancel]
    have hlt := BitVec.lt_trans (hin.lt (i := 8 * (sel.toNat / 8) + k) (by omega))
      (show 0x400000#32 < 0x10000000#32 by decide)
    refine ⟨_, (congrArg c.physical hadd).trans (h.physical (hhigh _ hlt) (hhigh _ hlt)), ?_⟩
    rw [h.mem, BitVec.ofNat_add, ← BitVec.add_assoc]
    exact hgdt.entry hd hk
  have hlimit : 8 * (sel.toNat / 8) + 7 ≤ c.gdtLimit.toNat := by
    have h47 : (47#16).toNat = 47 := rfl
    rw [h.gdtLimit, h47]
    omega
  refine ⟨_, Processor.movSeg_ok hlimit hreads hload,
    ⟨h.mem, h.on, h.dir, h.tlb, fun r' hr' => ?_, fun r' hr' hflat => ?_⟩, h.gdtBase, h.gdtLimit⟩
  · -- one more register is flat, and the others are as they were
    by_cases heq : r' = r
    · subst heq
      exact (Function.update_self ..).trans (Processor.segmentOf_seg type 0#32)
    · exact (Function.update_of_ne heq ..).trans
        (h.flat r' ((List.mem_cons.mp hr').resolve_left heq))
  · have hne : r' ≠ r := fun heq => hflat (heq ▸ List.mem_cons_self)
    exact (Function.update_of_ne hne ..).trans
      (h.shifted r' hr' fun hmem => hflat (List.mem_cons_of_mem r hmem))

end Steps

/-! ### The start of the kernel -/

/-- The table of `entry.S` is in use, and these registers have been loaded from it. -/
structure Entered (img : KernelImage) (m : Mem) (regs : List SegReg) (c : Processor) : Prop where
  mem : c.mem = m
  off : ¬ c.Paging
  gdtBase : c.gdtBase = img.mygdt - kernbase
  gdtLimit : c.gdtLimit = 0x17#16
  shifted : ∀ r ∈ regs, c.segment r = shiftedSegment

/-- The processor as the boot loader leaves it: paging is off, and all segments are flat. -/
structure BootSegments (m : Mem) (c : Processor) : Prop where
  mem : c.mem = m
  off : ¬ c.Paging
  segment : ∀ r, c.segment r = flatSegment

section Entry

variable {img : KernelImage} {m : Mem} {c : Processor} {regs : List SegReg} {r : SegReg}
  {sel : BitVec 16}

theorem bootSegments_stable : Stable Processor.tlbEvent (BootSegments m) := by
  intro e c h
  obtain ⟨tlb, heq, -⟩ := Processor.tlbEvent_eq e c
  exact heq ▸ ⟨h.mem, h.off, h.segment⟩

theorem entered_stable : Stable Processor.tlbEvent (Entered img m regs) := by
  intro e c h
  obtain ⟨tlb, heq, -⟩ := Processor.tlbEvent_eq e c
  exact heq ▸ ⟨h.mem, h.off, h.gdtBase, h.gdtLimit, h.shifted⟩

/-- `RELOC` gives the places where the descriptor and the table have been loaded. -/
theorem BootSegments.lgdt (h : BootSegments m c) (himg : img.EntryLoaded m) :
    ∃ c', c.lgdt (img.mygdtdesc - kernbase) = .ok c' ∧ Entered img m [] c' := by
  have hbase : kernbase.toNat = 983040 * 4096 := by decide
  have hge : kernbase ≤ img.mygdtdesc := BitVec.le_trans (by decide) himg.mygdtdesc_ge
  have hlt := img.mygdtdesc.isLt
  have hlinear : c.linear .ds (img.mygdtdesc - kernbase) 6 = .ok (img.mygdtdesc - kernbase) := by
    rw [Processor.linear_ok (h.segment .ds), BitVec.zero_add]
    rw [BitVec.toNat_sub_of_le hge, hbase]
    omega
  have hlimit : c.Reads (img.mygdtdesc - kernbase) (0x17#16).toNat 2 := by
    intro i hi
    refine ⟨_, Processor.physical_unpaged h.off, ?_⟩
    rw [h.mem]
    exact himg.mygdtdesc.limit hi
  have hgdt : c.Reads (img.mygdtdesc - kernbase + 2#32) (img.mygdt - kernbase).toNat 4 := by
    intro i hi
    refine ⟨_, Processor.physical_unpaged h.off, ?_⟩
    rw [h.mem]
    exact himg.mygdtdesc.base hi
  exact ⟨_, Processor.lgdt_ok hlinear hlimit hgdt,
    ⟨h.mem, h.off, rfl, rfl, fun _ hr => absurd hr List.not_mem_nil⟩⟩

theorem Entered.movSeg (h : Entered img m regs c) (himg : img.EntryLoaded m) {type : Word}
    (hsel : sel.toNat / 8 < 3)
    (hd : [segNull, seg 0xA#32 (-kernbase) 0xffffffff#32 0#32,
      seg 0x2#32 (-kernbase) 0xffffffff#32 0#32][sel.toNat / 8]? =
        some (seg type (-kernbase) 0xffffffff#32 0#32))
    (hload : Processor.Loadable r (.ofBits (seg type (-kernbase) 0xffffffff#32 0#32).bits)) :
    ∃ c', c.movSeg r sel = .ok c' ∧ Entered img m (r :: regs) c' := by
  have hreads : c.Reads (c.gdtBase + BitVec.ofNat 32 (8 * (sel.toNat / 8)))
      (seg type (-kernbase) 0xffffffff#32 0#32).bits 8 := by
    intro k hk
    have htable := himg.mygdt
    rw [mygdtBytes_eq] at htable
    refine ⟨_, Processor.physical_unpaged h.off, ?_⟩
    rw [h.mem, h.gdtBase]
    exact htable.entry hd hk
  have hlimit : 8 * (sel.toNat / 8) + 7 ≤ c.gdtLimit.toNat := by
    have h23 : (0x17#16).toNat = 23 := rfl
    rw [h.gdtLimit, h23]
    omega
  refine ⟨_, Processor.movSeg_ok hlimit hreads hload,
    ⟨h.mem, h.off, h.gdtBase, h.gdtLimit, fun r' hr' => ?_⟩⟩
  by_cases heq : r' = r
  · subst heq
    exact (Function.update_self ..).trans (Processor.segmentOf_seg type (-kernbase))
  · exact (Function.update_of_ne heq ..).trans
      (h.shifted r' ((List.mem_cons.mp hr').resolve_left heq))

/-- `entry.S` leaves the kernel at `KERNBASE`. -/
theorem entryS_always (himg : img.EntryLoaded m) :
    Always Processor.tlbEvent (fun _ => True) (BootSegments m) (entryS img.mygdtdesc)
      (Unpaged m) := by
  have hdata {regs : List SegReg} {r : SegReg} (hr : r ≠ .cs) (c : Processor)
      (h : Entered img m regs c) :
      ∃ c', c.movSeg r gdKd = .ok c' ∧ Entered img m (r :: regs) c' :=
    h.movSeg himg (by decide) rfl (Processor.loadable_data hr _)
  have hcode (c : Processor) (h : Entered img m [.ss, .es, .ds] c) :
      ∃ c', c.movSeg .cs gdKt = .ok c' ∧ Entered img m [.cs, .ss, .es, .ds] c' :=
    h.movSeg himg (by decide) rfl (Processor.loadable_code _)
  refine .cons bootSegments_stable (fun _ _ => trivial) (fun c h => h.lgdt himg) ?_
  refine .cons entered_stable (fun _ _ => trivial) (hdata SegReg.noConfusion) ?_
  refine .cons entered_stable (fun _ _ => trivial) (hdata SegReg.noConfusion) ?_
  refine .cons entered_stable (fun _ _ => trivial) (hdata SegReg.noConfusion) ?_
  refine .cons entered_stable (fun _ _ => trivial) hcode ?_
  refine .nil entered_stable (fun _ _ => trivial) fun c h => ⟨h.mem, h.off, fun r hr => ?_⟩
  have hmem : r ∈ [.cs, .ss, .es, .ds] := by
    revert hr
    cases r <;> decide
  exact h.shifted r hmem

end Entry

/-! ### The switch -/

section Switch

variable {mt m : Mem} {f : ℕ} {flats : List SegReg} {c : Processor} {gdt gdtPd : Word} {b : Boot}

/-- With a coherent TLB the address space is that of the tables. -/
theorem Paged.flatSpace (h : Paged m m f flats c) (hall : ∀ r, r ∈ flats) : FlatSpace m f c where
  segment r := h.flat r (hall r)
  mem := h.mem
  physical la := by
    have hentries : c.entries (vpage la) = walk m f (vpage la) := by
      rw [Processor.entries, h.mem, h.dir]
      cases htlb : c.tlb (vpage la) with
      | none => exact Option.none_or
      | some p => exact (h.tlb _ p htlb).symm
    rw [Processor.physical, if_pos h.on, hentries, tablesPhysical, translate]
    cases walk m f (vpage la) <;> rfl

/-- **The kernel stays where it is** while the page directory in frame `f` takes over from the
segments, if it maps the kernel there. -/
theorem addressSwitch_always (hf : f < 2 ^ 16) (hgdt : b.InImage gdt 48)
    (hgdtPd : b.InImage gdtPd 6) (hhigh : ∀ v, HighMapped (m.set f 0 v) f)
    (hlow : LowMapped (m.set f 0 (m f (pdx kernbase))) f)
    (htable : ∀ v, HoldsBytes (physMem (m.set f 0 v)) (gdt - kernbase)
      (gdtTable.flatMap Segdesc.bytes))
    (hpd : ∀ v, HoldsBytes (physMem (m.set f 0 v)) (gdtPd - kernbase) (pseudodesc 47#16 gdt)) :
    Always Processor.tlbEvent AtKernbase (Unpaged m) (addressSwitch (pgdirVa f) gdtPd)
      (FlatSpace (m.set f 0 0#32) f) := by
  obtain ⟨mt, hmt⟩ : ∃ mt, mt = m.set f 0 (m f (pdx kernbase)) := ⟨_, rfl⟩
  have hhigh₁ : HighMapped mt f := hmt ▸ hhigh _
  have hhigh₂ : HighMapped (m.set f 0 0#32) f := hhigh 0#32
  have hset : mt.set f 0 0#32 = m.set f 0 0#32 := hmt ▸ Mem.set_set ..
  have hsub (x : VPage) (p : Word × Word) (hwalk : walk (m.set f 0 0#32) f x = some p) :
      walk mt f x = some p := walk_of_walk_set_zero (hset ▸ hwalk)
  rw [← hmt] at hlow
  have hmapped {flats : List SegReg} (c : Processor) (h : Paged mt mt f flats c) : AtKernbase c :=
    h.atKernbase hhigh₁ hhigh₁ (.inr ⟨hlow, hlow⟩)
  have hdata {flats : List SegReg} {r : SegReg} (hr : r ≠ .cs) (c : Processor)
      (h : PagedGdt gdt mt mt f flats c) :
      ∃ c', c.movSeg r gdKd = .ok c' ∧ PagedGdt gdt mt mt f (r :: flats) c' :=
    h.movSeg hhigh₁ hgdt (hmt ▸ htable _) (by decide) rfl (Processor.loadable_data hr _)
  have hcode {flats : List SegReg} (c : Processor) (h : PagedGdt gdt mt mt f flats c) :
      ∃ c', c.movSeg .cs gdKt = .ok c' ∧ PagedGdt gdt mt mt f (.cs :: flats) c' :=
    h.movSeg hhigh₁ hgdt (hmt ▸ htable _) (by decide) rfl (Processor.loadable_code _)
  have hkernel : ∀ r ∈ kernelSegs, r ∈ [SegReg.cs, .ss, .ds, .es, .fs, .gs] := by decide
  have hall : ∀ r, r ∈ [SegReg.cs, .ss, .ds, .es, .fs, .gs] := by
    intro r
    cases r <;> decide
  have hlldt (c : Processor) (h : PagedGdt gdt mt mt f [.cs, .ss, .ds, .es, .fs, .gs] c) :
      ∃ c', (Except.ok c.lldtNull : Except AccessFault Processor) = .ok c' ∧
        Paged mt mt f [.cs, .ss, .ds, .es, .fs, .gs] c' :=
    ⟨_, rfl, h.mem, h.on, h.dir, h.tlb, h.flat, h.shifted⟩
  have hclear (c : Processor) (h : Paged mt mt f [.cs, .ss, .ds, .es, .fs, .gs] c) :
      ∃ c', c.storeWord (pgdirVa f) 0#32 = .ok c' ∧
        Paged mt (m.set f 0 0#32) f [.cs, .ss, .ds, .es, .fs, .gs] c' := by
    have haddr : c.address .ds (pgdirVa f) 4 = .ok (page2pa f) := by
      refine h.address_flat hhigh₁ hhigh₁ (hkernel .ds (by decide)) (pgdirVa_lt hf) ?_
      have hva := toNat_pgdirVa hf
      rw [pgdirVa] at hva
      omega
    refine ⟨_, Processor.storeWord_pgdir hf haddr, ?_, h.on, h.dir, h.tlb, h.flat, h.shifted⟩
    rw [← hset, ← h.mem]
  have hflush (c : Processor) (h : Paged mt (m.set f 0 0#32) f [.cs, .ss, .ds, .es, .fs, .gs] c) :
      ∃ c', c.loadPgdir (pgdirVa f) = .ok c' ∧
        Paged (m.set f 0 0#32) (m.set f 0 0#32) f [.cs, .ss, .ds, .es, .fs, .gs] c' :=
    ⟨_, Processor.loadPgdir_ok hf, h.mem, h.on, pgdir_movCr3 hf,
      fun x p hx => absurd hx.symm (Option.some_ne_none p), h.flat, h.shifted⟩
  -- the entry 0 is set, the directory loaded, and paging turned on
  refine .cons unpaged_stable (fun c h => h.atKernbase)
    (fun c h => hmt ▸ h.mapLow hf) ?_
  refine .cons unpaged_stable (fun c h => h.atKernbase) (fun c h => h.loadPgdir hf) ?_
  refine .cons pgdirLoaded_stable (fun c h => h.toUnpaged.atKernbase)
    (fun c h => ⟨_, rfl, h.movCr0⟩) ?_
  -- the segment registers are loaded one by one
  refine .cons (paged_stable fun _ _ h => h) hmapped
    (fun c h => h.lgdt hlow hgdtPd (hmt ▸ hpd _)) ?_
  refine .cons (pagedGdt_stable fun _ _ h => h) (fun c h => hmapped c h.toPaged)
    (hdata SegReg.noConfusion) ?_
  refine .cons (pagedGdt_stable fun _ _ h => h) (fun c h => hmapped c h.toPaged)
    (hdata SegReg.noConfusion) ?_
  refine .cons (pagedGdt_stable fun _ _ h => h) (fun c h => hmapped c h.toPaged)
    (hdata SegReg.noConfusion) ?_
  refine .cons (pagedGdt_stable fun _ _ h => h) (fun c h => hmapped c h.toPaged)
    (hdata SegReg.noConfusion) ?_
  refine .cons (pagedGdt_stable fun _ _ h => h) (fun c h => hmapped c h.toPaged)
    (hdata SegReg.noConfusion) ?_
  refine .cons (pagedGdt_stable fun _ _ h => h) (fun c h => hmapped c h.toPaged) hcode ?_
  refine .cons (pagedGdt_stable fun _ _ h => h) (fun c h => hmapped c h.toPaged) hlldt ?_
  -- the entry 0 is taken back, which the TLB may not see yet
  refine .cons (paged_stable fun _ _ h => h) hmapped hclear ?_
  refine .cons (paged_stable hsub) (fun c h => h.atKernbase hhigh₁ hhigh₂ (.inl hkernel)) hflush ?_
  exact .nil (paged_stable fun _ _ h => h)
    (fun c h => h.atKernbase hhigh₂ hhigh₂ (.inl hkernel)) fun c h => h.flatSpace hall

end Switch

/-- **The kernel is where it was linked.** `entry.S` brings it there from the state that the boot
loader leaves, and during the end of `boot_mem_init`, which then runs without a fault, it never
moves, whatever the TLB does between two instructions. In the end the segments are flat and linear
addresses are those of the page directory, with nothing left of the entry 0. -/
theorem kernel_addresses {b : Boot} (hs : b.Sufficient) {img : KernelImage} (himg : img.Loaded b) :
    ∃ s₃ s s', Kern.bootMap b = .ok s₃ ∧ s₃.bootPages = .ok s ∧
      s.bootMemCheck b.bootstack = .ok () ∧ Kern.bootMemInit b = .ok s' ∧
      ∀ c : Processor, BootSegments c.mem c → img.EntryLoaded c.mem →
      ∀ ms, stepsOf ms = entryS img.mygdtdesc →
      ∃ c₁, runMoves Processor.tlbEvent ms c = .ok c₁ ∧ AtKernbase c₁ ∧
        ∀ ms', stepsOf ms' = addressSwitch (pgdirVa s.kernPgdir) img.gdtPd →
          (∀ pre, pre <+: ms' →
            ∃ c', runMoves Processor.tlbEvent pre { c₁ with mem := s.mem } = .ok c' ∧
              AtKernbase c') ∧
          ∃ c', runMoves Processor.tlbEvent ms' { c₁ with mem := s.mem } = .ok c' ∧
            FlatSpace s'.mem s'.kernPgdir c' := by
  have hle := b.firstFree_le hs
  obtain ⟨s₃, s, hmap, hpages, hcheck, h, hram⟩ := Kern.bootInit_low hs
  obtain ⟨s', hs'⟩ : ∃ s', s' = (s.store s.kernPgdir 0 (s.mem s.kernPgdir (pdx kernbase))).store
    s.kernPgdir 0 0#32 := ⟨_, rfl⟩
  have hinit : Kern.bootMemInit b = .ok s' := by
    rw [Kern.bootMemInit, hmap, ok_bind, hpages, ok_bind, hcheck, ok_bind, hs']
    rfl
  have hmem : s'.mem = s.mem.set s.kernPgdir 0 0#32 := by
    rw [hs']
    exact Mem.set_set ..
  have hpgdir : s'.kernPgdir = s.kernPgdir := by
    rw [hs']
    rfl
  -- the image lies below the frames that were handed out, and has not been written to
  have hlow (v : Word) : ∀ g < b.firstFree, ∀ t, s.mem.set s.kernPgdir 0 v g t = b.ram g t := by
    intro g hg t
    rw [Mem.set_of_frame_ne (by rw [h.kernPgdir]; omega), hram g hg]
  have hswitch := addressSwitch_always (m := s.mem) (f := s.kernPgdir)
    (by rw [h.kernPgdir]; omega) himg.gdt_in himg.gdtPd_in (h.highMapped hs) (h.lowMapped hs)
    (fun v => himg.gdt.keep himg.gdt_in (hlow v)) (fun v => himg.gdtPd.keep himg.gdtPd_in (hlow v))
  refine ⟨s₃, s, s', hmap, hpages, hcheck, hinit, fun c hc hentry ms hms => ?_⟩
  obtain ⟨-, c₁, hrun, hc₁⟩ := entryS_always hentry ms hms c hc
  refine ⟨c₁, hrun, hc₁.atKernbase, fun ms' hms' => ?_⟩
  obtain ⟨hall, c', hend, hflat⟩ := hswitch ms' hms' { c₁ with mem := s.mem }
    ⟨rfl, hc₁.off, hc₁.segment⟩
  refine ⟨hall, c', hend, ?_⟩
  rw [hmem, hpgdir]
  exact hflat

/-! ### An image -/

/-- The four tables one behind the other. -/
def sampleImage : KernelImage :=
  ⟨0xF0110000#32, 0xF0110018#32, 0xF0110020#32, 0xF0110050#32⟩

/-- Memory with them, and zeros elsewhere. -/
def sampleRam : Mem := fun f i =>
  let bytes := mygdtBytes ++ pseudodesc 0x17#16 0x110000#32 ++ [0#8, 0#8] ++
    gdtTable.flatMap Segdesc.bytes ++ pseudodesc 47#16 0xF0110020#32
  let byteOf (k : ℕ) : BitVec 8 := bytes.getD (4 * i.val + k) 0#8
  if f = 0x110 then byteOf 3 ++ byteOf 2 ++ byteOf 1 ++ byteOf 0 else 0#32

def sampleBoot : Boot := { Kern.filledBoot 0#32 with ram := sampleRam }

/-- The processor behind the boot loader. -/
def sampleProcessor : Processor :=
  ⟨cr0Pe, 0#32, 0#32, 0x17#16, 0#16, fun _ => flatSegment, fun _ => none, sampleRam⟩

theorem holdsBytes_of_getD {mem : ByteMem 32} {a : Word} {bs : List (BitVec 8)}
    (h : ∀ i < bs.length, mem (a + BitVec.ofNat 32 i) = bs.getD i 0#8) : HoldsBytes mem a bs := by
  intro i x hx
  obtain ⟨hi, heq⟩ := List.getElem?_eq_some_iff.mp hx
  rw [h i hi, List.getD_eq_getElem?_getD, hx, Option.getD_some]

theorem sampleImage_loaded : sampleImage.Loaded sampleBoot where
  gdt_in := ⟨by decide, by decide, by decide⟩
  gdtPd_in := ⟨by decide, by decide, by decide⟩
  gdt := holdsBytes_of_getD (by decide +kernel)
  gdtPd := holdsBytes_of_getD (by decide +kernel)

theorem sampleImage_entryLoaded : sampleImage.EntryLoaded sampleRam where
  mygdt_ge := by decide
  mygdtdesc_ge := by decide
  mygdt := holdsBytes_of_getD (by decide +kernel)
  mygdtdesc := holdsBytes_of_getD (by decide +kernel)

theorem kernel_addresses_sample :
    ∃ s s' : Kern, Kern.bootMemInit sampleBoot = .ok s' ∧
      ∃ c₁ c', runMoves Processor.tlbEvent ((entryS sampleImage.mygdtdesc).map .step)
          sampleProcessor = .ok c₁ ∧
        AtKernbase c₁ ∧
        runMoves Processor.tlbEvent
          ((addressSwitch (pgdirVa s.kernPgdir) sampleImage.gdtPd).map .step)
          { c₁ with mem := s.mem } = .ok c' ∧ FlatSpace s'.mem s'.kernPgdir c' := by
  obtain ⟨s₃, s, s', -, -, -, hinit, hentry⟩ :=
    kernel_addresses (b := sampleBoot) (Kern.filledBoot_sufficient 0#32) sampleImage_loaded
  obtain ⟨c₁, hrun, hmapped, hswitch⟩ := hentry sampleProcessor
    ⟨rfl, by decide, fun _ => rfl⟩ sampleImage_entryLoaded
    ((entryS sampleImage.mygdtdesc).map .step) rfl
  obtain ⟨-, c', hend, hflat⟩ := hswitch
    ((addressSwitch (pgdirVa s.kernPgdir) sampleImage.gdtPd).map .step) rfl
  exact ⟨s, s', hinit, c₁, c', hrun, hmapped, hend, hflat⟩

end JosVmx
