import JosVmx.Hvm.WorldSwitch
import JosVmx.Hvm.WorldSwitch64

/-!
# The world switch with `vmrun`

`asm_vmrun_regs_32` and `asm_vmrun_regs_64` of `hvm/asm_vmop.S`. Here the processor itself switches
the stack pointer, the instruction pointer and RAX. The routine exchanges the other general
registers with those at `p`, and VMSAVE and VMLOAD exchange what VMRUN leaves alone, through the
control blocks of the host and of the guest.

The part of the state that VMSAVE and VMLOAD transfer is of an arbitrary type. A control block is
given by what they keep in it; blocks are apart from the stack and from the words at `p`.

## Main results

* `vmrun_regs_32`, `vmrun_regs_64` — the caller gets its state back, the guest is entered with its
  own, and is found in its places afterwards, where the next run of the guest finds it
-/

namespace JosVmx.Hvm

open Lib X86 Machine

/-! ### The machine -/

/-- A processor with the state that VMSAVE and VMLOAD transfer, the control blocks by their
addresses, and the global interrupt flag. -/
structure Svm (R : Type) (w : ℕ) (X : Type) where
  cpu : Machine R w
  extra : X
  vmcb : BitVec w → X
  gif : Bool

/-- The instructions. Those on control blocks come with the register that holds the address. -/
inductive SvmInstr (R : Type) (w : ℕ)
  | plain (i : Instr R w)
  | vmsave (r : R)
  | vmload (r : R)
  | stgi

/-- A piece of code without instructions on control blocks. -/
def plain {R : Type} {w : ℕ} (is : List (Instr R w)) : List (SvmInstr R w) := is.map .plain

namespace Svm

variable {R : Type} {w : ℕ} {X : Type} [DecidableEq R] [StackReg R]

/-- The effect of an instruction. -/
def exec (alu : BitVec w → BitVec w → BitVec w) (s : Svm R w X) : SvmInstr R w → Svm R w X
  | .plain i => { s with cpu := s.cpu.exec alu i }
  | .vmsave r => { s with vmcb := Function.update s.vmcb (s.cpu.reg r) s.extra }
  | .vmload r => { s with extra := s.vmcb (s.cpu.reg r) }
  | .stgi => { s with gif := true }

/-- Run a piece of straight-line code. -/
def run (alu : BitVec w → BitVec w → BitVec w) (is : List (SvmInstr R w)) (s : Svm R w X) :
    Svm R w X :=
  is.foldl (exec alu) s

theorem run_append (alu : BitVec w → BitVec w → BitVec w) (is js : List (SvmInstr R w))
    (s : Svm R w X) : run alu (is ++ js) s = run alu js (run alu is s) := List.foldl_append ..

/-- Code without instructions on control blocks runs on the processor. -/
theorem run_plain (alu : BitVec w → BitVec w → BitVec w) (is : List (Instr R w)) (s : Svm R w X) :
    run alu (plain is) s = { s with cpu := Machine.run alu is s.cpu } := by
  induction is generalizing s with
  | nil => rfl
  | cons i is ih => exact ih (s.exec alu (.plain i))

end Svm

/-- A routine that enters the guest: the code before `vmrun` and the code after it. -/
structure VmrunRoutine (R : Type) (w : ℕ) where
  enter : List (SvmInstr R w)
  leave : List (SvmInstr R w)

/-- The order of the instructions on control blocks is that of both routines, and so is the
register `acc`. -/
def vmrunRegs {R : Type} {w : ℕ} (acc : R) (save load store restore : List (Instr R w)) :
    VmrunRoutine R w where
  enter := plain save ++ [.vmsave acc] ++ plain load ++ [.vmload acc]
  leave := [.vmsave acc] ++ plain store ++ [.vmload acc, .stgi] ++ plain restore

/-! ### 32-bit code -/

def vmrunSave32 : Code32 :=
  [.push .ebp, .push .ebx, .push .esi, .push .edi,
    .load 28#32 .esp .eax] -- arg3

def vmrunLoad32 : Code32 :=
  [.load 20#32 .esp .eax, -- arg1
    .load VmReg.rcx.offset .eax .ecx, .load VmReg.rdx.offset .eax .edx,
    .load VmReg.rbx.offset .eax .ebx, .load VmReg.rbp.offset .eax .ebp,
    .load VmReg.rsi.offset .eax .esi, .load VmReg.rdi.offset .eax .edi,
    .load 24#32 .esp .eax] -- arg2

def vmrunStore32 : Code32 :=
  [.load 20#32 .esp .eax, -- arg1
    .store .ecx VmReg.rcx.offset .eax, .store .edx VmReg.rdx.offset .eax,
    .store .ebx VmReg.rbx.offset .eax, .store .ebp VmReg.rbp.offset .eax,
    .store .esi VmReg.rsi.offset .eax, .store .edi VmReg.rdi.offset .eax,
    .load 28#32 .esp .eax] -- arg3

/-- `asm_vmrun_regs_32`. -/
def asmVmrunRegs32 : VmrunRoutine Reg32 32 :=
  vmrunRegs .eax vmrunSave32 vmrunLoad32 vmrunStore32 restoreHost

/-! ### 64-bit code -/

def vmrunSave64 : Code64 :=
  [.push .rbp, .push .rbx, .push .r12, .push .r13, .push .r14, .push .r15,
    .mov .rdx .rax, -- arg3
    .push .rdx] -- arg3

def vmrunLoad64 : Code64 :=
  [.push .rdi, -- arg1
    .mov .rsi .rax, -- arg2
    .load VmReg64.r8.offset .rdi .r8, .load VmReg64.r9.offset .rdi .r9,
    .load VmReg64.r10.offset .rdi .r10, .load VmReg64.r11.offset .rdi .r11,
    .load VmReg64.r12.offset .rdi .r12, .load VmReg64.r13.offset .rdi .r13,
    .load VmReg64.r14.offset .rdi .r14, .load VmReg64.r15.offset .rdi .r15,
    .load VmReg64.rcx.offset .rdi .rcx, .load VmReg64.rdx.offset .rdi .rdx,
    .load VmReg64.rbx.offset .rdi .rbx, .load VmReg64.rbp.offset .rdi .rbp,
    .load VmReg64.rsi.offset .rdi .rsi, .load VmReg64.rdi.offset .rdi .rdi]

def vmrunStore64 : Code64 :=
  [.pop .rax, -- arg1
    .store .rcx VmReg64.rcx.offset .rax, .store .rdx VmReg64.rdx.offset .rax,
    .store .rbx VmReg64.rbx.offset .rax, .store .rbp VmReg64.rbp.offset .rax,
    .store .rsi VmReg64.rsi.offset .rax, .store .rdi VmReg64.rdi.offset .rax,
    .store .r8 VmReg64.r8.offset .rax, .store .r9 VmReg64.r9.offset .rax,
    .store .r10 VmReg64.r10.offset .rax, .store .r11 VmReg64.r11.offset .rax,
    .store .r12 VmReg64.r12.offset .rax, .store .r13 VmReg64.r13.offset .rax,
    .store .r14 VmReg64.r14.offset .rax, .store .r15 VmReg64.r15.offset .rax,
    .pop .rax] -- arg3

/-- `asm_vmrun_regs_64`. -/
def asmVmrunRegs64 : VmrunRoutine Reg64 64 :=
  vmrunRegs .rax vmrunSave64 vmrunLoad64 vmrunStore64 restoreHost64

/-! ### The instructions on control blocks -/

section Blocks

variable {R : Type} {w : ℕ} {X : Type} [DecidableEq R] [StackReg R]
  (acc : R) (save load store restore : List (Instr R w)) (alu : BitVec w → BitVec w → BitVec w)
  (s : Svm R w X)

/-- Before the guest the state of the host is saved and that of the guest is loaded. -/
theorem run_vmrunEnter :
    (Svm.run alu (vmrunRegs acc save load store restore).enter s).cpu =
        Machine.run alu load (Machine.run alu save s.cpu) ∧
      (Svm.run alu (vmrunRegs acc save load store restore).enter s).vmcb =
        Function.update s.vmcb ((Machine.run alu save s.cpu).reg acc) s.extra ∧
      (Svm.run alu (vmrunRegs acc save load store restore).enter s).extra =
        Function.update s.vmcb ((Machine.run alu save s.cpu).reg acc) s.extra
          ((Machine.run alu load (Machine.run alu save s.cpu)).reg acc) := by
  simp only [vmrunRegs, Svm.run_append, Svm.run_plain]
  exact ⟨rfl, rfl, rfl⟩

/-- After the guest its state is saved and that of the host is loaded. -/
theorem run_vmrunLeave :
    (Svm.run alu (vmrunRegs acc save load store restore).leave s).cpu =
        Machine.run alu restore (Machine.run alu store s.cpu) ∧
      (Svm.run alu (vmrunRegs acc save load store restore).leave s).vmcb =
        Function.update s.vmcb (s.cpu.reg acc) s.extra ∧
      (Svm.run alu (vmrunRegs acc save load store restore).leave s).extra =
        Function.update s.vmcb (s.cpu.reg acc) s.extra ((Machine.run alu store s.cpu).reg acc) ∧
      (Svm.run alu (vmrunRegs acc save load store restore).leave s).gif = true := by
  simp only [vmrunRegs, Svm.run_append, Svm.run_plain]
  exact ⟨rfl, rfl, rfl, rfl⟩

end Blocks

variable {X : Type}

/-! ### Calls of the 32-bit routine -/

/-- The addresses of the control blocks, the second and the third argument of a call. -/
def arg2 (s : Machine32) : Word := s.mem.load (s.reg .esp + 8#32)

def arg3 (s : Machine32) : Word := s.mem.load (s.reg .esp + 12#32)

/-- The processor leaves the guest and continues after `vmrun`: the stack pointer and EAX are
those of the host again, and the guest has not touched the stack of the call, the structure at `p`
and the block of the host. Everything else is arbitrary. -/
structure VmrunExit (p host : Word) (s s' : Svm Reg32 32 X) : Prop where
  esp : s'.cpu.reg .esp = s.cpu.reg .esp
  eax : s'.cpu.reg .eax = s.cpu.reg .eax
  stack : ∀ i < 32, s'.cpu.mem (s'.cpu.reg .esp + BitVec.ofNat 32 i) =
    s.cpu.mem (s'.cpu.reg .esp + BitVec.ofNat 32 i)
  regs : ∀ i < 32, s'.cpu.mem (p + BitVec.ofNat 32 i) = s.cpu.mem (p + BitVec.ofNat 32 i)
  host : s'.vmcb host = s.vmcb host

/-- The structure at `p` is apart from the stack of a call. -/
def ApartCall (s : Machine32) : Prop := Apart (s.reg .esp - 16#32) 32 (arg1 s) 32

instance (s : Machine32) : Decidable (ApartCall s) := inferInstanceAs (Decidable (Apart ..))

/-- What a call does: before the guest, and after it. EAX and CR2 of the guest are in its control
block, and their fields at `p` stay. -/
structure Vmruns (r : VmrunRoutine Reg32 32) (alu : Word → Word → Word) (s : Svm Reg32 32 X) :
    Prop where
  entry : ∀ f, f ≠ .rax → f ≠ .cr2 →
    guestRegs (Svm.run alu r.enter s).cpu f = readRegs s.cpu.mem (arg1 s.cpu) f
  block : (Svm.run alu r.enter s).cpu.reg .eax = arg2 s.cpu
  extra : (Svm.run alu r.enter s).extra = s.vmcb (arg2 s.cpu)
  resume : ∀ s₁, VmrunExit (arg1 s.cpu) (arg3 s.cpu) (Svm.run alu r.enter s) s₁ →
    Restored s.cpu (Svm.run alu r.leave s₁).cpu ∧
    (Svm.run alu r.leave s₁).extra = s.extra ∧ (Svm.run alu r.leave s₁).gif = true ∧
    (Svm.run alu r.leave s₁).vmcb (arg2 s.cpu) = s₁.extra ∧
    ∀ f, readRegs (Svm.run alu r.leave s₁).cpu.mem (arg1 s.cpu) f =
      if f = .rax ∨ f = .cr2 then readRegs s.cpu.mem (arg1 s.cpu) f else guestRegs s₁.cpu f

variable {alu : Word → Word → Word} {s s₁ : Svm Reg32 32 X} {p : Word} {vs us : List Word}

/-- The words that a call pushes. -/
def pushedRegs (s : Machine32) : List Word := [s.reg .ebp, s.reg .ebx, s.reg .esi, s.reg .edi]

/-- The stack of a call behind the pushes. -/
def callStack (s : Machine32) : List Word :=
  [s.reg .edi, s.reg .esi, s.reg .ebx, s.reg .ebp, s.top, arg1 s, arg2 s, arg3 s]

theorem stack_args (s : Machine32) : s.Stack [s.top, arg1 s, arg2 s, arg3 s] := by
  have h2 : s.reg .esp + 4#32 + 4#32 = s.reg .esp + 8#32 := BitVec.add_assoc ..
  have h3 : s.reg .esp + 8#32 + 4#32 = s.reg .esp + 12#32 := BitVec.add_assoc ..
  refine ⟨rfl, rfl, ?_, ?_, trivial⟩
  · exact congrArg s.mem.load h2
  · rw [sp_reg32, wordSize_32, h2, h3, arg3]

theorem stack_pushedRegs (s : Machine32) :
    ((pushedRegs s).foldl pushWord s).Stack (callStack s) := by
  have hlen : (pushedRegs s).length + [s.top, arg1 s, arg2 s, arg3 s].length = 8 := rfl
  exact (stack_args s).pushWords (by decide) (by decide) (pushedRegs s) (by rw [hlen]; decide)

/-- The arguments of a call behind the pushes. -/
theorem load_args {s t : Machine32} (h : t.Stack (callStack s)) :
    t.mem.load (t.reg .esp + 20#32) = arg1 s ∧ t.mem.load (t.reg .esp + 24#32) = arg2 s ∧
      t.mem.load (t.reg .esp + 28#32) = arg3 s := by
  have hlen : (callStack s).length = 8 := rfl
  exact ⟨h.get (i := 5) (by omega), h.get (i := 6) (by omega), h.get (i := 7) (by omega)⟩

theorem run_vmrunSave32 (alu : Word → Word → Word) (s : Machine32) :
    run alu vmrunSave32 s = ((pushedRegs s).foldl pushWord s).setReg .eax
      (((pushedRegs s).foldl pushWord s).mem.load
        (((pushedRegs s).foldl pushWord s).reg .esp + 28#32)) := rfl

theorem run_vmrunLoad32 (alu : Word → Word → Word) (s : Machine32) :
    (run alu vmrunLoad32 s).mem = s.mem ∧
      (run alu vmrunLoad32 s).reg .esp = s.reg .esp ∧
      (run alu vmrunLoad32 s).reg .eax = s.mem.load (s.reg .esp + 24#32) ∧
      ∀ f, f ≠ .rax → f ≠ .cr2 → guestRegs (run alu vmrunLoad32 s) f =
        readRegs s.mem (s.mem.load (s.reg .esp + 20#32)) f := by
  refine ⟨rfl, rfl, rfl, fun f hrax hcr2 => ?_⟩
  cases f <;> first | exact absurd rfl hrax | exact absurd rfl hcr2 | rfl

/-- The registers in the order in which they are stored. -/
def vmrunFields32 (s : Machine32) : List (ℕ × Word) :=
  [(1, s.reg .ecx), (2, s.reg .edx), (3, s.reg .ebx), (5, s.reg .ebp), (6, s.reg .esi),
    (7, s.reg .edi)]

theorem run_vmrunStore32 (alu : Word → Word → Word) (s : Machine32) :
    (run alu vmrunStore32 s).mem =
        s.mem.storeFields (s.mem.load (s.reg .esp + 20#32)) (vmrunFields32 s) ∧
      (run alu vmrunStore32 s).reg .esp = s.reg .esp ∧
      (run alu vmrunStore32 s).reg .eax =
        (run alu vmrunStore32 s).mem.load (s.reg .esp + 28#32) :=
  ⟨rfl, rfl, rfl⟩

/-- The code before `vmrun`, on a call whose structure is apart from the stack. -/
theorem vmrun_entry32 (alu : Word → Word → Word) (hapart : ApartCall s.cpu)
    (hp : s.cpu.mem.Holds (arg1 s.cpu) vs) (hlen : vs.length = 8) :
    (Svm.run alu asmVmrunRegs32.enter s).cpu.Stack (callStack s.cpu) ∧
      (Svm.run alu asmVmrunRegs32.enter s).cpu.mem.Holds (arg1 s.cpu) vs ∧
      (Svm.run alu asmVmrunRegs32.enter s).cpu.reg .esp = s.cpu.reg .esp - 16#32 ∧
      (Svm.run alu asmVmrunRegs32.enter s).cpu.reg .eax = arg2 s.cpu ∧
      (Svm.run alu asmVmrunRegs32.enter s).vmcb = Function.update s.vmcb (arg3 s.cpu) s.extra ∧
      (Svm.run alu asmVmrunRegs32.enter s).extra =
        Function.update s.vmcb (arg3 s.cpu) s.extra (arg2 s.cpu) ∧
      ∀ f, f ≠ .rax → f ≠ .cr2 →
        guestRegs (Svm.run alu asmVmrunRegs32.enter s).cpu f =
          readRegs s.cpu.mem (arg1 s.cpu) f := by
  obtain ⟨t, ht⟩ : ∃ t, t = (pushedRegs s.cpu).foldl pushWord s.cpu := ⟨_, rfl⟩
  have hstack : t.Stack (callStack s.cpu) := ht ▸ stack_pushedRegs s.cpu
  have hesp : t.reg .esp = s.cpu.reg .esp - 16#32 := by
    rw [ht]
    exact s.cpu.sp_pushWords (pushedRegs s.cpu)
  obtain ⟨harg1, harg2, harg3⟩ := load_args hstack
  have hp_t : t.mem.Holds (arg1 s.cpu) vs := by
    rw [ht]
    refine holds_pushWords (by decide) (pushedRegs s.cpu) hp (by rw [hlen]; decide) ?_
    rw [hlen, show (pushedRegs s.cpu).length = 4 from rfl]
    exact Apart.mono hapart (by decide) le_rfl
  have hsave := run_vmrunSave32 alu s.cpu
  rw [← ht, harg3] at hsave
  obtain ⟨hcpu, hvmcb, hextra⟩ := run_vmrunEnter .eax vmrunSave32 vmrunLoad32 vmrunStore32
    restoreHost alu s
  obtain ⟨hmem, hesp', heax, hguest⟩ := run_vmrunLoad32 alu (t.setReg .eax (arg3 s.cpu))
  have hesp_t : (t.setReg .eax (arg3 s.cpu)).reg .esp = t.reg .esp := rfl
  rw [hesp_t] at hesp' heax hguest
  rw [mem_setReg, harg2] at heax
  rw [mem_setReg, harg1] at hguest
  rw [hsave] at hcpu hvmcb hextra
  rw [heax] at hextra
  rw [asmVmrunRegs32, hcpu, hvmcb, hextra]
  refine ⟨?_, ?_, hesp'.trans hesp, heax, rfl, rfl, fun f hrax hcr2 => ?_⟩
  · rw [Stack, sp_reg32, hmem, hesp']
    exact hstack
  · rw [hmem]
    exact hp_t
  · rw [hguest f hrax hcr2, readRegs_of_holds hp_t hlen, readRegs_of_holds hp hlen]

/-- The registers that are stored, where those of the guest are read. -/
theorem load_vmrunFields32 {m : ByteMem 32} (hp : m.Holds p vs) (hlen : vs.length = 8)
    (s : Machine32) (f : VmReg) :
    readRegs (m.storeFields p (vmrunFields32 s)) p f =
      if f = .rax ∨ f = .cr2 then readRegs m p f else guestRegs s f := by
  have hlt : ∀ g ∈ vmrunFields32 s, g.1 < vs.length := by simp [vmrunFields32, hlen]
  have hnodup : ((vmrunFields32 s).map Prod.fst).Nodup := by simp [vmrunFields32]
  have hsize : 32 / 8 * vs.length ≤ 2 ^ 32 := by rw [hlen]; decide
  by_cases hf : f = .rax ∨ f = .cr2
  · rw [if_pos hf]
    refine hp.load_storeFields_of_notMem (by decide) (by decide) hlt hsize
      (hlen.symm ▸ f.index_lt) ?_
    rcases hf with rfl | rfl <;> simp [vmrunFields32, VmReg.index]
  · rw [if_neg hf]
    refine hp.load_storeFields (by decide) (by decide) hlt hsize hnodup ?_
    rw [not_or] at hf
    cases f <;> first
      | exact absurd rfl hf.1
      | exact absurd rfl hf.2
      | simp [vmrunFields32, VmReg.index, guestRegs]

/-- The code after `vmrun`, with the stack and the structure of a call. -/
theorem vmrun_leave32 (alu : Word → Word → Word) {s : Machine32} {s₁ : Svm Reg32 32 X}
    (hstack : s₁.cpu.Stack (callStack s)) (hp : s₁.cpu.mem.Holds (arg1 s) vs)
    (hlen : vs.length = 8) (hesp : s₁.cpu.reg .esp = s.reg .esp - 16#32)
    (heax : s₁.cpu.reg .eax = arg2 s) (hapart : ApartCall s) :
    Restored s (Svm.run alu asmVmrunRegs32.leave s₁).cpu ∧
      (Svm.run alu asmVmrunRegs32.leave s₁).vmcb =
        Function.update s₁.vmcb (arg2 s) s₁.extra ∧
      (Svm.run alu asmVmrunRegs32.leave s₁).extra =
        Function.update s₁.vmcb (arg2 s) s₁.extra (arg3 s) ∧
      (Svm.run alu asmVmrunRegs32.leave s₁).gif = true ∧
      ∀ f, readRegs (Svm.run alu asmVmrunRegs32.leave s₁).cpu.mem (arg1 s) f =
        if f = .rax ∨ f = .cr2 then readRegs s₁.cpu.mem (arg1 s) f else guestRegs s₁.cpu f := by
  obtain ⟨harg1, -, -⟩ := load_args hstack
  obtain ⟨hcpu, hvmcb, hextra, hgif⟩ := run_vmrunLeave .eax vmrunSave32 vmrunLoad32
    vmrunStore32 restoreHost alu s₁
  obtain ⟨hmem, hesp', heax'⟩ := run_vmrunStore32 alu s₁.cpu
  rw [harg1] at hmem
  -- the stores do not reach the stack of the call
  have hstack' : (run alu vmrunStore32 s₁.cpu).Stack (callStack s) := by
    rw [Stack, sp_reg32, hmem, hesp']
    refine ByteMem.Holds.storeFields_of_apart (n := 8) hstack (by decide) ?_ ?_ ?_
    · rw [show (callStack s).length = 8 from rfl]
      decide
    · simp [vmrunFields32]
    · rw [hesp, show (callStack s).length = 8 from rfl]
      exact hapart.symm
  obtain ⟨-, -, harg3⟩ := load_args hstack'
  rw [hesp'] at harg3
  rw [harg3] at heax'
  obtain ⟨hedi, hesi, hebx, hebp, hesp'', hip, -, hmem'⟩ :=
    run_restoreHost alu (hstack'.of_append (_ :: _ :: _ :: _ :: _ :: [_]))
  rw [heax] at hvmcb hextra
  rw [heax'] at hextra
  rw [asmVmrunRegs32, hcpu, hvmcb, hextra, hgif]
  refine ⟨⟨hebp, hebx, hesi, hedi, ?_, hip⟩, rfl, rfl, rfl, fun f => ?_⟩
  · rw [hesp'', hesp', hesp]
    bv_omega
  · rw [hmem', hmem]
    exact load_vmrunFields32 hp hlen s₁.cpu f

theorem vmruns32 (alu : Word → Word → Word) (s : Svm Reg32 32 X) (hapart : ApartCall s.cpu)
    (hblocks : arg2 s.cpu ≠ arg3 s.cpu) : Vmruns asmVmrunRegs32 alu s := by
  obtain ⟨vs, hlen, hp⟩ := s.cpu.mem.exists_holds (arg1 s.cpu) 8
  obtain ⟨hstack, hregs, hesp, heax, hvmcb, hextra, hguest⟩ :=
    vmrun_entry32 alu hapart hp hlen
  refine ⟨hguest, heax, ?_, fun s₁ hexit => ?_⟩
  · rw [hextra, Function.update_of_ne hblocks]
  · have hesp₁ : s₁.cpu.reg .esp = s.cpu.reg .esp - 16#32 := hexit.esp.trans hesp
    have hstack₁ : s₁.cpu.Stack (callStack s.cpu) := by
      rw [Stack, sp_reg32, ← hexit.esp] at hstack
      exact hstack.congr hexit.stack
    have hregs₁ : s₁.cpu.mem.Holds (arg1 s.cpu) vs :=
      hregs.congr (by rw [hlen]; exact hexit.regs)
    obtain ⟨hrestored, hvmcb₁, hextra₁, hgif, hfields⟩ :=
      vmrun_leave32 alu hstack₁ hregs₁ hlen hesp₁ (hexit.eax.trans heax) hapart
    refine ⟨hrestored, ?_, hgif, ?_, fun f => ?_⟩
    · -- the block of the host still holds what was saved there before the guest
      rw [hextra₁, Function.update_of_ne hblocks.symm, hexit.host, hvmcb, Function.update_self]
    · rw [hvmcb₁, Function.update_self]
    · rw [hfields, readRegs_of_holds hregs₁ hlen, readRegs_of_holds hp hlen]

/-! ### Sessions -/

/-- One run of the guest: the registers and the transferred state it is entered and left with,
and what is changed before the next one: the fields at `p`, and whether the block of the guest
is. -/
structure VmrunRound (X : Type) where
  entry : VmReg → Word
  entryExtra : X
  exit : VmReg → Word
  exitExtra : X
  written : VmReg → Prop
  blockWritten : Prop

/-- Calls one after the other with the same structure and the same guest, from a memory and a state
in the block of the guest. In between all other code changes memory, but the fields at `p` and the
block only as the round says. -/
inductive VmrunSession (alu : Word → Word → Word) (p guest : Word) :
    ByteMem 32 → X → List (VmrunRound X) → Prop
  | nil (m x) : VmrunSession alu p guest m x []
  | cons {s s₁ : Svm Reg32 32 X} {m : ByteMem 32} {x : X} {written : VmReg → Prop}
      {blockWritten : Prop} {rounds : List (VmrunRound X)}
      (harg1 : arg1 s.cpu = p) (harg2 : arg2 s.cpu = guest) (hblocks : arg2 s.cpu ≠ arg3 s.cpu)
      (hapart : ApartCall s.cpu)
      (hexit : VmrunExit p (arg3 s.cpu) (Svm.run alu asmVmrunRegs32.enter s) s₁)
      (hkeep : ∀ f, ¬ written f →
        readRegs m p f = readRegs (Svm.run alu asmVmrunRegs32.leave s₁).cpu.mem p f)
      (hblock : ¬ blockWritten → x = (Svm.run alu asmVmrunRegs32.leave s₁).vmcb guest)
      (hrest : VmrunSession alu p guest m x rounds) :
      VmrunSession alu p guest s.cpu.mem (s.vmcb guest)
        (⟨guestRegs (Svm.run alu asmVmrunRegs32.enter s).cpu,
          (Svm.run alu asmVmrunRegs32.enter s).extra, guestRegs s₁.cpu, s₁.extra, written,
          blockWritten⟩ :: rounds)

/-- What a run of the guest leaves is what the next one finds. -/
def VmrunRound.Continues (a b : VmrunRound X) : Prop :=
  (∀ f, f ≠ .rax → f ≠ .cr2 → ¬ a.written f → b.entry f = a.exit f) ∧
    (¬ a.blockWritten → b.entryExtra = a.exitExtra)

theorem VmrunSession.head_entry {m : ByteMem 32} {x : X} {p guest : Word}
    {rounds : List (VmrunRound X)} (h : VmrunSession alu p guest m x rounds) :
    ∀ b ∈ rounds.head?, (∀ f, f ≠ .rax → f ≠ .cr2 → b.entry f = readRegs m p f) ∧
      b.entryExtra = x := by
  cases h with
  | nil => exact fun b hb => absurd hb (by simp)
  | cons harg1 harg2 hblocks hapart =>
    subst harg1 harg2
    obtain ⟨hentry, -, hextra, -⟩ := vmruns32 alu _ hapart hblocks
    intro b hb
    rw [List.head?_cons, Option.mem_some_iff] at hb
    subst hb
    dsimp only
    exact ⟨hentry, hextra⟩

theorem VmrunSession.chain {m : ByteMem 32} {x : X} {p guest : Word}
    {rounds : List (VmrunRound X)} (h : VmrunSession alu p guest m x rounds) :
    rounds.IsChain VmrunRound.Continues := by
  induction h with
  | nil => exact .nil
  | cons harg1 harg2 hblocks hapart hexit hkeep hblock hrest ih =>
    subst harg1 harg2
    obtain ⟨-, -, -, hguest, hfields⟩ := (vmruns32 alu _ hapart hblocks).resume _ hexit
    refine List.isChain_cons.mpr ⟨fun b hb => ?_, ih⟩
    obtain ⟨hentry, hextra⟩ := hrest.head_entry b hb
    refine ⟨fun f hrax hcr2 hf => ?_, fun hb => ?_⟩
    · rw [hentry f hrax hcr2, hkeep f hf, hfields, if_neg (not_or.mpr ⟨hrax, hcr2⟩)]
    · rw [hextra, hblock hb, hguest]

/-- **The world switch with `vmrun` in 32-bit code.** If the control blocks of host and guest are
different, the guest is entered with its registers and the state in its block, the caller gets its
registers and its state back, and both are in their places afterwards, where the next run of the
guest finds them. -/
theorem vmrun_regs_32 (alu : Word → Word → Word) (s : Svm Reg32 32 X) (hapart : ApartCall s.cpu)
    (hblocks : arg2 s.cpu ≠ arg3 s.cpu) :
    Vmruns asmVmrunRegs32 alu s ∧ ∀ p guest m x rounds,
      VmrunSession (X := X) alu p guest m x rounds → rounds.IsChain VmrunRound.Continues :=
  ⟨vmruns32 alu s hapart hblocks, fun _ _ _ _ _ h => h.chain⟩

/-- A call with its stack below `0xF0110000`, the structure at `0xF0120000`, and blocks at
`0x200000` and `0x201000`. -/
def vmrunCall : Svm Reg32 32 ℕ where
  cpu :=
    { callState with
      mem := ((callState.mem.store 0xF010FF08#32 0x200000#32).store 0xF010FF0C#32 0x201000#32) }
  extra := 1
  vmcb _ := 2
  gif := true

theorem vmrun_regs_32_vmrunCall :
    Vmruns asmVmrunRegs32 (fun f _ => f) vmrunCall ∧ ∀ p guest m x rounds,
      VmrunSession (X := ℕ) (fun f _ => f) p guest m x rounds →
        rounds.IsChain VmrunRound.Continues :=
  vmrun_regs_32 _ vmrunCall (by decide) (by decide)

/-! ### Calls of the 64-bit routine -/

/-- The processor leaves the guest and continues after `vmrun`. -/
structure VmrunExit64 (p host : BitVec 64) (s s' : Svm Reg64 64 X) : Prop where
  rsp : s'.cpu.reg .rsp = s.cpu.reg .rsp
  rax : s'.cpu.reg .rax = s.cpu.reg .rax
  stack : ∀ i < 72, s'.cpu.mem (s'.cpu.reg .rsp + BitVec.ofNat 64 i) =
    s.cpu.mem (s'.cpu.reg .rsp + BitVec.ofNat 64 i)
  regs : ∀ i < 128, s'.cpu.mem (p + BitVec.ofNat 64 i) = s.cpu.mem (p + BitVec.ofNat 64 i)
  host : s'.vmcb host = s.vmcb host

/-- The words at `p` are apart from the stack of a call. -/
def ApartCall64 (s : Machine64) : Prop := Apart (s.reg .rsp - 64#64) 72 (p64 s) 128

instance (s : Machine64) : Decidable (ApartCall64 s) := inferInstanceAs (Decidable (Apart ..))

/-- What a call does. The arguments are in RDI, RSI and RDX. -/
structure Vmruns64 (r : VmrunRoutine Reg64 64) (alu : BitVec 64 → BitVec 64 → BitVec 64)
    (s : Svm Reg64 64 X) : Prop where
  entry : ∀ f, f ≠ .rax → f ≠ .cr2 →
    guestRegs64 (Svm.run alu r.enter s).cpu f = readRegs64 s.cpu.mem (p64 s.cpu) f
  block : (Svm.run alu r.enter s).cpu.reg .rax = s.cpu.reg .rsi
  extra : (Svm.run alu r.enter s).extra = s.vmcb (s.cpu.reg .rsi)
  resume : ∀ s₁, VmrunExit64 (p64 s.cpu) (s.cpu.reg .rdx) (Svm.run alu r.enter s) s₁ →
    Restored64 s.cpu (Svm.run alu r.leave s₁).cpu ∧
    (Svm.run alu r.leave s₁).extra = s.extra ∧ (Svm.run alu r.leave s₁).gif = true ∧
    (Svm.run alu r.leave s₁).vmcb (s.cpu.reg .rsi) = s₁.extra ∧
    ∀ f, readRegs64 (Svm.run alu r.leave s₁).cpu.mem (p64 s.cpu) f =
      if f = .rax ∨ f = .cr2 then readRegs64 s.cpu.mem (p64 s.cpu) f else guestRegs64 s₁.cpu f

/-- The words that a call pushes. -/
def pushedRegs64 (s : Machine64) : List (BitVec 64) :=
  [s.reg .rbp, s.reg .rbx, s.reg .r12, s.reg .r13, s.reg .r14, s.reg .r15, s.reg .rdx, s.reg .rdi]

/-- The stack of a call behind the pushes. -/
def callStack64 (s : Machine64) : List (BitVec 64) :=
  [s.reg .rdi, s.reg .rdx, s.reg .r15, s.reg .r14, s.reg .r13, s.reg .r12, s.reg .rbx, s.reg .rbp,
    s.top]

variable {alu64 : BitVec 64 → BitVec 64 → BitVec 64} {c : Svm Reg64 64 X} {q : BitVec 64}
  {ws : List (BitVec 64)}

theorem stack_pushedRegs64 (s : Machine64) :
    ((pushedRegs64 s).foldl pushWord s).Stack (callStack64 s) := by
  have hs : s.Stack [s.top] := ⟨rfl, trivial⟩
  have hlen : (pushedRegs64 s).length + [s.top].length = 9 := rfl
  exact hs.pushWords (by decide) (by decide) (pushedRegs64 s) (by rw [hlen]; decide)

theorem run_vmrunSave64 (alu : BitVec 64 → BitVec 64 → BitVec 64) (s : Machine64) :
    (run alu vmrunSave64 s).mem = (((pushedRegs64 s).take 7).foldl pushWord s).mem ∧
      (run alu vmrunSave64 s).reg .rsp = (((pushedRegs64 s).take 7).foldl pushWord s).reg .rsp ∧
      (run alu vmrunSave64 s).reg .rax = s.reg .rdx ∧
      (run alu vmrunSave64 s).reg .rsi = s.reg .rsi ∧
      (run alu vmrunSave64 s).reg .rdi = s.reg .rdi := by
  obtain ⟨t, ht⟩ : ∃ t, t = ((pushedRegs64 s).take 6).foldl pushWord s := ⟨_, rfl⟩
  have hpush : run alu ([Reg64.rbp, .rbx, .r12, .r13, .r14, .r15].map .push) s = t := by
    rw [ht]
    exact run_pushes alu s (by decide)
  have hrun : run alu vmrunSave64 s = (t.setReg .rax (t.reg .rdx)).pushWord (t.reg .rdx) := by
    have hcode : vmrunSave64 = [Reg64.rbp, .rbx, .r12, .r13, .r14, .r15].map .push ++
      [.mov .rdx .rax, .push .rdx] := rfl
    rw [hcode, run_append, hpush]
    rfl
  have hreg {r : Reg64} (hr : r ≠ .rsp) : t.reg r = s.reg r := by
    rw [ht]
    exact s.reg_pushWords hr _
  have hsplit : ((pushedRegs64 s).take 7).foldl pushWord s = t.pushWord (s.reg .rdx) := by
    rw [ht]
    rfl
  have hrdx := hreg (r := .rdx) (by decide)
  rw [hrun, hsplit, hrdx]
  refine ⟨rfl, rfl, rfl, ?_, ?_⟩
  · exact (reg_pushWord _ _ _).trans (hreg (by decide))
  · exact (reg_pushWord _ _ _).trans (hreg (by decide))

theorem run_vmrunLoad64 (alu : BitVec 64 → BitVec 64 → BitVec 64) (s : Machine64) :
    (run alu vmrunLoad64 s).mem = (s.pushWord (s.reg .rdi)).mem ∧
      (run alu vmrunLoad64 s).reg .rsp = (s.pushWord (s.reg .rdi)).reg .rsp ∧
      (run alu vmrunLoad64 s).reg .rax = s.reg .rsi :=
  ⟨rfl, rfl, rfl⟩

/-- The code before `vmrun` pushes eight words. -/
theorem run_vmrunSaveLoad64 (alu : BitVec 64 → BitVec 64 → BitVec 64) (s : Machine64) :
    (run alu vmrunLoad64 (run alu vmrunSave64 s)).mem = ((pushedRegs64 s).foldl pushWord s).mem ∧
      (run alu vmrunLoad64 (run alu vmrunSave64 s)).reg .rsp =
        ((pushedRegs64 s).foldl pushWord s).reg .rsp ∧
      (run alu vmrunLoad64 (run alu vmrunSave64 s)).reg .rax = s.reg .rsi := by
  obtain ⟨hmem, hrsp, -, hrsi, hrdi⟩ := run_vmrunSave64 alu s
  obtain ⟨hmem', hrsp', hrax⟩ := run_vmrunLoad64 alu (run alu vmrunSave64 s)
  have hsplit : (pushedRegs64 s).foldl pushWord s =
      (((pushedRegs64 s).take 7).foldl pushWord s).pushWord (s.reg .rdi) := rfl
  refine ⟨?_, ?_, hrax.trans hrsi⟩
  · rw [hmem', hsplit, mem_pushWord, mem_pushWord, hmem, hrdi, sp_reg64, hrsp]
  · rw [hrsp', hsplit, reg_pushWord, reg_pushWord, sp_reg64, hrsp]

theorem guestRegs_vmrunLoad64 (alu : BitVec 64 → BitVec 64 → BitVec 64) (s : Machine64)
    {f : VmReg64} (hrax : f ≠ .rax) (hcr2 : f ≠ .cr2) :
    guestRegs64 (run alu vmrunLoad64 s) f =
      readRegs64 (run alu vmrunLoad64 s).mem (s.reg .rdi) f := by
  cases f <;> first | exact absurd rfl hrax | exact absurd rfl hcr2 | rfl

/-- The registers in the order in which they are stored. -/
def vmrunFields64 (s : Machine64) : List (ℕ × BitVec 64) :=
  [(1, s.reg .rcx), (2, s.reg .rdx), (3, s.reg .rbx), (5, s.reg .rbp), (6, s.reg .rsi),
    (7, s.reg .rdi), (8, s.reg .r8), (9, s.reg .r9), (10, s.reg .r10), (11, s.reg .r11),
    (12, s.reg .r12), (13, s.reg .r13), (14, s.reg .r14), (15, s.reg .r15)]

theorem run_vmrunStore64 (alu : BitVec 64 → BitVec 64 → BitVec 64) (s : Machine64) :
    (run alu vmrunStore64 s).mem = s.mem.storeFields s.top (vmrunFields64 s) ∧
      (run alu vmrunStore64 s).reg .rsp = s.reg .rsp + 8#64 + 8#64 ∧
      (run alu vmrunStore64 s).reg .rax = (run alu vmrunStore64 s).mem.load (s.reg .rsp + 8#64) :=
  ⟨rfl, rfl, rfl⟩

/-- The registers that are stored, where those of the guest are read. -/
theorem load_vmrunFields64 {m : ByteMem 64} (hp : m.Holds q ws) (hlen : ws.length = 16)
    (s : Machine64) (f : VmReg64) :
    readRegs64 (m.storeFields q (vmrunFields64 s)) q f =
      if f = .rax ∨ f = .cr2 then readRegs64 m q f else guestRegs64 s f := by
  have hlt : ∀ g ∈ vmrunFields64 s, g.1 < ws.length := by simp [vmrunFields64, hlen]
  have hnodup : ((vmrunFields64 s).map Prod.fst).Nodup := by simp [vmrunFields64]
  have hsize : 64 / 8 * ws.length ≤ 2 ^ 64 := by rw [hlen]; decide
  by_cases hf : f = .rax ∨ f = .cr2
  · rw [if_pos hf]
    refine hp.load_storeFields_of_notMem (by decide) (by decide) hlt hsize ?_ ?_
    · rcases hf with rfl | rfl <;> simp [VmReg64.index, hlen]
    · rcases hf with rfl | rfl <;> simp [vmrunFields64, VmReg64.index]
  · rw [if_neg hf]
    refine hp.load_storeFields (by decide) (by decide) hlt hsize hnodup ?_
    rw [not_or] at hf
    cases f <;> first
      | exact absurd rfl hf.1
      | exact absurd rfl hf.2
      | simp [vmrunFields64, VmReg64.index, guestRegs64]

/-- The code before `vmrun`, on a call whose words are apart from the stack. -/
theorem vmrun_entry64 (alu : BitVec 64 → BitVec 64 → BitVec 64) (hapart : ApartCall64 c.cpu)
    (hp : c.cpu.mem.Holds (p64 c.cpu) ws) (hlen : ws.length = 16) :
    (Svm.run alu asmVmrunRegs64.enter c).cpu.Stack (callStack64 c.cpu) ∧
      (Svm.run alu asmVmrunRegs64.enter c).cpu.mem.Holds (p64 c.cpu) ws ∧
      (Svm.run alu asmVmrunRegs64.enter c).cpu.reg .rsp = c.cpu.reg .rsp - 64#64 ∧
      (Svm.run alu asmVmrunRegs64.enter c).cpu.reg .rax = c.cpu.reg .rsi ∧
      (Svm.run alu asmVmrunRegs64.enter c).vmcb =
        Function.update c.vmcb (c.cpu.reg .rdx) c.extra ∧
      (Svm.run alu asmVmrunRegs64.enter c).extra =
        Function.update c.vmcb (c.cpu.reg .rdx) c.extra (c.cpu.reg .rsi) ∧
      ∀ f, f ≠ .rax → f ≠ .cr2 →
        guestRegs64 (Svm.run alu asmVmrunRegs64.enter c).cpu f =
          readRegs64 c.cpu.mem (p64 c.cpu) f := by
  have hstack := stack_pushedRegs64 c.cpu
  have hrsp : ((pushedRegs64 c.cpu).foldl pushWord c.cpu).reg .rsp = c.cpu.reg .rsp - 64#64 :=
    c.cpu.sp_pushWords (pushedRegs64 c.cpu)
  have hp' : ((pushedRegs64 c.cpu).foldl pushWord c.cpu).mem.Holds (p64 c.cpu) ws := by
    refine holds_pushWords (by decide) (pushedRegs64 c.cpu) hp (by rw [hlen]; decide) ?_
    rw [hlen, show (pushedRegs64 c.cpu).length = 8 from rfl]
    exact Apart.mono hapart (by decide) le_rfl
  obtain ⟨hcpu, hvmcb, hextra⟩ := run_vmrunEnter .rax vmrunSave64 vmrunLoad64 vmrunStore64
    restoreHost64 alu c
  obtain ⟨-, -, hrax, -, hrdi⟩ := run_vmrunSave64 alu c.cpu
  obtain ⟨hmem, hrsp', hrax'⟩ := run_vmrunSaveLoad64 alu c.cpu
  have hguest (f : VmReg64) (hf : f ≠ .rax) (hf' : f ≠ .cr2) :=
    guestRegs_vmrunLoad64 alu (run alu vmrunSave64 c.cpu) hf hf'
  rw [hrax] at hvmcb hextra
  rw [hrax'] at hextra
  rw [asmVmrunRegs64, hcpu, hvmcb, hextra]
  refine ⟨?_, ?_, hrsp'.trans hrsp, hrax', rfl, rfl, fun f hf hf' => ?_⟩
  · rw [Stack, sp_reg64, hmem, hrsp']
    exact hstack
  · rw [hmem]
    exact hp'
  · have hindex : f.index < ws.length := by
      rw [hlen]
      cases f <;> decide
    rw [hguest f hf hf', hmem, hrdi]
    change readRegs64 _ (p64 c.cpu) f = _
    exact (hp'.get hindex).trans (hp.get hindex).symm

/-- The code after `vmrun`, with the stack and the words of a call. -/
theorem vmrun_leave64 (alu : BitVec 64 → BitVec 64 → BitVec 64) {s : Machine64}
    (hstack : c.cpu.Stack (callStack64 s)) (hp : c.cpu.mem.Holds (p64 s) ws)
    (hlen : ws.length = 16) (hrsp : c.cpu.reg .rsp = s.reg .rsp - 64#64)
    (hrax : c.cpu.reg .rax = s.reg .rsi) (hapart : ApartCall64 s) :
    Restored64 s (Svm.run alu asmVmrunRegs64.leave c).cpu ∧
      (Svm.run alu asmVmrunRegs64.leave c).vmcb =
        Function.update c.vmcb (s.reg .rsi) c.extra ∧
      (Svm.run alu asmVmrunRegs64.leave c).extra =
        Function.update c.vmcb (s.reg .rsi) c.extra (s.reg .rdx) ∧
      (Svm.run alu asmVmrunRegs64.leave c).gif = true ∧
      ∀ f, readRegs64 (Svm.run alu asmVmrunRegs64.leave c).cpu.mem (p64 s) f =
        if f = .rax ∨ f = .cr2 then readRegs64 c.cpu.mem (p64 s) f else guestRegs64 c.cpu f := by
  obtain ⟨hcpu, hvmcb, hextra, hgif⟩ := run_vmrunLeave .rax vmrunSave64 vmrunLoad64
    vmrunStore64 restoreHost64 alu c
  obtain ⟨hmem, hrsp', hrax'⟩ := run_vmrunStore64 alu c.cpu
  have htop : c.cpu.top = p64 s := hstack.top
  rw [htop] at hmem
  -- the stores do not reach the stack of the call
  have hholds : (run alu vmrunStore64 c.cpu).mem.Holds (c.cpu.reg .rsp) (callStack64 s) := by
    rw [hmem]
    refine ByteMem.Holds.storeFields_of_apart (n := 16) hstack (by decide) ?_ ?_ ?_
    · rw [show (callStack64 s).length = 9 from rfl]
      decide
    · simp [vmrunFields64]
    · rw [hrsp, show (callStack64 s).length = 9 from rfl]
      exact hapart.symm
  have hrdx : (run alu vmrunStore64 c.cpu).reg .rax = s.reg .rdx := hrax'.trans hholds.2.1
  have hstack' : (run alu vmrunStore64 c.cpu).Stack (s.reg .r15 :: s.reg .r14 :: s.reg .r13 ::
      s.reg .r12 :: s.reg .rbx :: s.reg .rbp :: s.top :: []) := by
    rw [Stack, sp_reg64, hrsp']
    exact hholds.2.2
  obtain ⟨hr15, hr14, hr13, hr12, hrbx, hrbp, hip, hrsp'', -, hmem'⟩ :=
    run_restoreHost64 alu hstack'
  rw [hrax] at hvmcb hextra
  rw [hrdx] at hextra
  rw [asmVmrunRegs64, hcpu, hvmcb, hextra, hgif]
  refine ⟨⟨hrbx, hrbp, hr12, hr13, hr14, hr15, ?_, hip⟩, rfl, rfl, rfl, fun f => ?_⟩
  · rw [hrsp'', hrsp', hrsp]
    bv_omega
  · rw [hmem', hmem]
    exact load_vmrunFields64 hp hlen c.cpu f

theorem vmruns64 (alu : BitVec 64 → BitVec 64 → BitVec 64) (c : Svm Reg64 64 X)
    (hapart : ApartCall64 c.cpu) (hblocks : c.cpu.reg .rsi ≠ c.cpu.reg .rdx) :
    Vmruns64 asmVmrunRegs64 alu c := by
  obtain ⟨ws, hlen, hp⟩ := c.cpu.mem.exists_holds (p64 c.cpu) 16
  obtain ⟨hstack, hregs, hrsp, hrax, hvmcb, hextra, hguest⟩ := vmrun_entry64 alu hapart hp hlen
  refine ⟨hguest, hrax, ?_, fun c₁ hexit => ?_⟩
  · rw [hextra, Function.update_of_ne hblocks]
  · have hrsp₁ : c₁.cpu.reg .rsp = c.cpu.reg .rsp - 64#64 := hexit.rsp.trans hrsp
    have hstack₁ : c₁.cpu.Stack (callStack64 c.cpu) := by
      rw [Stack, sp_reg64, ← hexit.rsp] at hstack
      exact hstack.congr hexit.stack
    have hregs₁ : c₁.cpu.mem.Holds (p64 c.cpu) ws :=
      hregs.congr (by rw [hlen]; exact hexit.regs)
    obtain ⟨hrestored, hvmcb₁, hextra₁, hgif, hfields⟩ :=
      vmrun_leave64 alu hstack₁ hregs₁ hlen hrsp₁ (hexit.rax.trans hrax) hapart
    refine ⟨hrestored, ?_, hgif, ?_, fun f => ?_⟩
    · -- the block of the host still holds what was saved there before the guest
      rw [hextra₁, Function.update_of_ne hblocks.symm, hexit.host, hvmcb, Function.update_self]
    · rw [hvmcb₁, Function.update_self]
    · have hindex : f.index < ws.length := by
        rw [hlen]
        cases f <;> decide
      have hsame : readRegs64 c₁.cpu.mem (p64 c.cpu) f = readRegs64 c.cpu.mem (p64 c.cpu) f :=
        (hregs₁.get hindex).trans (hp.get hindex).symm
      rw [hfields, hsame]

/-! ### Sessions of 64-bit code -/

/-- One run of the guest, and what is changed before the next one. -/
structure VmrunRound64 (X : Type) where
  entry : VmReg64 → BitVec 64
  entryExtra : X
  exit : VmReg64 → BitVec 64
  exitExtra : X
  written : VmReg64 → Prop
  blockWritten : Prop

/-- Calls one after the other with the same words and the same guest, from a memory and a state in
the block of the guest. In between all other code changes memory, but the words at `p` and the
block only as the round says. -/
inductive VmrunSession64 (alu : BitVec 64 → BitVec 64 → BitVec 64) (p guest : BitVec 64) :
    ByteMem 64 → X → List (VmrunRound64 X) → Prop
  | nil (m x) : VmrunSession64 alu p guest m x []
  | cons {c c₁ : Svm Reg64 64 X} {m : ByteMem 64} {x : X} {written : VmReg64 → Prop}
      {blockWritten : Prop} {rounds : List (VmrunRound64 X)}
      (harg1 : p64 c.cpu = p) (harg2 : c.cpu.reg .rsi = guest)
      (hblocks : c.cpu.reg .rsi ≠ c.cpu.reg .rdx) (hapart : ApartCall64 c.cpu)
      (hexit : VmrunExit64 p (c.cpu.reg .rdx) (Svm.run alu asmVmrunRegs64.enter c) c₁)
      (hkeep : ∀ f, ¬ written f →
        readRegs64 m p f = readRegs64 (Svm.run alu asmVmrunRegs64.leave c₁).cpu.mem p f)
      (hblock : ¬ blockWritten → x = (Svm.run alu asmVmrunRegs64.leave c₁).vmcb guest)
      (hrest : VmrunSession64 alu p guest m x rounds) :
      VmrunSession64 alu p guest c.cpu.mem (c.vmcb guest)
        (⟨guestRegs64 (Svm.run alu asmVmrunRegs64.enter c).cpu,
          (Svm.run alu asmVmrunRegs64.enter c).extra, guestRegs64 c₁.cpu, c₁.extra, written,
          blockWritten⟩ :: rounds)

/-- What a run of the guest leaves is what the next one finds. -/
def VmrunRound64.Continues (a b : VmrunRound64 X) : Prop :=
  (∀ f, f ≠ .rax → f ≠ .cr2 → ¬ a.written f → b.entry f = a.exit f) ∧
    (¬ a.blockWritten → b.entryExtra = a.exitExtra)

theorem VmrunSession64.head_entry {m : ByteMem 64} {x : X} {p guest : BitVec 64}
    {rounds : List (VmrunRound64 X)} (h : VmrunSession64 alu64 p guest m x rounds) :
    ∀ b ∈ rounds.head?, (∀ f, f ≠ .rax → f ≠ .cr2 → b.entry f = readRegs64 m p f) ∧
      b.entryExtra = x := by
  cases h with
  | nil => exact fun b hb => absurd hb (by simp)
  | cons harg1 harg2 hblocks hapart =>
    subst harg1 harg2
    obtain ⟨hentry, -, hextra, -⟩ := vmruns64 alu64 _ hapart hblocks
    intro b hb
    rw [List.head?_cons, Option.mem_some_iff] at hb
    subst hb
    dsimp only
    exact ⟨hentry, hextra⟩

theorem VmrunSession64.chain {m : ByteMem 64} {x : X} {p guest : BitVec 64}
    {rounds : List (VmrunRound64 X)} (h : VmrunSession64 alu64 p guest m x rounds) :
    rounds.IsChain VmrunRound64.Continues := by
  induction h with
  | nil => exact .nil
  | cons harg1 harg2 hblocks hapart hexit hkeep hblock hrest ih =>
    subst harg1 harg2
    obtain ⟨-, -, -, hguest, hfields⟩ := (vmruns64 alu64 _ hapart hblocks).resume _ hexit
    refine List.isChain_cons.mpr ⟨fun b hb => ?_, ih⟩
    obtain ⟨hentry, hextra⟩ := hrest.head_entry b hb
    refine ⟨fun f hrax hcr2 hf => ?_, fun hb => ?_⟩
    · rw [hentry f hrax hcr2, hkeep f hf, hfields, if_neg (not_or.mpr ⟨hrax, hcr2⟩)]
    · rw [hextra, hblock hb, hguest]

/-- **The world switch with `vmrun` in 64-bit code.** It does what that of 32-bit code does, with
all general registers. -/
theorem vmrun_regs_64 (alu : BitVec 64 → BitVec 64 → BitVec 64) (c : Svm Reg64 64 X)
    (hapart : ApartCall64 c.cpu) (hblocks : c.cpu.reg .rsi ≠ c.cpu.reg .rdx) :
    Vmruns64 asmVmrunRegs64 alu c ∧ ∀ p guest m x rounds,
      VmrunSession64 (X := X) alu p guest m x rounds → rounds.IsChain VmrunRound64.Continues :=
  ⟨vmruns64 alu c hapart hblocks, fun _ _ _ _ _ h => h.chain⟩

/-- A call with its stack below `0x110000`, the words at `0x120000`, and blocks at `0x200000` and
`0x201000`. -/
def vmrunCall64 : Svm Reg64 64 ℕ where
  cpu :=
    { callState64 with
      reg r := if r = .rsi then 0x200000#64 else if r = .rdx then 0x201000#64
        else callState64.reg r }
  extra := 1
  vmcb _ := 2
  gif := true

theorem vmrun_regs_64_vmrunCall :
    Vmruns64 asmVmrunRegs64 (fun f _ => f) vmrunCall64 ∧ ∀ p guest m x rounds,
      VmrunSession64 (X := ℕ) (fun f _ => f) p guest m x rounds →
        rounds.IsChain VmrunRound64.Continues :=
  vmrun_regs_64 _ vmrunCall64 (by decide) (by decide)

end JosVmx.Hvm
