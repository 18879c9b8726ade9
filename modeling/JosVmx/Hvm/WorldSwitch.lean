import JosVmx.X86.Machine
import JosVmx.Inc.Mmu
import Mathlib.Data.List.Chain

/-!
# The world switch

`asm_vmlaunch_regs_32` and `asm_vmresume_regs_32` of `hvm/asm_vmop.S`. They save the
registers of their caller on the stack, load those of the guest from `*p` and enter the
guest. Both the instruction after the VM entry, when it fails, and label 1, where the
processor continues after the guest, come back with the stack as it was at the entry; on
top of it is `p`, which makes room for the guest's EDI on the second path.

## Main results

* `Hvm.world_switch` — both paths restore the caller's registers; the guest is entered with
  the registers in `*p`, which holds those of the guest afterwards
* `Hvm.Session.chain` — a register that the exit handler does not write reaches the guest
  unchanged
-/

namespace JosVmx.Hvm

open Lib X86 Machine

/-! ### The routines of the source -/

/-- The fields of `struct vt_vmentry_regs`. -/
inductive VmReg
  | rax
  | rcx
  | rdx
  | rbx
  | cr2
  | rbp
  | rsi
  | rdi
  deriving DecidableEq, Repr

/-- The constants `RAX` to `RDI`, the positions of the fields. -/
def VmReg.index : VmReg → ℕ
  | .rax => 0
  | .rcx => 1
  | .rdx => 2
  | .rbx => 3
  | .cr2 => 4
  | .rbp => 5
  | .rsi => 6
  | .rdi => 7

/-- `4*RAX` to `4*RDI`. -/
def VmReg.offset (f : VmReg) : Word := BitVec.ofNat 32 (4 * f.index)

def vmcsHostRsp : Word := 0x6C14#32

def vmcsHostRip : Word := 0x6C16#32

/-- Save the registers of the caller and load the argument. -/
def saveHost : Code32 :=
  [.push .ebp, .push .ebx, .push .esi, .push .edi,
    .load 20#32 .esp .edi, -- arg1
    .push .edi]

/-- Have the processor come back to label 1 with the stack as it is. -/
def setHostState (label : Word) : Code32 :=
  [.movImm vmcsHostRsp .eax, .mov .esp .edx, .vmwrite .edx .eax,
    .movImm vmcsHostRip .eax, .movImm label .edx, .vmwrite .edx .eax]

def loadGuest : Code32 :=
  [.load VmReg.cr2.offset .edi .eax, .movToCr2 .eax,
    .load VmReg.rax.offset .edi .eax, .load VmReg.rcx.offset .edi .ecx,
    .load VmReg.rdx.offset .edi .edx, .load VmReg.rbx.offset .edi .ebx,
    .load VmReg.rbp.offset .edi .ebp, .load VmReg.rsi.offset .edi .esi,
    .load VmReg.rdi.offset .edi .edi]

/-- Label 1. -/
def saveGuest : Code32 :=
  [.xchgTop .edi,
    .store .eax VmReg.rax.offset .edi, .store .ecx VmReg.rcx.offset .edi,
    .store .edx VmReg.rdx.offset .edi, .store .ebx VmReg.rbx.offset .edi,
    .store .ebp VmReg.rbp.offset .edi, .store .esi VmReg.rsi.offset .edi,
    .popMem VmReg.rdi.offset .edi,
    .movFromCr2 .eax, .store .eax VmReg.cr2.offset .edi,
    .xor .eax .eax]

/-- Label 2. -/
def restoreHost : Code32 := [.pop .edi, .pop .esi, .pop .ebx, .pop .ebp, .ret]

/-- A routine that enters the guest: the code before the VM entry instruction, the code
after it, which ends in `jmp 2f`, and the code at label 1, followed by that at label 2. -/
structure Routine where
  /-- the address of label 1 -/
  label : Word
  enter : Code32
  failed : Code32
  exited : Code32
  leave : Code32

/-- The two routines differ in the register they pop `p` into when the entry fails. -/
def vmentryRegs32 (label : Word) (drop : Reg32) : Routine where
  label := label
  enter := saveHost ++ setHostState label ++ loadGuest
  failed := [.pop drop, .xor .eax .eax, .dec .eax]
  exited := saveGuest
  leave := restoreHost

/-- `asm_vmlaunch_regs_32`, with `vmlaunch` as the VM entry instruction. -/
def asmVmlaunchRegs32 (label : Word) : Routine := vmentryRegs32 label .edi

/-- `asm_vmresume_regs_32`, with `vmresume` as the VM entry instruction. -/
def asmVmresumeRegs32 (label : Word) : Routine := vmentryRegs32 label .eax

/-! ### The registers of the guest -/

/-- The registers in `*p`. -/
def readRegs (m : ByteMem 32) (p : Word) (f : VmReg) : Word := m.load (p + f.offset)

/-- The registers with which the guest is entered, or left. -/
def guestRegs (s : Machine32) : VmReg → Word
  | .rax => s.reg .eax
  | .rcx => s.reg .ecx
  | .rdx => s.reg .edx
  | .rbx => s.reg .ebx
  | .cr2 => s.cr2
  | .rbp => s.reg .ebp
  | .rsi => s.reg .esi
  | .rdi => s.reg .edi

variable {s s' : Machine32} {alu : Word → Word → Word} {p ret a b c d label : Word}
  {vs : List Word}

theorem VmReg.index_lt (f : VmReg) : f.index < 8 := by
  cases f <;> decide

theorem readRegs_of_holds {m : ByteMem 32} (h : m.Holds p vs) (hlen : vs.length = 8) (f : VmReg) :
    readRegs m p f = vs.get ⟨f.index, hlen.symm ▸ f.index_lt⟩ :=
  h.get (hlen.symm ▸ f.index_lt)

/-! ### The pieces of code -/

/-- The structure at `p` is apart from the part of the stack that a call uses. -/
def ApartStack (sp p : Word) : Prop := Apart (sp - 20#32) 28 p 32

instance (sp p : Word) : Decidable (ApartStack sp p) := inferInstanceAs (Decidable (Apart ..))

/-- A push below the arguments does not reach the structure. -/
theorem holds_pushWord {v : Word} (hp : s.mem.Holds p vs) (hlen : vs.length = 8)
    (hapart : Apart (s.reg .esp - 4#32) 4 p 32) : (s.pushWord v).mem.Holds p vs :=
  hp.store_of_apart (by rw [hlen]; decide) (by rw [hlen]; exact hapart)

theorem run_saveHost (alu : Word → Word → Word) (h : s.Stack [ret, p]) (hp : s.mem.Holds p vs)
    (hlen : vs.length = 8) (hapart : ApartStack (s.reg .esp) p) :
    (run alu saveHost s).Stack
        [p, s.reg .edi, s.reg .esi, s.reg .ebx, s.reg .ebp, ret, p] ∧
      (run alu saveHost s).mem.Holds p vs ∧ (run alu saveHost s).reg .edi = p ∧
      (run alu saveHost s).reg .esp = s.reg .esp - 20#32 := by
  obtain ⟨hlow, hhigh⟩ := hapart
  -- each push leaves room for the words below it
  have hstack {t : Machine32} {us : List Word} (v : Word) (ht : t.Stack us)
      (hus : us.length < 8) : (t.pushWord v).Stack (v :: us) :=
    ht.pushWord (by decide) (by decide) (by omega)
  obtain ⟨t, ht⟩ : ∃ t, t = (((s.pushWord (s.reg .ebp)).pushWord (s.reg .ebx)).pushWord
    (s.reg .esi)).pushWord (s.reg .edi) := ⟨_, rfl⟩
  have hsp : t.reg .esp = s.reg .esp - 4#32 - 4#32 - 4#32 - 4#32 := by
    rw [ht]
    rfl
  have hstack_t : t.Stack [s.reg .edi, s.reg .esi, s.reg .ebx, s.reg .ebp, ret, p] := by
    rw [ht]
    exact hstack _ (hstack _ (hstack _ (hstack _ h (by simp)) (by simp)) (by simp)) (by simp)
  have hp_t : t.mem.Holds p vs := by
    rw [ht]
    refine holds_pushWord (holds_pushWord (holds_pushWord (holds_pushWord hp hlen ?_) hlen ?_)
      hlen ?_) hlen ?_
    · -- each word is pushed outside the register block
      exact ⟨by bv_omega, by bv_omega⟩
    · change Apart (s.reg .esp - 4#32 - 4#32) 4 p 32
      exact ⟨by bv_omega, by bv_omega⟩
    · change Apart (s.reg .esp - 4#32 - 4#32 - 4#32) 4 p 32
      exact ⟨by bv_omega, by bv_omega⟩
    · change Apart (s.reg .esp - 4#32 - 4#32 - 4#32 - 4#32) 4 p 32
      exact ⟨by bv_omega, by bv_omega⟩
  -- the argument is the sixth word on the stack
  have harg : t.mem.load (t.reg .esp + 20#32) = p := hstack_t.get (i := 5) (by simp)
  obtain ⟨u, hu⟩ : ∃ u, u = t.setReg .edi p := ⟨_, rfl⟩
  have hrun : run alu saveHost s = u.pushWord p := by
    rw [hu, ← harg, ht]
    rfl
  have hsp_u : u.reg .esp = t.reg .esp := by
    rw [hu]
    rfl
  have hstack_u : u.Stack [s.reg .edi, s.reg .esi, s.reg .ebx, s.reg .ebp, ret, p] := by
    rw [hu]
    exact hstack_t.setReg (by decide)
  rw [hrun]
  refine ⟨hstack p hstack_u (by simp), holds_pushWord (hu ▸ hp_t) hlen ?_, ?_, ?_⟩
  · rw [hsp_u, hsp]
    exact ⟨by bv_omega, by bv_omega⟩
  · rw [reg_pushWord, if_neg (by decide), hu, reg_setReg, if_pos rfl]
  · change u.reg .esp - 4#32 = _
    rw [hsp_u, hsp]
    bv_omega

theorem run_setHostState (alu : Word → Word → Word) (label : Word) (s : Machine32) :
    (run alu (setHostState label) s).mem = s.mem ∧
      (run alu (setHostState label) s).reg .esp = s.reg .esp ∧
      (run alu (setHostState label) s).reg .edi = s.reg .edi ∧
      (run alu (setHostState label) s).vmcs vmcsHostRsp = s.reg .esp ∧
      (run alu (setHostState label) s).vmcs vmcsHostRip = label :=
  ⟨rfl, rfl, rfl, rfl, rfl⟩

theorem run_loadGuest (alu : Word → Word → Word) (s : Machine32) :
    (run alu loadGuest s).mem = s.mem ∧ (run alu loadGuest s).vmcs = s.vmcs ∧
      (run alu loadGuest s).reg .esp = s.reg .esp ∧
      ∀ f, guestRegs (run alu loadGuest s) f = readRegs s.mem (s.reg .edi) f := by
  refine ⟨rfl, rfl, rfl, fun f => ?_⟩
  cases f <;> rfl

/-- The code at label 2 returns to the caller with its registers restored. -/
theorem run_restoreHost (alu : Word → Word → Word) (h : s.Stack [a, b, c, d, ret, p]) :
    (run alu restoreHost s).reg .edi = a ∧ (run alu restoreHost s).reg .esi = b ∧
      (run alu restoreHost s).reg .ebx = c ∧ (run alu restoreHost s).reg .ebp = d ∧
      (run alu restoreHost s).reg .esp = s.reg .esp + 20#32 ∧
      (run alu restoreHost s).ip = ret ∧ (run alu restoreHost s).reg .eax = s.reg .eax ∧
      (run alu restoreHost s).mem = s.mem := by
  obtain ⟨h₁, hs₁⟩ := h.pop alu (r := .edi) (by decide)
  obtain ⟨h₂, hs₂⟩ := hs₁.pop alu (r := .esi) (by decide)
  obtain ⟨h₃, hs₃⟩ := hs₂.pop alu (r := .ebx) (by decide)
  obtain ⟨h₄, hs₄⟩ := hs₃.pop alu (r := .ebp) (by decide)
  obtain ⟨t, ht⟩ : ∃ t, t = (((s.exec alu (.pop .edi)).exec alu (.pop .esi)).exec alu
    (.pop .ebx)).exec alu (.pop .ebp) := ⟨_, rfl⟩
  have hrun : run alu restoreHost s = { t.dropWord with ip := t.top } := by
    rw [ht]
    rfl
  rw [← ht] at hs₄
  rw [hrun, hs₄.top, ht, h₄, h₃, h₂, h₁]
  refine ⟨rfl, rfl, rfl, rfl, ?_, rfl, rfl, rfl⟩
  change s.reg .esp + 4#32 + 4#32 + 4#32 + 4#32 + 4#32 = _
  bv_omega

/-! ### Saving the registers of the guest -/

/-- The fields in the order in which they are stored. -/
def savedFields32 (s : Machine32) : List (ℕ × Word) :=
  [(0, s.reg .eax), (1, s.reg .ecx), (2, s.reg .edx), (3, s.reg .ebx), (5, s.reg .ebp),
    (6, s.reg .esi), (7, s.reg .edi), (4, s.cr2)]

theorem savedFields32_lt (s : Machine32) : ∀ f ∈ savedFields32 s, f.1 < 8 := by
  simp [savedFields32]

theorem savedFields32_nodup (s : Machine32) : ((savedFields32 s).map Prod.fst).Nodup := by
  simp [savedFields32]

/-- Every register of the guest is stored to its field. -/
theorem mem_savedFields32 (s : Machine32) (f : VmReg) :
    (f.index, guestRegs s f) ∈ savedFields32 s := by
  cases f <;> simp [VmReg.index, guestRegs, savedFields32]

/-- The code at label 1 takes `p` off the stack and stores the registers of the guest. -/
theorem run_saveGuest (alu : Word → Word → Word) {us : List Word} (h : s.Stack (p :: us))
    (hus : us.length = 6)
    (hp : s.mem.Holds p vs) (hlen : vs.length = 8) (hapart : Apart (s.reg .esp) 28 p 32) :
    (run alu saveGuest s).Stack us ∧
      (run alu saveGuest s).reg .esp = s.reg .esp + 4#32 ∧ (run alu saveGuest s).reg .eax = 0#32 ∧
      ∀ f, readRegs (run alu saveGuest s).mem p f = guestRegs s f := by
  -- EDI is exchanged with `p` on top of the stack
  obtain ⟨m, hm⟩ : ∃ m, m = s.mem.store (s.reg .esp) (s.reg .edi) := ⟨_, rfl⟩
  have hstack : m.Holds (s.reg .esp) (s.reg .edi :: us) := by
    have hset := h.set (i := 0) (v := s.reg .edi) (by decide) (by decide) (Nat.succ_pos _)
      (by rw [List.length_cons, hus]; decide)
    rw [Nat.mul_zero, BitVec.add_zero] at hset
    rw [hm]
    exact hset
  have hp_m : m.Holds p vs := by
    rw [hm]
    have hwords : Apart (s.reg .esp) (32 / 8) p (32 / 8 * vs.length) := by
      rw [hlen]
      exact hapart.mono (by decide) (by decide)
    exact hp.store_of_apart (by rw [hlen]; decide) hwords
  have hkeep {l : List (ℕ × Word)} (hl : ∀ f ∈ l, f.1 < 8) :
      (m.storeFields p l).Holds (s.reg .esp) (s.reg .edi :: us) := by
    refine hstack.storeFields_of_apart (by decide) ?_ hl ?_ <;> rw [List.length_cons, hus]
    · decide
    · exact hapart.symm
  -- the six registers that are stored before EDI is taken from the stack
  obtain ⟨m', hm'⟩ : ∃ m', m' = m.storeFields p ((savedFields32 s).take 6) := ⟨_, rfl⟩
  have hstack' : m'.Holds (s.reg .esp) (s.reg .edi :: us) := by
    rw [hm']
    exact hkeep fun f hf => savedFields32_lt s f (List.mem_of_mem_take hf)
  have htop : s.mem.load (s.reg .esp) = p := h.1
  have hmem : (run alu saveGuest s).mem = m'.storeFields (s.mem.load (s.reg .esp))
      ((7, m'.load (s.reg .esp)) :: (savedFields32 s).drop 7) := by
    rw [hm', hm, ← htop]
    rfl
  -- the pointer on the stack is still `p`, so all eight fields go to one block
  have hmem' : (run alu saveGuest s).mem = m.storeFields p (savedFields32 s) := by
    rw [hmem, htop, hstack'.1, hm']
    rfl
  have hesp : (run alu saveGuest s).reg .esp = s.reg .esp + 4#32 := rfl
  refine ⟨?_, hesp, ?_, fun f => ?_⟩
  · rw [Stack, sp_reg32, hesp, hmem']
    exact (hkeep (savedFields32_lt s)).2
  · exact BitVec.xor_self
  · rw [hmem', readRegs]
    exact hp_m.load_storeFields (by decide) (by decide) (by rw [hlen]; exact savedFields32_lt s)
      (by rw [hlen]; decide) (savedFields32_nodup s) (mem_savedFields32 s f)

/-! ### The world switch -/

/-- The registers that a routine must restore for its caller, with the stack pointer behind
the return address. -/
structure Restored (s s' : Machine32) : Prop where
  ebp : s'.reg .ebp = s.reg .ebp
  ebx : s'.reg .ebx = s.reg .ebx
  esi : s'.reg .esi = s.reg .esi
  edi : s'.reg .edi = s.reg .edi
  esp : s'.reg .esp = s.reg .esp + 4#32
  ip : s'.ip = s.top

/-- The argument of a call. -/
def arg1 (s : Machine32) : Word := s.mem.load (s.reg .esp + 4#32)

/-- The processor leaves the guest: it continues at the host state that the control
structure names, with any registers and any memory but for the stack of the call and the
structure at `p`. -/
structure VmExit (p : Word) (s s' : Machine32) : Prop where
  ip : s'.ip = s.vmcs vmcsHostRip
  esp : s'.reg .esp = s.vmcs vmcsHostRsp
  stack : ∀ i < 28,
    s'.mem (s'.reg .esp + BitVec.ofNat 32 i) = s.mem (s'.reg .esp + BitVec.ofNat 32 i)
  regs : ∀ i < 32, s'.mem (p + BitVec.ofNat 32 i) = s.mem (p + BitVec.ofNat 32 i)

/-- The state in which the VM entry instruction is executed. -/
def Routine.entry (r : Routine) (alu : Word → Word → Word) (s : Machine32) : Machine32 :=
  run alu r.enter s

/-- The state after a VM entry that fails and sets the flags to `flags`. -/
def Routine.failure (r : Routine) (alu : Word → Word → Word) (s : Machine32) (flags : Word) :
    Machine32 :=
  run alu (r.failed ++ r.leave) { r.entry alu s with flags := flags }

/-- The state after a VM exit to `s`, if the processor continues at label 1. -/
def Routine.resume (r : Routine) (alu : Word → Word → Word) (s : Machine32) : Option Machine32 :=
  if s.ip = r.label then some (run alu (r.exited ++ r.leave) s) else none

/-- What a call of the routine in state `s` does. -/
structure Switches (r : Routine) (alu : Word → Word → Word) (s : Machine32) : Prop where
  entry : ∀ f, guestRegs (r.entry alu s) f = readRegs s.mem (arg1 s) f
  failure : ∀ flags, Restored s (r.failure alu s flags) ∧
    (r.failure alu s flags).reg .eax = -1#32 ∧
    ∀ f, readRegs (r.failure alu s flags).mem (arg1 s) f = readRegs s.mem (arg1 s) f
  resume : ∀ s₁, VmExit (arg1 s) (r.entry alu s) s₁ → ∃ s', r.resume alu s₁ = some s' ∧
    Restored s s' ∧ s'.reg .eax = 0#32 ∧ ∀ f, readRegs s'.mem (arg1 s) f = guestRegs s₁ f

/-- The state in which the guest is entered, with the stack that both ways back rely on. -/
structure Entered (label : Word) (s s₁ : Machine32) (vs : List Word) : Prop where
  stack : s₁.Stack [arg1 s, s.reg .edi, s.reg .esi, s.reg .ebx, s.reg .ebp, s.top, arg1 s]
  regs : s₁.mem.Holds (arg1 s) vs
  esp : s₁.reg .esp = s.reg .esp - 20#32
  hostRsp : s₁.vmcs vmcsHostRsp = s₁.reg .esp
  hostRip : s₁.vmcs vmcsHostRip = label
  guest : ∀ f, guestRegs s₁ f = readRegs s₁.mem (arg1 s) f

theorem entered (alu : Word → Word → Word) (label : Word) (drop : Reg32)
    (hapart : ApartStack (s.reg .esp) (arg1 s))
    (hp : s.mem.Holds (arg1 s) vs) (hlen : vs.length = 8) :
    Entered label s ((vmentryRegs32 label drop).entry alu s) vs := by
  have hs : s.Stack [s.top, arg1 s] := ⟨rfl, rfl, trivial⟩
  obtain ⟨hstack, hregs, hedi, hesp⟩ := run_saveHost alu hs hp hlen hapart
  have hrun : (vmentryRegs32 label drop).entry alu s =
      run alu loadGuest (run alu (setHostState label) (run alu saveHost s)) := rfl
  obtain ⟨hmem₁, hesp₁, hedi₁, hrsp, hrip⟩ :=
    run_setHostState alu label (run alu saveHost s)
  obtain ⟨hmem₂, hvmcs₂, hesp₂, hguest⟩ :=
    run_loadGuest alu (run alu (setHostState label) (run alu saveHost s))
  rw [hrun]
  refine ⟨?_, ?_, ?_, ?_, ?_, ?_⟩
  · rw [Stack, sp_reg32, hmem₂, hesp₂, hmem₁, hesp₁]
    exact hstack
  · rw [hmem₂, hmem₁]
    exact hregs
  · rw [hesp₂, hesp₁, hesp]
  · rw [hvmcs₂, hrsp, hesp₂, hesp₁]
  · rw [hvmcs₂, hrip]
  · intro f
    rw [hguest, hmem₂, hmem₁, hedi₁, hedi]

/-- A return through label 2 restores what the stack holds. -/
theorem restored_of_stack {u : Machine32}
    (h : u.Stack [s.reg .edi, s.reg .esi, s.reg .ebx, s.reg .ebp, s.top, p])
    (hesp : u.reg .esp = s.reg .esp - 16#32) : Restored s (run alu restoreHost u) := by
  obtain ⟨hedi, hesi, hebx, hebp, hesp', hip, -⟩ := run_restoreHost alu h
  refine ⟨hebp, hebx, hesi, hedi, ?_, hip⟩
  rw [hesp', hesp]
  bv_omega

theorem switches {drop : Reg32} (hdrop : drop ≠ .esp) (hapart : ApartStack (s.reg .esp) (arg1 s)) :
    Switches (vmentryRegs32 label drop) alu s := by
  obtain ⟨vs, hlen, hp⟩ := s.mem.exists_holds (arg1 s) 8
  have h := entered alu label drop hapart hp hlen
  obtain ⟨s₁, hs₁⟩ : ∃ s₁, s₁ = (vmentryRegs32 label drop).entry alu s := ⟨_, rfl⟩
  rw [← hs₁] at h
  have hregs (f : VmReg) : readRegs s₁.mem (arg1 s) f = readRegs s.mem (arg1 s) f := by
    rw [readRegs_of_holds h.regs hlen, readRegs_of_holds hp hlen]
  constructor
  · intro f
    rw [← hs₁, h.guest, hregs]
  · intro flags
    obtain ⟨t, ht⟩ : ∃ t : Machine32, t = { s₁ with flags := flags } := ⟨_, rfl⟩
    have hstack : t.Stack [arg1 s, s.reg .edi, s.reg .esi, s.reg .ebx, s.reg .ebp, s.top, arg1 s] :=
      ht ▸ h.stack
    obtain ⟨hpop, hstack'⟩ := hstack.pop alu hdrop
    obtain ⟨u, hu⟩ : ∃ u, u = run alu (vmentryRegs32 label drop).failed t := ⟨_, rfl⟩
    have hu' : u = ((t.exec alu (.pop drop)).exec alu (.xor .eax .eax)).exec alu (.dec .eax) := hu
    -- the pop takes the pointer off the stack
    have hesp : u.reg .esp = s.reg .esp - 16#32 := by
      have hesp_t : (t.exec alu (.pop drop)).reg .esp = t.reg .esp + 4#32 := by
        rw [hpop, reg_setReg, if_neg hdrop.symm]
        rfl
      rw [hu']
      change (t.exec alu (.pop drop)).reg .esp = _
      rw [hesp_t, ht]
      change s₁.reg .esp + 4#32 = _
      rw [h.esp]
      bv_omega
    have hrun : (vmentryRegs32 label drop).failure alu s flags = run alu restoreHost u := by
      rw [Routine.failure, run_append, hu, ht, hs₁]
      rfl
    have hstack_u : u.Stack [s.reg .edi, s.reg .esi, s.reg .ebx, s.reg .ebp, s.top, arg1 s] := by
      rw [hu']
      exact hstack'
    -- XOR and DEC of a register give -1 whatever it held
    have heax : u.reg .eax = -1#32 := by
      rw [hu']
      change ((t.exec alu (.pop drop)).reg .eax ^^^ (t.exec alu (.pop drop)).reg .eax) - 1#32 = _
      rw [BitVec.xor_self]
      rfl
    have hmem : u.mem = s₁.mem := by
      rw [hu']
      change (t.exec alu (.pop drop)).mem = _
      rw [hpop, ht]
      rfl
    obtain ⟨-, -, -, -, -, -, heax', hmem'⟩ := run_restoreHost alu hstack_u
    rw [hrun]
    refine ⟨restored_of_stack hstack_u hesp, heax'.trans heax, fun f => ?_⟩
    rw [hmem', hmem, hregs]
  · intro s₂ hexit
    rw [← hs₁] at hexit
    have hesp : s₂.reg .esp = s₁.reg .esp := hexit.esp.trans h.hostRsp
    have hstack :
      s₂.Stack [arg1 s, s.reg .edi, s.reg .esi, s.reg .ebx, s.reg .ebp, s.top, arg1 s] := by
      have hold := h.stack
      rw [Stack, sp_reg32, ← hesp] at hold
      exact hold.congr hexit.stack
    -- the guest has not touched the block, so it still holds eight words
    have hregs₂ : s₂.mem.Holds (arg1 s) vs := h.regs.congr (by rw [hlen]; exact hexit.regs)
    have hapart' : Apart (s₂.reg .esp) 28 (arg1 s) 32 := by
      rw [hesp, h.esp]
      exact hapart
    obtain ⟨hstack', hesp', heax, hguest⟩ :=
      run_saveGuest alu hstack rfl hregs₂ hlen hapart'
    obtain ⟨-, -, -, -, -, -, heax', hmem'⟩ := run_restoreHost alu hstack'
    have hip : s₂.ip = (vmentryRegs32 label drop).label := hexit.ip.trans h.hostRip
    refine ⟨run alu restoreHost (run alu saveGuest s₂), ?_, restored_of_stack hstack' ?_,
      heax'.trans heax, fun f => ?_⟩
    · rw [Routine.resume, if_pos hip, run_append]
      rfl
    · rw [hesp', hesp, h.esp]
      bv_omega
    · rw [hmem', hguest]

/-! ### Sessions -/

/-- One run of the guest: the registers it is entered and left with, and those that the
exit handler writes afterwards. -/
structure Round where
  entry : VmReg → Word
  exit : VmReg → Word
  written : VmReg → Prop

/-- Runs of the guest one after the other, each by a call of one of the routines with
argument `p`, from one memory to another. In between the exit handler, and all other code,
changes memory, but the fields of `*p` only as the round says. -/
inductive Session (alu : Word → Word → Word) (p : Word) :
    ByteMem 32 → List Round → ByteMem 32 → Prop
  | nil (m) : Session alu p m [] m
  | cons {r : Routine} {label : Word} {s s₁ s' : Machine32} {m m' : ByteMem 32}
      {written : VmReg → Prop} {rounds : List Round}
      (hr : r = asmVmlaunchRegs32 label ∨ r = asmVmresumeRegs32 label)
      (harg : arg1 s = p) (hapart : ApartStack (s.reg .esp) p)
      (hexit : VmExit p (r.entry alu s) s₁) (hreturn : r.resume alu s₁ = some s')
      (hkeep : ∀ f, ¬ written f → readRegs m p f = readRegs s'.mem p f)
      (hrest : Session alu p m rounds m') :
      Session alu p s.mem
        (⟨guestRegs (r.entry alu s), guestRegs s₁, written⟩ :: rounds) m'

theorem switches_of_routine {r : Routine}
    (hr : r = asmVmlaunchRegs32 label ∨ r = asmVmresumeRegs32 label)
    (hapart : ApartStack (s.reg .esp) (arg1 s)) : Switches r alu s := by
  rcases hr with rfl | rfl
  · exact switches (by decide) hapart
  · exact switches (by decide) hapart

/-- A session starts with the registers in `*p`. -/
theorem Session.head_entry {m m' : ByteMem 32} {rounds : List Round}
    (h : Session alu p m rounds m') : ∀ b ∈ rounds.head?, ∀ f, b.entry f = readRegs m p f := by
  cases h with
  | nil => exact fun b hb => absurd hb (by simp)
  | cons hr harg hapart =>
    subst harg
    intro b hb
    rw [List.head?_cons, Option.mem_some_iff] at hb
    rw [← hb]
    exact (switches_of_routine hr hapart).entry

/-- A register that the exit handler does not write reaches the guest unchanged. -/
theorem Session.chain {m m' : ByteMem 32} {rounds : List Round} (h : Session alu p m rounds m') :
    rounds.IsChain fun a b => ∀ f, ¬ a.written f → b.entry f = a.exit f := by
  induction h with
  | nil => exact .nil
  | cons hr harg hapart hexit hreturn hkeep hrest ih =>
    subst harg
    refine List.isChain_cons.mpr ⟨fun b hb f hf => ?_, ih⟩
    obtain ⟨s'', hreturn', -, -, hguest⟩ := (switches_of_routine hr hapart).resume _ hexit
    rw [hreturn, Option.some_inj] at hreturn'
    subst hreturn'
    rw [hrest.head_entry b hb, hkeep f hf]
    exact hguest f

/-- **The world switch preserves both sides.** -/
theorem world_switch (alu : Word → Word → Word) (label : Word) (s : Machine32)
    (hapart : ApartStack (s.reg .esp) (arg1 s)) :
    Switches (asmVmlaunchRegs32 label) alu s ∧ Switches (asmVmresumeRegs32 label) alu s ∧
      ∀ p m rounds m', Session alu p m rounds m' →
        rounds.IsChain fun a b => ∀ f, ¬ a.written f → b.entry f = a.exit f :=
  ⟨switches (by decide) hapart, switches (by decide) hapart, fun _ _ _ _ h => h.chain⟩

/-- A call with its stack below `0xF0110000` and the structure at `0xF0120000`. Each other byte of
memory is the lowest one of its address. -/
def callState : Machine32 where
  reg
    | .eax => 0xA0#32
    | .ecx => 0xC1#32
    | .edx => 0xD2#32
    | .ebx => 0xB3#32
    | .esp => 0xF010FF00#32
    | .ebp => 0xF010FF80#32
    | .esi => 0x51#32
    | .edi => 0xD1#32
  mem := ByteMem.store (fun a => a.setWidth 8) 0xF010FF04#32 0xF0120000#32
  cr2 := 0#32
  seg _ := 0#16
  flags := 2#32
  ip := 0xF0103000#32
  vmcs _ := 0#32

theorem world_switch_callState :
    Switches (asmVmlaunchRegs32 0xF0103040#32) (fun f _ => f) callState ∧
      Switches (asmVmresumeRegs32 0xF0103040#32) (fun f _ => f) callState ∧
      ∀ p m rounds m', Session (fun f _ => f) p m rounds m' →
        rounds.IsChain fun a b => ∀ f, ¬ a.written f → b.entry f = a.exit f := by
  have harg : arg1 callState = 0xF0120000#32 := ByteMem.load_store_same (by decide)
  refine world_switch _ _ callState ?_
  rw [harg]
  decide

end JosVmx.Hvm
