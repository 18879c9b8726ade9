import JosVmx.X86.Machine
import JosVmx.Inc.Mmu

/-!
# The world switch of 64-bit code

`asm_vmlaunch_regs_64` and `asm_vmresume_regs_64` of `hvm/asm_vmop.S`. They push the registers of
their caller and `p`, and enter the guest. At label 1, where the processor continues after the
guest, `p` is exchanged with the guest's RDI, which is then popped into `*p`. The code after the VM
entry instruction, which runs when the entry fails, jumps to label 2 without taking `p` off the
stack, so that each register is popped from the place of another one. The routines of 32-bit code
pop it there.

The constants `RAX` to `R15` place sixteen words at `p`; the structure that C declares has the
first eight.

## Main results

* `balanced_iff` — the routines return to their caller exactly if the VM entry succeeds
-/

namespace JosVmx.Hvm

open Lib X86 Machine

/-! ### The routines of the source -/

/-- The words at `p` that the routines use. -/
inductive VmReg64
  | rax
  | rcx
  | rdx
  | rbx
  | cr2
  | rbp
  | rsi
  | rdi
  | r8
  | r9
  | r10
  | r11
  | r12
  | r13
  | r14
  | r15
  deriving DecidableEq, Repr

/-- The constants `RAX` to `R15`. -/
def VmReg64.index : VmReg64 → ℕ
  | .rax => 0
  | .rcx => 1
  | .rdx => 2
  | .rbx => 3
  | .cr2 => 4
  | .rbp => 5
  | .rsi => 6
  | .rdi => 7
  | .r8 => 8
  | .r9 => 9
  | .r10 => 10
  | .r11 => 11
  | .r12 => 12
  | .r13 => 13
  | .r14 => 14
  | .r15 => 15

/-- `8*RAX` to `8*R15`. -/
def VmReg64.offset (f : VmReg64) : BitVec 64 := BitVec.ofNat 64 (8 * f.index)

def vmcsHostRsp64 : BitVec 64 := 0x6C14#64

def vmcsHostRip64 : BitVec 64 := 0x6C16#64

def saveHost64 : Code64 :=
  [.push .rbp, .push .rbx, .push .r12, .push .r13, .push .r14, .push .r15,
    .push .rdi] -- arg1

/-- The address of label 1 is moved to EDX, which clears the upper half of RDX. -/
def setHostState64 (label : Word) : Code64 :=
  [.movImm vmcsHostRsp64 .rax, .mov .rsp .rdx, .vmwrite .rdx .rax,
    .movImm vmcsHostRip64 .rax, .movImm (label.setWidth 64) .rdx, .vmwrite .rdx .rax]

def loadGuest64 : Code64 :=
  [.load VmReg64.cr2.offset .rdi .rax, .movToCr2 .rax,
    .load VmReg64.r8.offset .rdi .r8, .load VmReg64.r9.offset .rdi .r9,
    .load VmReg64.r10.offset .rdi .r10, .load VmReg64.r11.offset .rdi .r11,
    .load VmReg64.r12.offset .rdi .r12, .load VmReg64.r13.offset .rdi .r13,
    .load VmReg64.r14.offset .rdi .r14, .load VmReg64.r15.offset .rdi .r15,
    .load VmReg64.rax.offset .rdi .rax, .load VmReg64.rcx.offset .rdi .rcx,
    .load VmReg64.rdx.offset .rdi .rdx, .load VmReg64.rbx.offset .rdi .rbx,
    .load VmReg64.rbp.offset .rdi .rbp, .load VmReg64.rsi.offset .rdi .rsi,
    .load VmReg64.rdi.offset .rdi .rdi]

/-- Label 1. -/
def saveGuest64 : Code64 :=
  [.xchgTop .rdi,
    .store .rax VmReg64.rax.offset .rdi, .store .rcx VmReg64.rcx.offset .rdi,
    .store .rdx VmReg64.rdx.offset .rdi, .store .rbx VmReg64.rbx.offset .rdi,
    .store .rbp VmReg64.rbp.offset .rdi, .store .rsi VmReg64.rsi.offset .rdi,
    .popMem VmReg64.rdi.offset .rdi,
    .movFromCr2 .rax, .store .rax VmReg64.cr2.offset .rdi,
    .store .r8 VmReg64.r8.offset .rdi, .store .r9 VmReg64.r9.offset .rdi,
    .store .r10 VmReg64.r10.offset .rdi, .store .r11 VmReg64.r11.offset .rdi,
    .store .r12 VmReg64.r12.offset .rdi, .store .r13 VmReg64.r13.offset .rdi,
    .store .r14 VmReg64.r14.offset .rdi, .store .r15 VmReg64.r15.offset .rdi,
    .xor .rax .rax]

/-- Label 2. -/
def restoreHost64 : Code64 :=
  [.pop .r15, .pop .r14, .pop .r13, .pop .r12, .pop .rbx, .pop .rbp, .ret]

/-- A routine that enters the guest: the code before the VM entry instruction, the code after it,
which ends in `jmp 2f`, and the code at label 1, followed by that at label 2. -/
structure Routine64 where
  /-- the address of label 1 -/
  label : BitVec 64
  enter : Code64
  failed : Code64
  exited : Code64
  leave : Code64

/-- The two routines only differ in the VM entry instruction. -/
def vmentryRegs64 (label : Word) : Routine64 where
  label := label.setWidth 64
  enter := saveHost64 ++ setHostState64 label ++ loadGuest64
  failed := [.xor .rax .rax, .dec .rax]
  exited := saveGuest64
  leave := restoreHost64

/-- `asm_vmlaunch_regs_64`, with `vmlaunch` as the VM entry instruction. -/
def asmVmlaunchRegs64 (label : Word) : Routine64 := vmentryRegs64 label

/-- `asm_vmresume_regs_64`, with `vmresume` as the VM entry instruction. -/
def asmVmresumeRegs64 (label : Word) : Routine64 := vmentryRegs64 label

/-! ### Calls -/

/-- The words at `p`. -/
def readRegs64 (m : ByteMem 64) (p : BitVec 64) (f : VmReg64) : BitVec 64 := m.load (p + f.offset)

/-- The registers with which the guest is entered, or left. -/
def guestRegs64 (s : Machine64) : VmReg64 → BitVec 64
  | .rax => s.reg .rax
  | .rcx => s.reg .rcx
  | .rdx => s.reg .rdx
  | .rbx => s.reg .rbx
  | .cr2 => s.cr2
  | .rbp => s.reg .rbp
  | .rsi => s.reg .rsi
  | .rdi => s.reg .rdi
  | .r8 => s.reg .r8
  | .r9 => s.reg .r9
  | .r10 => s.reg .r10
  | .r11 => s.reg .r11
  | .r12 => s.reg .r12
  | .r13 => s.reg .r13
  | .r14 => s.reg .r14
  | .r15 => s.reg .r15

/-- The argument of a call. -/
def p64 (s : Machine64) : BitVec 64 := s.reg .rdi

/-- The words at `p` are apart from the part of the stack that a call uses. -/
def ApartStack64 (s : Machine64) : Prop := Apart (s.reg .rsp - 56#64) 64 (p64 s) 128

instance (s : Machine64) : Decidable (ApartStack64 s) := inferInstanceAs (Decidable (Apart ..))

/-- The registers that a routine must restore for its caller, with the stack pointer behind the
return address. -/
structure Restored64 (s s' : Machine64) : Prop where
  rbx : s'.reg .rbx = s.reg .rbx
  rbp : s'.reg .rbp = s.reg .rbp
  r12 : s'.reg .r12 = s.reg .r12
  r13 : s'.reg .r13 = s.reg .r13
  r14 : s'.reg .r14 = s.reg .r14
  r15 : s'.reg .r15 = s.reg .r15
  rsp : s'.reg .rsp = s.reg .rsp + 8#64
  ip : s'.ip = s.top

/-- The processor leaves the guest: it continues at the host state that the control structure
names, with any registers and any memory but for the stack of the call and the words at `p`. -/
structure VmExit64 (p : BitVec 64) (s s' : Machine64) : Prop where
  ip : s'.ip = s.vmcs vmcsHostRip64
  rsp : s'.reg .rsp = s.vmcs vmcsHostRsp64
  stack : ∀ i < 64,
    s'.mem (s'.reg .rsp + BitVec.ofNat 64 i) = s.mem (s'.reg .rsp + BitVec.ofNat 64 i)
  regs : ∀ i < 128, s'.mem (p + BitVec.ofNat 64 i) = s.mem (p + BitVec.ofNat 64 i)

/-- The state in which the VM entry instruction is executed. -/
def Routine64.entry (r : Routine64) (alu : BitVec 64 → BitVec 64 → BitVec 64) (s : Machine64) :
    Machine64 :=
  run alu r.enter s

/-- What the VM entry instruction comes to. -/
inductive VmEntry
  /-- it fails, sets the flags and falls through -/
  | failed (flags : BitVec 64)
  /-- the guest runs and is left in this state -/
  | exited (s₁ : Machine64)

/-- The VM entry succeeds. -/
def VmEntry.Succeeds : VmEntry → Prop
  | .failed _ => False
  | .exited _ => True

/-- What the processor can do in a call. -/
def VmEntry.Possible (r : Routine64) (alu : BitVec 64 → BitVec 64 → BitVec 64) (s : Machine64) :
    VmEntry → Prop
  | .failed _ => True
  | .exited s₁ => VmExit64 (p64 s) (r.entry alu s) s₁

/-- The state after the call, if the processor continues at label 1 after the guest. -/
def Routine64.call (r : Routine64) (alu : BitVec 64 → BitVec 64 → BitVec 64) (s : Machine64) :
    VmEntry → Option Machine64
  | .failed flags => some (run alu (r.failed ++ r.leave) { r.entry alu s with flags := flags })
  | .exited s₁ => if s₁.ip = r.label then some (run alu (r.exited ++ r.leave) s₁) else none

/-- The result of a call, and the words at `p` behind it. -/
def VmEntry.Result (s s' : Machine64) : VmEntry → Prop
  | .failed _ => s'.reg .rax = -1#64 ∧
    ∀ f, readRegs64 s'.mem (p64 s) f = readRegs64 s.mem (p64 s) f
  | .exited s₁ => s'.reg .rax = 0#64 ∧ ∀ f, readRegs64 s'.mem (p64 s) f = guestRegs64 s₁ f

/-- The call returns as it should. -/
def Balanced (r : Routine64) (alu : BitVec 64 → BitVec 64 → BitVec 64) (s : Machine64)
    (o : VmEntry) : Prop :=
  ∃ s', r.call alu s o = some s' ∧ Restored64 s s' ∧ o.Result s s'

/-! ### The pieces of code -/

variable {s s' s₁ : Machine64} {alu : BitVec 64 → BitVec 64 → BitVec 64}
  {p ret a b c d e f : BitVec 64} {vs us : List (BitVec 64)} {label : Word} {o : VmEntry}

/-- The words that a call pushes. -/
def savedRegs (s : Machine64) : List (BitVec 64) :=
  [s.reg .rbp, s.reg .rbx, s.reg .r12, s.reg .r13, s.reg .r14, s.reg .r15, s.reg .rdi]

/-- The code between the pushes and the VM entry leaves the stack alone. -/
theorem entry_eq (alu : BitVec 64 → BitVec 64 → BitVec 64) (label : Word) (s : Machine64) :
    ((vmentryRegs64 label).entry alu s).mem = ((savedRegs s).foldl pushWord s).mem ∧
      ((vmentryRegs64 label).entry alu s).reg .rsp = s.reg .rsp - 56#64 ∧
      ((vmentryRegs64 label).entry alu s).vmcs vmcsHostRsp64 = s.reg .rsp - 56#64 ∧
      ((vmentryRegs64 label).entry alu s).vmcs vmcsHostRip64 = label.setWidth 64 := by
  have hsp : ((savedRegs s).foldl pushWord s).reg .rsp = s.reg .rsp - 56#64 :=
    s.sp_pushWords (savedRegs s)
  rw [← hsp]
  exact ⟨rfl, rfl, rfl, rfl⟩

/-- The stack at the VM entry. -/
theorem stack_entry (alu : BitVec 64 → BitVec 64 → BitVec 64) (label : Word) (s : Machine64) :
    ((vmentryRegs64 label).entry alu s).Stack [p64 s, s.reg .r15, s.reg .r14, s.reg .r13,
      s.reg .r12, s.reg .rbx, s.reg .rbp, s.top] := by
  have hs : s.Stack [s.top] := ⟨rfl, trivial⟩
  have hlen : (savedRegs s).length = 7 := rfl
  have hpush := hs.pushWords (by decide) (by decide) (savedRegs s)
    (by rw [hlen, List.length_singleton]; decide)
  obtain ⟨hmem, hrsp, -⟩ := entry_eq alu label s
  have hsp : ((savedRegs s).foldl pushWord s).reg .rsp = s.reg .rsp - 56#64 :=
    s.sp_pushWords (savedRegs s)
  rw [Stack, sp_reg64, hmem, hrsp, ← hsp]
  exact hpush

/-- The words at `p` at the VM entry. -/
theorem holds_entry (alu : BitVec 64 → BitVec 64 → BitVec 64) (label : Word)
    (hp : s.mem.Holds (p64 s) vs) (hlen : vs.length = 16) (hapart : ApartStack64 s) :
    ((vmentryRegs64 label).entry alu s).mem.Holds (p64 s) vs := by
  rw [(entry_eq alu label s).1]
  refine holds_pushWords (by decide) (savedRegs s) hp (by rw [hlen]; decide) ?_
  have hpushed : (savedRegs s).length = 7 := rfl
  rw [hlen, hpushed]
  exact Apart.mono hapart (by decide) le_rfl

/-- The code at label 2 takes seven words off the stack. -/
theorem run_restoreHost64 (alu : BitVec 64 → BitVec 64 → BitVec 64)
    (h : s.Stack (a :: b :: c :: d :: e :: f :: ret :: us)) :
    (run alu restoreHost64 s).reg .r15 = a ∧ (run alu restoreHost64 s).reg .r14 = b ∧
      (run alu restoreHost64 s).reg .r13 = c ∧ (run alu restoreHost64 s).reg .r12 = d ∧
      (run alu restoreHost64 s).reg .rbx = e ∧ (run alu restoreHost64 s).reg .rbp = f ∧
      (run alu restoreHost64 s).ip = ret ∧
      (run alu restoreHost64 s).reg .rsp = s.reg .rsp + 56#64 ∧
      (run alu restoreHost64 s).reg .rax = s.reg .rax ∧
      (run alu restoreHost64 s).mem = s.mem := by
  obtain ⟨h₁, hs₁⟩ := h.pop alu (r := .r15) (by decide)
  obtain ⟨h₂, hs₂⟩ := hs₁.pop alu (r := .r14) (by decide)
  obtain ⟨h₃, hs₃⟩ := hs₂.pop alu (r := .r13) (by decide)
  obtain ⟨h₄, hs₄⟩ := hs₃.pop alu (r := .r12) (by decide)
  obtain ⟨h₅, hs₅⟩ := hs₄.pop alu (r := .rbx) (by decide)
  obtain ⟨h₆, hs₆⟩ := hs₅.pop alu (r := .rbp) (by decide)
  obtain ⟨t, ht⟩ : ∃ t, t = (((((s.exec alu (.pop .r15)).exec alu (.pop .r14)).exec alu
    (.pop .r13)).exec alu (.pop .r12)).exec alu (.pop .rbx)).exec alu (.pop .rbp) := ⟨_, rfl⟩
  have hrun : run alu restoreHost64 s = { t.dropWord with ip := t.top } := by
    rw [ht]
    rfl
  rw [← ht] at hs₆
  rw [hrun, hs₆.top, ht, h₆, h₅, h₄, h₃, h₂, h₁]
  refine ⟨rfl, rfl, rfl, rfl, rfl, rfl, rfl, ?_, rfl, rfl⟩
  change s.reg .rsp + 8#64 + 8#64 + 8#64 + 8#64 + 8#64 + 8#64 + 8#64 = _
  bv_omega

/-! ### A VM entry that fails -/

theorem run_failed64 (alu : BitVec 64 → BitVec 64 → BitVec 64) (label : Word) (s : Machine64) :
    (run alu (vmentryRegs64 label).failed s).mem = s.mem ∧
      (run alu (vmentryRegs64 label).failed s).reg .rsp = s.reg .rsp :=
  ⟨rfl, rfl⟩

/-- **After a failed entry** each register has the value of the one before it, with `p` in R15,
and the routine returns to the RBP of its caller. -/
theorem call_failed (alu : BitVec 64 → BitVec 64 → BitVec 64) (label : Word) (s : Machine64)
    (flags : BitVec 64) :
    ∃ s', (vmentryRegs64 label).call alu s (.failed flags) = some s' ∧
      s'.reg .r15 = p64 s ∧ s'.reg .r14 = s.reg .r15 ∧ s'.reg .r13 = s.reg .r14 ∧
      s'.reg .r12 = s.reg .r13 ∧ s'.reg .rbx = s.reg .r12 ∧ s'.reg .rbp = s.reg .rbx ∧
      s'.ip = s.reg .rbp ∧ s'.reg .rsp = s.reg .rsp := by
  have hentry := stack_entry alu label s
  have hrsp := (entry_eq alu label s).2.1
  obtain ⟨u, hu⟩ : ∃ u : Machine64, u = { (vmentryRegs64 label).entry alu s with flags := flags } :=
    ⟨_, rfl⟩
  have hmem_u : u.mem = ((vmentryRegs64 label).entry alu s).mem := by rw [hu]
  have hreg_u : u.reg = ((vmentryRegs64 label).entry alu s).reg := by rw [hu]
  obtain ⟨hmem_t, hrsp_t⟩ := run_failed64 alu label u
  have hstack : (run alu (vmentryRegs64 label).failed u).Stack [p64 s, s.reg .r15, s.reg .r14,
      s.reg .r13, s.reg .r12, s.reg .rbx, s.reg .rbp, s.top] := by
    rw [Stack, sp_reg64, hmem_t, hrsp_t, hmem_u, hreg_u]
    exact hentry
  obtain ⟨hr15, hr14, hr13, hr12, hrbx, hrbp, hip, hrsp', -⟩ := run_restoreHost64 alu hstack
  have hcall : (vmentryRegs64 label).call alu s (.failed flags) =
      some (run alu restoreHost64 (run alu (vmentryRegs64 label).failed u)) := by
    rw [Routine64.call, run_append, ← hu]
    rfl
  refine ⟨_, hcall, hr15, hr14, hr13, hr12, hrbx, hrbp, hip, ?_⟩
  rw [hrsp', hrsp_t, hreg_u, hrsp, BitVec.sub_add_cancel]

/-- A failed entry never returns as it should: the stack pointer is off by a word. -/
theorem not_balanced_failed (alu : BitVec 64 → BitVec 64 → BitVec 64) (label : Word)
    (s : Machine64) (flags : BitVec 64) :
    ¬ Balanced (vmentryRegs64 label) alu s (.failed flags) := by
  rintro ⟨s', hcall, hrestored, -⟩
  obtain ⟨s'', hcall', -, -, -, -, -, -, -, hrsp⟩ := call_failed alu label s flags
  rw [hcall, Option.some_inj] at hcall'
  have hsp := hrestored.rsp
  rw [hcall', hrsp] at hsp
  bv_omega

/-! ### A VM exit -/

/-- The fields in the order in which they are stored. -/
def savedFields (s : Machine64) : List (ℕ × BitVec 64) :=
  [(0, s.reg .rax), (1, s.reg .rcx), (2, s.reg .rdx), (3, s.reg .rbx), (5, s.reg .rbp),
    (6, s.reg .rsi), (7, s.reg .rdi), (4, s.cr2), (8, s.reg .r8), (9, s.reg .r9), (10, s.reg .r10),
    (11, s.reg .r11), (12, s.reg .r12), (13, s.reg .r13), (14, s.reg .r14), (15, s.reg .r15)]

theorem savedFields_lt (s : Machine64) : ∀ f ∈ savedFields s, f.1 < 16 := by
  simp [savedFields]

theorem savedFields_nodup (s : Machine64) : ((savedFields s).map Prod.fst).Nodup := by
  simp [savedFields]

/-- Every register of the guest is stored to its field. -/
theorem mem_savedFields (s : Machine64) (f : VmReg64) :
    (f.index, guestRegs64 s f) ∈ savedFields s := by
  cases f <;> simp [VmReg64.index, guestRegs64, savedFields]

/-- The code at label 1 takes `p` off the stack and stores the registers of the guest. -/
theorem run_saveGuest64 (alu : BitVec 64 → BitVec 64 → BitVec 64) (h : s.Stack (p :: us))
    (hus : us.length = 7) (hp : s.mem.Holds p vs) (hlen : vs.length = 16)
    (hapart : Apart (s.reg .rsp) 64 p 128) :
    (run alu saveGuest64 s).Stack us ∧
      (run alu saveGuest64 s).reg .rsp = s.reg .rsp + 8#64 ∧
      (run alu saveGuest64 s).reg .rax = 0#64 ∧
      ∀ f, readRegs64 (run alu saveGuest64 s).mem p f = guestRegs64 s f := by
  -- RDI is exchanged with `p` on top of the stack
  obtain ⟨m, hm⟩ : ∃ m, m = s.mem.store (s.reg .rsp) (s.reg .rdi) := ⟨_, rfl⟩
  have hstack : m.Holds (s.reg .rsp) (s.reg .rdi :: us) := by
    have hset := h.set (i := 0) (v := s.reg .rdi) (by decide) (by decide) (Nat.succ_pos _)
      (by rw [List.length_cons, hus]; decide)
    rw [Nat.mul_zero, BitVec.add_zero] at hset
    rw [hm]
    exact hset
  have hp_m : m.Holds p vs := by
    rw [hm]
    refine hp.store_of_apart (by rw [hlen]; decide) ?_
    rw [hlen]
    exact hapart.mono (by decide) (by decide)
  -- the six registers that are stored before RDI is taken from the stack
  obtain ⟨m', hm'⟩ : ∃ m', m' = m.storeFields p ((savedFields s).take 6) := ⟨_, rfl⟩
  have hkeep {l : List (ℕ × BitVec 64)} (hl : ∀ f ∈ l, f.1 < 16) :
      (m.storeFields p l).Holds (s.reg .rsp) (s.reg .rdi :: us) := by
    refine hstack.storeFields_of_apart (by decide) ?_ hl ?_ <;> rw [List.length_cons, hus]
    · decide
    · exact hapart.symm
  have hstack' : m'.Holds (s.reg .rsp) (s.reg .rdi :: us) := by
    rw [hm']
    exact hkeep fun f hf => savedFields_lt s f (List.mem_of_mem_take hf)
  have htop : s.mem.load (s.reg .rsp) = p := h.1
  have hmem : (run alu saveGuest64 s).mem = m'.storeFields (s.mem.load (s.reg .rsp))
      ((7, m'.load (s.reg .rsp)) :: (savedFields s).drop 7) := by
    rw [hm', hm, ← htop]
    rfl
  -- the pointer on the stack is still `p`, so all fields go to one record
  have hmem' : (run alu saveGuest64 s).mem = m.storeFields p (savedFields s) := by
    rw [hmem, htop, hstack'.1, hm']
    rfl
  have hrsp : (run alu saveGuest64 s).reg .rsp = s.reg .rsp + 8#64 := rfl
  refine ⟨?_, hrsp, ?_, fun f => ?_⟩
  · rw [Stack, sp_reg64, hrsp, hmem']
    exact (hkeep (savedFields_lt s)).2
  · exact BitVec.xor_self
  · rw [hmem', readRegs64]
    exact hp_m.load_storeFields (by decide) (by decide) (by rw [hlen]; exact savedFields_lt s)
      (by rw [hlen]; decide) (savedFields_nodup s) (mem_savedFields s f)

/-- After an exit the routine returns as it should. -/
theorem balanced_exited (hapart : ApartStack64 s)
    (hexit : VmExit64 (p64 s) ((vmentryRegs64 label).entry alu s) s₁) :
    Balanced (vmentryRegs64 label) alu s (.exited s₁) := by
  obtain ⟨vs, hlen, hp⟩ := s.mem.exists_holds (p64 s) 16
  obtain ⟨-, hrsp, hhostRsp, hhostRip⟩ := entry_eq alu label s
  have hrsp₁ : s₁.reg .rsp = s.reg .rsp - 56#64 := hexit.rsp.trans hhostRsp
  have hstack : s₁.Stack [p64 s, s.reg .r15, s.reg .r14, s.reg .r13, s.reg .r12, s.reg .rbx,
      s.reg .rbp, s.top] := by
    have hold := stack_entry alu label s
    rw [Stack, sp_reg64, hrsp, ← hrsp₁] at hold
    exact hold.congr hexit.stack
  -- the guest has not touched the words at `p`
  have hregs : s₁.mem.Holds (p64 s) vs :=
    (holds_entry alu label hp hlen hapart).congr (by rw [hlen]; exact hexit.regs)
  obtain ⟨hstack', hrsp', hrax, hguest⟩ :=
    run_saveGuest64 alu hstack rfl hregs hlen (by rw [hrsp₁]; exact hapart)
  obtain ⟨hr15, hr14, hr13, hr12, hrbx, hrbp, hip, hrsp'', hrax', hmem⟩ :=
    run_restoreHost64 alu hstack'
  refine ⟨run alu restoreHost64 (run alu saveGuest64 s₁), ?_,
    ⟨hrbx, hrbp, hr12, hr13, hr14, hr15, ?_, hip⟩, hrax'.trans hrax, fun f => ?_⟩
  · have hlabel : s₁.ip = (vmentryRegs64 label).label := hexit.ip.trans hhostRip
    rw [Routine64.call, if_pos hlabel, run_append]
    rfl
  · rw [hrsp'', hrsp', hrsp₁]
    bv_omega
  · rw [hmem, hguest]

theorem balanced_iff_succeeds (hapart : ApartStack64 s)
    (ho : o.Possible (vmentryRegs64 label) alu s) :
    Balanced (vmentryRegs64 label) alu s o ↔ o.Succeeds := by
  cases o with
  | failed flags => exact iff_of_false (not_balanced_failed alu label s flags) id
  | exited s₁ => exact iff_of_true (balanced_exited hapart ho) trivial

/-! ### The routines -/

/-- The guest can be left before its first instruction. -/
theorem possible_at_once (alu : BitVec 64 → BitVec 64 → BitVec 64) (label : Word) (s : Machine64) :
    VmEntry.Possible (vmentryRegs64 label) alu s
      (.exited { (vmentryRegs64 label).entry alu s with ip := label.setWidth 64 }) := by
  obtain ⟨-, hrsp, hhostRsp, hhostRip⟩ := entry_eq alu label s
  -- nothing else of the state at the VM entry is needed
  generalize hentry : (vmentryRegs64 label).entry alu s = e at hrsp hhostRsp hhostRip
  rw [VmEntry.Possible, hentry]
  exact ⟨hhostRip.symm, hrsp.trans hhostRsp.symm, fun _ _ => rfl, fun _ _ => rfl⟩

/-- A call with its stack below `0x110000` and the words at `0x120000`. Each byte of memory is the
lowest one of its address. -/
def callState64 : Machine64 where
  reg
    | .rax => 0xA0#64
    | .rcx => 0xC1#64
    | .rdx => 0xD2#64
    | .rbx => 0xB3#64
    | .rsp => 0x10FF00#64
    | .rbp => 0x10FF80#64
    | .rsi => 0x51#64
    | .rdi => 0x120000#64
    | .r8 => 0x8#64
    | .r9 => 0x9#64
    | .r10 => 0x10#64
    | .r11 => 0x11#64
    | .r12 => 0x12#64
    | .r13 => 0x13#64
    | .r14 => 0x14#64
    | .r15 => 0x15#64
  mem a := a.setWidth 8
  cr2 := 0#64
  seg _ := 0#16
  flags := 2#64
  ip := 0x103000#64
  vmcs _ := 0#64

/-- **A VM entry that fails** does not return to the caller. -/
theorem not_balanced_callState64 :
    ¬ Balanced (asmVmlaunchRegs64 0x103060#32) (fun f _ => f) callState64 (.failed 0x42#64) ∧
      ¬ Balanced (asmVmresumeRegs64 0x103060#32) (fun f _ => f) callState64 (.failed 0x42#64) :=
  ⟨not_balanced_failed _ _ _ _, not_balanced_failed _ _ _ _⟩

/-- **The 64-bit routines** restore the registers of their caller, return to it and give the right
result exactly if the VM entry succeeds. -/
theorem balanced_iff (alu : BitVec 64 → BitVec 64 → BitVec 64) (label : Word) (s : Machine64)
    (hapart : ApartStack64 s) (o : VmEntry) :
    (o.Possible (asmVmlaunchRegs64 label) alu s →
      (Balanced (asmVmlaunchRegs64 label) alu s o ↔ o.Succeeds)) ∧
    (o.Possible (asmVmresumeRegs64 label) alu s →
      (Balanced (asmVmresumeRegs64 label) alu s o ↔ o.Succeeds)) :=
  ⟨balanced_iff_succeeds hapart, balanced_iff_succeeds hapart⟩

/-- A guest that is left at once. -/
theorem balanced_iff_callState64 :
    Balanced (asmVmlaunchRegs64 0x103060#32) (fun f _ => f) callState64
      (.exited { (asmVmlaunchRegs64 0x103060#32).entry (fun f _ => f) callState64 with
        ip := 0x103060#64 }) := by
  have h := balanced_iff (fun f _ => f) 0x103060#32 callState64 (by decide)
    (.exited { (asmVmlaunchRegs64 0x103060#32).entry (fun f _ => f) callState64 with
      ip := 0x103060#64 })
  exact (h.1 (possible_at_once (fun f _ => f) 0x103060#32 callState64)).mpr trivial

end JosVmx.Hvm
