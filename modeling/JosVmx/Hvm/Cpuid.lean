import JosVmx.Hvm.WorldSwitch
import JosVmx.Lib.Loop
import Mathlib.Logic.Relation

/-!
# CPUID exits

`do_cpuid` of `hvm/vt.c` answers a CPUID instruction of the guest by executing one, and hides
that the processor has VMX. The instruction reads EAX and ECX; the inline assembly sets EAX
only, so what it reads from ECX is whatever the compiler has left there.

The processor is a parameter, a function from EAX and ECX to the four registers that it
writes. The general registers of the guest are those in `vr`, with which it is entered next.

## Main definitions

* `doCpuid`, `vtExitReason` — the functions of the source
* `CpuidFaithful` — the guest gets the answer to its own question
* `GuestStep` — the guest runs, or one of its exits is handled

## Main results

* `Hvm.cpuid_faithful_iff` — the answer is right exactly if it does not depend on the difference
  between the guest's ECX and the one of the host, and no guest ever reads a set VMX bit
-/

namespace JosVmx.Hvm

/-- How the handler of an exit stops the kernel: the text of the panic, and its arguments. -/
inductive HvmFault
  | panic (text : String) (args : List Word)
  deriving DecidableEq, Repr

/-! ### The functions of the source -/

/-- What an exit handler can access of the guest: `vr`, and the fields of the VMCS. -/
structure Guest where
  vr : VmReg → Word
  vmcs : Word → Word

def vmcsExitReason : Word := 0x4402#32

def vmcsVmexitInstructionLen : Word := 0x440C#32

def vmcsExitQualification : Word := 0x6400#32

def vmcsGuestRsp : Word := 0x681C#32

def vmcsGuestRip : Word := 0x681E#32

/-- `asm_vmwrite`. -/
def Guest.vmwrite (g : Guest) (field val : Word) : Guest :=
  { g with vmcs := Function.update g.vmcs field val }

/-- Set a register in `vr`. -/
def Guest.setVr (g : Guest) (f : VmReg) (val : Word) : Guest :=
  { g with vr := Function.update g.vr f val }

/-- `enum general_reg`. -/
inductive GeneralReg
  | rax
  | rcx
  | rdx
  | rbx
  | rsp
  | rbp
  | rsi
  | rdi
  | r8
  | r9
  | r10
  | r11
  | r12
  | r13
  | r14
  | r15
  deriving DecidableEq, Repr

/-- `vt_read_general_reg`. -/
def vtReadGeneralReg (reg : GeneralReg) (g : Guest) : Except HvmFault Word :=
  match reg with
  | .rax => .ok (g.vr .rax)
  | .rcx => .ok (g.vr .rcx)
  | .rdx => .ok (g.vr .rdx)
  | .rbx => .ok (g.vr .rbx)
  | .rsp => .ok (g.vmcs vmcsGuestRsp)
  | .rbp => .ok (g.vr .rbp)
  | .rsi => .ok (g.vr .rsi)
  | .rdi => .ok (g.vr .rdi)
  | _ => .error (.panic "Fatal error: unknown register." [])

/-- `vt_write_general_reg`. -/
def vtWriteGeneralReg (reg : GeneralReg) (val : Word) (g : Guest) : Except HvmFault Guest :=
  match reg with
  | .rax => .ok (g.setVr .rax val)
  | .rcx => .ok (g.setVr .rcx val)
  | .rdx => .ok (g.setVr .rdx val)
  | .rbx => .ok (g.setVr .rbx val)
  | .rsp => .ok (g.vmwrite vmcsGuestRsp val)
  | .rbp => .ok (g.setVr .rbp val)
  | .rsi => .ok (g.setVr .rsi val)
  | .rdi => .ok (g.setVr .rdi val)
  | _ => .error (.panic "Fatal error: unknown register." [])

/-- The registers that the CPUID instruction writes. -/
structure CpuidResult where
  eax : Word
  ebx : Word
  ecx : Word
  edx : Word
  deriving DecidableEq, Repr

/-- A processor, by what its CPUID instruction does with EAX and ECX. -/
abbrev Cpu := Word → Word → CpuidResult

/-- `cpuid`, when ECX holds `ecx` at the instruction. The assembly says that EAX is `info` and
nothing about ECX. -/
def cpuid (cpu : Cpu) (ecx info : Word) : CpuidResult := cpu info ecx

/-- `CPUID_1`. -/
def cpuid1 : Word := 0x1#32

/-- `CPUID_1_ECX_VMX_BIT`. -/
def cpuid1EcxVmxBit : Word := 0x20#32

/-- `add_ip`. -/
def Guest.addIp (g : Guest) : Guest :=
  g.vmwrite vmcsGuestRip (g.vmcs vmcsGuestRip + g.vmcs vmcsVmexitInstructionLen)

/-- `do_cpuid`. -/
def doCpuid (cpu : Cpu) (ecx : Word) (g : Guest) : Except HvmFault Guest := do
  let ia ← vtReadGeneralReg .rax g
  -- the branch for `0xFeedCafe` is empty
  let out := cpuid cpu ecx ia
  let oc := if ia = cpuid1 then out.ecx &&& ~~~cpuid1EcxVmxBit else out.ecx
  let g ← vtWriteGeneralReg .rax out.eax g
  let g ← vtWriteGeneralReg .rbx out.ebx g
  let g ← vtWriteGeneralReg .rcx oc g
  let g ← vtWriteGeneralReg .rdx out.edx g
  .ok g.addIp

/-- `vt_exit_reason`, with whether to run the guest again. -/
def vtExitReason (cpu : Cpu) (ecx : Word) (g : Guest) : Except HvmFault (Bool × Guest) :=
  let exitReason := g.vmcs vmcsExitReason
  if exitReason &&& 0x80000000#32 ≠ 0#32 then
    .error (.panic "VMEntry failure(EXIT_REASON, EXIT_QUALIFICATION): %lx, %lx\n"
      [exitReason, g.vmcs vmcsExitQualification])
  else if exitReason &&& 0xFFFF#32 = 0xA#32 then do
    let g ← doCpuid cpu ecx g
    .ok (true, g)
  else if exitReason &&& 0xFFFF#32 = 0x30#32 then .error (.panic "EPT_Violation" [])
  else if exitReason &&& 0xFFFF#32 = 0x31#32 then .error (.panic "EPT_Misconfig" [])
  else if exitReason &&& 0xFFFF#32 = 0x3#32 then .ok (false, g)
  else .error (.panic "Fatal error: handler not implemented. code:%ld, ip:%#lx"
    [exitReason, g.vmcs vmcsGuestRip])

/-! ### What the guest reads -/

/-- The answer that a guest is to get, if ECX holds `sub`: that of the processor, without the
VMX bit. -/
def guestAnswer (cpu : Cpu) (leaf sub : Word) : CpuidResult :=
  if leaf = cpuid1 then
    { cpu leaf sub with ecx := (cpu leaf sub).ecx &&& ~~~cpuid1EcxVmxBit }
  else cpu leaf sub

/-- What the guest finds in its registers. -/
def Guest.answer (g : Guest) : CpuidResult :=
  ⟨g.vr .rax, g.vr .rbx, g.vr .rcx, g.vr .rdx⟩

/-- The guest before a CPUID instruction and after it: it has got the answer for its EAX and its
ECX, and nothing else has changed but the instruction pointer. -/
structure CpuidFaithful (cpu : Cpu) (g g' : Guest) : Prop where
  answer : g'.answer = guestAnswer cpu (g.vr .rax) (g.vr .rcx)
  rip : g'.vmcs vmcsGuestRip = g.vmcs vmcsGuestRip + g.vmcs vmcsVmexitInstructionLen
  rsp : g'.vmcs vmcsGuestRsp = g.vmcs vmcsGuestRsp
  vr : ∀ f ∈ [VmReg.rbp, .rsi, .rdi, .cr2], g'.vr f = g.vr f

variable {cpu : Cpu} {g g' : Guest} {ecx leaf sub : Word}

theorem ecx_guestAnswer (cpu : Cpu) (leaf sub : Word) :
    (guestAnswer cpu leaf sub).ecx =
      if leaf = cpuid1 then (cpu leaf sub).ecx &&& ~~~cpuid1EcxVmxBit else (cpu leaf sub).ecx := by
  rw [guestAnswer]
  split_ifs
  · rfl
  · rfl

/-- The handler answers for the guest's EAX and the host's ECX. -/
theorem doCpuid_ok (cpu : Cpu) (ecx : Word) (g : Guest) :
    ∃ g', doCpuid cpu ecx g = .ok g' ∧ g'.answer = guestAnswer cpu (g.vr .rax) ecx ∧
      g'.vmcs = Function.update g.vmcs vmcsGuestRip
        (g.vmcs vmcsGuestRip + g.vmcs vmcsVmexitInstructionLen) ∧
      ∀ f ∈ [VmReg.rbp, .rsi, .rdi, .cr2], g'.vr f = g.vr f := by
  refine ⟨_, rfl, ?_, rfl, fun f hf => ?_⟩
  · rw [guestAnswer]
    split_ifs with hleaf
    · simp [Guest.answer, Guest.addIp, Guest.vmwrite, Guest.setVr, cpuid, hleaf]
    · simp [Guest.answer, Guest.addIp, Guest.vmwrite, Guest.setVr, cpuid]
  · -- none of these four is a register of the answer
    have hne : f ≠ .rax ∧ f ≠ .rbx ∧ f ≠ .rcx ∧ f ≠ .rdx := by
      revert f
      decide
    simp [Guest.addIp, Guest.vmwrite, Guest.setVr, hne]

theorem doCpuid_faithful_iff (cpu : Cpu) (ecx : Word) (g : Guest) :
    (∃ g', doCpuid cpu ecx g = .ok g' ∧ CpuidFaithful cpu g g') ↔
      guestAnswer cpu (g.vr .rax) ecx = guestAnswer cpu (g.vr .rax) (g.vr .rcx) := by
  obtain ⟨g', hrun, hanswer, hvmcs, hvr⟩ := doCpuid_ok cpu ecx g
  constructor
  · rintro ⟨g'', hrun', h⟩
    rw [hrun, Except.ok.injEq] at hrun'
    subst hrun'
    exact hanswer.symm.trans h.answer
  · intro heq
    refine ⟨g', hrun, hanswer.trans heq, ?_, ?_, hvr⟩
    · rw [hvmcs, Function.update_self]
    · rw [hvmcs, Function.update_of_ne (by decide)]

/-! ### Runs -/

/-- A CPUID instruction of the guest: the leaf that it asked for, and what it got. -/
structure CpuidRead where
  leaf : Word
  answer : CpuidResult
  deriving DecidableEq, Repr

/-- A step of the virtual machine, with what the guest has read so far. Whatever the guest does
until its next exit is one step; only the handler of an exit answers a CPUID instruction. -/
inductive GuestStep (cpu : Cpu) : Guest × List CpuidRead → Guest × List CpuidRead → Prop
  | guest (g g' : Guest) (reads : List CpuidRead) : GuestStep cpu (g, reads) (g', reads)
  | exit {ecx : Word} {g g' : Guest} (reads : List CpuidRead)
      (h : vtExitReason cpu ecx g = .ok (true, g')) :
      GuestStep cpu (g, reads) (g', reads ++ [⟨g.vr .rax, g'.answer⟩])

/-- Only a CPUID exit is handled so that the guest goes on. -/
theorem doCpuid_of_vtExitReason (h : vtExitReason cpu ecx g = .ok (true, g')) :
    doCpuid cpu ecx g = .ok g' := by
  rw [vtExitReason] at h
  split_ifs at h
  · obtain ⟨g₁, hrun, hok⟩ := Lib.bind_eq_ok h
    rw [Except.ok.injEq, Prod.mk.injEq] at hok
    exact hrun.trans (congrArg _ hok.2)
  · exact absurd h (by simp)

/-- No VMX bit has been read. -/
def VmxHidden (reads : List CpuidRead) : Prop :=
  ∀ r ∈ reads, r.leaf = cpuid1 → r.answer.ecx &&& cpuid1EcxVmxBit = 0#32

theorem VmxHidden.step {s s' : Guest × List CpuidRead} (h : VmxHidden s.2)
    (hstep : GuestStep cpu s s') : VmxHidden s'.2 := by
  cases hstep with
  | guest => exact h
  | exit reads hexit =>
    rename_i ecx g g'
    intro r hr hleaf
    rcases List.mem_append.mp hr with hr | hr
    · exact h r hr hleaf
    · obtain rfl := List.mem_singleton.mp hr
      obtain ⟨g₁, hrun, hanswer, -, -⟩ := doCpuid_ok cpu ecx g
      rw [doCpuid_of_vtExitReason hexit, Except.ok.injEq] at hrun
      subst hrun
      dsimp only at hleaf ⊢
      rw [hanswer, ecx_guestAnswer, if_pos hleaf, BitVec.and_assoc]
      have hbit : ~~~cpuid1EcxVmxBit &&& cpuid1EcxVmxBit = 0#32 := by decide
      rw [hbit, BitVec.and_zero]

theorem VmxHidden.run {s s' : Guest × List CpuidRead} (h : VmxHidden s.2)
    (hrun : Relation.ReflTransGen (GuestStep cpu) s s') : VmxHidden s'.2 := by
  induction hrun with
  | refl => exact h
  | tail _ hstep ih => exact ih.step hstep

/-- **CPUID exits.** The guest gets the answer to its own question exactly if the processor gives
the same answer for the ECX of the host; and in no run does it read a set VMX bit. -/
theorem cpuid_faithful_iff (cpu : Cpu) :
    (∀ (g : Guest) (ecx : Word),
      (∃ g', doCpuid cpu ecx g = .ok g' ∧ CpuidFaithful cpu g g') ↔
        guestAnswer cpu (g.vr .rax) ecx = guestAnswer cpu (g.vr .rax) (g.vr .rcx)) ∧
      ∀ g s', Relation.ReflTransGen (GuestStep cpu) (g, []) s' → VmxHidden s'.2 :=
  ⟨fun g ecx => doCpuid_faithful_iff cpu ecx g, fun g _ hrun =>
    VmxHidden.run (s := (g, [])) (fun _ hr => absurd hr List.not_mem_nil) hrun⟩

/-- A processor whose leaf 4 has a sub-leaf for each cache. -/
def cachesCpu : Cpu := fun leaf sub =>
  if leaf = 4#32 then
    if sub = 0#32 then ⟨0x121#32, 0x1C0003F#32, 0x3F#32, 0#32⟩
    else if sub = 1#32 then ⟨0x122#32, 0x1C0003F#32, 0x3F#32, 0#32⟩
    else ⟨0#32, 0#32, 0#32, 0#32⟩
  else ⟨0x906EA#32, 0x100800#32, 0x7FFAFBFF#32, 0xBFEBFBFF#32⟩

/-- A guest that is about to ask for the second cache. -/
def cachesGuest : Guest where
  vr f := if f = .rax then 4#32 else if f = .rcx then 1#32 else 0#32
  vmcs field :=
    if field = vmcsExitReason then 0xA#32
    else if field = vmcsVmexitInstructionLen then 2#32
    else if field = vmcsGuestRip then 0x7C00#32 else 0#32

theorem cpuid_faithful_iff_caches :
    ((∃ g', doCpuid cachesCpu 1#32 cachesGuest = .ok g' ∧
      CpuidFaithful cachesCpu cachesGuest g') ↔
        guestAnswer cachesCpu 4#32 1#32 = guestAnswer cachesCpu 4#32 1#32) ∧
      ∀ s', Relation.ReflTransGen (GuestStep cachesCpu) (cachesGuest, []) s' → VmxHidden s'.2 :=
  ⟨(cpuid_faithful_iff cachesCpu).1 cachesGuest 1#32, (cpuid_faithful_iff cachesCpu).2 cachesGuest⟩

/-- It gets the answer for the first cache when ECX is 0 in the host. -/
theorem not_cpuidFaithful_caches :
    cachesGuest.vr .rax ≠ 0xFEEDCAFE#32 ∧
      ¬ ∃ g', doCpuid cachesCpu 0#32 cachesGuest = .ok g' ∧
        CpuidFaithful cachesCpu cachesGuest g' := by
  refine ⟨by decide, fun ⟨g', hrun, h⟩ => ?_⟩
  obtain ⟨g₁, hrun₁, hanswer, -, -⟩ := doCpuid_ok cachesCpu 0#32 cachesGuest
  rw [hrun, Except.ok.injEq] at hrun₁
  subst hrun₁
  have heq := hanswer.symm.trans h.answer
  exact absurd heq (by decide)

end JosVmx.Hvm
