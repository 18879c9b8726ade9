import JosVmx.Hvm.Cpuid
import JosVmx.Kern.Backtrace
import JosVmx.Kern.Monitor
import JosVmx.Kern.Readline
import JosVmx.Kern.TrapPrint

/-!
# The monitor

`monitor` of `kern/monitor.c` with its commands, and how the kernel gets into it: from `trap` at a
breakpoint, and from `_panic`, which never leaves it.

The monitor is a machine that waits for a character. The characters are those that `getchar`
returns, which are never zero. The command `matrix` prepares the control registers for VMX operation
and ends in a panic, since the rest of `vmx_on` is not there: a monitor then runs inside of the
panic, and the one that has run the command is never returned to. On a processor without VMX the
first instruction of `vmx_on` faults.

## Main definitions

* `Kern.monitor`, `Kern.kernelPanic`, `Kern.trap` — the functions of the source
* `monitorChar` — what a waiting monitor does with a character
-/

namespace JosVmx.Kern

open Lib Hvm

/-! ### The commands -/

/-- What goes wrong in the monitor. -/
inductive SessionFault
  | print (e : CprintfFault)
  | command (e : MonitorFault)
  | backtrace (e : BacktraceFault)
  /-- #GP in `rdmsr` -/
  | rdmsr (num : Word)
  /-- #GP in a write to CR0 or CR4 -/
  | wrcr (v : Word)
  deriving DecidableEq, Repr

/-- The argument of `monitor`: the address of a frame and what is in it. -/
structure FrameArg where
  addr : Word
  frame : Trapframe
  tfEsp : Word
  tfSs : BitVec 16

/-- What a line finds when it is run: `argv` before it is set, ECX at the instruction of `cpuid`,
EBP and the memory of the stack in `mon_backtrace`, and CR0 and CR4 in `vmx_on`. -/
structure Moment where
  argv : ℕ → Option ℕ
  ecx : Word
  ebp : Word
  stack : ByteMem 32
  cr0 : Word
  cr4 : Word

/-- What the commands read of the kernel: the symbols `_start`, `etext`, `edata` and `end`, the
processor, the debug tables, and what every line finds. The processor has the instruction `cpuid`,
the low halves of its MSRs, as far as it has them, and the values that it takes for CR0 and CR4. -/
structure Kernel where
  start : Word
  etext : Word
  edata : Word
  endSym : Word
  cpu : Cpu
  msr : Word → Option Word
  cr0Ok : Word → Bool
  cr4Ok : Word → Bool
  tables : DebugTables
  moment : ℕ → Moment

/-- The variables of the kernel that the monitor changes: `panicstr`, the buffer of `readline` and
the screen, and how many lines have been run. -/
structure KernelVars where
  panicstr : Option (List (BitVec 8))
  buf : ℤ → BitVec 8
  screen : Screen
  lines : ℕ

/-- The descriptions in `commands`. -/
def commandDescs : List (List (BitVec 8)) :=
  [bytes "Display this list of commands", bytes "Display information about the kernel",
    bytes "Display back trace information of function", bytes "Exit from trap monitor",
    bytes "Build a Matrix", bytes "Instruction cpuid"]

/-- A string constant. -/
def strConst (s : List (BitVec 8)) : Arg := .str (some (s ++ [0#8]))

/-- The calls in `mon_help`. -/
def monHelp : List Call :=
  (commands.zip commandDescs).map fun c => ⟨bytes "%s - %s\n", [strConst c.1.name, strConst c.2]⟩

/-- `KERNBASE`. -/
def kernbaseAddr : Word := 0xF0000000#32

/-- A line with the two addresses of a symbol. -/
def symbolCall (fmt : String) (sym : Word) : Call :=
  ⟨bytes fmt, [.word sym, .word (sym - kernbaseAddr)]⟩

/-- The size of the kernel in KB, rounded up. The difference of two pointers has a sign. -/
def Kernel.footprint (k : Kernel) : Word := (k.endSym - k.start + 1023#32).sdiv 1024#32

/-- The calls in `mon_kerninfo`. -/
def monKerninfo (k : Kernel) : List Call :=
  [⟨bytes "Special kernel symbols:\n", []⟩,
    symbolCall "  _start %08x (virt)  %08x (phys)\n" k.start,
    symbolCall "  etext  %08x (virt)  %08x (phys)\n" k.etext,
    symbolCall "  edata  %08x (virt)  %08x (phys)\n" k.edata,
    symbolCall "  end    %08x (virt)  %08x (phys)\n" k.endSym,
    ⟨bytes "Kernel executable memory footprint: %dKB\n", [.word k.footprint]⟩]

/-- `T_BRKPT`. -/
def tBrkpt : Word := 3#32

/-- `mon_exit`. -/
def monExit (tf : Option FrameArg) : ℤ :=
  match tf with
  | none => 0
  | some f => if f.frame.tfTrapno = tBrkpt then -1 else 0

/-- The calls in `mon_cpuid`. -/
def monCpuid (k : Kernel) (ecx : Word) : List Call :=
  [⟨bytes "%#x\n", [.word (cpuid k.cpu ecx 0xFEEDCAFE#32).eax]⟩]

/-- A call of `panic`: `__FILE__`, `__LINE__`, and a message without arguments. -/
structure PanicCall where
  file : String
  line : Word
  fmt : String
  file_nul : 0#8 ∉ bytes file
  file_len : (bytes file).length < 2 ^ 31 - 1
  plain : Plain (bytes fmt)

/-- The panic in `vmx_on`, which `vt_main` calls first, in `vt_init`. -/
def vmxOn : PanicCall :=
  ⟨"hvm/vt_init.c", 118#32, "vmx_on not implemented", by decide, by decide, by decide⟩

/-- `asm_rdmsr`. -/
def asmRdmsr (k : Kernel) (num : Word) : Except SessionFault Word :=
  match k.msr num with
  | some v => .ok v
  | none => .error (.rdmsr num)

/-- `asm_wrcr0`. -/
def asmWrcr0 (k : Kernel) (cr0 : Word) : Except SessionFault Unit :=
  if k.cr0Ok cr0 then .ok () else .error (.wrcr cr0)

/-- `asm_wrcr4`. -/
def asmWrcr4 (k : Kernel) (cr4 : Word) : Except SessionFault Unit :=
  if k.cr4Ok cr4 then .ok () else .error (.wrcr cr4)

/-- "apply FIXED bits": what `vmx_on` does before it panics. -/
def applyFixedBits (k : Kernel) (cr0 cr4 : Word) : Except SessionFault Unit := do
  let cr00 ← asmRdmsr k 0x486#32
  let cr01 ← asmRdmsr k 0x487#32
  let cr40 ← asmRdmsr k 0x488#32
  let cr41 ← asmRdmsr k 0x489#32
  asmWrcr0 k (cr0 &&& cr01 ||| cr00)
  asmWrcr4 k (cr4 &&& cr41 ||| cr40)

/-- The panic in `has_vmx`, in which `i386_init` ends. -/
def hasVmx : PanicCall :=
  ⟨"hvm/vt_init.c", 45#32, "has_vmx not implemented!", by decide, by decide, by decide⟩

/-- How a command ends. -/
inductive CommandEnd
  | ret (r : ℤ)
  | panic (c : PanicCall)

/-- Some calls of `cprintf`. -/
def printCalls (cs : List Call) (v : KernelVars) : Except SessionFault KernelVars := do
  let screen ← (cprintfs cs v.screen).mapError .print
  .ok { v with screen := screen }

/-- More frames than there are addresses. -/
def maxFrames : ℕ := 2 ^ 32 + 1

/-- `commands[i].func(argc, argv, tf)`. No command looks at its arguments. -/
def runFunc (k : Kernel) (m : Moment) (tf : Option FrameArg) (v : KernelVars) :
    MonitorFunc → Except SessionFault (CommandEnd × KernelVars)
  | .monHelp => do
    let v ← printCalls monHelp v
    .ok (.ret 0, v)
  | .monKerninfo => do
    let v ← printCalls (monKerninfo k) v
    .ok (.ret 0, v)
  | .monBacktrace => do
    let screen ← (monBacktrace k.tables m.stack m.ebp maxFrames v.screen).mapError .backtrace
    .ok (.ret 0, { v with screen := screen })
  | .monExit => .ok (.ret (monExit tf), v)
  | .monMatrix => do
    applyFixedBits k m.cr0 m.cr4
    .ok (.panic vmxOn, v)
  | .monCpuid => do
    let v ← printCalls (monCpuid k m.ecx) v
    .ok (.ret 0, v)

/-! ### The loop of the monitor -/

/-- A monitor that waits for a character, with the variables of `readline`. `dead` says that it is
called by `_panic`. -/
structure MonitorState where
  tf : Option FrameArg
  dead : Bool
  panicstr : Option (List (BitVec 8))
  lines : ℕ
  line : LineState

/-- What a call of `monitor` has come to. -/
inductive MonitorOutcome
  /-- it waits in `getchar` -/
  | waits (s : MonitorState)
  /-- it has returned -/
  | returns (v : KernelVars)

/-- The start of `readline("K> ")`. -/
def waitLine (tf : Option FrameArg) (dead : Bool) (v : KernelVars) :
    Except SessionFault MonitorOutcome := do
  let v ← printCalls [⟨bytes "%s", [strConst (bytes "K> ")]⟩] v
  .ok (.waits ⟨tf, dead, v.panicstr, v.lines, ⟨0, v.buf, v.screen⟩⟩)

/-- What `monitor` prints before its loop. -/
def monitorCalls (tf : Option FrameArg) : List Call :=
  [⟨bytes "Welcome to the JOS kernel monitor!\n", []⟩,
    ⟨bytes "Type 'help' for a list of commands.\n", []⟩] ++
  match tf with
  | none => []
  | some f => printTrapframe f.addr f.frame f.tfEsp f.tfSs

/-- `monitor`, up to the first character. -/
def enterMonitor (tf : Option FrameArg) (dead : Bool) (v : KernelVars) :
    Except SessionFault MonitorOutcome := do
  let v ← printCalls (monitorCalls tf) v
  waitLine tf dead v

/-- What `_panic` prints: nothing after another panic. -/
def panicCalls (panicstr : Option (List (BitVec 8))) (c : PanicCall) : List Call :=
  if panicstr.isSome then []
  else
    [⟨bytes "kernel panic at %s:%d: ", [strConst (bytes c.file), .word c.line]⟩,
      ⟨bytes c.fmt, []⟩, ⟨bytes "\n", []⟩]

/-- `_panic`, up to the first character that its monitor reads. -/
def enterPanic (c : PanicCall) (v : KernelVars) : Except SessionFault MonitorOutcome := do
  let v ← printCalls (panicCalls v.panicstr c) v
  enterMonitor none true { v with panicstr := some (v.panicstr.getD (bytes c.fmt)) }

/-- The bytes of the buffer of `readline`. -/
def bufBytes (buf : ℤ → BitVec 8) : List (BitVec 8) :=
  (List.range buflen.toNat).map fun i : ℕ => buf i

/-- The buffer with these bytes. -/
def bufOf (mem : List (BitVec 8)) (buf : ℤ → BitVec 8) : ℤ → BitVec 8 := fun i =>
  if 0 ≤ i ∧ i < mem.length then mem.getD i.toNat 0#8 else buf i

/-- What the loop of `monitor` does when a command has ended. -/
def commandDone (tf : Option FrameArg) (dead : Bool) (v : KernelVars) :
    CommandEnd → Except SessionFault MonitorOutcome
  | .panic c => enterPanic c v
  | .ret r =>
    if r < 0 then
      -- `_panic` calls the monitor again
      if dead then enterMonitor none true v else .ok (.returns v)
    else waitLine tf dead v

/-- What the loop of `monitor` does with a line in the buffer. -/
def runLine (k : Kernel) (tf : Option FrameArg) (dead : Bool) (v : KernelVars) :
    Except SessionFault MonitorOutcome := do
  let m := k.moment v.lines
  let r ← (runcmd (bufBytes v.buf) m.argv).mapError .command
  let v := { v with buf := bufOf r.mem v.buf, lines := v.lines + 1 }
  match r.action with
  | .none => waitLine tf dead v
  | .cprintf fmt ap => do
    let v ← printCalls [⟨fmt, ap⟩] v
    waitLine tf dead v
  | .call func _ => do
    let (done, v) ← runFunc k m tf v func
    commandDone tf dead v done

/-- What a waiting monitor does when `getchar` returns. -/
def monitorChar (k : Kernel) (c : BitVec 8) (s : MonitorState) :
    Except SessionFault MonitorOutcome := do
  match ← (readlineRound (iscons 0) (ofUchar c) s.line).mapError .print with
  | .wait line => .ok (.waits { s with line := line })
  | .null screen => waitLine s.tf s.dead ⟨s.panicstr, s.line.buf, screen, s.lines⟩
  | .line buf screen => runLine k s.tf s.dead ⟨s.panicstr, buf, screen, s.lines⟩

/-- Some characters, with those that are left when the monitor has returned. -/
def feed (k : Kernel) : List (BitVec 8) → MonitorOutcome →
    Except SessionFault (MonitorOutcome × List (BitVec 8))
  | cs, .returns v => .ok (.returns v, cs)
  | [], .waits s => .ok (.waits s, [])
  | c :: cs, .waits s => do
    let o ← monitorChar k c s
    feed k cs o

/-- `monitor`, when `getchar` returns these characters. -/
def monitor (k : Kernel) (tf : Option FrameArg) (cs : List (BitVec 8)) (v : KernelVars) :
    Except SessionFault (MonitorOutcome × List (BitVec 8)) := do
  let o ← enterMonitor tf false v
  feed k cs o

/-- `_panic`, when `getchar` returns these characters. -/
def kernelPanic (k : Kernel) (c : PanicCall) (cs : List (BitVec 8)) (v : KernelVars) :
    Except SessionFault (MonitorOutcome × List (BitVec 8)) := do
  let o ← enterPanic c v
  feed k cs o

/-- The panics in `trap`. -/
def unhandledTrap (tfCs : BitVec 16) : PanicCall :=
  if tfCs = gdKt then
    ⟨"kern/trap.c", 170#32, "unhandled trap in kernel", by decide, by decide, by decide⟩
  else ⟨"kern/trap.c", 172#32, "unhandled trap in user mode", by decide, by decide, by decide⟩

/-- `trap`, when `getchar` returns these characters. -/
def trap (k : Kernel) (f : FrameArg) (cs : List (BitVec 8)) (v : KernelVars) :
    Except SessionFault (MonitorOutcome × List (BitVec 8)) :=
  if f.frame.tfTrapno = tBrkpt then monitor k (some f) cs v
  else do
    let v ← printCalls (printTrapframe f.addr f.frame f.tfEsp f.tfSs) v
    kernelPanic k (unhandledTrap f.frame.tfCs) cs v

/-! ### What the commands print -/

/-- A line of `mon_help`. -/
def helpPieces (name desc : List (BitVec 8)) : List Piece :=
  [.str (name ++ [0#8]), .text " - ", .str (desc ++ [0#8]), .text "\n"]

/-- The lines of `mon_help`. -/
def helpMessages : List (List Piece) :=
  (commands.zip commandDescs).map fun c => helpPieces c.1.name c.2

/-- A line of `mon_kerninfo`. -/
def symbolPieces (label : String) (sym : Word) : List Piece :=
  [.text label, .hex 8 sym, .text " (virt)  ", .hex 8 (sym - kernbaseAddr), .text " (phys)\n"]

/-- The lines of `mon_kerninfo`. -/
def kerninfoMessages (k : Kernel) : List (List Piece) :=
  [[.text "Special kernel symbols:\n"], symbolPieces "  _start " k.start,
    symbolPieces "  etext  " k.etext, symbolPieces "  edata  " k.edata,
    symbolPieces "  end    " k.endSym,
    [.text "Kernel executable memory footprint: ", .dec k.footprint, .text "KB\n"]]

/-- The line of `mon_cpuid`. -/
def cpuidMessages (k : Kernel) (ecx : Word) : List (List Piece) :=
  [[.hexAlt (cpuid k.cpu ecx 0xFEEDCAFE#32).eax, .text "\n"]]

/-- The line of a panic. -/
def panicMessages (c : PanicCall) : List (List Piece) :=
  [[.text "kernel panic at ", .str (bytes c.file ++ [0#8]), .text ":", .dec c.line, .text ": "],
    [.text c.fmt], [.text "\n"]]

theorem cstr_append_nul {s : List (BitVec 8)} (hnul : 0#8 ∉ s) (r : List (BitVec 8)) :
    cstr (s ++ 0#8 :: r) = s := by
  have hne : ∀ b ∈ s, decide (b ≠ 0#8) = true := fun b hb =>
    decide_eq_true fun h : b = 0#8 => hnul (h ▸ hb)
  rw [cstr, List.takeWhile_append_of_pos hne, List.takeWhile_cons_of_neg (by simp), List.append_nil]

/-- A string is printed if it is not too long. -/
theorem ok_str {s : List (BitVec 8)} (hnul : 0#8 ∉ s) (hlen : s.length < 2 ^ 31 - 1)
    (r : List (BitVec 8)) : (Piece.str (s ++ 0#8 :: r)).Ok := by
  refine ⟨List.mem_append_right _ List.mem_cons_self, ?_⟩
  rwa [cstr_append_nul hnul]

theorem says_help : List.Forall₂ Call.Says monHelp helpMessages := by
  have hall : ∀ c ∈ commands.zip commandDescs,
      (0#8 ∉ c.1.name ∧ c.1.name.length < 100) ∧ 0#8 ∉ c.2 ∧ c.2.length < 100 := by decide +kernel
  have hplain : ∀ s ∈ [" - ", "\n"], Plain (bytes s) := by decide
  simp only [List.forall_mem_cons] at hplain
  rw [monHelp, helpMessages, List.forall₂_map_left_iff, List.forall₂_map_right_iff,
    List.forall₂_same]
  intro c hc
  obtain ⟨⟨hname, hlen⟩, hdesc, hlen'⟩ := hall c hc
  refine ⟨?_, rfl, rfl⟩
  simp only [helpPieces, List.forall_mem_cons]
  exact ⟨ok_str hname (hlen.trans (by decide)) [], hplain.1,
    ok_str hdesc (hlen'.trans (by decide)) [], hplain.2.1, fun p hp => absurd hp List.not_mem_nil⟩

/-- A line with the two addresses of a symbol. -/
theorem says_symbol {fmt label : String} (sym : Word) (hl : Plain (bytes label))
    (hfmt : bytes fmt = bytes label ++ bytes "%08x (virt)  %08x (phys)\n") :
    (symbolCall fmt sym).Says (symbolPieces label sym) := by
  have hplain : ∀ s ∈ [" (virt)  ", " (phys)\n"], Plain (bytes s) := by decide
  simp only [List.forall_mem_cons] at hplain
  have hwidth : 8 < 10 := by decide
  refine ⟨?_, ?_, rfl⟩
  · simp only [symbolPieces, List.forall_mem_cons]
    exact ⟨hl, hwidth, hplain.1, hwidth, hplain.2.1, fun p hp => absurd hp List.not_mem_nil⟩
  · rw [symbolCall, symbolPieces, List.flatMap_cons, hfmt]
    rfl

theorem says_kerninfo (k : Kernel) :
    List.Forall₂ Call.Says (monKerninfo k) (kerninfoMessages k) := by
  have hfootprint : Call.Says
      ⟨bytes "Kernel executable memory footprint: %dKB\n", [.word k.footprint]⟩
      [.text "Kernel executable memory footprint: ", .dec k.footprint, .text "KB\n"] := by
    have hplain : ∀ s ∈ ["Kernel executable memory footprint: ", "KB\n"], Plain (bytes s) := by
      decide
    simp only [List.forall_mem_cons] at hplain
    refine ⟨?_, rfl, rfl⟩
    simp only [List.forall_mem_cons]
    exact ⟨hplain.1, trivial, hplain.2.1, fun p hp => absurd hp List.not_mem_nil⟩
  exact .cons (Call.says_text _ (by decide) rfl rfl) <|
    .cons (says_symbol _ (by decide) (by decide)) <|
    .cons (says_symbol _ (by decide) (by decide)) <|
    .cons (says_symbol _ (by decide) (by decide)) <|
    .cons (says_symbol _ (by decide) (by decide)) <|
    .cons hfootprint .nil

theorem says_cpuid (k : Kernel) (ecx : Word) :
    List.Forall₂ Call.Says (monCpuid k ecx) (cpuidMessages k ecx) := by
  have hend : Plain (bytes "\n") := by decide
  refine .cons ⟨?_, rfl, rfl⟩ .nil
  simp only [List.forall_mem_cons]
  exact ⟨trivial, hend, fun p hp => absurd hp List.not_mem_nil⟩

theorem says_panic (c : PanicCall) :
    List.Forall₂ Call.Says (panicCalls none c) (panicMessages c) := by
  have hplain : ∀ s ∈ ["kernel panic at ", ":", ": "], Plain (bytes s) := by decide
  simp only [List.forall_mem_cons] at hplain
  obtain ⟨hpanic, hcolon, hblank, -⟩ := hplain
  refine .cons ⟨?_, rfl, rfl⟩ (.cons (Call.says_text _ c.plain rfl rfl)
    (.cons (Call.says_text _ (by decide) rfl rfl) .nil))
  simp only [List.forall_mem_cons]
  exact ⟨hpanic, ok_str c.file_nul c.file_len [], hcolon, trivial, hblank,
    fun p hp => absurd hp List.not_mem_nil⟩

end JosVmx.Kern
