import JosVmx.Kern.MonitorLoop
import Mathlib.Data.Fintype.Card

/-!
# A session with the monitor

What the monitor does, without its buffer, its screen and its command tables: it has a line, which
the characters edit, and a character that ends the line makes it print something and start again.
A session says which text is typed on the terminal.

A monitor that is called by `trap` can be left. One that is called without a frame, or by `_panic`,
cannot: `exit` asks for the frame of a breakpoint.

## Main definitions

* `Session` — a monitor that waits for a character
* `Session.step` — what it does with it
* `Kernel.Sound` — `backtrace` can be run with the debug tables and the stacks, and `matrix` on the
  processor

## Main results

* `monitorChar_step`, `feed_progress` — the monitor does what the session does
* `Kern.monitor_session` — all that is typed in a session, and which characters are left
* `Kern.panic_waits` — after a panic the kernel stays in the monitor
* `Kern.trap_returns_iff` — the only way back to the interrupted program
-/

namespace JosVmx.Kern

open Lib Hvm

/-! ### Sessions -/

/-- Who has called the monitor. -/
inductive Caller
  | null
  | frame (f : FrameArg)
  /-- `_panic` -/
  | panic

/-- The argument of the call. -/
def Caller.tf : Caller → Option FrameArg
  | frame f => some f
  | null | panic => none

def Caller.dead : Caller → Bool
  | panic => true
  | null | frame _ => false

/-- Whether `exit` leaves the monitor. -/
def Caller.AtBreakpoint : Caller → Prop
  | frame f => f.frame.tfTrapno = tBrkpt
  | null | panic => False

instance Caller.instDecidableAtBreakpoint : (c : Caller) → Decidable c.AtBreakpoint
  | frame f => inferInstanceAs (Decidable (f.frame.tfTrapno = tBrkpt))
  | null | panic => inferInstanceAs (Decidable False)

/-- A monitor that waits for a character. -/
structure Session where
  caller : Caller
  panicked : Bool
  lines : ℕ
  line : List (BitVec 8)

/-- What a session has come to. -/
inductive Progress
  | waits (s : Session)
  | returns

/-- What a line asks for. -/
inductive LineAction
  | none
  | tooMany
  | unknown (w : List (BitVec 8))
  | call (func : MonitorFunc)
  deriving DecidableEq

/-- A word that names a command, or none. -/
def wordAction (w : List (BitVec 8)) : LineAction :=
  match commands.find? fun c => c.name = w with
  | some c => .call c.func
  | none => .unknown w

/-- The words of a line, the first of which is the name. -/
def lineAction (l : List (BitVec 8)) : LineAction :=
  if maxargs ≤ (runs isBlank l).length then .tooMany
  else
    match runs isBlank l with
    | [] => .none
    | (_, w) :: _ => wordAction w

/-! ### What is typed -/

/-- The prompt. -/
def promptText : List Word := messagesText [[.str (bytes "K> " ++ [0#8])]]

/-- What a monitor starts with. -/
def bannerText (tf : Option FrameArg) : List Word :=
  messagesText [[.text "Welcome to the JOS kernel monitor!\n"],
    [.text "Type 'help' for a list of commands.\n"]] ++
  match tf with
  | none => []
  | some f => trapDump f.addr f.frame f.tfEsp f.tfSs

def tooManyText : List Word :=
  messagesText [[.text "Too many arguments (max ", .dec (BitVec.ofNat 32 maxargs), .text ")\n"]]

def unknownText (w : List (BitVec 8)) : List Word :=
  messagesText [[.text "Unknown command '", .str (w ++ [0#8]), .text "'\n"]]

/-- What a panic types. -/
def panicText (panicked : Bool) (c : PanicCall) : List Word :=
  if panicked then [] else messagesText (panicMessages c)

/-- The frames of a stack. -/
def Moment.frames (m : Moment) : List Word := chainFrom m.stack.load 0#32 maxFrames m.ebp

/-- What a command types, if it does not end in a panic. -/
def commandText (k : Kernel) (m : Moment) : MonitorFunc → List Word
  | .monHelp => messagesText helpMessages
  | .monKerninfo => messagesText (kerninfoMessages k)
  | .monBacktrace => backtraceText k.tables m.stack m.frames
  | .monCpuid => messagesText (cpuidMessages k m.ecx)
  | .monExit | .monMatrix => []

/-- The character that is typed when a line is edited. -/
def echoText (l : List (BitVec 8)) (c : Word) : List Word :=
  if 0x20 ≤ c.toNat ∧ l.length < 1023 ∨ c = 0x08#32 ∧ l ≠ [] then [c] else []

/-! ### Steps -/

/-- The session goes on with an empty line. -/
def Session.next (s : Session) (text : List Word) : Progress × List Word :=
  (.waits { s with lines := s.lines + 1, line := [] }, text ++ promptText)

/-- A monitor that is called by `_panic`. -/
def Session.panic (c : PanicCall) (panicked : Bool) (lines : ℕ) : Progress × List Word :=
  (.waits ⟨.panic, true, lines, []⟩,
    panicText panicked c ++ (bannerText none ++ promptText))

/-- The line is run. -/
def Session.runLine (k : Kernel) (s : Session) : Progress × List Word :=
  match lineAction s.line with
  | .none => s.next []
  | .tooMany => s.next tooManyText
  | .unknown w => s.next (unknownText w)
  | .call .monMatrix => Session.panic vmxOn s.panicked (s.lines + 1)
  | .call .monExit => if s.caller.AtBreakpoint then (.returns, []) else s.next []
  | .call func => s.next (commandText k (k.moment s.lines) func)

/-- Whether the line ends at a character. -/
instance instDecidableEndsLine (c : Word) : Decidable (EndsLine c) :=
  inferInstanceAs (Decidable (_ ∨ _))

/-- A character is typed. -/
def Session.step (k : Kernel) (c : Word) (s : Session) : Progress × List Word :=
  if EndsLine c then ((s.runLine k).1, c :: (s.runLine k).2)
  else (.waits { s with line := editStep s.line c }, echoText s.line c)

/-- Some characters, with all that is typed and the characters that are left. -/
def Progress.feed (k : Kernel) : List (BitVec 8) → Progress → Progress × List Word × List (BitVec 8)
  | cs, .returns => (.returns, [], cs)
  | [], .waits s => (.waits s, [], [])
  | c :: cs, .waits s =>
    let r := s.step k (ofUchar c)
    let r' := Progress.feed k cs r.1
    (r'.1, r.2 ++ r'.2.1, r'.2.2)

/-! ### What a monitor types -/

/-- The paper with some more text. -/
def typeText (text : List Word) (p : Paper (BitVec 16)) : Paper (BitVec 16) :=
  text.foldl (fun p c => typeChar c p) p

theorem typeText_append (t u : List Word) (p : Paper (BitVec 16)) :
    typeText (t ++ u) p = typeText u (typeText t p) := List.foldl_append

/-- A session describes a monitor. -/
structure Session.Describes (s₀ : Screen) (p : Paper (BitVec 16)) (S : Session)
    (s : MonitorState) : Prop where
  tf : s.tf = S.caller.tf
  dead : s.dead = S.caller.dead
  panicked : s.panicstr.isSome = S.panicked
  lines : s.lines = S.lines
  line : s.line.Line S.line
  shown : Shown s₀ s.line.screen p

/-- What a session has come to describes what the monitor has come to. -/
def Progress.Describes (s₀ : Screen) (p : Paper (BitVec 16)) : Progress → MonitorOutcome → Prop
  | waits S, .waits s => S.Describes s₀ p s
  | returns, .returns v => Shown s₀ v.screen p
  | waits _, .returns _ | returns, .waits _ => False

variable {s₀ : Screen} {p : Paper (BitVec 16)} {v : KernelVars} {S : Session} {cs : List Call}
  {ms : List (List Piece)} {text : List Word} {l : List (BitVec 8)} {k : Kernel}

theorem Shown.printTexts {texts : List (List Word)} (h : Shown s₀ v.screen p)
    (hcs : List.Forall₂ Call.Prints cs texts) :
    ∃ screen, printCalls cs v = .ok { v with screen := screen } ∧
      Shown s₀ screen (typeText texts.flatten p) := by
  obtain ⟨screen, hprint, hshown⟩ := h.cprintfs hcs
  refine ⟨screen, ?_, hshown⟩
  rw [printCalls, hprint]
  rfl

theorem Shown.printMessages (h : Shown s₀ v.screen p) (hcs : List.Forall₂ Call.Says cs ms) :
    ∃ screen, printCalls cs v = .ok { v with screen := screen } ∧
      Shown s₀ screen (typeText (messagesText ms) p) := by
  rw [messagesText, List.flatMap_def]
  exact h.printTexts (forall₂_prints hcs)

/-- An empty line behind the prompt. -/
theorem Shown.waitLine (h : Shown s₀ v.screen p) (caller : Caller) :
    ∃ o, Kern.waitLine caller.tf caller.dead v = .ok o ∧
      (Progress.waits ⟨caller, v.panicstr.isSome, v.lines, []⟩).Describes s₀
        (typeText promptText p) o := by
  have hprompt :
      Call.Says ⟨bytes "%s", [strConst (bytes "K> ")]⟩ [.str (bytes "K> " ++ [0#8])] := by
    have hnul : 0#8 ∉ bytes "K> " := by decide
    exact ⟨List.forall_mem_singleton.mpr (ok_str hnul (by decide) []), rfl, rfl⟩
  obtain ⟨screen, hprint, hshown⟩ := h.printMessages (.cons hprompt .nil)
  refine ⟨.waits ⟨caller.tf, caller.dead, v.panicstr, v.lines, ⟨0, v.buf, screen⟩⟩, ?_, ?_⟩
  · rw [Kern.waitLine, hprint]
    rfl
  · refine ⟨rfl, rfl, rfl, rfl,
      ⟨Nat.zero_le _, rfl, ?_, hshown.lt, ⟨Nat.zero_le _, ?_⟩, ?_⟩, hshown⟩
    · exact fun k hk => absurd hk (Nat.not_lt_zero k)
    · exact fun k hk => absurd hk (Nat.not_lt_zero k)
    · exact fun b hb => absurd hb List.not_mem_nil

/-- A line that has been run. -/
theorem Shown.next (text : List Word) (h : Shown s₀ v.screen (typeText text p))
    (hpanic : v.panicstr.isSome = S.panicked) (hlines : v.lines = S.lines + 1) :
    ∃ o, Kern.waitLine S.caller.tf S.caller.dead v = .ok o ∧
      (S.next text).1.Describes s₀ (typeText (S.next text).2 p) o := by
  obtain ⟨o, hwait, hdescribes⟩ := h.waitLine S.caller
  rw [hpanic, hlines, ← typeText_append] at hdescribes
  exact ⟨o, hwait, hdescribes⟩

theorem monitorCalls_prints (tf : Option FrameArg) :
    ∃ texts, List.Forall₂ Call.Prints (monitorCalls tf) texts ∧ texts.flatten = bannerText tf := by
  have hwelcome : List.Forall₂ Call.Says
      [⟨bytes "Welcome to the JOS kernel monitor!\n", []⟩,
        ⟨bytes "Type 'help' for a list of commands.\n", []⟩]
      [[.text "Welcome to the JOS kernel monitor!\n"],
        [.text "Type 'help' for a list of commands.\n"]] :=
    .cons (Call.says_text _ (by decide) rfl rfl)
      (.cons (Call.says_text _ (by decide) rfl rfl) .nil)
  cases tf with
  | none =>
    refine ⟨_, List.rel_append (forall₂_prints hwelcome) .nil, ?_⟩
    rw [bannerText, messagesText, List.flatMap_def]
    rfl
  | some f =>
    refine ⟨_, List.rel_append (forall₂_prints hwelcome)
      (printTrapframe_prints f.addr f.frame f.tfEsp f.tfSs), ?_⟩
    rw [List.flatten_append, flatten_map_append, bannerText, messagesText, List.flatMap_def]
    rfl

/-- A monitor starts with its banner. -/
theorem Shown.enterMonitor (h : Shown s₀ v.screen p) (caller : Caller) :
    ∃ o, Kern.enterMonitor caller.tf caller.dead v = .ok o ∧
      (Progress.waits ⟨caller, v.panicstr.isSome, v.lines, []⟩).Describes s₀
        (typeText (bannerText caller.tf ++ promptText) p) o := by
  obtain ⟨texts, htexts, hflat⟩ := monitorCalls_prints caller.tf
  obtain ⟨screen, hprint, hshown⟩ := h.printTexts htexts
  rw [hflat] at hshown
  obtain ⟨o, hwait, hdescribes⟩ :=
    Shown.waitLine (v := { v with screen := screen }) hshown caller
  rw [← typeText_append] at hdescribes
  refine ⟨o, ?_, hdescribes⟩
  rw [Kern.enterMonitor, hprint]
  exact hwait

theorem panicCalls_prints (panicstr : Option (List (BitVec 8))) (c : PanicCall) :
    ∃ texts, List.Forall₂ Call.Prints (panicCalls panicstr c) texts ∧
      texts.flatten = panicText panicstr.isSome c := by
  cases panicstr with
  | none => exact ⟨_, forall₂_prints (says_panic c), (List.flatMap_def ..).symm⟩
  | some _ => exact ⟨[], .nil, rfl⟩

/-- A panic types its message, unless there has been one. -/
theorem Shown.enterPanic (h : Shown s₀ v.screen p) (c : PanicCall) :
    ∃ o, Kern.enterPanic c v = .ok o ∧
      (Session.panic c v.panicstr.isSome v.lines).1.Describes s₀
        (typeText (Session.panic c v.panicstr.isSome v.lines).2 p) o := by
  obtain ⟨texts, htexts, hflat⟩ := panicCalls_prints v.panicstr c
  obtain ⟨screen, hprint, hshown⟩ := h.printTexts htexts
  rw [hflat] at hshown
  obtain ⟨o, henter, hdescribes⟩ := Shown.enterMonitor
    (v := { v with screen := screen, panicstr := some (v.panicstr.getD (bytes c.fmt)) })
    hshown .panic
  rw [← typeText_append] at hdescribes
  refine ⟨o, ?_, hdescribes⟩
  rw [Kern.enterPanic, hprint]
  exact henter

/-! ### Running a line -/

/-- The buffer starts with the line and its NUL. -/
theorem IsString.bufBytes_eq {buf : ℤ → BitVec 8} (h : IsString buf l) (hlen : l.length ≤ 1023) :
    ∃ rest, bufBytes buf = l ++ 0#8 :: rest := by
  have hlength : (bufBytes buf).length = 1024 := by
    rw [bufBytes, List.length_map, List.length_range]
    rfl
  have hget (i : ℕ) (hi : i < (bufBytes buf).length) : (bufBytes buf)[i] = buf i := by
    simp [bufBytes]
  refine ⟨(bufBytes buf).drop (l.length + 1), ?_⟩
  have htake : (bufBytes buf).take l.length = l := by
    refine List.ext_getElem (by rw [List.length_take]; omega) fun i hi hi' => ?_
    rw [List.getElem_take, hget, h.char i hi']
  have hdrop : (bufBytes buf).drop l.length = 0#8 :: (bufBytes buf).drop (l.length + 1) := by
    rw [List.drop_eq_getElem_cons (by omega), hget, h.nul]
  rw [← hdrop]
  nth_rewrite 1 [← List.take_append_drop l.length (bufBytes buf)]
  rw [htake]

/-- What `runcmd` does for a line. -/
def LineAction.Runs (l : List (BitVec 8)) : LineAction → CmdAction → Prop
  | none, a => a = .none
  | tooMany, a => a = .cprintf (bytes "Too many arguments (max %d)\n") [.word 16#32]
  | unknown w, a => (0#8 ∉ w ∧ w.length ≤ l.length) ∧
    ∃ r, a = .cprintf (bytes "Unknown command '%s'\n") [.str (some (w ++ 0#8 :: r))]
  | call func, a => ∃ argc, a = .call func argc

theorem runcmd_action (rest : List (BitVec 8)) (argv : ℕ → Option ℕ) (hnul : 0#8 ∉ l) :
    ∃ res, runcmd (l ++ 0#8 :: rest) argv = .ok res ∧ (lineAction l).Runs l res.action := by
  by_cases hroom : (runs isBlank l).length < maxargs
  · rw [runcmd_of_lt hnul hroom, lineAction, if_neg (Nat.not_le.mpr hroom)]
    cases hruns : runs isBlank l with
    | nil => exact ⟨_, if_pos rfl, rfl⟩
    | cons run rs =>
      obtain ⟨q, w⟩ := run
      have hfirst : (runs isBlank l)[0]? = some (q, w) := by rw [hruns]; rfl
      have hmem := List.mem_of_getElem? hfirst
      have hstr : NulTerminated (cleared l ++ 0#8 :: rest) q w := nulTerminated_of_mem hnul hmem
      obtain ⟨action, hinvoke, hcall, hunknown⟩ := invoke_eq
        ⟨rs.length + 1, argsOf argv l, l.length, cleared l ++ 0#8 :: rest⟩ (Nat.succ_ne_zero _)
        (argsOf_get hfirst) hstr
      refine ⟨_, hinvoke, ?_⟩
      dsimp only
      rw [wordAction]
      -- the search of the source is that for the first command with the name
      cases hfind : commands.find? fun c => c.name = w with
      | some c =>
        have hname : c.name = w := by simpa using List.find?_some hfind
        exact ⟨_, hcall c (List.mem_of_find?_eq_some hfind) hname⟩
      | none =>
        obtain ⟨r, hdrop⟩ := hstr.2
        obtain ⟨a, r', hsplit, -⟩ := (IsRun.of_mem hmem).maximal
        refine ⟨⟨hstr.1, ?_⟩, r, ?_⟩
        · rw [hsplit, List.length_append, List.length_append]
          omega
        · rw [hunknown fun c hc => by simpa using List.find?_eq_none.mp hfind c hc, hdrop]
  · have hfull := Nat.not_lt.mp hroom
    obtain ⟨argv', l', hrun, -⟩ := runcmd_of_le argv rest hnul hfull
    rw [lineAction, if_pos hfull]
    exact ⟨_, hrun, rfl⟩

/-- The processor has VMX: the MSRs with the fixed bits of CR0 and CR4 are there, and the values
that `vmx_on` makes with them are taken. -/
structure Kernel.HasVmx (k : Kernel) : Prop where
  msr : ∀ num ∈ [0x486#32, 0x487#32, 0x488#32, 0x489#32], ∃ v, k.msr num = some v
  cr0 : ∀ n fixed0 fixed1, k.msr 0x486#32 = some fixed0 → k.msr 0x487#32 = some fixed1 →
    k.cr0Ok ((k.moment n).cr0 &&& fixed1 ||| fixed0) = true
  cr4 : ∀ n fixed0 fixed1, k.msr 0x488#32 = some fixed0 → k.msr 0x489#32 = some fixed1 →
    k.cr4Ok ((k.moment n).cr4 &&& fixed1 ||| fixed0) = true

/-- On such a processor `vmx_on` comes to its panic. -/
theorem Kernel.HasVmx.applyFixedBits (h : k.HasVmx) (n : ℕ) :
    Kern.applyFixedBits k (k.moment n).cr0 (k.moment n).cr4 = .ok () := by
  have hmsr := h.msr
  simp only [List.forall_mem_cons] at hmsr
  obtain ⟨⟨cr00, h00⟩, ⟨cr01, h01⟩, ⟨cr40, h40⟩, ⟨cr41, h41⟩, -⟩ := hmsr
  rw [Kern.applyFixedBits]
  simp only [asmRdmsr, h00, h01, h40, h41, ok_bind, asmWrcr0, asmWrcr4]
  rw [if_pos (h.cr0 n cr00 cr01 h00 h01), if_pos (h.cr4 n cr40 cr41 h40 h41)]
  rfl

/-- The debug tables are strings and not empty, every stack that `backtrace` looks at is a chain
of frames with return addresses that can be looked up, and the processor has VMX. -/
structure Kernel.Sound (k : Kernel) : Prop where
  stabs : k.tables.stabs ≠ []
  stabstr : k.tables.stabstr.getLast? = some 0#8
  length : k.tables.stabstr.length < 2 ^ 31 - 1
  stack : ∀ n, ∃ frames,
    Chain (k.moment n).stack.load 0#32 (k.moment n).ebp frames ∧
      ∀ a ∈ frames, Traceable k.tables ((k.moment n).stack.load (a + 4#32))
  vmx : k.HasVmx

theorem length_chain_le {next : Word → Word} {null a : Word} {frames : List Word}
    (h : Chain next null a frames) : frames.length ≤ 2 ^ 32 := by
  have hnodup : (frames.map BitVec.toFin).Nodup :=
    h.nodup.map fun _ _ heq => BitVec.eq_of_toFin_eq heq
  have hcard := hnodup.length_le_card
  rwa [List.length_map, Fintype.card_fin] at hcard

/-- What a command does that does not end in a panic and does not leave the monitor. -/
theorem Shown.runFunc (h : Shown s₀ v.screen p) (hk : k.Sound) (n : ℕ) (tf : Option FrameArg)
    {func : MonitorFunc} (hexit : func ≠ .monExit) (hmatrix : func ≠ .monMatrix) :
    ∃ screen, Kern.runFunc k (k.moment n) tf v func = .ok (.ret 0, { v with screen := screen }) ∧
      Shown s₀ screen (typeText (commandText k (k.moment n) func) p) := by
  cases func with
  | monExit => exact absurd rfl hexit
  | monMatrix => exact absurd rfl hmatrix
  | monHelp =>
    obtain ⟨screen, hprint, hshown⟩ := h.printMessages says_help
    exact ⟨screen, by rw [Kern.runFunc, hprint]; rfl, hshown⟩
  | monKerninfo =>
    obtain ⟨screen, hprint, hshown⟩ := h.printMessages (says_kerninfo k)
    exact ⟨screen, by rw [Kern.runFunc, hprint]; rfl, hshown⟩
  | monCpuid =>
    obtain ⟨screen, hprint, hshown⟩ := h.printMessages (says_cpuid k (k.moment n).ecx)
    exact ⟨screen, by rw [Kern.runFunc, hprint]; rfl, hshown⟩
  | monBacktrace =>
    obtain ⟨frames, hchain, htrace⟩ := hk.stack n
    obtain ⟨screen, hend, hshown⟩ := h.backtrace hk.stabs hk.stabstr hk.length hchain htrace
    have hlen := length_chain_le hchain
    have hframes : (k.moment n).frames = frames :=
      hchain.chainFrom_eq (hlen.trans (Nat.le_succ _))
    refine ⟨screen, ?_, ?_⟩
    · rw [Kern.runFunc, hend maxFrames (Nat.lt_succ_of_le hlen)]
      rfl
    · rw [commandText, hframes]
      exact hshown

theorem says_tooMany : Call.Says ⟨bytes "Too many arguments (max %d)\n", [.word 16#32]⟩
    [.text "Too many arguments (max ", .dec (BitVec.ofNat 32 maxargs), .text ")\n"] := by
  have hplain : ∀ s ∈ ["Too many arguments (max ", ")\n"], Plain (bytes s) := by decide
  simp only [List.forall_mem_cons] at hplain
  refine ⟨?_, rfl, rfl⟩
  simp only [List.forall_mem_cons]
  exact ⟨hplain.1, trivial, hplain.2.1, fun p hp => absurd hp List.not_mem_nil⟩

theorem says_unknown {w : List (BitVec 8)} (hw : 0#8 ∉ w) (hlen : w.length < 2 ^ 31 - 1)
    (r : List (BitVec 8)) :
    Call.Says ⟨bytes "Unknown command '%s'\n", [.str (some (w ++ 0#8 :: r))]⟩
      [.text "Unknown command '", .str (w ++ 0#8 :: r), .text "'\n"] := by
  have hplain : ∀ s ∈ ["Unknown command '", "'\n"], Plain (bytes s) := by decide
  simp only [List.forall_mem_cons] at hplain
  refine ⟨?_, rfl, rfl⟩
  simp only [List.forall_mem_cons]
  exact ⟨hplain.1, ok_str hw hlen r, hplain.2.1, fun p hp => absurd hp List.not_mem_nil⟩

/-- What stands behind the word in the buffer is not typed. -/
theorem unknownText_eq {w : List (BitVec 8)} (hw : 0#8 ∉ w) (r : List (BitVec 8)) :
    messagesText [[.text "Unknown command '", .str (w ++ 0#8 :: r), .text "'\n"]] =
      unknownText w := by
  have hcut : (Piece.str (w ++ 0#8 :: r)).out = (Piece.str (w ++ [0#8])).out := by
    rw [Piece.out, Piece.out, cstr_append_nul hw, cstr_append_nul hw]
  rw [unknownText, messagesText, messagesText]
  simp only [List.flatMap_cons, List.flatMap_nil, hcut]

theorem monExit_eq (caller : Caller) :
    monExit caller.tf = if caller.AtBreakpoint then -1 else 0 := by
  cases caller <;> rfl

/-- Only a monitor that is called with a frame can be left. -/
theorem Caller.AtBreakpoint.not_dead {caller : Caller} (h : caller.AtBreakpoint) :
    caller.dead = false := by
  cases caller with
  | panic => exact h.elim
  | null => rfl
  | frame f => rfl

/-- **A line is run as the session says.** -/
theorem Shown.runLine (h : Shown s₀ v.screen p) (hk : k.Sound) (hstr : IsString v.buf S.line)
    (hlen : S.line.length ≤ 1023) (hpanic : v.panicstr.isSome = S.panicked)
    (hlines : v.lines = S.lines) :
    ∃ o, Kern.runLine k S.caller.tf S.caller.dead v = .ok o ∧
      (S.runLine k).1.Describes s₀ (typeText (S.runLine k).2 p) o := by
  have hnul : 0#8 ∉ S.line := fun hmem => hstr.nonzero _ hmem rfl
  obtain ⟨rest, hbuf⟩ := hstr.bufBytes_eq hlen
  obtain ⟨res, hrun, haction⟩ := runcmd_action rest (k.moment v.lines).argv hnul
  -- after `runcmd` the line has been counted and the buffer holds what it has left there
  obtain ⟨v₁, hv₁, hscreen, hpanic₁, hlines₁⟩ : ∃ v₁ : KernelVars,
      v₁ = { v with buf := bufOf res.mem v.buf, lines := v.lines + 1 } ∧
        v₁.screen = v.screen ∧ v₁.panicstr.isSome = S.panicked ∧ v₁.lines = S.lines + 1 :=
    ⟨_, rfl, rfl, hpanic, congrArg (· + 1) hlines⟩
  rw [← hscreen] at h
  rw [Kern.runLine]
  simp only [hbuf, hrun, Except.mapError, ok_bind, ← hv₁]
  rw [Session.runLine]
  cases hline : lineAction S.line with
  | none =>
    rw [hline] at haction
    rw [haction]
    exact Shown.next [] h hpanic₁ hlines₁
  | tooMany =>
    rw [hline] at haction
    rw [haction]
    obtain ⟨screen, hprint, hshown⟩ := h.printMessages (.cons says_tooMany .nil)
    simp only [hprint, ok_bind]
    exact Shown.next _ (v := { v₁ with screen := screen }) hshown hpanic₁ hlines₁
  | unknown w =>
    rw [hline] at haction
    obtain ⟨⟨hw, hwlen⟩, r, haction⟩ := haction
    rw [haction]
    obtain ⟨screen, hprint, hshown⟩ :=
      h.printMessages (.cons (says_unknown hw (by omega) r) .nil)
    rw [unknownText_eq hw] at hshown
    simp only [hprint, ok_bind]
    exact Shown.next _ (v := { v₁ with screen := screen }) hshown hpanic₁ hlines₁
  | call func =>
    rw [hline] at haction
    obtain ⟨argc, haction⟩ := haction
    rw [haction, hlines]
    dsimp only
    have hret (func : MonitorFunc) (hexit : func ≠ .monExit) (hmatrix : func ≠ .monMatrix) :
        ∃ o, (Kern.runFunc k (k.moment S.lines) S.caller.tf v₁ func >>=
            fun r => commandDone S.caller.tf S.caller.dead r.2 r.1) = .ok o ∧
          (S.next (commandText k (k.moment S.lines) func)).1.Describes s₀
            (typeText (S.next (commandText k (k.moment S.lines) func)).2 p) o := by
      obtain ⟨screen, hfunc, hshown⟩ := h.runFunc hk S.lines S.caller.tf hexit hmatrix
      rw [hfunc]
      exact Shown.next _ (v := { v₁ with screen := screen }) hshown hpanic₁ hlines₁
    cases func with
    | monHelp => exact hret _ (by decide) (by decide)
    | monKerninfo => exact hret _ (by decide) (by decide)
    | monBacktrace => exact hret _ (by decide) (by decide)
    | monCpuid => exact hret _ (by decide) (by decide)
    | monMatrix =>
      obtain ⟨o, henter, hdescribes⟩ := h.enterPanic vmxOn
      rw [hpanic₁, hlines₁] at hdescribes
      refine ⟨o, ?_, hdescribes⟩
      rw [Kern.runFunc, hk.vmx.applyFixedBits]
      exact henter
    | monExit =>
      have hexit : Kern.runFunc k (k.moment S.lines) S.caller.tf v₁ .monExit =
          .ok (.ret (if S.caller.AtBreakpoint then -1 else 0), v₁) := by
        rw [Kern.runFunc, monExit_eq]
      rw [hexit, ok_bind]
      dsimp only
      rw [commandDone]
      by_cases hat : S.caller.AtBreakpoint
      · simp only [if_pos hat, hat.not_dead]
        exact ⟨_, rfl, h⟩
      · simp only [if_neg hat]
        exact Shown.next [] h hpanic₁ hlines₁

/-! ### A character -/

variable {c : Word} {st st' : LineState} {s : MonitorState}

/-- A character that is put on the screen is typed. -/
theorem Shown.typed (h : Shown s₀ st.screen p) {screen : Screen}
    (hput : cgaPutc c st.screen = .ok screen) : Shown s₀ screen (typeText [c] p) := by
  obtain ⟨s', hput', hshown⟩ := h.putc c
  rw [hput', Except.ok.injEq] at hput
  exact hput ▸ hshown

/-- A character of the console is a small number. -/
theorem toNat_ofUchar {b : BitVec 8} (hb : b ≠ 0#8) :
    1 ≤ (ofUchar b).toNat ∧ (ofUchar b).toNat ≤ 255 := by
  rw [ofUchar]
  constructor <;> bv_omega

/-- **A character does to the monitor what it does to the session.** -/
theorem monitorChar_step (hk : k.Sound) (h : S.Describes s₀ p s) {b : BitVec 8} (hb : b ≠ 0#8) :
    ∃ o, monitorChar k b s = .ok o ∧
      (S.step k (ofUchar b)).1.Describes s₀ (typeText (S.step k (ofUchar b)).2 p) o := by
  have hc := toNat_ofUchar hb
  have hi := h.line.i
  rw [monitorChar, show iscons 0 = true from rfl, Session.step]
  by_cases hend : EndsLine (ofUchar b)
  · -- the line is finished and run
    obtain ⟨buf, screen, hround, hstr⟩ := h.line.finish hend
    obtain ⟨o, hrun, hdescribes⟩ := Shown.runLine (v := ⟨s.panicstr, buf, screen, s.lines⟩)
      (h.shown.typed (readlineRound_line hround)) hk hstr h.line.len h.panicked h.lines
    rw [← typeText_append, List.singleton_append] at hdescribes
    rw [if_pos hend, hround, h.tf, h.dead]
    refine ⟨o, ?_, hdescribes⟩
    simp only [Except.mapError, ok_bind]
    exact hrun
  · obtain ⟨st', hround, hline⟩ := h.line.round hc hend
    -- the conditions of the round are those of the session
    have hint : (ofUchar b).toInt = (ofUchar b).toNat := BitVec.toInt_eq_toNat_of_lt (by omega)
    have hecho : s.line.Echoes (ofUchar b) ↔
        0x20 ≤ (ofUchar b).toNat ∧ S.line.length < 1023 ∨ ofUchar b = 0x08#32 ∧ S.line ≠ [] := by
      rw [LineState.Echoes, hint, hi, buflen]
      refine or_congr (and_congr (by omega) (by omega)) (and_congr_right fun _ => ?_)
      rw [← List.length_pos_iff]
      omega
    rw [if_neg hend, hround]
    refine ⟨_, rfl, h.tf, h.dead, h.panicked, h.lines, hline, ?_⟩
    rw [echoText]
    rcases readlineRound_wait hround with ⟨hechoes, hput⟩ | ⟨hquiet, rfl⟩
    · rw [if_pos (hecho.mp hechoes)]
      exact h.shown.typed hput
    · rw [if_neg (mt hecho.mpr hquiet)]
      exact h.shown

/-- **The monitor does what the session does**, whatever is typed. -/
theorem feed_progress (hk : k.Sound) {P : Progress} {o : MonitorOutcome} (h : P.Describes s₀ p o)
    {cs : List (BitVec 8)} (hcs : 0#8 ∉ cs) :
    ∃ o', feed k cs o = .ok (o', (P.feed k cs).2.2) ∧
      (P.feed k cs).1.Describes s₀ (typeText (P.feed k cs).2.1 p) o' := by
  induction cs generalizing p P o with
  | nil =>
    cases P with
    | waits S =>
      cases o with
      | waits s => exact ⟨_, rfl, h⟩
      | returns v => exact h.elim
    | returns =>
      cases o with
      | waits s => exact h.elim
      | returns v => exact ⟨_, rfl, h⟩
  | cons b cs ih =>
    cases P with
    | waits S =>
      cases o with
      | waits s =>
        rw [List.mem_cons, not_or] at hcs
        obtain ⟨o₁, hchar, h₁⟩ := monitorChar_step hk h (Ne.symm hcs.1)
        obtain ⟨o', hfeed, h'⟩ := ih h₁ hcs.2
        rw [← typeText_append] at h'
        refine ⟨o', ?_, h'⟩
        rw [feed, hchar, ok_bind]
        exact hfeed
      | returns v => exact h.elim
    | returns =>
      cases o with
      | waits s => exact h.elim
      | returns v => exact ⟨_, rfl, h⟩

/-! ### How a session ends -/

/-- The lines that are finished in an input, behind the start of a line, and the line that is
left. -/
def typedLines : List (BitVec 8) → List (BitVec 8) → List (List (BitVec 8)) × List (BitVec 8)
  | l, [] => ([], l)
  | l, c :: cs =>
    if EndsLine (ofUchar c) then
      let r := typedLines [] cs
      (l :: r.1, r.2)
    else typedLines (editStep l (ofUchar c)) cs

/-- The line does not change who has called the monitor. -/
def Quiet (l : List (BitVec 8)) : Prop :=
  lineAction l ≠ .call .monExit ∧ lineAction l ≠ .call .monMatrix

/-- The characters up to `rest` finish quiet lines and then an `exit`. -/
def Exits (l cs rest : List (BitVec 8)) : Prop :=
  ∃ pre c, cs = pre ++ c :: rest ∧ EndsLine (ofUchar c) ∧
    (∀ l' ∈ (typedLines l pre).1, Quiet l') ∧ lineAction (typedLines l pre).2 = .call .monExit

variable {rest : List (BitVec 8)} {b : BitVec 8} {bs : List (BitVec 8)}

theorem not_exits_nil : ¬ Exits l [] rest := by
  rintro ⟨pre, c, hsplit, -⟩
  exact absurd hsplit (by simp)

/-- The first character is the end of the line, or the rest of the input exits. -/
theorem exits_cons_of_ends (hend : EndsLine (ofUchar b)) :
    Exits l (b :: bs) rest ↔
      lineAction l = .call .monExit ∧ bs = rest ∨ Quiet l ∧ Exits [] bs rest := by
  constructor
  · rintro ⟨pre, c, hsplit, hc, hquiet, hexit⟩
    cases pre with
    | nil =>
      obtain ⟨rfl, rfl⟩ := List.cons.inj hsplit
      exact .inl ⟨hexit, rfl⟩
    | cons b' pre =>
      obtain ⟨rfl, rfl⟩ := List.cons.inj hsplit
      rw [typedLines, if_pos hend] at hquiet hexit
      obtain ⟨hl, hquiet⟩ := List.forall_mem_cons.mp hquiet
      exact .inr ⟨hl, pre, c, rfl, hc, hquiet, hexit⟩
  · rintro (⟨hexit, rfl⟩ | ⟨hl, pre, c, rfl, hc, hquiet, hexit⟩)
    · exact ⟨[], b, rfl, hend, fun l' hl' => absurd hl' List.not_mem_nil, hexit⟩
    · refine ⟨b :: pre, c, rfl, hc, ?_, ?_⟩
      · rw [typedLines, if_pos hend]
        exact List.forall_mem_cons.mpr ⟨hl, hquiet⟩
      · rw [typedLines, if_pos hend]
        exact hexit

theorem exits_cons_of_not_ends (hend : ¬ EndsLine (ofUchar b)) :
    Exits l (b :: bs) rest ↔ Exits (editStep l (ofUchar b)) bs rest := by
  constructor
  · rintro ⟨pre, c, hsplit, hc, hquiet, hexit⟩
    cases pre with
    | nil =>
      obtain ⟨rfl, rfl⟩ := List.cons.inj hsplit
      exact absurd hc hend
    | cons b' pre =>
      obtain ⟨rfl, rfl⟩ := List.cons.inj hsplit
      rw [typedLines, if_neg hend] at hquiet hexit
      exact ⟨pre, c, rfl, hc, hquiet, hexit⟩
  · rintro ⟨pre, c, rfl, hc, hquiet, hexit⟩
    refine ⟨b :: pre, c, rfl, hc, ?_, ?_⟩
    · rwa [typedLines, if_neg hend]
    · rwa [typedLines, if_neg hend]

/-- What a line does to a session that it does not leave. -/
theorem Session.runLine_cases (k : Kernel) (S : Session) :
    Quiet S.line ∧ (∃ text, S.runLine k = S.next text) ∨
      lineAction S.line = .call .monMatrix ∧
        S.runLine k = Session.panic vmxOn S.panicked (S.lines + 1) ∨
      lineAction S.line = .call .monExit ∧
        S.runLine k = if S.caller.AtBreakpoint then (.returns, []) else S.next [] := by
  rw [Session.runLine, Quiet]
  cases lineAction S.line with
  | none => exact .inl ⟨⟨by decide, by decide⟩, _, rfl⟩
  | tooMany => exact .inl ⟨⟨by decide, by decide⟩, _, rfl⟩
  | unknown w => exact .inl ⟨⟨by simp, by simp⟩, _, rfl⟩
  | call func =>
    cases func with
    | monHelp => exact .inl ⟨⟨by decide, by decide⟩, _, rfl⟩
    | monKerninfo => exact .inl ⟨⟨by decide, by decide⟩, _, rfl⟩
    | monBacktrace => exact .inl ⟨⟨by decide, by decide⟩, _, rfl⟩
    | monCpuid => exact .inl ⟨⟨by decide, by decide⟩, _, rfl⟩
    | monMatrix => exact .inr (.inl ⟨rfl, rfl⟩)
    | monExit => exact .inr (.inr ⟨rfl, rfl⟩)

/-- A monitor that is not called at a breakpoint goes on as one with this caller, or in a panic. -/
theorem Session.step_waits (k : Kernel) (hat : ¬ S.caller.AtBreakpoint) (c : Word) :
    ∃ S', (S.step k c).1 = .waits S' ∧ (S'.caller = S.caller ∨ S'.caller = .panic) := by
  rw [Session.step]
  by_cases hend : EndsLine c
  · rw [if_pos hend]
    dsimp only
    rcases S.runLine_cases k with ⟨-, text, hrun⟩ | ⟨-, hrun⟩ | ⟨-, hrun⟩
    · rw [hrun]
      exact ⟨_, rfl, .inl rfl⟩
    · rw [hrun]
      exact ⟨_, rfl, .inr rfl⟩
    · rw [hrun, if_neg hat]
      exact ⟨_, rfl, .inl rfl⟩
  · rw [if_neg hend]
    exact ⟨_, rfl, .inl rfl⟩

/-- **There is no way out** of such a monitor: it waits after every input. -/
theorem feed_waits (k : Kernel) (hat : ¬ S.caller.AtBreakpoint) (bs : List (BitVec 8)) :
    ∃ S', ((Progress.waits S).feed k bs).1 = .waits S' ∧
      (S'.caller = S.caller ∨ S'.caller = .panic) ∧ ((Progress.waits S).feed k bs).2.2 = [] := by
  induction bs generalizing S with
  | nil => exact ⟨S, rfl, .inl rfl, rfl⟩
  | cons b bs ih =>
    obtain ⟨S₁, hstep, hcaller⟩ := Session.step_waits k hat (ofUchar b)
    have hat₁ : ¬ S₁.caller.AtBreakpoint := by
      rcases hcaller with heq | heq
      · rwa [heq]
      · rw [heq]
        exact id
    rw [Progress.feed]
    dsimp only
    rw [hstep]
    obtain ⟨S', hwaits, hcaller', hrest⟩ := ih hat₁
    refine ⟨S', hwaits, ?_, hrest⟩
    rcases hcaller' with heq | heq
    · exact heq ▸ hcaller
    · exact .inr heq

/-- **The way out of a monitor** that is called at a breakpoint. -/
theorem feed_returns_iff (k : Kernel) (hat : S.caller.AtBreakpoint) (bs rest : List (BitVec 8)) :
    ((Progress.waits S).feed k bs).1 = .returns ∧ ((Progress.waits S).feed k bs).2.2 = rest ↔
      Exits S.line bs rest := by
  induction bs generalizing S with
  | nil =>
    refine iff_of_false ?_ not_exits_nil
    rintro ⟨hret, -⟩
    exact absurd hret (by simp [Progress.feed])
  | cons b bs ih =>
    rw [Progress.feed]
    dsimp only
    rw [Session.step]
    by_cases hend : EndsLine (ofUchar b)
    · rw [if_pos hend, exits_cons_of_ends hend]
      dsimp only
      rcases S.runLine_cases k with ⟨hquiet, text, hrun⟩ | ⟨hmatrix, hrun⟩ | ⟨hexit, hrun⟩
      · -- the next line has the same caller
        rw [hrun, or_iff_right fun h => hquiet.1 h.1, and_iff_right hquiet]
        exact ih hat
      · -- a panic is not left
        obtain ⟨S', hwaits, -, -⟩ := feed_waits (S := ⟨.panic, true, S.lines + 1, []⟩) k id bs
        have hfalse : ¬ (lineAction S.line = .call .monExit ∧ bs = rest ∨
            Quiet S.line ∧ Exits [] bs rest) := by
          rintro (⟨hexit, -⟩ | ⟨hquiet, -⟩)
          · rw [hmatrix] at hexit
            exact absurd hexit (by decide)
          · exact hquiet.2 hmatrix
        rw [hrun]
        refine iff_of_false (fun h => ?_) hfalse
        have hret := hwaits.symm.trans h.1
        exact absurd hret (by simp)
      · rw [hrun, if_pos hat, or_iff_left fun h => h.1.1 hexit, and_iff_right hexit]
        dsimp only
        rw [Progress.feed]
        exact and_iff_right rfl
    · rw [if_neg hend, exits_cons_of_not_ends hend]
      exact ih (S := { S with line := editStep S.line (ofUchar b) }) hat

/-! ### The functions of the source -/

/-- Who calls a monitor that is not called by `_panic`. -/
def callerOf : Option FrameArg → Caller
  | none => .null
  | some f => .frame f

theorem tf_callerOf (tf : Option FrameArg) : (callerOf tf).tf = tf := by cases tf <;> rfl

theorem dead_callerOf (tf : Option FrameArg) : (callerOf tf).dead = false := by cases tf <;> rfl

/-- The progress of a monitor from its start. -/
def sessionOf (k : Kernel) (tf : Option FrameArg) (cs : List (BitVec 8)) (v : KernelVars) :
    Progress × List Word × List (BitVec 8) :=
  (Progress.waits ⟨callerOf tf, v.panicstr.isSome, v.lines, []⟩).feed k cs

/-- The progress of the monitor in a panic. -/
def panicSession (k : Kernel) (cs : List (BitVec 8)) (lines : ℕ) :
    Progress × List Word × List (BitVec 8) :=
  (Progress.waits ⟨.panic, true, lines, []⟩).feed k cs

/-- A monitor in a panic stays in it. -/
theorem feed_panic (k : Kernel) (n : ℕ) (bs : List (BitVec 8)) :
    ∃ S, (panicSession k bs n).1 = .waits S ∧ S.caller = .panic ∧
      (panicSession k bs n).2.2 = [] := by
  obtain ⟨S, hwaits, hcaller, hrest⟩ := feed_waits (S := ⟨.panic, true, n, []⟩) k id bs
  exact ⟨S, hwaits, hcaller.elim id id, hrest⟩

theorem Shown.monitor (h : Shown s₀ v.screen p) (hk : k.Sound) (tf : Option FrameArg)
    (hbs : 0#8 ∉ bs) :
    ∃ o, Kern.monitor k tf bs v = .ok (o, (sessionOf k tf bs v).2.2) ∧
      (sessionOf k tf bs v).1.Describes s₀
        (typeText (bannerText tf ++ promptText ++ (sessionOf k tf bs v).2.1) p) o := by
  obtain ⟨o₁, henter, h₁⟩ := h.enterMonitor (callerOf tf)
  rw [tf_callerOf, dead_callerOf] at henter
  rw [tf_callerOf] at h₁
  obtain ⟨o, hfeed, hdescribes⟩ := feed_progress hk h₁ hbs
  rw [← typeText_append] at hdescribes
  refine ⟨o, ?_, hdescribes⟩
  rw [Kern.monitor, henter, ok_bind]
  exact hfeed

theorem Shown.kernelPanic (h : Shown s₀ v.screen p) (hk : k.Sound) (c : PanicCall)
    (hbs : 0#8 ∉ bs) :
    ∃ s, Kern.kernelPanic k c bs v = .ok (.waits s, []) ∧ s.tf = none ∧ s.dead = true ∧
      Shown s₀ s.line.screen (typeText (panicText v.panicstr.isSome c ++
        (bannerText none ++ promptText) ++ (panicSession k bs v.lines).2.1) p) := by
  obtain ⟨o₁, henter, h₁⟩ := h.enterPanic c
  obtain ⟨o, hfeed, hdescribes⟩ := feed_progress hk h₁ hbs
  obtain ⟨S', hwaits, hdead, hrest⟩ := feed_panic k v.lines bs
  have hmore : (Progress.feed k bs (Session.panic c v.panicstr.isSome v.lines).1) =
      panicSession k bs v.lines := rfl
  rw [hmore, hwaits, ← typeText_append] at hdescribes
  rw [hmore, hrest] at hfeed
  cases o with
  | returns v' => exact hdescribes.elim
  | waits s =>
    refine ⟨s, ?_, ?_, ?_, hdescribes.shown⟩
    · rw [Kern.kernelPanic, henter, ok_bind]
      exact hfeed
    · rw [hdescribes.tf, hdead, Caller.tf]
    · rw [hdescribes.dead, hdead, Caller.dead]

/-- A kernel with one source file, in which the stack is always one frame, on a processor with
VMX. -/
def oneFileKernel : Kernel where
  start := 0xF010000C#32
  etext := 0xF0102000#32
  edata := 0xF0110000#32
  endSym := 0xF0111000#32
  cpu := fun _ _ => ⟨1#32, 2#32, 3#32, 4#32⟩
  msr := fun num =>
    if num = 0x486#32 then some 0x80000021#32 else if num = 0x487#32 then some 0xFFFFFFFF#32
    else if num = 0x488#32 then some 0x2000#32 else if num = 0x489#32 then some 0x27FF#32
    else none
  cr0Ok := fun v => v &&& 0x80000001#32 = 0x80000001#32
  cr4Ok := fun v => v &&& ~~~0x27FF#32 = 0#32
  tables := oneFile
  moment := fun _ => ⟨fun _ => none, 0#32, 0xF010FFB8#32, oneFrame, 0x80050033#32, 0#32⟩

theorem oneFileKernel_hasVmx : oneFileKernel.HasVmx where
  msr := by
    simp only [List.forall_mem_cons]
    exact ⟨⟨_, rfl⟩, ⟨_, rfl⟩, ⟨_, rfl⟩, ⟨_, rfl⟩, fun _ h => absurd h List.not_mem_nil⟩
  cr0 := by
    intro n fixed0 fixed1 h0 h1
    have h0' : oneFileKernel.msr 0x486#32 = some 0x80000021#32 := rfl
    have h1' : oneFileKernel.msr 0x487#32 = some 0xFFFFFFFF#32 := rfl
    have hpaging : (0x80050033#32 &&& 0xFFFFFFFF#32 ||| 0x80000021#32) &&& 0x80000001#32 =
        0x80000001#32 := by decide
    rw [h0', Option.some.injEq] at h0
    rw [h1', Option.some.injEq] at h1
    subst h0 h1
    exact decide_eq_true hpaging
  cr4 := by
    intro n fixed0 fixed1 h0 h1
    have h0' : oneFileKernel.msr 0x488#32 = some 0x2000#32 := rfl
    have h1' : oneFileKernel.msr 0x489#32 = some 0x27FF#32 := rfl
    have hreserved : (0#32 &&& 0x27FF#32 ||| 0x2000#32) &&& ~~~0x27FF#32 = 0#32 := by decide
    rw [h0', Option.some.injEq] at h0
    rw [h1', Option.some.injEq] at h1
    subst h0 h1
    exact decide_eq_true hreserved

theorem oneFileKernel_sound : oneFileKernel.Sound where
  stabs := by decide
  stabstr := by decide
  length := by decide
  stack := by
    have hnext : oneFrame.load 0xF010FFB8#32 = 0#32 := by decide
    have hchain : Chain oneFrame.load 0#32 0xF010FFB8#32 [0xF010FFB8#32] :=
      .cons (by decide) (hnext.symm ▸ .nil)
    have hlookup : ∃ r, debuginfoEip oneFile (oneFrame.load (0xF010FFB8#32 + 4#32)) = .ok r :=
      ⟨_, rfl⟩
    obtain ⟨r, hlookup⟩ := hlookup
    refine fun _ => ⟨_, hchain, fun a ha => ?_⟩
    obtain rfl := List.mem_singleton.mp ha
    exact traceable_of_lookup (by decide) (by decide) hlookup
  vmx := oneFileKernel_hasVmx

/-- The kernel before its first panic, at the last cell of the screen. -/
def startVars : KernelVars := ⟨none, fun _ => 0#8, ⟨fun _ => blankCell, 1999#16, 0#8, 0#8⟩, 0⟩

/-- **All that happens in the monitor.** On every screen, with every argument and whatever is typed,
`monitor` prints its banner and then does what the session does: the screen is the terminal on which
the text of the session has been typed, and the line in the buffer is that of the session. -/
theorem monitor_session (k : Kernel) (hk : k.Sound) (tf : Option FrameArg) (bs : List (BitVec 8))
    (hbs : 0#8 ∉ bs) (v : KernelVars) (hpos : v.screen.crtPos.toNat < crtSize) :
    ∃ o, monitor k tf bs v = .ok (o, (sessionOf k tf bs v).2.2) ∧
      (sessionOf k tf bs v).1.Describes v.screen
        (typeText (bannerText tf ++ promptText ++ (sessionOf k tf bs v).2.1) v.screen.paper) o :=
  (Screen.shown_paper hpos).monitor hk tf hbs

theorem monitor_session_kerninfo :
    ∃ o, monitor oneFileKernel none (bytes "kerninfo\n") startVars =
        .ok (o, (sessionOf oneFileKernel none (bytes "kerninfo\n") startVars).2.2) ∧
      (sessionOf oneFileKernel none (bytes "kerninfo\n") startVars).1.Describes startVars.screen
        (typeText (bannerText none ++ promptText ++
          (sessionOf oneFileKernel none (bytes "kerninfo\n") startVars).2.1) startVars.screen.paper)
        o :=
  monitor_session oneFileKernel oneFileKernel_sound none (bytes "kerninfo\n") (by decide) startVars
    (by decide)

/-- **Nothing is run after a panic.** Whatever is typed, the kernel waits in a monitor without a
frame. The message is typed if there has been no panic before. -/
theorem panic_waits (k : Kernel) (hk : k.Sound) (c : PanicCall) (bs : List (BitVec 8))
    (hbs : 0#8 ∉ bs) (v : KernelVars) (hpos : v.screen.crtPos.toNat < crtSize) :
    ∃ s, kernelPanic k c bs v = .ok (.waits s, []) ∧ s.tf = none ∧ s.dead = true ∧
      Shown v.screen s.line.screen (typeText (panicText v.panicstr.isSome c ++
        (bannerText none ++ promptText) ++ (panicSession k bs v.lines).2.1) v.screen.paper) :=
  (Screen.shown_paper hpos).kernelPanic hk c hbs

/-- Another panic and an `exit` in the monitor. -/
theorem panic_waits_exit :
    ∃ s,
      kernelPanic oneFileKernel hasVmx (bytes "matrix\nexit\n") startVars = .ok (.waits s, []) ∧
      s.tf = none ∧ s.dead = true ∧
      Shown startVars.screen s.line.screen (typeText (panicText false hasVmx ++
        (bannerText none ++ promptText) ++
        (panicSession oneFileKernel (bytes "matrix\nexit\n") 0).2.1) startVars.screen.paper) :=
  panic_waits oneFileKernel oneFileKernel_sound hasVmx (bytes "matrix\nexit\n") (by decide)
    startVars (by decide)

/-- **The only way back to the interrupted program.** `trap` returns exactly for a breakpoint, when
the first line that names `exit` or `matrix` names `exit`, and then it leaves the characters behind
that line. -/
theorem trap_returns_iff (k : Kernel) (hk : k.Sound) (f : FrameArg) (bs rest : List (BitVec 8))
    (hbs : 0#8 ∉ bs) (v : KernelVars) (hpos : v.screen.crtPos.toNat < crtSize) :
    (∃ v', trap k f bs v = .ok (.returns v', rest)) ↔
      f.frame.tfTrapno = tBrkpt ∧ Exits [] bs rest := by
  have hshown := Screen.shown_paper hpos
  rw [trap]
  by_cases hbrkpt : f.frame.tfTrapno = tBrkpt
  · rw [if_pos hbrkpt, and_iff_right hbrkpt]
    obtain ⟨o, hrun, hdescribes⟩ := hshown.monitor hk (some f) hbs
    -- the call has returned exactly if the session has, and with the same characters
    rw [hrun, ← feed_returns_iff (S := ⟨.frame f, v.panicstr.isSome, v.lines, []⟩) k hbrkpt bs rest]
    change _ ↔ (sessionOf k (some f) bs v).1 = .returns ∧ (sessionOf k (some f) bs v).2.2 = rest
    cases hend : (sessionOf k (some f) bs v).1 with
    | waits S =>
      rw [hend] at hdescribes
      cases o with
      | waits s => simp
      | returns v' => exact hdescribes.elim
    | returns =>
      rw [hend] at hdescribes
      cases o with
      | waits s => exact hdescribes.elim
      | returns v' => simp
  · rw [if_neg hbrkpt]
    refine iff_of_false ?_ fun h => hbrkpt h.1
    rintro ⟨v', hret⟩
    -- the panic does not return
    obtain ⟨screen, hprint, h₁⟩ :=
      hshown.printTexts (v := v) (printTrapframe_prints f.addr f.frame f.tfEsp f.tfSs)
    obtain ⟨s, hpanic, -⟩ := Shown.kernelPanic (v := { v with screen := screen }) h₁ hk
      (unhandledTrap f.frame.tfCs) hbs
    rw [hprint, ok_bind, hpanic] at hret
    exact absurd hret (by simp)

/-- A breakpoint that is left, with a character behind the line. -/
theorem trap_returns_iff_breakpoint :
    ∃ v', trap oneFileKernel ⟨0xF010FF80#32, breakpointFrame, 0#32, 0#16⟩ (bytes "exit\nx")
      startVars = .ok (.returns v', bytes "x") := by
  have hlines : typedLines [] (bytes "exit") = ([], bytes "exit") := rfl
  have hexits : Exits [] (bytes "exit\nx") (bytes "x") := by
    refine ⟨bytes "exit", chr '\n', rfl, .inl rfl, ?_, ?_⟩
    · rw [hlines]
      exact fun l hl => absurd hl List.not_mem_nil
    · rw [hlines]
      decide
  exact (trap_returns_iff oneFileKernel oneFileKernel_sound
    ⟨0xF010FF80#32, breakpointFrame, 0#32, 0#16⟩ (bytes "exit\nx") (bytes "x") (by decide)
    startVars (by decide)).mpr ⟨rfl, hexits⟩

end JosVmx.Kern
