import JosVmx.Kern.Printfmt
import JosVmx.Lib.Words

/-!
# The command line of the monitor

`runcmd` of `kern/monitor.c` cuts a line into words and calls the command that the first word
names. It works in the buffer of the line: a word gets its NUL when the blanks behind it are
skipped, in the next round.

The buffer is the bytes that may be accessed from its start on, and a pointer into it is a
position. What `argv` held before is arbitrary.

## Main definitions

* `runcmd` — the function of the source

## Main results

* `parseLoop_words`, `parseLoop_tooMany` — the loop, on a line with few or with many words
* `runcmd_words` — what is called, with which arguments, and what is written
-/

namespace JosVmx.Kern

open Lib

/-! ### The functions of the source -/

/-- What goes wrong when a command is run. -/
inductive MonitorFault
  /-- a byte outside the buffer -/
  | buf (i : ℕ)
  /-- a byte behind those of a string -/
  | str
  /-- an entry outside `argv` -/
  | argv (i : ℕ)
  /-- a null pointer -/
  | null
  /-- a loop that goes on -/
  | diverge
  deriving DecidableEq, Repr

/-- `strchr`: the string from the character on, or null. -/
def strchr (c : BitVec 8) : List (BitVec 8) → Except MonitorFault (Option (List (BitVec 8)))
  | [] => .error .str
  | b :: s =>
    if b = 0#8 then .ok none else if b = c then .ok (some (b :: s)) else strchr c s

/-- `strcmp`. -/
def strcmp : List (BitVec 8) → List (BitVec 8) → Except MonitorFault Word
  | b :: p, d :: q =>
    if b ≠ 0#8 ∧ b = d then strcmp p q else .ok (ofUchar b - ofUchar d)
  | _, _ => .error .str

/-- `WHITESPACE`. -/
def whitespace : List (BitVec 8) := bytes "\t\r\n " ++ [0#8]

/-- `MAXARGS`. -/
def maxargs : ℕ := 16

/-- The functions in `commands`. -/
inductive MonitorFunc
  | monHelp
  | monKerninfo
  | monBacktrace
  | monExit
  | monMatrix
  | monCpuid
  deriving DecidableEq, Repr

/-- `struct Command`, without the description that `mon_help` prints. -/
structure Command where
  name : List (BitVec 8)
  func : MonitorFunc

/-- `commands`. -/
def commands : List Command :=
  [⟨bytes "help", .monHelp⟩, ⟨bytes "kerninfo", .monKerninfo⟩,
    ⟨bytes "backtrace", .monBacktrace⟩, ⟨bytes "exit", .monExit⟩, ⟨bytes "matrix", .monMatrix⟩,
    ⟨bytes "cpuid", .monCpuid⟩]

/-- The variables of `runcmd`, with the memory that `buf` points into. -/
structure ArgState where
  argc : ℕ
  argv : ℕ → Option ℕ
  buf : ℕ
  mem : List (BitVec 8)

/-- `*buf`. -/
def ArgState.read (s : ArgState) : Except MonitorFault (BitVec 8) :=
  match s.mem[s.buf]? with
  | some c => .ok c
  | none => .error (.buf s.buf)

/-- `*buf++ = 0`. -/
def ArgState.clear (s : ArgState) : Except MonitorFault ArgState :=
  if s.buf < s.mem.length then .ok { s with mem := s.mem.set s.buf 0#8, buf := s.buf + 1 }
  else .error (.buf s.buf)

/-- `argv[argc] = p`. -/
def ArgState.setArg (s : ArgState) (p : Option ℕ) : Except MonitorFault ArgState :=
  if s.argc < maxargs then .ok { s with argv := Function.update s.argv s.argc p }
  else .error (.argv s.argc)

/-- A round of `while (*buf && strchr(WHITESPACE, *buf)) *buf++ = 0`. -/
def gobbleRound (s : ArgState) : Except MonitorFault (Option ArgState) := do
  let c ← s.read
  if c = 0#8 then .ok none
  else
    let found ← strchr c whitespace
    if found.isSome then
      let s ← s.clear
      .ok (some s)
    else .ok none

/-- A round of `while (*buf && !strchr(WHITESPACE, *buf)) buf++`. -/
def scanPastRound (s : ArgState) : Except MonitorFault (Option ArgState) := do
  let c ← s.read
  if c = 0#8 then .ok none
  else
    let found ← strchr c whitespace
    if found.isNone then .ok (some { s with buf := s.buf + 1 }) else .ok none

/-- Gobble whitespace. -/
def gobble (s : ArgState) : Except MonitorFault ArgState :=
  whileLoop .diverge gobbleRound (s.mem.length + 1) s

/-- Scan past an argument. -/
def scanPast (s : ArgState) : Except MonitorFault ArgState :=
  whileLoop .diverge scanPastRound (s.mem.length + 1) s

/-- How the loop over the arguments ends. -/
inductive Parsed
  /-- at the end of the line -/
  | args (s : ArgState)
  /-- in front of an argument that has no room -/
  | tooMany (s : ArgState)

/-- The loop over the arguments. -/
def parseLoop : ℕ → ArgState → Except MonitorFault Parsed
  | 0, _ => .error .diverge
  | fuel + 1, s => do
    let s ← gobble s
    let c ← s.read
    if c = 0#8 then .ok (.args s)
    else if s.argc = maxargs - 1 then .ok (.tooMany s)
    else
      let s ← s.setArg (some s.buf)
      let s ← scanPast { s with argc := s.argc + 1 }
      parseLoop fuel s

/-- What `runcmd` does at its end. -/
inductive CmdAction
  /-- `return 0` -/
  | none
  /-- `cprintf` and `return 0` -/
  | cprintf (fmt : List (BitVec 8)) (ap : List Arg)
  /-- `return commands[i].func(argc, argv, tf)` -/
  | call (func : MonitorFunc) (argc : ℕ)

/-- The end of `runcmd`, with `argv` and the buffer at that time. -/
structure CmdResult where
  action : CmdAction
  argv : ℕ → Option ℕ
  mem : List (BitVec 8)

/-- The bytes that a pointer into the buffer points to. -/
def stringAt (mem : List (BitVec 8)) : Option ℕ → Except MonitorFault (List (BitVec 8))
  | none => .error .null
  | some p => .ok (mem.drop p)

/-- `for (i = 0; i < NCOMMANDS; i++) if (strcmp(argv[0], commands[i].name) == 0) …`. -/
def lookup (arg : List (BitVec 8)) : List Command → Except MonitorFault (Option MonitorFunc)
  | [] => .ok none
  | c :: cs => do
    let order ← strcmp arg (c.name ++ [0#8])
    if order = 0#32 then .ok (some c.func) else lookup arg cs

/-- Lookup and invoke the command. -/
def invoke (s : ArgState) : Except MonitorFault CmdResult :=
  if s.argc = 0 then .ok ⟨.none, s.argv, s.mem⟩
  else do
    let arg ← stringAt s.mem (s.argv 0)
    match ← lookup arg commands with
    | some func => .ok ⟨.call func s.argc, s.argv, s.mem⟩
    | none => .ok ⟨.cprintf (bytes "Unknown command '%s'\n") [.str (some arg)], s.argv, s.mem⟩

/-- `runcmd`. -/
def runcmd (mem : List (BitVec 8)) (argv : ℕ → Option ℕ) : Except MonitorFault CmdResult := do
  let s ← ArgState.setArg ⟨0, argv, 0, mem⟩ none
  match ← parseLoop (mem.length + 1) s with
  | .tooMany s =>
    .ok ⟨.cprintf (bytes "Too many arguments (max %d)\n") [.word (BitVec.ofNat 32 maxargs)],
      s.argv, s.mem⟩
  | .args s =>
    let s ← s.setArg none
    invoke s

/-! ### Blanks -/

/-- Tab, CR, LF or space. -/
def isBlank (c : BitVec 8) : Bool :=
  c == chr '\t' || c == chr '\r' || c == chr '\n' || c == chr ' '

theorem isBlank_zero : isBlank 0#8 = false := rfl

/-- `strchr` finds the characters of a string. -/
theorem strchr_eq {s : List (BitVec 8)} (hs : 0#8 ∉ s) (c : BitVec 8) :
    ∃ found, strchr c (s ++ [0#8]) = .ok found ∧ found.isSome = decide (c ∈ s) := by
  induction s with
  | nil => exact ⟨none, rfl, rfl⟩
  | cons b s ih =>
    have hb : b ≠ 0#8 := fun h => hs (h ▸ List.mem_cons_self)
    rw [List.cons_append, strchr, if_neg hb]
    by_cases hbc : b = c
    · rw [if_pos hbc]
      exact ⟨_, rfl, by simp [hbc]⟩
    · obtain ⟨found, hfound, hmem⟩ := ih fun h => hs (List.mem_cons_of_mem _ h)
      rw [if_neg hbc]
      refine ⟨found, hfound, hmem.trans ?_⟩
      simp [Ne.symm hbc]

theorem strchr_whitespace (c : BitVec 8) :
    ∃ found, strchr c whitespace = .ok found ∧ found.isSome = isBlank c := by
  have hzero : 0#8 ∉ bytes "\t\r\n " := by decide
  have hblank : decide (c ∈ bytes "\t\r\n ") = isBlank c := by
    rw [show bytes "\t\r\n " = [chr '\t', chr '\r', chr '\n', chr ' '] from rfl, isBlank,
      Bool.eq_iff_iff]
    simp [or_assoc]
  rw [← hblank]
  exact strchr_eq hzero c

/-! ### The two inner loops -/

variable {argc fuel : ℕ} {argv : ℕ → Option ℕ} {c : BitVec 8} {pre b w r l rest : List (BitVec 8)}

section
variable (argc argv c pre r)

theorem read_append : ArgState.read ⟨argc, argv, pre.length, pre ++ c :: r⟩ = .ok c := by
  rw [ArgState.read, List.getElem?_append_right le_rfl, Nat.sub_self]
  rfl

theorem clear_append :
    ArgState.clear ⟨argc, argv, pre.length, pre ++ c :: r⟩ =
      .ok ⟨argc, argv, pre.length + 1, pre ++ 0#8 :: r⟩ := by
  rw [ArgState.clear, if_pos (by simp)]
  simp

theorem gobbleRound_eq :
    gobbleRound ⟨argc, argv, pre.length, pre ++ c :: r⟩ =
      .ok (if isBlank c then some ⟨argc, argv, pre.length + 1, pre ++ 0#8 :: r⟩ else none) := by
  obtain ⟨found, hfound, hblank⟩ := strchr_whitespace c
  rw [gobbleRound, read_append, ok_bind]
  by_cases hc : c = 0#8
  · rw [if_pos hc, hc, isBlank_zero]
    rfl
  · rw [if_neg hc, hfound, ok_bind, hblank, clear_append]
    split <;> rfl

theorem scanPastRound_eq :
    scanPastRound ⟨argc, argv, pre.length, pre ++ c :: r⟩ =
      .ok (if c = 0#8 ∨ isBlank c then none
        else some ⟨argc, argv, pre.length + 1, pre ++ c :: r⟩) := by
  obtain ⟨found, hfound, hblank⟩ := strchr_whitespace c
  rw [scanPastRound, read_append, ok_bind]
  by_cases hc : c = 0#8
  · rw [if_pos hc, if_pos (.inl hc)]
  · rw [if_neg hc, hfound, ok_bind, ← Option.not_isSome, hblank]
    cases isBlank c <;> simp [hc]

end

theorem gobble_eq (argc : ℕ) (argv : ℕ → Option ℕ) (pre r : List (BitVec 8))
    (hb : ∀ c ∈ b, isBlank c) (hc : isBlank c = false) :
    gobble ⟨argc, argv, pre.length, pre ++ (b ++ c :: r)⟩ =
      .ok ⟨argc, argv, pre.length + b.length, pre ++ (List.replicate b.length 0#8 ++ c :: r)⟩ := by
  have hround (d t : List (BitVec 8)) (x : BitVec 8) :=
    gobbleRound_eq argc argv x (pre ++ List.replicate d.length 0#8) t
  simp only [List.length_append, List.length_replicate, List.append_assoc] at hround
  let st (d t : List (BitVec 8)) : ArgState :=
    ⟨argc, argv, pre.length + d.length, pre ++ (List.replicate d.length 0#8 ++ (t ++ c :: r))⟩
  have hstep : ∀ d x t, d ++ x :: t = b →
      gobbleRound (st d (x :: t)) = .ok (some (st (d ++ [x]) t)) := by
    intro d x t hsplit
    have hx : isBlank x := hb x (by rw [← hsplit]; simp)
    simp only [st]
    rw [List.cons_append, hround, if_pos hx, List.length_append, List.length_singleton,
      List.replicate_succ', List.append_assoc, Nat.add_assoc]
    rfl
  have hstop : gobbleRound (st b []) = .ok none := by
    simp only [st]
    rw [List.nil_append, hround, hc]
    rfl
  refine whileLoop_list st hstep hstop ?_
  simp only [List.length_append]
  omega

theorem scanPast_eq (argc : ℕ) (argv : ℕ → Option ℕ) (pre : List (BitVec 8))
    (hw : ∀ c ∈ w, c ≠ 0#8 ∧ isBlank c = false) (hc : c = 0#8 ∨ isBlank c) :
    scanPast ⟨argc, argv, pre.length, pre ++ (w ++ c :: r)⟩ =
      .ok ⟨argc, argv, pre.length + w.length, pre ++ (w ++ c :: r)⟩ := by
  have hround (d t : List (BitVec 8)) (x : BitVec 8) := scanPastRound_eq argc argv x (pre ++ d) t
  simp only [List.length_append, List.append_assoc] at hround
  let st (d t : List (BitVec 8)) : ArgState :=
    ⟨argc, argv, pre.length + d.length, pre ++ (d ++ (t ++ c :: r))⟩
  have hstep : ∀ d x t, d ++ x :: t = w →
      scanPastRound (st d (x :: t)) = .ok (some (st (d ++ [x]) t)) := by
    intro d x t hsplit
    obtain ⟨hzero, hblank⟩ := hw x (by rw [← hsplit]; simp)
    have hx : ¬ (x = 0#8 ∨ isBlank x) := by simp [hzero, hblank]
    simp only [st]
    rw [List.cons_append, hround, if_neg hx, List.length_append, List.length_singleton,
      List.append_assoc, Nat.add_assoc]
    rfl
  have hstop : scanPastRound (st w []) = .ok none := by
    simp only [st]
    rw [List.nil_append, hround, if_pos hc]
  refine whileLoop_list st hstep hstop ?_
  simp only [List.length_append]
  omega

/-! ### A round of the outer loop -/

/-- No argument is left. -/
theorem parseLoop_blank (hb : ∀ c ∈ b, isBlank c) :
    parseLoop (fuel + 1) ⟨argc, argv, pre.length, pre ++ (b ++ 0#8 :: rest)⟩ =
      .ok (.args ⟨argc, argv, pre.length + b.length,
        pre ++ (List.replicate b.length 0#8 ++ 0#8 :: rest)⟩) := by
  have hread : ArgState.read ⟨argc, argv, pre.length + b.length,
      pre ++ (List.replicate b.length 0#8 ++ 0#8 :: rest)⟩ = .ok 0#8 := by
    have happ := read_append argc argv 0#8 (pre ++ List.replicate b.length 0#8) rest
    rwa [List.length_append, List.length_replicate, List.append_assoc] at happ
  rw [parseLoop, gobble_eq argc argv pre rest hb isBlank_zero, ok_bind, hread, ok_bind, if_pos rfl]

/-- An argument behind blanks is saved if there is room for it. -/
theorem parseLoop_arg (hargc : argc < maxargs) (hb : ∀ c ∈ b, isBlank c) (hne : w ≠ [])
    (hw : ∀ c ∈ w, c ≠ 0#8 ∧ isBlank c = false) (hr : ∀ c ∈ r.head?, isBlank c) :
    parseLoop (fuel + 1) ⟨argc, argv, pre.length, pre ++ (b ++ (w ++ r) ++ 0#8 :: rest)⟩ =
      if argc = maxargs - 1 then
        .ok (.tooMany ⟨argc, argv, pre.length + b.length,
          pre ++ (List.replicate b.length 0#8 ++ (w ++ r) ++ 0#8 :: rest)⟩)
      else
        parseLoop fuel ⟨argc + 1, Function.update argv argc (some (pre.length + b.length)),
          (pre ++ List.replicate b.length 0#8 ++ w).length,
          pre ++ List.replicate b.length 0#8 ++ w ++ (r ++ 0#8 :: rest)⟩ := by
  obtain ⟨d, w', rfl⟩ := List.exists_cons_of_ne_nil hne
  obtain ⟨hzero, hblank⟩ := hw d List.mem_cons_self
  -- behind the argument is a blank or the end of the line
  obtain ⟨c, r', hend, hc⟩ : ∃ c r', r ++ 0#8 :: rest = c :: r' ∧ (c = 0#8 ∨ isBlank c) := by
    cases r with
    | nil => exact ⟨0#8, rest, rfl, .inl rfl⟩
    | cons c r => exact ⟨c, r ++ 0#8 :: rest, rfl, .inr (hr c rfl)⟩
  have hgobble := gobble_eq argc argv pre (w' ++ (r ++ 0#8 :: rest)) hb hblank
  have hread := read_append argc argv d (pre ++ List.replicate b.length 0#8)
    (w' ++ (r ++ 0#8 :: rest))
  have hscan := scanPast_eq (argc + 1) (Function.update argv argc (some (pre.length + b.length)))
    (pre ++ List.replicate b.length 0#8) (r := r') hw hc
  rw [← hend] at hscan
  simp only [List.length_append, List.length_replicate, List.append_assoc, List.cons_append]
    at hgobble hread hscan ⊢
  rw [parseLoop, hgobble, ok_bind, hread, ok_bind, if_neg hzero]
  split
  · rfl
  · rw [ArgState.setArg, if_pos hargc, ok_bind, hscan, ok_bind]
    simp only [Nat.add_assoc]

/-! ### The outer loop -/

/-- A line in which the blanks are cleared. -/
def cleared (l : List (BitVec 8)) : List (BitVec 8) :=
  l.map fun c => if isBlank c then 0#8 else c

/-- `argv` with pointers to these positions, from entry `i` on. -/
def setArgs (argv : ℕ → Option ℕ) (i : ℕ) : List ℕ → ℕ → Option ℕ
  | [] => argv
  | p :: ps => setArgs (Function.update argv i (some p)) (i + 1) ps

theorem setArgs_of_lt (argv : ℕ → Option ℕ) {i j : ℕ} (ps : List ℕ) (h : j < i) :
    setArgs argv i ps j = argv j := by
  induction ps generalizing argv i with
  | nil => rfl
  | cons p ps ih =>
    rw [setArgs, ih _ (Nat.lt_succ_of_lt h), Function.update_of_ne h.ne]

theorem setArgs_of_le {i j : ℕ} {ps : List ℕ} (h : i + ps.length ≤ j) :
    setArgs argv i ps j = argv j := by
  induction ps generalizing argv i with
  | nil => rfl
  | cons p ps ih =>
    rw [List.length_cons] at h
    rw [setArgs, ih (by omega), Function.update_of_ne (by omega)]

theorem setArgs_get (argv : ℕ → Option ℕ) (i : ℕ) {j p : ℕ} {ps : List ℕ} (h : ps[j]? = some p) :
    setArgs argv i ps (i + j) = some p := by
  induction ps generalizing argv i j with
  | nil => exact absurd h (by simp)
  | cons q ps ih =>
    rw [setArgs]
    cases j with
    | zero =>
      rw [List.getElem?_cons_zero] at h
      have hkept := setArgs_of_lt (Function.update argv i (some q)) ps (Nat.lt_add_one i)
      rw [Function.update_self] at hkept
      exact hkept.trans h
    | succ j =>
      rw [List.getElem?_cons_succ] at h
      have hrest := ih (Function.update argv i (some q)) (i + 1) h
      rwa [Nat.add_assoc, Nat.add_comm 1] at hrest

theorem length_cleared : (cleared l).length = l.length := List.length_map ..

theorem cleared_append : cleared (l ++ r) = cleared l ++ cleared r := List.map_append ..

theorem cleared_of_isBlank (hb : ∀ c ∈ b, isBlank c) :
    cleared b = List.replicate b.length 0#8 := by
  rw [cleared, List.map_congr_left (g := fun _ => 0#8) fun c hc => if_pos (hb c hc),
    List.map_const']

theorem cleared_of_not_isBlank (hw : ∀ c ∈ w, isBlank c = false) : cleared w = w := by
  rw [cleared, List.map_congr_left (g := id) fun c hc => by rw [hw c hc]; rfl, List.map_id]

theorem forall_word (hnul : 0#8 ∉ w) (hw : ∀ c ∈ w, isBlank c = false) :
    ∀ c ∈ w, c ≠ 0#8 ∧ isBlank c = false := fun c hc => ⟨fun h => hnul (h ▸ hc), hw c hc⟩

theorem length_scanned (pre b w : List (BitVec 8)) :
    (pre ++ List.replicate b.length 0#8 ++ w).length = pre.length + b.length + w.length := by
  rw [List.length_append, List.length_append, List.length_replicate]

/-- The loop reaches the end of a line whose words have room. -/
theorem parseLoop_words (pre : List (BitVec 8)) (argv : ℕ → Option ℕ) (hnul : 0#8 ∉ l)
    (hfuel : l.length < fuel)
    (hargs : argc + (runsFrom isBlank pre.length l).length < maxargs) :
    parseLoop fuel ⟨argc, argv, pre.length, pre ++ (l ++ 0#8 :: rest)⟩ =
      .ok (.args ⟨argc + (runsFrom isBlank pre.length l).length,
        setArgs argv argc ((runsFrom isBlank pre.length l).map Prod.fst),
        pre.length + l.length, pre ++ (cleared l ++ 0#8 :: rest)⟩) := by
  induction l using runs_induction isBlank generalizing pre argc argv fuel with
  | blank b hb =>
    obtain ⟨fuel, rfl⟩ := Nat.exists_eq_add_of_lt hfuel
    rw [parseLoop_blank hb, runsFrom_of_forall hb, cleared_of_isBlank hb]
    rfl
  | word b w r hb hne hw hr ih =>
    obtain ⟨fuel, rfl⟩ := Nat.exists_eq_add_of_lt hfuel
    have hpos := List.length_pos_iff.mpr hne
    simp only [List.mem_append, not_or] at hnul
    have hword := forall_word hnul.2.1 hw
    rw [runsFrom_append hb, runsFrom_word hne hw hr, List.length_cons] at hargs
    rw [parseLoop_arg (by omega) hb hne hword hr, if_neg (by rw [maxargs] at hargs ⊢; omega)]
    have hlen := length_scanned pre b w
    rw [ih _ _ hnul.2.2 (by simp only [List.length_append]; omega) (by rw [hlen]; omega), hlen,
      runsFrom_append hb, runsFrom_word hne hw hr, List.length_cons, List.map_cons, setArgs,
      cleared_append, cleared_append, cleared_of_isBlank hb, cleared_of_not_isBlank hw]
    simp only [List.length_append, List.append_assoc, Nat.add_assoc, Nat.add_comm 1]

/-- The loop ends in front of a word that has no room. -/
theorem parseLoop_tooMany (pre : List (BitVec 8)) (argv : ℕ → Option ℕ) (hnul : 0#8 ∉ l)
    (hfuel : l.length < fuel) (hargc : argc < maxargs)
    (hargs : maxargs ≤ argc + (runsFrom isBlank pre.length l).length) :
    ∃ s l', parseLoop fuel ⟨argc, argv, pre.length, pre ++ (l ++ 0#8 :: rest)⟩ =
        .ok (.tooMany s) ∧
      s.mem = pre ++ (l' ++ 0#8 :: rest) ∧ l'.length = l.length ∧
      ∀ i, maxargs ≤ i → s.argv i = argv i := by
  induction l using runs_induction isBlank generalizing pre argc argv fuel with
  | blank b hb =>
    rw [runsFrom_of_forall hb, List.length_nil] at hargs
    omega
  | word b w r hb hne hw hr ih =>
    obtain ⟨fuel, rfl⟩ := Nat.exists_eq_add_of_lt hfuel
    have hpos := List.length_pos_iff.mpr hne
    simp only [List.mem_append, not_or] at hnul
    have hword := forall_word hnul.2.1 hw
    rw [parseLoop_arg hargc hb hne hword hr]
    split
    case isTrue hfull =>
      refine ⟨_, List.replicate b.length 0#8 ++ (w ++ r), rfl, rfl, ?_, fun _ _ => rfl⟩
      simp only [List.length_append, List.length_replicate]
    case isFalse hroom =>
      -- one word further there is one place less in `argv`
      have hlen := length_scanned pre b w
      rw [runsFrom_append hb, runsFrom_word hne hw hr, List.length_cons] at hargs
      have hfuel' : r.length < (b ++ (w ++ r)).length + fuel := by
        simp only [List.length_append]
        omega
      have hargc' : argc + 1 < maxargs := by
        rw [maxargs] at hroom hargc ⊢
        omega
      have hargs' : maxargs ≤ argc + 1 +
          (runsFrom isBlank (pre ++ List.replicate b.length 0#8 ++ w).length r).length := by
        rw [hlen]
        omega
      obtain ⟨s, r', hloop, hmem, hr', hrest⟩ := ih _
        (Function.update argv argc (some (pre.length + b.length))) hnul.2.2 hfuel' hargc' hargs'
      refine ⟨s, List.replicate b.length 0#8 ++ (w ++ r'), hloop, ?_, ?_, fun i hi => ?_⟩
      · rw [hmem]
        simp only [List.append_assoc]
      · simp only [List.length_append, List.length_replicate, hr']
      · rw [hrest i hi, Function.update_of_ne (by omega)]

/-! ### Looking up a command -/

/-- A byte string, with a NUL behind it, starts at a position. -/
def NulTerminated (mem : List (BitVec 8)) (p : ℕ) (w : List (BitVec 8)) : Prop :=
  0#8 ∉ w ∧ ∃ r, mem.drop p = w ++ 0#8 :: r

theorem ofUchar_sub_eq_zero {c d : BitVec 8} : ofUchar c - ofUchar d = 0#32 ↔ c = d := by
  rw [ofUchar, ofUchar]
  constructor
  · intro h
    bv_omega
  · rintro rfl
    exact BitVec.sub_self _

/-- `strcmp` returns zero for equal strings. -/
theorem strcmp_eq {name : List (BitVec 8)} (hw : 0#8 ∉ w) (hname : 0#8 ∉ name) :
    ∃ order, strcmp (w ++ 0#8 :: r) (name ++ [0#8]) = .ok order ∧
      (order = 0#32 ↔ name = w) := by
  induction w generalizing name with
  | nil =>
    cases name with
    | nil => exact ⟨_, rfl, by simp⟩
    | cons d name =>
      refine ⟨_, rfl, ?_⟩
      rw [ofUchar_sub_eq_zero]
      have hd : d ≠ 0#8 := fun h => hname (h ▸ List.mem_cons_self)
      simp [hd.symm]
  | cons c w ih =>
    have hc : c ≠ 0#8 := fun h => hw (h ▸ List.mem_cons_self)
    cases name with
    | nil =>
      refine ⟨ofUchar c - ofUchar 0#8, by simp [strcmp, hc], ?_⟩
      rw [ofUchar_sub_eq_zero]
      simp [hc]
    | cons d name =>
      -- the first difference decides, also against the NUL of the other string
      by_cases hcd : c = d
      · obtain ⟨order, hcmp, hzero⟩ := ih (fun h => hw (List.mem_cons_of_mem _ h))
          fun h => hname (List.mem_cons_of_mem _ h)
        refine ⟨order, ?_, ?_⟩
        · rw [List.cons_append, List.cons_append, strcmp, if_pos ⟨hc, hcd⟩, hcmp]
        · rw [hzero, hcd, List.cons.injEq, and_iff_right rfl]
      · refine ⟨ofUchar c - ofUchar d, ?_, ?_⟩
        · rw [List.cons_append, List.cons_append, strcmp, if_neg fun h => hcd h.2]
        · rw [ofUchar_sub_eq_zero]
          simp [hcd, Ne.symm hcd]

/-- A command with the name is found, if there is one. -/
theorem lookup_eq (hw : 0#8 ∉ w) {cs : List Command} (hcs : ∀ c ∈ cs, 0#8 ∉ c.name) :
    ∃ found, lookup (w ++ 0#8 :: r) cs = .ok found ∧
      (∀ func, found = some func → ∃ c ∈ cs, c.name = w ∧ c.func = func) ∧
      (found = none → ∀ c ∈ cs, c.name ≠ w) := by
  induction cs with
  | nil => exact ⟨none, rfl, by simp, by simp⟩
  | cons c cs ih =>
    obtain ⟨order, hcmp, hzero⟩ := strcmp_eq (r := r) hw (hcs c List.mem_cons_self)
    rw [lookup, hcmp, ok_bind]
    by_cases hname : c.name = w
    · rw [if_pos (hzero.mpr hname)]
      refine ⟨some c.func, rfl, fun func hfunc => ?_, by simp⟩
      exact ⟨c, List.mem_cons_self, hname, Option.some.inj hfunc⟩
    · obtain ⟨found, hfound, hsome, hnone⟩ := ih fun c hc => hcs c (List.mem_cons_of_mem _ hc)
      rw [if_neg fun h => hname (hzero.mp h)]
      refine ⟨found, hfound, fun func hfunc => ?_, fun hnot => ?_⟩
      · obtain ⟨c', hc', hfunc'⟩ := hsome func hfunc
        exact ⟨c', List.mem_cons_of_mem _ hc', hfunc'⟩
      · exact List.forall_mem_cons.mpr ⟨hname, hnone hnot⟩

theorem commands_name : ∀ c ∈ commands, 0#8 ∉ c.name := by decide

/-- Two commands have different names. -/
theorem func_eq_of_name_eq :
    ∀ c ∈ commands, ∀ c' ∈ commands, c.name = c'.name → c.func = c'.func := by decide

theorem invoke_eq (s : ArgState) {p : ℕ} (hargc : s.argc ≠ 0) (hargv : s.argv 0 = some p)
    (hstr : NulTerminated s.mem p w) :
    ∃ action, invoke s = .ok ⟨action, s.argv, s.mem⟩ ∧
      (∀ c ∈ commands, c.name = w → action = .call c.func s.argc) ∧
      ((∀ c ∈ commands, c.name ≠ w) → action =
        .cprintf (bytes "Unknown command '%s'\n") [.str (some (s.mem.drop p))]) := by
  obtain ⟨hw, r, hdrop⟩ := hstr
  obtain ⟨found, hfound, hsome, hnone⟩ := lookup_eq (r := r) hw commands_name
  have hstring : stringAt s.mem (s.argv 0) = .ok (s.mem.drop p) := by rw [hargv]; rfl
  rw [invoke, if_neg hargc, hstring, ok_bind]
  rw [← hdrop] at hfound
  rw [hfound, ok_bind]
  cases found with
  | none => exact ⟨_, rfl, fun c hc hname => absurd hname (hnone rfl c hc), fun _ => rfl⟩
  | some func =>
    obtain ⟨c, hc, hname, rfl⟩ := hsome func rfl
    refine ⟨_, rfl, fun c' hc' hname' => ?_, fun hnot => absurd hname (hnot c hc)⟩
    rw [func_eq_of_name_eq c hc c' hc' (hname.trans hname'.symm)]

/-! ### A line -/

/-- A word has a NUL behind it when the blanks are cleared. -/
theorem nulTerminated_of_mem {p : ℕ} (hnul : 0#8 ∉ l) (h : (p, w) ∈ runs isBlank l) :
    NulTerminated (cleared l ++ 0#8 :: rest) p w := by
  have hrun := IsRun.of_mem h
  obtain ⟨a, r, hsplit, hlen, -, hhead⟩ := hrun.maximal
  have hw : 0#8 ∉ w := fun hc => hnul (by
    rw [hsplit]
    exact List.mem_append_left _ (List.mem_append_right _ hc))
  obtain ⟨r', hr'⟩ : ∃ r', cleared r ++ 0#8 :: rest = 0#8 :: r' := by
    cases r with
    | nil => exact ⟨rest, rfl⟩
    | cons c r =>
      refine ⟨cleared r ++ 0#8 :: rest, ?_⟩
      rw [cleared, List.map_cons, if_pos (hhead c rfl)]
      rfl
  refine ⟨hw, r', ?_⟩
  rw [hsplit, cleared_append, cleared_append, cleared_of_not_isBlank hrun.word, List.append_assoc,
    List.append_assoc, hr', List.drop_left' (length_cleared.trans hlen)]

/-- What `argv` holds after the loop over a line whose words have room. -/
def argsOf (argv : ℕ → Option ℕ) (line : List (BitVec 8)) : ℕ → Option ℕ :=
  Function.update
    (setArgs (Function.update argv 0 none) 0 ((runs isBlank line).map Prod.fst))
    (runs isBlank line).length none

theorem argsOf_get {i p : ℕ} (h : (runs isBlank l)[i]? = some (p, w)) :
    argsOf argv l i = some p := by
  have hi : i < (runs isBlank l).length := (List.getElem?_eq_some_iff.mp h).1
  have hp : ((runs isBlank l).map Prod.fst)[i]? = some p := by rw [List.getElem?_map, h]; rfl
  have hget := setArgs_get (Function.update argv 0 none) 0 hp
  rw [argsOf, Function.update_of_ne hi.ne, ← hget, Nat.zero_add]

theorem argsOf_of_le {i : ℕ} (hroom : (runs isBlank l).length < maxargs) (hi : maxargs ≤ i) :
    argsOf argv l i = argv i := by
  have hpos : 0 < maxargs := by decide
  rw [argsOf, Function.update_of_ne (by omega), setArgs_of_le, Function.update_of_ne (by omega)]
  rw [List.length_map]
  omega

theorem length_lt_fuel (l rest : List (BitVec 8)) :
    l.length < (l ++ 0#8 :: rest).length + 1 := by
  rw [List.length_append]
  omega

/-- `argv[argc] = 0` in front of the loop. -/
theorem setArg_first (argv : ℕ → Option ℕ) (mem : List (BitVec 8)) :
    ArgState.setArg ⟨0, argv, 0, mem⟩ none = .ok ⟨0, Function.update argv 0 none, 0, mem⟩ := rfl

/-- A line whose words have room leads to a lookup. -/
theorem runcmd_of_lt (hnul : 0#8 ∉ l) (hroom : (runs isBlank l).length < maxargs) :
    runcmd (l ++ 0#8 :: rest) argv =
      invoke ⟨(runs isBlank l).length, argsOf argv l, l.length, cleared l ++ 0#8 :: rest⟩ := by
  have hfuel := length_lt_fuel l rest
  have hargs : 0 + (runs isBlank l).length < maxargs := by rwa [Nat.zero_add]
  have hloop : parseLoop _ ⟨0, _, 0, l ++ 0#8 :: rest⟩ =
      .ok (.args ⟨0 + (runs isBlank l).length,
        setArgs (Function.update argv 0 none) 0 ((runs isBlank l).map Prod.fst),
        0 + l.length, cleared l ++ 0#8 :: rest⟩) := parseLoop_words [] _ hnul hfuel hargs
  rw [Nat.zero_add, Nat.zero_add] at hloop
  have hlast : ArgState.setArg ⟨(runs isBlank l).length,
        setArgs (Function.update argv 0 none) 0 ((runs isBlank l).map Prod.fst),
        l.length, cleared l ++ 0#8 :: rest⟩ none =
      .ok ⟨(runs isBlank l).length, argsOf argv l, l.length, cleared l ++ 0#8 :: rest⟩ :=
    if_pos hroom
  rw [runcmd, setArg_first, ok_bind, hloop, ok_bind]
  dsimp only
  rw [hlast, ok_bind]

/-- A line with a word that has no room is not looked up. -/
theorem runcmd_of_le (argv : ℕ → Option ℕ) (rest : List (BitVec 8)) (hnul : 0#8 ∉ l)
    (hfull : maxargs ≤ (runs isBlank l).length) :
    ∃ argv' l', runcmd (l ++ 0#8 :: rest) argv =
        .ok ⟨.cprintf (bytes "Too many arguments (max %d)\n") [.word 16#32], argv',
          l' ++ 0#8 :: rest⟩ ∧
      l'.length = l.length ∧ ∀ i, maxargs ≤ i → argv' i = argv i := by
  have hfuel := length_lt_fuel l rest
  have hargs : maxargs ≤ 0 + (runs isBlank l).length := by rwa [Nat.zero_add]
  obtain ⟨s, l', hloop, hmem, hlen, hargv⟩ : ∃ s l',
      parseLoop _ ⟨0, _, 0, l ++ 0#8 :: rest⟩ = .ok (.tooMany s) ∧ s.mem = l' ++ 0#8 :: rest ∧
        l'.length = l.length ∧ ∀ i, maxargs ≤ i → s.argv i = Function.update argv 0 none i :=
    parseLoop_tooMany [] _ hnul hfuel (by decide) hargs
  refine ⟨s.argv, l', ?_, hlen, fun i hi => ?_⟩
  · rw [runcmd, setArg_first, ok_bind, hloop, ok_bind]
    dsimp only
    rw [hmem]
    rfl
  · have hpos : 0 < maxargs := by decide
    rw [hargv i hi, Function.update_of_ne (by omega)]

/-- **The words of a command line.** Up to 15 words are the arguments of the command that the
first of them names, if there is one. With more words no command is called. Whatever the line,
nothing is written from its NUL on, nor behind the last entry of `argv`. -/
theorem runcmd_words (line rest : List (BitVec 8)) (argv : ℕ → Option ℕ) (hnul : 0#8 ∉ line) :
    ∃ res line', runcmd (line ++ 0#8 :: rest) argv = .ok res ∧
      res.mem = line' ++ 0#8 :: rest ∧ line'.length = line.length ∧
      (∀ i, maxargs ≤ i → res.argv i = argv i) ∧
      ((runs isBlank line).length ≤ 15 →
        (∀ i p w, (runs isBlank line)[i]? = some (p, w) →
          res.argv i = some p ∧ NulTerminated res.mem p w) ∧
        res.argv (runs isBlank line).length = none ∧
        (runs isBlank line = [] → res.action = .none) ∧
        ∀ p w, (runs isBlank line)[0]? = some (p, w) →
          (∀ c ∈ commands, c.name = w →
            res.action = .call c.func (runs isBlank line).length) ∧
          ((∀ c ∈ commands, c.name ≠ w) → res.action =
            .cprintf (bytes "Unknown command '%s'\n") [.str (some (res.mem.drop p))])) ∧
      (16 ≤ (runs isBlank line).length → res.action =
        .cprintf (bytes "Too many arguments (max %d)\n") [.word 16#32]) := by
  by_cases hroom : (runs isBlank line).length < maxargs
  · have hwords : ∀ i p w, (runs isBlank line)[i]? = some (p, w) →
        argsOf argv line i = some p ∧ NulTerminated (cleared line ++ 0#8 :: rest) p w :=
      fun i p w h => ⟨argsOf_get h, nulTerminated_of_mem hnul (List.mem_of_getElem? h)⟩
    have hnull : argsOf argv line (runs isBlank line).length = none := Function.update_self ..
    have hkept : ∀ i, maxargs ≤ i → argsOf argv line i = argv i := fun i hi =>
      argsOf_of_le hroom hi
    have hfew : ¬ 16 ≤ (runs isBlank line).length := Nat.not_le.mpr hroom
    rw [runcmd_of_lt hnul hroom]
    -- a line of blanks runs nothing, any other one what its first word names
    by_cases hempty : runs isBlank line = []
    · refine ⟨⟨.none, argsOf argv line, cleared line ++ 0#8 :: rest⟩, cleared line, ?_, rfl,
        length_cleared, hkept, fun _ => ⟨hwords, hnull, fun _ => rfl, fun p w hfirst => ?_⟩,
        fun h => absurd h hfew⟩
      · rw [invoke, if_pos (List.length_eq_zero_iff.mpr hempty)]
      · rw [hempty] at hfirst
        exact absurd hfirst (by simp)
    · obtain ⟨⟨p, w⟩, rs, hruns⟩ := List.exists_cons_of_ne_nil hempty
      have hfirst : (runs isBlank line)[0]? = some (p, w) := by rw [hruns]; rfl
      obtain ⟨hargv, hstr⟩ := hwords 0 p w hfirst
      obtain ⟨action, hinvoke, hcall, hunknown⟩ := invoke_eq
        ⟨(runs isBlank line).length, argsOf argv line, line.length, cleared line ++ 0#8 :: rest⟩
        (mt List.length_eq_zero_iff.mp hempty) hargv hstr
      refine ⟨_, cleared line, hinvoke, rfl, length_cleared, hkept,
        fun _ => ⟨hwords, hnull, fun h => absurd h hempty, fun p' w' hfirst' => ?_⟩,
        fun h => absurd h hfew⟩
      obtain ⟨rfl, rfl⟩ := Prod.mk.inj (Option.some.inj (hfirst.symm.trans hfirst'))
      exact ⟨hcall, hunknown⟩
  · have hfull : maxargs ≤ (runs isBlank line).length := Nat.not_lt.mp hroom
    obtain ⟨argv', line', hrun, hlen, hargv⟩ := runcmd_of_le argv rest hnul hfull
    exact ⟨_, line', hrun, rfl, hlen, hargv, fun h => absurd h (Nat.not_le.mpr hfull), fun _ => rfl⟩

/-- Two words between blanks. -/
theorem runcmd_words_help : ∃ res, runcmd (bytes " help\tme " ++ [0#8]) (fun _ => none) = .ok res ∧
    res.action = .call .monHelp 2 ∧ res.argv 1 = some 6 ∧
    NulTerminated res.mem 6 (bytes "me") := by
  obtain ⟨res, line', hrun, -, -, -, hfew, -⟩ :=
    runcmd_words (bytes " help\tme ") [] (fun _ => none) (by decide)
  have hruns : runs isBlank (bytes " help\tme ") = [(1, bytes "help"), (6, bytes "me")] := by decide
  rw [hruns] at hfew
  obtain ⟨hwords, -, -, hcall⟩ := hfew (by decide)
  have haction := (hcall 1 (bytes "help") rfl).1 ⟨bytes "help", .monHelp⟩ List.mem_cons_self rfl
  exact ⟨res, hrun, haction, hwords 1 6 (bytes "me") rfl⟩

end JosVmx.Kern
