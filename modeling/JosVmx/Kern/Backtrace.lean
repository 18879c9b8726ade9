import JosVmx.Kern.Cprintf
import JosVmx.Kern.DebugInfo
import JosVmx.Kern.FormatLine
import JosVmx.Lib.ByteMem
import JosVmx.Lib.Chain

/-!
# The backtrace

`mon_backtrace` of `kern/monitor.c` follows the saved frame pointers from the frame of its own call
until one is null, and prints two lines for each frame: its words, and what `debuginfo_eip` finds
out about its return address.

The memory of the frames is that of the call. The function writes only below its own frame, and
`cprintf` only to the video memory and there, so the frames stay as they are unless they lie in one
of these.

`mon_backtrace` does not look at what `debuginfo_eip` returns. For an address with which that
function reads an entry before the table, the model ends with a fault, where the kernel goes on with
what it finds in its image.

## Main definitions

* `Kern.monBacktrace` — the function of the source
* `Traceable` — the return addresses that `debuginfo_eip` can look up
* `backtraceText` — what is printed for some frames

## Main results

* `Kern.backtrace_frames` — the function returns without reading outside of the tables exactly if
  the frame pointers lead to null over frames with such addresses, and then it has typed these
  frames
-/

namespace JosVmx.Kern

open Lib

/-! ### The functions of the source -/

/-- What goes wrong in a backtrace. -/
inductive BacktraceFault
  | debug (e : DebugFault)
  | print (e : CprintfFault)
  | diverge
  deriving DecidableEq, Repr

/-- The variables of the loop that a round reads and changes, with the screen. -/
structure BacktraceState where
  index : Word
  ebp : Word
  screen : Screen

/-- `for (i = 0; i < info.eip_fn_namelen; i++) cprintf("%c", info.eip_fn_name[i])`. -/
def nameCalls (t : DebugTables) (info : Eipdebuginfo) : Except DebugFault (List Call) :=
  (List.range info.eipFnNamelen.toNat).mapM fun i =>
    match (info.eipFnName.bytes t.stabstr)[i]? with
    | some c => .ok ⟨bytes "%c", [.word (ofChar c)]⟩
    | none => .error (.string i)

/-- The calls for a frame. -/
def frameCalls (t : DebugTables) (mem : ByteMem 32) (index ebp eip : Word) (info : Eipdebuginfo) :
    Except DebugFault (List Call) := do
  let name ← nameCalls t info
  .ok (⟨bytes "%d: ebp %08x  eip %08x  args %08x %08x %08x %08x\n",
      [.word index, .word ebp, .word eip, .word (mem.load (ebp + 8#32)),
        .word (mem.load (ebp + 12#32)), .word (mem.load (ebp + 16#32)),
        .word (mem.load (ebp + 20#32))]⟩ ::
    ⟨bytes "%s:%d: ",
      [.str (some (info.eipFile.bytes t.stabstr)), .word (BitVec.ofInt 32 info.eipLine)]⟩ ::
    name ++
    [⟨bytes "+%x ", [.word (eip - info.eipFnAddr)]⟩,
      ⟨bytes "(%d arg)\n", [.word (BitVec.ofInt 32 info.eipFnNarg)]⟩])

/-- A round of `while (ebp != NULL)`. -/
def backtraceRound (t : DebugTables) (mem : ByteMem 32) (s : BacktraceState) :
    Except BacktraceFault (Option BacktraceState) :=
  if s.ebp = 0#32 then .ok none
  else do
    let eip := mem.load (s.ebp + 4#32)
    let (_, info) ← (debuginfoEip t eip).mapError .debug
    let calls ← (frameCalls t mem s.index s.ebp eip info).mapError .debug
    let screen ← (cprintfs calls s.screen).mapError .print
    .ok (some ⟨s.index + 1#32, mem.load s.ebp, screen⟩)

/-- `mon_backtrace`, when `read_ebp` returns `ebp`, as long as it reads the tables. The memory of
the frames is `mem`. -/
def monBacktrace (t : DebugTables) (mem : ByteMem 32) (ebp : Word) (fuel : ℕ) (screen : Screen) :
    Except BacktraceFault Screen := do
  let screen ← (cprintfs [⟨bytes "Stack backtrace:\n", []⟩] screen).mapError .print
  let s ← whileLoop .diverge (backtraceRound t mem) fuel ⟨0#32, ebp, screen⟩
  .ok s.screen

/-! ### What is printed -/

/-- The addresses that can be looked up. -/
def Traceable (t : DebugTables) (addr : Word) : Prop :=
  ulim ≤ addr ∧ ¬ Misread (entry t.stabs) t.stabs.length addr

/-- What is found out about an address. -/
def eipInfo (t : DebugTables) (addr : Word) : Eipdebuginfo :=
  match debuginfoEip t addr with
  | .ok (_, info) => info
  | .error _ => .init addr

/-- The name of a function, up to the colon. -/
def fnName (t : DebugTables) (info : Eipdebuginfo) : List (BitVec 8) :=
  (info.eipFnName.bytes t.stabstr).take info.eipFnNamelen.toNat

/-- The line for the words of a frame. -/
def wordsLine (mem : ByteMem 32) (index ebp : Word) : List Piece :=
  [.dec index, .text ": ebp ", .hex 8 ebp, .text "  eip ", .hex 8 (mem.load (ebp + 4#32)),
    .text "  args ", .hex 8 (mem.load (ebp + 8#32)), .text " ", .hex 8 (mem.load (ebp + 12#32)),
    .text " ", .hex 8 (mem.load (ebp + 16#32)), .text " ", .hex 8 (mem.load (ebp + 20#32)),
    .text "\n"]

/-- The file and the line of an address. -/
def filePieces (t : DebugTables) (info : Eipdebuginfo) : List Piece :=
  [.str (info.eipFile.bytes t.stabstr), .text ":", .dec (BitVec.ofInt 32 info.eipLine), .text ": "]

/-- The distance from the start of the function. -/
def offsetPieces (addr : Word) (info : Eipdebuginfo) : List Piece :=
  [.text "+", .hexMin (addr - info.eipFnAddr), .text " "]

/-- The number of its arguments. -/
def argPieces (info : Eipdebuginfo) : List Piece :=
  [.text "(", .dec (BitVec.ofInt 32 info.eipFnNarg), .text " arg)\n"]

/-- The two lines for a frame. -/
def frameText (t : DebugTables) (mem : ByteMem 32) (index ebp : Word) : List Word :=
  let eip := mem.load (ebp + 4#32)
  let info := eipInfo t eip
  (wordsLine mem index ebp).flatMap Piece.out ++ (filePieces t info).flatMap Piece.out ++
    (fnName t info).map ofChar ++ (offsetPieces eip info).flatMap Piece.out ++
    (argPieces info).flatMap Piece.out

/-- The lines for all frames. -/
def framesText (t : DebugTables) (mem : ByteMem 32) (frames : List Word) : List Word :=
  frames.zipIdx.flatMap fun f => frameText t mem (BitVec.ofNat 32 f.2) f.1

/-- What is printed for a stack. -/
def backtraceText (t : DebugTables) (mem : ByteMem 32) (frames : List Word) : List Word :=
  lit "Stack backtrace:\n" ++ framesText t mem frames

variable {t : DebugTables} {mem : ByteMem 32} {addr index ebp : Word} {info : Eipdebuginfo}
  {frames : List Word}

theorem framesText_concat (t : DebugTables) (mem : ByteMem 32) (frames : List Word) (ebp : Word) :
    framesText t mem (frames ++ [ebp]) =
      framesText t mem frames ++ frameText t mem (BitVec.ofNat 32 frames.length) ebp := by
  simp [framesText, List.zipIdx_append]

/-! ### The calls for a frame -/

theorem wordsLine_ok (mem : ByteMem 32) (index ebp : Word) :
    ∀ p ∈ wordsLine mem index ebp, p.Ok := by
  have hplain : ∀ s ∈ [": ebp ", "  eip ", "  args ", " ", "\n"], Plain (bytes s) := by decide
  simp only [List.forall_mem_cons] at hplain
  obtain ⟨hebp, heip, hargs, hblank, hend, -⟩ := hplain
  have hwidth : 8 < 10 := by decide
  simp only [wordsLine, List.forall_mem_cons]
  exact ⟨trivial, hebp, hwidth, heip, hwidth, hargs, hwidth, hblank, hwidth, hblank, hwidth, hblank,
    hwidth, hend, fun p hp => absurd hp List.not_mem_nil⟩

theorem offsetPieces_ok (addr : Word) (info : Eipdebuginfo) :
    ∀ p ∈ offsetPieces addr info, p.Ok := by
  have hplain : ∀ s ∈ ["+", " "], Plain (bytes s) := by decide
  simp only [List.forall_mem_cons] at hplain
  simp only [offsetPieces, List.forall_mem_cons]
  exact ⟨hplain.1, trivial, hplain.2.1, fun p hp => absurd hp List.not_mem_nil⟩

theorem argPieces_ok (info : Eipdebuginfo) : ∀ p ∈ argPieces info, p.Ok := by
  have hplain : ∀ s ∈ ["(", " arg)\n"], Plain (bytes s) := by decide
  simp only [List.forall_mem_cons] at hplain
  simp only [argPieces, List.forall_mem_cons]
  exact ⟨hplain.1, trivial, hplain.2.1, fun p hp => absurd hp List.not_mem_nil⟩

/-- The bytes of a string are not more than those of the table, or the ten of `"<unknown>"`. -/
theorem length_cstr_le {c : CString} (hlen : t.stabstr.length < 2 ^ 31 - 1) :
    (cstr (c.bytes t.stabstr)).length < 2 ^ 31 - 1 := by
  have hle : (cstr (c.bytes t.stabstr)).length ≤ (c.bytes t.stabstr).length :=
    (List.takeWhile_prefix _).length_le
  refine hle.trans_lt ?_
  cases c with
  | unknown => exact (by decide : (10 : ℕ) < 2 ^ 31 - 1)
  | table i =>
    rw [CString.bytes, List.length_drop]
    omega

theorem filePieces_ok (hstr : t.stabstr.getLast? = some 0#8) (hlen : t.stabstr.length < 2 ^ 31 - 1)
    (hinfo : InfoOk t.stabstr info) : ∀ p ∈ filePieces t info, p.Ok := by
  have hplain : ∀ s ∈ [":", ": "], Plain (bytes s) := by decide
  simp only [List.forall_mem_cons] at hplain
  have hnul : 0#8 ∈ info.eipFile.bytes t.stabstr :=
    List.mem_of_getLast? (CString.getLast?_bytes hstr hinfo.file)
  simp only [filePieces, List.forall_mem_cons]
  exact ⟨⟨hnul, length_cstr_le hlen⟩, hplain.1, trivial, hplain.2.1,
    fun p hp => absurd hp List.not_mem_nil⟩

/-- The name is in its string, so every character of it can be read. -/
theorem nameCalls_eq (hinfo : InfoOk t.stabstr info) :
    nameCalls t info = .ok ((fnName t info).map fun c => ⟨bytes "%c", [.word (ofChar c)]⟩) := by
  have hlt : info.eipFnNamelen.toNat ≤ (info.eipFnName.bytes t.stabstr).length := by
    have hnonneg := hinfo.namelen_nonneg
    have hlt := hinfo.namelen_lt
    omega
  rw [nameCalls, fnName]
  generalize info.eipFnName.bytes t.stabstr = s at hlt
  generalize info.eipFnNamelen.toNat = n at hlt
  induction n with
  | zero => rfl
  | succ n ih =>
    have hget : s[n]? = some s[n] := List.getElem?_eq_getElem hlt
    have hlast : ([n].mapM fun i => match s[i]? with
        | some c => (.ok ⟨bytes "%c", [.word (ofChar c)]⟩ : Except DebugFault Call)
        | none => .error (.string i)) = .ok [⟨bytes "%c", [.word (ofChar s[n])]⟩] := by
      rw [List.mapM_cons, List.mapM_nil, hget]
      rfl
    rw [List.range_succ, List.mapM_append, ih (Nat.le_of_succ_le hlt), hlast, List.take_add_one,
      hget, List.map_append]
    rfl

/-- The calls for a frame print its two lines. -/
theorem frameCalls_prints {eip : Word} (index : Word) (hstr : t.stabstr.getLast? = some 0#8)
    (hlen : t.stabstr.length < 2 ^ 31 - 1) (heip : mem.load (ebp + 4#32) = eip)
    (hinfo : InfoOk t.stabstr (eipInfo t eip)) :
    ∃ calls texts, frameCalls t mem index ebp eip (eipInfo t eip) = .ok calls ∧
      List.Forall₂ Call.Prints calls texts ∧ texts.flatten = frameText t mem index ebp := by
  have hname : List.Forall₂ Call.Prints
      ((fnName t (eipInfo t eip)).map fun c => ⟨bytes "%c", [.word (ofChar c)]⟩)
      ((fnName t (eipInfo t eip)).map fun c => [ofChar c]) := by
    have hnul : 0#8 ∉ bytes "%c" := by decide
    rw [List.forall₂_map_left_iff, List.forall₂_map_right_iff, List.forall₂_same]
    exact fun c _ => ⟨hnul, (prints_chr (ofChar c)).isText⟩
  rw [frameCalls, nameCalls_eq hinfo, ok_bind]
  refine ⟨_, _, rfl,
    .cons (Call.Says.prints ⟨wordsLine_ok mem index ebp, rfl, ?_⟩) <|
      .cons (Call.Says.prints ⟨filePieces_ok hstr hlen hinfo, rfl, rfl⟩) <|
      List.rel_append hname <|
      .cons (Call.Says.prints ⟨offsetPieces_ok eip _, rfl, rfl⟩) <|
      .cons (Call.Says.prints ⟨argPieces_ok _, rfl, rfl⟩) .nil, ?_⟩
  · rw [← heip]
    rfl
  · simp only [List.flatten_cons, List.flatten_append, List.flatten_nil, List.append_nil,
      List.append_assoc, frameText, heip]
    rw [← List.flatMap_def, ← List.map_eq_flatMap]

/-! ### Rounds of the loop -/

variable {s s' : BacktraceState}

theorem mapError_eq_ok {ε ε' α : Type} {x : Except ε α} {f : ε → ε'} {a : α}
    (h : x.mapError f = .ok a) : x = .ok a := by
  cases x with
  | error e => exact absurd h (by simp [Except.mapError])
  | ok b => exact congrArg Except.ok (Except.ok.inj h)

/-- A traceable address is looked up. -/
theorem Traceable.lookup (hn : t.stabs ≠ []) (hstr : t.stabstr.getLast? = some 0#8)
    (h : Traceable t addr) :
    ∃ ret, debuginfoEip t addr = .ok (ret, eipInfo t addr) ∧ InfoOk t.stabstr (eipInfo t addr) := by
  obtain ⟨ret, info, hlookup, hinfo⟩ := debuginfoEip_ok hn hstr h.1 h.2
  have heq : eipInfo t addr = info := by rw [eipInfo, hlookup]
  exact ⟨ret, heq ▸ hlookup, heq ▸ hinfo⟩

/-- An address that is looked up is traceable. -/
theorem traceable_of_lookup (hn : t.stabs ≠ []) (hstr : t.stabstr.getLast? = some 0#8)
    {r : ℤ × Eipdebuginfo} (h : debuginfoEip t addr = .ok r) : Traceable t addr := by
  have haddr : ulim ≤ addr := by
    by_contra hlt
    rw [debuginfoEip, if_pos (BitVec.not_le.mp hlt)] at h
    exact absurd h (by simp)
  refine ⟨haddr, fun hread => ?_⟩
  rw [debuginfoEip_of_misread hn hstr haddr hread] at h
  exact absurd h (by simp)

/-- A round that goes on has looked up the return address, and goes on with the saved pointer. -/
theorem backtraceRound_some (h : backtraceRound t mem s = .ok (some s')) :
    s.ebp ≠ 0#32 ∧ s'.ebp = mem.load s.ebp ∧
      ∃ r, debuginfoEip t (mem.load (s.ebp + 4#32)) = .ok r := by
  rw [backtraceRound] at h
  by_cases hnull : s.ebp = 0#32
  · rw [if_pos hnull] at h
    exact absurd h (by simp)
  · rw [if_neg hnull] at h
    obtain ⟨r, hlookup, h⟩ := bind_eq_ok h
    obtain ⟨calls, -, h⟩ := bind_eq_ok h
    obtain ⟨screen, -, h⟩ := bind_eq_ok h
    simp only [Except.ok.injEq, Option.some.injEq] at h
    exact ⟨hnull, h ▸ rfl, r, mapError_eq_ok hlookup⟩

theorem backtraceRound_of_null (h : s.ebp = 0#32) : backtraceRound t mem s = .ok none := if_pos h

theorem backtraceRound_none (h : backtraceRound t mem s = .ok none) : s.ebp = 0#32 := by
  rw [backtraceRound] at h
  by_contra hnull
  rw [if_neg hnull] at h
  obtain ⟨r, -, h⟩ := bind_eq_ok h
  obtain ⟨calls, -, h⟩ := bind_eq_ok h
  obtain ⟨screen, -, h⟩ := bind_eq_ok h
  exact absurd h (by simp)

/-- What has been printed when the loop has gone over some frames. -/
structure Traced (t : DebugTables) (mem : ByteMem 32) (s₀ : Screen) (p : Paper (BitVec 16))
    (done : List Word) (s : BacktraceState) : Prop where
  index : s.index = BitVec.ofNat 32 done.length
  shown : Shown s₀ s.screen ((backtraceText t mem done).foldl (fun p c => typeChar c p) p)

variable {s₀ : Screen} {p : Paper (BitVec 16)} {done : List Word}

/-- A round prints the frame. -/
theorem Traced.round (h : Traced t mem s₀ p done s) (hn : t.stabs ≠ [])
    (hstr : t.stabstr.getLast? = some 0#8) (hlen : t.stabstr.length < 2 ^ 31 - 1)
    (hne : s.ebp ≠ 0#32) (htrace : Traceable t (mem.load (s.ebp + 4#32))) :
    ∃ s', backtraceRound t mem s = .ok (some s') ∧ s'.ebp = mem.load s.ebp ∧
      Traced t mem s₀ p (done ++ [s.ebp]) s' := by
  obtain ⟨ret, hlookup, hinfo⟩ := htrace.lookup hn hstr
  obtain ⟨calls, texts, hcalls, htexts, hflat⟩ :=
    frameCalls_prints s.index hstr hlen rfl hinfo
  obtain ⟨screen, hprint, hshown⟩ := h.shown.cprintfs htexts
  refine ⟨⟨s.index + 1#32, mem.load s.ebp, screen⟩, ?_, rfl, ?_, ?_⟩
  · rw [backtraceRound, if_neg hne]
    simp only [hlookup, Except.mapError, ok_bind, hcalls, hprint]
  · rw [h.index, List.length_append, List.length_singleton, BitVec.ofNat_add]
  · rw [hflat, h.index, ← List.foldl_append] at hshown
    rw [backtraceText, framesText_concat, ← List.append_assoc]
    exact hshown

/-! ### The whole function -/

variable {screen₀ : Screen}

/-- The loop starts behind the title. -/
theorem monBacktrace_start (t : DebugTables) (mem : ByteMem 32) (ebp : Word)
    (h : Shown s₀ screen₀ p) :
    ∃ screen, (∀ fuel, monBacktrace t mem ebp fuel screen₀ =
        (whileLoop .diverge (backtraceRound t mem) fuel ⟨0#32, ebp, screen⟩).map (·.screen)) ∧
      Traced t mem s₀ p [] ⟨0#32, ebp, screen⟩ := by
  have htitle : List.Forall₂ Call.Says [⟨bytes "Stack backtrace:\n", []⟩]
      [[.text "Stack backtrace:\n"]] :=
    .cons (Call.says_text _ (by decide) rfl rfl) .nil
  obtain ⟨screen, hprint, hshown⟩ := h.says htitle
  refine ⟨screen, fun fuel => ?_, rfl, ?_⟩
  · rw [monBacktrace, hprint]
    rfl
  · exact hshown

/-- A stack that ends is shown. -/
theorem Shown.backtrace (h : Shown s₀ screen₀ p) (hn : t.stabs ≠ [])
    (hstr : t.stabstr.getLast? = some 0#8) (hlen : t.stabstr.length < 2 ^ 31 - 1)
    (hchain : Chain mem.load 0#32 ebp frames)
    (htrace : ∀ a ∈ frames, Traceable t (mem.load (a + 4#32))) :
    ∃ s', (∀ fuel, frames.length < fuel → monBacktrace t mem ebp fuel screen₀ = .ok s') ∧
      Shown s₀ s' ((backtraceText t mem frames).foldl (fun p c => typeChar c p) p) := by
  obtain ⟨screen, hrun, hstart⟩ := monBacktrace_start t mem ebp h
  obtain ⟨st, hend, htraced⟩ := whileLoop_chain BacktraceFault.diverge BacktraceState.ebp
    (Traced t mem s₀ p) (fun _ hnull => backtraceRound_of_null hnull)
    (fun done s hmem hne h => h.round hn hstr hlen hne (htrace _ hmem)) hchain hstart
  refine ⟨st.screen, fun fuel hfuel => ?_, htraced.shown⟩
  rw [hrun, hend fuel hfuel]
  rfl

/-- **A backtrace shows the frames of the stack.** With debug tables that are not empty, it returns
without reading outside of them exactly if the saved frame pointers lead to null, over frames whose
return addresses can be looked up. Then it has typed these frames, in the order of the pointers,
each with its number, its words and what is found out about its return address. -/
theorem backtrace_frames (t : DebugTables) (hn : t.stabs ≠ [])
    (hstr : t.stabstr.getLast? = some 0#8) (hlen : t.stabstr.length < 2 ^ 31 - 1)
    (mem : ByteMem 32) (ebp : Word) (s : Screen) (hpos : s.crtPos.toNat < crtSize) :
    ((∃ fuel s', monBacktrace t mem ebp fuel s = .ok s') ↔
      ∃ frames, Chain mem.load 0#32 ebp frames ∧
        ∀ a ∈ frames, Traceable t (mem.load (a + 4#32))) ∧
    ∀ frames, Chain mem.load 0#32 ebp frames →
      (∀ a ∈ frames, Traceable t (mem.load (a + 4#32))) →
      ∃ s', (∀ fuel, frames.length < fuel → monBacktrace t mem ebp fuel s = .ok s') ∧
        Shown s s' ((backtraceText t mem frames).foldl (fun p c => typeChar c p) s.paper) := by
  have hshown := Screen.shown_paper hpos
  refine ⟨⟨?_, ?_⟩, fun frames hchain htrace => hshown.backtrace hn hstr hlen hchain htrace⟩
  · rintro ⟨fuel, s', hreturn⟩
    -- the loop has ended, so it has gone over a chain, and every round has looked up its address
    obtain ⟨screen, hrun, -⟩ := monBacktrace_start t mem ebp hshown
    obtain ⟨st, hend⟩ : ∃ st,
        whileLoop .diverge (backtraceRound t mem) fuel ⟨0#32, ebp, screen⟩ = .ok st := by
      rw [hrun] at hreturn
      cases hwhile : whileLoop .diverge (backtraceRound t mem) fuel ⟨0#32, ebp, screen⟩ with
      | error e => exact absurd hreturn (by simp [hwhile, Except.map])
      | ok st => exact ⟨st, rfl⟩
    obtain ⟨frames, hchain, hall⟩ := exists_chain mem.load BacktraceState.ebp
      (fun _ => backtraceRound_none)
      (fun _ _ h => ⟨(backtraceRound_some h).1, (backtraceRound_some h).2.1⟩) hend
    refine ⟨frames, hchain, fun a ha => ?_⟩
    obtain ⟨u, u', rfl, hround⟩ := hall a ha
    obtain ⟨r, hlookup⟩ := (backtraceRound_some hround).2.2
    exact traceable_of_lookup hn hstr hlookup
  · rintro ⟨frames, hchain, htrace⟩
    obtain ⟨s', hend, -⟩ := hshown.backtrace hn hstr hlen hchain htrace
    exact ⟨frames.length + 1, s', hend _ (Nat.lt_succ_self _)⟩

/-- The frame of a call from `0xF0100010`, which is in the file of `oneFile`. -/
def oneFrame : ByteMem 32 :=
  ByteMem.store (ByteMem.store (fun _ => 0#8) 0xF010FFB8#32 0#32) 0xF010FFBC#32 0xF0100010#32

theorem backtrace_frames_oneFrame :
    ((∃ fuel s', monBacktrace oneFile oneFrame 0xF010FFB8#32 fuel
          ⟨fun _ => blankCell, 0#16, 0#8, 0#8⟩ = .ok s') ↔
      ∃ frames, Chain oneFrame.load 0#32 0xF010FFB8#32 frames ∧
        ∀ a ∈ frames, Traceable oneFile (oneFrame.load (a + 4#32))) ∧
    ∀ frames, Chain oneFrame.load 0#32 0xF010FFB8#32 frames →
      (∀ a ∈ frames, Traceable oneFile (oneFrame.load (a + 4#32))) →
      ∃ s', (∀ fuel, frames.length < fuel → monBacktrace oneFile oneFrame 0xF010FFB8#32 fuel
          ⟨fun _ => blankCell, 0#16, 0#8, 0#8⟩ = .ok s') ∧
        Shown ⟨fun _ => blankCell, 0#16, 0#8, 0#8⟩ s'
          ((backtraceText oneFile oneFrame frames).foldl (fun p c => typeChar c p)
            (Screen.paper ⟨fun _ => blankCell, 0#16, 0#8, 0#8⟩)) :=
  backtrace_frames oneFile (by decide) (by decide) (by decide) oneFrame 0xF010FFB8#32
    ⟨fun _ => blankCell, 0#16, 0#8, 0#8⟩ (by decide)

end JosVmx.Kern
