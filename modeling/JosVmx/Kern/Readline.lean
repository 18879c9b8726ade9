import JosVmx.Kern.Cprintf

/-!
# Reading a line

`readline` of `lib/readline.c` takes characters one at a time, keeps a line in a buffer and
echoes what it does to it on the screen. The buffer and the screen are updated by separate code.

The characters are given as a list, of what `getchar` returns. A call that has not returned when
the list ends waits in `getchar`.

## Main definitions

* `Kern.readline` — the function of the source
* `edit` — what is left of an input in which a backspace takes back a character

## Main results

* `Kern.readline_echo` — the screen shows the line in the buffer, and the line that is returned is
  the input after all corrections
-/

namespace JosVmx.Kern

open Lib

/-! ### The functions of the source -/

/-- `BUFLEN`. -/
def buflen : ℤ := 1024

/-- The variables of `readline`, with the screen. -/
structure LineState where
  i : ℤ
  buf : ℤ → BitVec 8
  screen : Screen

/-- What a call of `readline` comes to. -/
inductive LineResult
  /-- it waits for the next character -/
  | wait (s : LineState)
  /-- it has returned NULL -/
  | null (screen : Screen)
  /-- it has returned `buf` -/
  | line (buf : ℤ → BitVec 8) (screen : Screen)

/-- `iscons`. -/
def iscons (_fdnum : ℤ) : Bool := true

/-- `buf[i] = c`. -/
def bufStore (i : ℤ) (c : BitVec 8) (buf : ℤ → BitVec 8) :
    Except CprintfFault (ℤ → BitVec 8) :=
  if 0 ≤ i ∧ i < buflen then .ok (Function.update buf i c) else .error (.console (.line i))

/-- `if (echoing) cputchar(c)`. -/
def echo (echoing : Bool) (c : Word) (s : Screen) : Except CprintfFault Screen :=
  if echoing then (cgaPutc c s).mapError .console else .ok s

/-- A round of the loop, after `getchar` has returned `c`. -/
def readlineRound (echoing : Bool) (c : Word) (s : LineState) : Except CprintfFault LineResult :=
  if c.toInt < 0 then do
    let (_, screen) ← cprintf (bytes "read error: %e\n" ++ [0#8]) [.word c] s.screen
    .ok (.null screen)
  else if 0x20 ≤ c.toInt ∧ s.i < buflen - 1 then do
    let screen ← echo echoing c s.screen
    let buf ← bufStore s.i (c.setWidth 8) s.buf
    .ok (.wait ⟨s.i + 1, buf, screen⟩)
  else if c = 0x08#32 ∧ 0 < s.i then do
    let screen ← echo echoing c s.screen
    .ok (.wait ⟨s.i - 1, s.buf, screen⟩)
  else if c = 0x0A#32 ∨ c = 0x0D#32 then do
    let screen ← echo echoing c s.screen
    let buf ← bufStore s.i 0#8 s.buf
    .ok (.line buf screen)
  else .ok (.wait s)

/-- The loop, when `getchar` returns these characters. -/
def readlineLoop (echoing : Bool) : List Word → LineState → Except CprintfFault LineResult
  | [], s => .ok (.wait s)
  | c :: cs, s => do
    match ← readlineRound echoing c s with
    | .wait s => readlineLoop echoing cs s
    | r => .ok r

/-- `strcpy(buf, "exit")`. -/
def exitLine (buf : ℤ → BitVec 8) : ℤ → BitVec 8 := fun k =>
  if k = 0 then 0x65#8 else if k = 1 then 0x78#8 else if k = 2 then 0x69#8
  else if k = 3 then 0x74#8 else if k = 4 then 0#8 else buf k

/-- `if (prompt != NULL) cprintf("%s", prompt)`. -/
def putPrompt (prompt : Option (List (BitVec 8))) (s : Screen) : Except CprintfFault Screen :=
  match prompt with
  | none => .ok s
  | some str => cprintfs [⟨bytes "%s", [.str (some str)]⟩] s

/-- `readline`, with the contents of `buf`. -/
def readline (readlineHack : Bool) (prompt : Option (List (BitVec 8))) (cs : List Word)
    (buf : ℤ → BitVec 8) (screen : Screen) : Except CprintfFault LineResult :=
  if readlineHack then .ok (.line (exitLine buf) screen)
  else do
    let screen ← putPrompt prompt screen
    readlineLoop (iscons 0) cs ⟨0, buf, screen⟩

/-! ### The line -/

/-- Whether the line ends at a character. -/
def EndsLine (c : Word) : Prop := c = 0x0A#32 ∨ c = 0x0D#32

/-- A character of the input: a backspace takes the last character back, and others from blank
on are kept while there is room. -/
def editStep (l : List (BitVec 8)) (c : Word) : List (BitVec 8) :=
  if c = 0x08#32 then l.dropLast
  else if 0x20 ≤ c.toNat ∧ l.length < 1023 then l ++ [c.setWidth 8]
  else l

/-- What is left of an input. -/
def edit (cs : List Word) : List (BitVec 8) := cs.foldl editStep []

/-- The cell of a character on the screen, black on white. -/
def cellOf (b : BitVec 8) : BitVec 16 := 0x0700#16 ||| b.setWidth 16

/-- The cells before the cursor show the text. -/
structure Screen.Before (s : Screen) (l : List (BitVec 8)) : Prop where
  le : l.length ≤ s.crtPos.toNat
  cell : ∀ k (h : k < l.length), s.crtBuf (s.crtPos.toNat - l.length + k) = cellOf l[k]

/-- The buffer holds the line, and the screen shows it. -/
structure LineState.Line (s : LineState) (l : List (BitVec 8)) : Prop where
  len : l.length ≤ 1023
  i : s.i = l.length
  buf : ∀ k (h : k < l.length), s.buf k = l[k]
  lt : s.screen.crtPos.toNat < crtSize
  before : s.screen.Before l
  blank_le : ∀ b ∈ l, 0x20#8 ≤ b

variable {s s' : Screen} {st : LineState} {l : List (BitVec 8)} {c : Word}

/-- Text of which more than a row is left on the screen stays on it when the screen is moved
up. -/
theorem Screen.Before.finish (h : s.Before l) (hlen : l.length ≤ 1023)
    (hpos : s.crtPos.toNat ≤ 2000) :
    (cgaFinish s).Before l ∧ (cgaFinish s).crtPos.toNat < crtSize := by
  by_cases hlt : s.crtPos.toNat < crtSize
  · rw [cgaFinish, cgaScroll_of_lt hlt]
    exact ⟨⟨h.le, h.cell⟩, hlt⟩
  · have hge := Nat.not_lt.mp hlt
    have heq : s.crtPos.toNat = 2000 := Nat.le_antisymm hpos hge
    have hpos' : (cgaFinish s).crtPos.toNat = 1920 := by
      rw [cgaFinish, cgaCursor]
      exact (crtPos_cgaScroll hge).trans (by rw [heq]; rfl)
    refine ⟨⟨by omega, fun k hk => ?_⟩, hpos' ▸ by decide⟩
    rw [hpos', cgaFinish, cgaCursor]
    simp only
    rw [crtBuf_cgaScroll hge, if_pos (by omega), ← h.cell k hk, heq]
    congr 1
    omega

theorem low_of_le (h : c.toNat ≤ 255) : c &&& 0xFF#32 = c := by
  apply BitVec.eq_of_toNat_eq
  rw [BitVec.toNat_and]
  exact (Nat.and_two_pow_sub_one_eq_mod c.toNat 8).trans (Nat.mod_eq_of_lt (by omega))

theorem isPlain_of_le (h : 0x20 ≤ c.toNat) (h' : c.toNat ≤ 255) : IsPlain c := by
  rw [IsPlain, low_of_le h']
  refine ⟨?_, ?_, ?_, ?_⟩ <;> bv_omega

/-- A byte carries no attribute. -/
theorem withAttribute_of_le (h : c.toNat ≤ 255) : withAttribute c = c ||| 0x0700#32 := by
  have hnone : c &&& ~~~0xFF#32 = 0#32 := by
    rw [← low_of_le h, BitVec.and_assoc]
    exact BitVec.and_zero
  exact if_pos hnone

theorem charCell_eq (h : c.toNat ≤ 255) : charCell c = cellOf (c.setWidth 8) := by
  rw [charCell, withAttribute_of_le h, cellOf, BitVec.or_comm, BitVec.setWidth_or]
  congr 1
  apply BitVec.eq_of_toNat_eq
  simp only [BitVec.toNat_setWidth]
  omega

/-! ### Rounds of the loop -/

theorem echo_eq_ok : echo true c s = .ok s' ↔ cgaPutc c s = .ok s' := by
  rw [echo, if_pos rfl]
  cases cgaPutc c s with
  | ok s₁ => simp [Except.mapError]
  | error e => simp [Except.mapError]

/-- The character is put on the screen and the loop goes on. -/
def LineState.Echoes (st : LineState) (c : Word) : Prop :=
  0x20 ≤ c.toInt ∧ st.i < buflen - 1 ∨ c = 0x08#32 ∧ 0 < st.i

/-- A round that goes on has echoed its character, or has done nothing. -/
theorem readlineRound_wait (h : readlineRound true c st = .ok (.wait st')) :
    st.Echoes c ∧ cgaPutc c st.screen = .ok st'.screen ∨ ¬ st.Echoes c ∧ st' = st := by
  rw [readlineRound] at h
  split_ifs at h with hneg hchar hback hend
  · obtain ⟨_, -, h⟩ := bind_eq_ok h
    exact absurd h (by simp)
  · obtain ⟨screen, hecho, h⟩ := bind_eq_ok h
    obtain ⟨buf, -, h⟩ := bind_eq_ok h
    cases h
    exact .inl ⟨.inl hchar, echo_eq_ok.mp hecho⟩
  · obtain ⟨screen, hecho, h⟩ := bind_eq_ok h
    cases h
    exact .inl ⟨.inr hback, echo_eq_ok.mp hecho⟩
  · obtain ⟨screen, -, h⟩ := bind_eq_ok h
    obtain ⟨buf, -, h⟩ := bind_eq_ok h
    exact absurd h (by simp)
  · cases h
    exact .inr ⟨not_or.mpr ⟨hchar, hback⟩, rfl⟩

/-- A round that returns the line has echoed its character. -/
theorem readlineRound_line {buf : ℤ → BitVec 8}
    (h : readlineRound true c st = .ok (.line buf s)) : cgaPutc c st.screen = .ok s := by
  rw [readlineRound] at h
  split_ifs at h with hneg hchar hback hend
  · obtain ⟨_, -, h⟩ := bind_eq_ok h
    exact absurd h (by simp)
  · obtain ⟨screen, -, h⟩ := bind_eq_ok h
    obtain ⟨buf', -, h⟩ := bind_eq_ok h
    exact absurd h (by simp)
  · obtain ⟨screen, -, h⟩ := bind_eq_ok h
    exact absurd h (by simp)
  · obtain ⟨screen, hecho, h⟩ := bind_eq_ok h
    obtain ⟨buf', -, h⟩ := bind_eq_ok h
    cases h
    exact echo_eq_ok.mp hecho
  · exact absurd h (by simp)

theorem cgaPutc_plain (h : s.crtPos.toNat < crtSize) (hc : 0x20 ≤ c.toNat) (hc' : c.toNat ≤ 255) :
    cgaPutc c s = .ok (cgaFinish { s with
      crtBuf := Function.update s.crtBuf s.crtPos.toNat (cellOf (c.setWidth 8))
      crtPos := s.crtPos + 1#16 }) := by
  rw [← charCell_eq hc']
  exact cgaPutcWith_plain h (isPlain_of_le hc hc')

/-- A character is appended to the text. -/
theorem Screen.Before.char (h : s.Before l) (hpos : s.crtPos.toNat < crtSize) (b : BitVec 8) :
    Screen.Before { s with
      crtBuf := Function.update s.crtBuf s.crtPos.toNat (cellOf b)
      crtPos := s.crtPos + 1#16 } (l ++ [b]) := by
  have hle := h.le
  have hnext : (s.crtPos + 1#16).toNat = s.crtPos.toNat + 1 := by
    rw [crtSize_eq] at hpos
    bv_omega
  have hlen : (l ++ [b]).length = l.length + 1 := by simp
  refine ⟨by simp only [hnext]; omega, fun k hk => ?_⟩
  simp only [hnext]
  rcases Nat.lt_succ_iff_lt_or_eq.mp (hlen ▸ hk) with hlt | rfl
  · rw [Function.update_of_ne (by omega), List.getElem_append_left hlt, ← h.cell k hlt]
    congr 1
    omega
  · have hlast : s.crtPos.toNat + 1 - (l ++ [b]).length + l.length = s.crtPos.toNat := by omega
    rw [hlast, Function.update_self, List.getElem_concat_length rfl]

/-- The last character is taken from the text. -/
theorem Screen.Before.dropLast {b : BitVec 8} (h : s.Before (l ++ [b])) (v : BitVec 16) :
    Screen.Before { s with
      crtBuf := Function.update s.crtBuf (s.crtPos - 1#16).toNat v
      crtPos := s.crtPos - 1#16 } l := by
  have hle := h.le
  have hlen : (l ++ [b]).length = l.length + 1 := by simp
  have hprev : (s.crtPos - 1#16).toNat = s.crtPos.toNat - 1 := by bv_omega
  refine ⟨by simp only [hprev]; omega, fun k hk => ?_⟩
  have hcell := h.cell k (by omega)
  rw [List.getElem_append_left hk, hlen] at hcell
  simp only [hprev]
  rw [Function.update_of_ne (by omega), ← hcell]
  congr 1
  omega

/-- A character is appended to the line and to its picture. -/
theorem LineState.Line.char (h : st.Line l) (hc : 0x20 ≤ c.toNat) (hc' : c.toNat ≤ 255)
    (hlen : l.length < 1023) :
    ∃ st', readlineRound true c st = .ok (.wait st') ∧ st'.Line (l ++ [c.setWidth 8]) := by
  have hi := h.i
  have hlt := h.lt
  have hint : c.toInt = c.toNat := BitVec.toInt_eq_toNat_of_lt (by omega)
  have hlen' : (l ++ [c.setWidth 8]).length = l.length + 1 := by simp
  have hstore : bufStore st.i (c.setWidth 8) st.buf =
      .ok (Function.update st.buf st.i (c.setWidth 8)) := if_pos (by rw [buflen]; omega)
  have hnext : (st.screen.crtPos + 1#16).toNat = st.screen.crtPos.toNat + 1 := by
    rw [crtSize_eq] at hlt
    bv_omega
  -- a scroll moves the line and the cursor together
  obtain ⟨hbefore, hpos⟩ := (h.before.char h.lt (c.setWidth 8)).finish (by omega) (by
    simp only [hnext]
    exact hlt)
  refine ⟨⟨st.i + 1, Function.update st.buf st.i (c.setWidth 8), _⟩, ?_, by omega, ?_,
    fun k hk => ?_, hpos, hbefore, fun b hb => ?_⟩
  · rw [readlineRound, if_neg (by omega), if_pos ⟨by omega, by rw [buflen]; omega⟩,
      echo_eq_ok.mpr (cgaPutc_plain h.lt hc hc'), ok_bind, hstore]
    rfl
  · rw [hlen', hi]
    rfl
  · simp only
    rcases Nat.lt_succ_iff_lt_or_eq.mp (hlen' ▸ hk) with hk' | rfl
    · rw [Function.update_of_ne (by omega), h.buf k hk', List.getElem_append_left hk']
    · rw [← hi, Function.update_self, List.getElem_concat_length rfl]
  · rcases List.mem_append.mp hb with hb | hb
    · exact h.blank_le b hb
    · rw [List.mem_singleton.mp hb]
      have hnat : (c.setWidth 8).toNat = c.toNat := by
        rw [BitVec.toNat_setWidth]
        omega
      exact BitVec.le_def.mpr (hnat ▸ hc)

/-- A backspace takes the last character from the line and from its picture. -/
theorem LineState.Line.back {b : BitVec 8} (h : st.Line (l ++ [b])) :
    ∃ st', readlineRound true 0x08#32 st = .ok (.wait st') ∧ st'.Line l := by
  have hi := h.i
  have hlt := h.lt
  have hlen := h.len
  have hle := h.before.le
  have hlen' : (l ++ [b]).length = l.length + 1 := by simp
  have hpos : 0#16 < st.screen.crtPos := by bv_omega
  have hprev : (st.screen.crtPos - 1#16).toNat = st.screen.crtPos.toNat - 1 := by bv_omega
  obtain ⟨hbefore, hpos'⟩ := (h.before.dropLast (blankOf 0x08#32)).finish (by omega) (by
    simp only [hprev]
    rw [crtSize_eq] at hlt
    omega)
  refine ⟨⟨st.i - 1, st.buf, _⟩, ?_, by omega, by simp only; omega, fun k hk => ?_, hpos', hbefore,
    fun b' hb => h.blank_le b' (List.mem_append_left _ hb)⟩
  · rw [readlineRound, if_neg (by decide), if_neg (fun hand => absurd hand.1 (by decide)),
      if_pos ⟨rfl, by omega⟩, echo, if_pos rfl, cgaPutc, cgaPutcWith_back h.lt (by decide),
      if_pos hpos]
    rfl
  · exact (h.buf k (by omega)).trans (List.getElem_append_left hk)

/-- A character that does not end the line does to it what it does to the input. -/
theorem LineState.Line.round (h : st.Line l) (hc : 1 ≤ c.toNat ∧ c.toNat ≤ 255)
    (hend : ¬ EndsLine c) :
    ∃ st', readlineRound true c st = .ok (.wait st') ∧ st'.Line (editStep l c) := by
  have hi := h.i
  have hint : c.toInt = c.toNat := BitVec.toInt_eq_toNat_of_lt (by omega)
  have hstay (hchar : ¬ (0x20 ≤ c.toInt ∧ st.i < buflen - 1)) (hback : ¬ (c = 0x08#32 ∧ 0 < st.i)) :
      readlineRound true c st = .ok (.wait st) := by
    rw [readlineRound, if_neg (by omega), if_neg hchar, if_neg hback]
    exact if_neg hend
  by_cases hback : c = 0x08#32
  · subst hback
    rw [editStep, if_pos rfl]
    rcases List.eq_nil_or_concat l with rfl | ⟨l', b, rfl⟩
    · exact ⟨st, hstay (fun hand => absurd hand.1 (by decide)) fun hand => absurd hand.2 (by
        rw [hi]
        decide), h⟩
    · rw [List.concat_eq_append] at h ⊢
      rw [List.dropLast_concat]
      exact h.back
  · rw [editStep, if_neg hback]
    by_cases hchar : 0x20 ≤ c.toNat ∧ l.length < 1023
    · rw [if_pos hchar]
      exact h.char hchar.1 hc.2 hchar.2
    · rw [if_neg hchar]
      refine ⟨st, hstay (fun hand => hchar ?_) fun hand => hback hand.1, h⟩
      rw [buflen] at hand
      omega

/-- The line is a string that ends in NUL. -/
structure IsString (buf : ℤ → BitVec 8) (l : List (BitVec 8)) : Prop where
  char : ∀ k (h : k < l.length), buf k = l[k]
  nul : buf l.length = 0#8
  nonzero : ∀ b ∈ l, b ≠ 0#8

/-- The end of the line returns it. -/
theorem LineState.Line.finish (h : st.Line l) (hend : EndsLine c) :
    ∃ buf screen, readlineRound true c st = .ok (.line buf screen) ∧ IsString buf l := by
  have hi := h.i
  have hlen := h.len
  obtain ⟨screen, hput, -⟩ := cgaPutc_ok h.lt c
  have hstore : bufStore st.i 0#8 st.buf = .ok (Function.update st.buf st.i 0#8) :=
    if_pos (by rw [buflen]; omega)
  refine ⟨Function.update st.buf st.i 0#8, screen, ?_, fun k hk => ?_, ?_, fun b hb heq => ?_⟩
  · -- both line ends take the same branch
    rcases hend with rfl | rfl
    · rw [readlineRound, if_neg (by decide), if_neg (fun hand => absurd hand.1 (by decide)),
        if_neg (fun hand => absurd hand.1 (by decide)), if_pos (.inl rfl), echo_eq_ok.mpr hput,
        ok_bind, hstore]
      rfl
    · rw [readlineRound, if_neg (by decide), if_neg (fun hand => absurd hand.1 (by decide)),
        if_neg (fun hand => absurd hand.1 (by decide)), if_pos (.inr rfl), echo_eq_ok.mpr hput,
        ok_bind, hstore]
      rfl
  · rw [Function.update_of_ne (by omega)]
    exact h.buf k hk
  · rw [← hi, Function.update_self]
  · exact absurd (heq ▸ h.blank_le b hb) (by decide)

/-! ### The loop -/

theorem LineState.Line.loop {cs : List Word} (h : st.Line l)
    (hcs : ∀ c ∈ cs, (1 ≤ c.toNat ∧ c.toNat ≤ 255) ∧ ¬ EndsLine c) (rest : List Word) :
    ∃ st', readlineLoop true (cs ++ rest) st = readlineLoop true rest st' ∧
      st'.Line (cs.foldl editStep l) := by
  induction cs generalizing st l with
  | nil => exact ⟨st, rfl, h⟩
  | cons c cs ih =>
    obtain ⟨hc, hcs'⟩ := List.forall_mem_cons.mp hcs
    obtain ⟨st₁, hround, h₁⟩ := h.round hc.1 hc.2
    obtain ⟨st', hloop, h'⟩ := ih h₁ hcs'
    refine ⟨st', ?_, h'⟩
    rw [List.cons_append, readlineLoop, hround, ok_bind]
    exact hloop

/-- While `readline` waits it has done nothing, or the cursor of the hardware has followed. -/
theorem readlineLoop_wait {cs : List Word} (h : readlineLoop true cs st = .ok (.wait st')) :
    st' = st ∨ st'.screen.CursorShown := by
  induction cs generalizing st with
  | nil =>
    cases h
    exact .inl rfl
  | cons c cs ih =>
    rw [readlineLoop] at h
    obtain ⟨r, hround, h⟩ := bind_eq_ok h
    cases r with
    | null screen => exact absurd h (by simp)
    | line buf screen => exact absurd h (by simp)
    | wait st₁ =>
      have hrest : readlineLoop true cs st₁ = .ok (.wait st') := h
      rcases readlineRound_wait hround with ⟨-, hput⟩ | ⟨-, rfl⟩
      · rcases ih hrest with rfl | hshown
        · exact .inr (cursorShown_cgaPutc hput)
        · exact .inr hshown
      · exact ih hrest

/-- A prompt that is not empty moves the cursor of the hardware. -/
theorem cursorShown_putPrompt {str : List (BitVec 8)} {screen₀ screen : Screen} (hstr : 0#8 ∈ str)
    (hne : cstr str ≠ []) (h : putPrompt (some str) screen₀ = .ok screen) :
    screen.CursorShown := by
  have hf : 0#8 ∉ bytes "%s" := by decide
  have htyped : Call.WellTyped ⟨bytes "%s", [.str (some str)]⟩ := by
    refine ⟨hf, fun b hb => ?_, trivial⟩
    obtain rfl := Option.some.inj hb
    exact hstr
  obtain ⟨text, -, htext⟩ := htyped.prints
  -- a string without a width and a precision prints nothing only if it is empty
  have htext_ne : text ≠ [] := by
    intro hnil
    have hsilent := ((htext.eq_nil_iff hf).mp hnil).2
    have huse := (hsilent _ (List.mem_singleton_self _)).2
    rw [Use.precision?, parts] at huse
    rcases huse with hprec | ⟨p, hp, hempty⟩
    · exact absurd hprec (by decide)
    · obtain rfl := Option.some.inj (Arg.str.inj hp)
      exact hne hempty
  obtain ⟨⟨cnt, screen₁⟩, hcall, hrest⟩ := bind_eq_ok h
  cases hrest
  rw [cprintf, vcprintf_eq hf htext, emit_cputchar] at hcall
  cases hputs : cgaPuts text screen₀ with
  | error e => exact absurd hcall (by simp [hputs])
  | ok screen' =>
    rw [hputs] at hcall
    cases hcall
    exact cursorShown_cgaPuts htext_ne hputs

/-- **What the user sees is what the monitor gets.** While `readline` waits, the cells before the
cursor show the line in the buffer, which is the input after all corrections; and the line that
it returns is that string. The cursor that the hardware shows is this cursor, unless neither the
prompt nor an echo has moved it. -/
theorem readline_echo (prompt : Option (List (BitVec 8))) (buf : ℤ → BitVec 8)
    {screen₀ screen : Screen} (hprompt : putPrompt prompt screen₀ = .ok screen)
    (hpos : screen.crtPos.toNat < crtSize) (cs : List Word)
    (hcs : ∀ c ∈ cs, (1 ≤ c.toNat ∧ c.toNat ≤ 255) ∧ ¬ EndsLine c) :
    (∃ s, readline false prompt cs buf screen₀ = .ok (.wait s) ∧
      0 ≤ s.i ∧ s.i ≤ buflen - 1 ∧ s.i = (edit cs).length ∧
      (∀ k (h : k < (edit cs).length), s.buf k = (edit cs)[k]) ∧ s.screen.Before (edit cs) ∧
      (s.screen.CursorShown ∨ edit cs = [] ∧ s.screen = screen)) ∧
    (∀ c rest, EndsLine c → ∃ buf' screen',
      readline false prompt (cs ++ c :: rest) buf screen₀ = .ok (.line buf' screen') ∧
        IsString buf' (edit cs) ∧ screen'.CursorShown) ∧
    ∀ str ∈ prompt, 0#8 ∈ str → cstr str ≠ [] → screen.CursorShown := by
  have hstart : LineState.Line ⟨0, buf, screen⟩ [] :=
    ⟨by decide, rfl, fun k h => absurd h (Nat.not_lt_zero k), hpos,
      ⟨Nat.zero_le _, fun k h => absurd h (Nat.not_lt_zero k)⟩,
      fun b hb => absurd hb List.not_mem_nil⟩
  -- after the prompt the loop starts with an empty line
  have hread (cs' : List Word) : readline false prompt cs' buf screen₀ =
      readlineLoop true cs' ⟨0, buf, screen⟩ := by
    rw [readline, if_neg (by decide), hprompt]
    rfl
  refine ⟨?_, fun c rest hend => ?_, ?_⟩
  · obtain ⟨s, hloop, hline⟩ := hstart.loop hcs []
    have hi : s.i = (edit cs).length := hline.i
    have hlen : (edit cs).length ≤ 1023 := hline.len
    rw [List.append_nil] at hloop
    refine ⟨s, (hread cs).trans hloop, by omega, by rw [buflen]; omega, hi, hline.buf,
      hline.before, ?_⟩
    rcases readlineLoop_wait hloop with rfl | hshown
    · -- nothing has been echoed, so there is no line
      refine .inr ⟨?_, rfl⟩
      rw [← List.length_eq_zero_iff]
      exact Int.natCast_eq_zero.mp hi.symm
    · exact .inl hshown
  · obtain ⟨s, hloop, hline⟩ := hstart.loop hcs (c :: rest)
    obtain ⟨buf', screen', hround, hstring⟩ := hline.finish hend
    refine ⟨buf', screen', (hread _).trans (hloop.trans ?_), hstring,
      cursorShown_cgaPutc (readlineRound_line hround)⟩
    rw [readlineLoop, hround]
    rfl
  · rintro str rfl hstr hne
    exact cursorShown_putPrompt hstr hne hprompt

/-- An `a` that is taken back, and a `b`, behind the prompt at the last cell of a screen. -/
theorem readline_echo_corrected :
    ∃ screen, putPrompt (some (bytes "K> " ++ [0#8])) ⟨fun _ => blankCell, 1999#16, 0#8, 0#8⟩ =
        .ok screen ∧ screen.CursorShown ∧
      (∃ s, readline false (some (bytes "K> " ++ [0#8])) [0x61#32, 0x08#32, 0x62#32] (fun _ => 0#8)
          ⟨fun _ => blankCell, 1999#16, 0#8, 0#8⟩ = .ok (.wait s) ∧
        s.i = 1 ∧ s.screen.Before [0x62#8] ∧ s.screen.CursorShown) ∧
      ∀ c rest, EndsLine c → ∃ buf' screen',
        readline false (some (bytes "K> " ++ [0#8])) ([0x61#32, 0x08#32, 0x62#32] ++ c :: rest)
            (fun _ => 0#8) ⟨fun _ => blankCell, 1999#16, 0#8, 0#8⟩ = .ok (.line buf' screen') ∧
          IsString buf' [0x62#8] ∧ screen'.CursorShown := by
  have hedit : edit [0x61#32, 0x08#32, 0x62#32] = [0x62#8] := rfl
  have htyped : ∀ c ∈ [Call.mk (bytes "%s") [.str (some (bytes "K> " ++ [0#8]))]], c.WellTyped := by
    intro c hc
    obtain rfl := List.mem_singleton.mp hc
    refine ⟨by decide, fun b hb => ?_, trivial⟩
    obtain rfl := Option.some.inj hb
    decide
  obtain ⟨texts, htexts⟩ := exists_prints htyped
  have hstart : (1999#16 : BitVec 16).toNat < crtSize := by decide
  obtain ⟨screen, hprompt, hshown₀⟩ :=
    (Screen.shown_paper (s := ⟨fun _ => blankCell, 1999#16, 0#8, 0#8⟩) hstart).cprintfs htexts
  obtain ⟨⟨s, hwait, -, -, hi, -, hbefore, hshown⟩, hline, hcursor⟩ :=
    readline_echo (some (bytes "K> " ++ [0#8])) (fun _ => 0#8) hprompt hshown₀.lt
      [0x61#32, 0x08#32, 0x62#32] (by simp [EndsLine])
  rw [hedit] at hi hbefore hshown hline
  refine ⟨screen, hprompt, hcursor _ rfl (by decide) (by decide),
    ⟨s, hwait, hi, hbefore, ?_⟩, hline⟩
  exact hshown.resolve_right fun h => List.cons_ne_nil _ _ h.1

end JosVmx.Kern
