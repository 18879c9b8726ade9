import JosVmx.Kern.Console
import JosVmx.Lib.Terminal

/-!
# The screen

Text output of `kern/console.c`: `cga_putc` writes characters with attributes to the video
memory at a linear position, and moves the whole screen up by a row when the position leaves
it. The position is a 16-bit number. It is read from the registers of the CRT controller when
the console starts and after a guest has run.

## Main definitions

* `Kern.cgaPutc` — the function of the source
* `typeChar` — what a character does on a terminal with unbounded paper

## Main results

* `Kern.cga_terminal` — the screen shows the window of the terminal
* `Kern.cga_cursor_iff` — which positions of the cursor keep the console in the video memory
-/

namespace JosVmx.Kern

open Lib

/-! ### The functions of the source -/

/-- `CRT_ROWS`. -/
def crtRows : ℕ := 25

/-- `CRT_COLS`. -/
def crtCols : ℕ := 80

/-- `CRT_SIZE`. -/
def crtSize : ℕ := crtRows * crtCols

/-- `crt_buf` and `crt_pos`, with the cursor registers 14 and 15 of the CRT controller. -/
structure Screen where
  crtBuf : ℕ → BitVec 16
  crtPos : BitVec 16
  cursorHi : BitVec 8
  cursorLo : BitVec 8

/-- A blank that is written to a new row, `0x0700 | ' '`. -/
def blankCell : BitVec 16 := 0x0720#16

/-- `crt_buf[crt_pos] = v`. -/
def crtStore (v : BitVec 16) (s : Screen) : Except ConsoleFault Screen :=
  if s.crtPos.toNat < crtSize then
    .ok { s with crtBuf := Function.update s.crtBuf s.crtPos.toNat v }
  else .error (.crt s.crtPos.toNat)

/-- `memcpy` of `n` cells, from the first to the last. -/
def copyCells (buf : ℕ → BitVec 16) (dst src : ℕ) : ℕ → ℕ → BitVec 16
  | 0 => buf
  | n + 1 => copyCells (Function.update buf dst (buf src)) (dst + 1) (src + 1) n

/-- `n` rounds of `crt_buf[i++] = v`. -/
def fillCells (buf : ℕ → BitVec 16) (v : BitVec 16) (i : ℕ) : ℕ → ℕ → BitVec 16
  | 0 => buf
  | n + 1 => fillCells (Function.update buf i v) v (i + 1) n

/-- The branch on `crt_pos >= CRT_SIZE`. -/
def cgaScroll (s : Screen) : Screen :=
  if crtSize ≤ s.crtPos.toNat then
    { s with
      crtBuf := fillCells (copyCells s.crtBuf 0 crtCols (crtSize - crtCols)) blankCell
        (crtSize - crtCols) crtCols
      crtPos := s.crtPos - BitVec.ofNat 16 crtCols }
  else s

/-- "move that little blinky thing". -/
def cgaCursor (s : Screen) : Screen :=
  { s with cursorHi := (s.crtPos >>> 8).setWidth 8, cursorLo := s.crtPos.setWidth 8 }

/-- If no attribute is given, black on white. -/
def withAttribute (c : Word) : Word := if c &&& ~~~0xFF#32 = 0#32 then c ||| 0x0700#32 else c

/-- `crt_pos -= (crt_pos % CRT_COLS)`. -/
def cgaReturn (s : Screen) : Screen :=
  { s with crtPos := s.crtPos - s.crtPos % BitVec.ofNat 16 crtCols }

/-- The switch on the character. -/
def cgaChar (consPutc : Word → Screen → Except ConsoleFault Screen) (c : Word) (s : Screen) :
    Except ConsoleFault Screen :=
  if c &&& 0xFF#32 = 0x08#32 then
    if 0#16 < s.crtPos then
      crtStore ((c &&& ~~~0xFF#32 ||| 0x20#32).setWidth 16) { s with crtPos := s.crtPos - 1#16 }
    else .ok s
  else if c &&& 0xFF#32 = 0x0A#32 then
    .ok (cgaReturn { s with crtPos := s.crtPos + BitVec.ofNat 16 crtCols })
  else if c &&& 0xFF#32 = 0x0D#32 then .ok (cgaReturn s)
  else if c &&& 0xFF#32 = 0x09#32 then do
    let s ← consPutc 0x20#32 s
    let s ← consPutc 0x20#32 s
    let s ← consPutc 0x20#32 s
    let s ← consPutc 0x20#32 s
    consPutc 0x20#32 s
  else do
    let s ← crtStore (c.setWidth 16) s
    .ok { s with crtPos := s.crtPos + 1#16 }

/-- The body of `cga_putc`, with the function that it calls for the blanks of a tab. -/
def cgaPutcWith (consPutc : Word → Screen → Except ConsoleFault Screen) (c : Word) (s : Screen) :
    Except ConsoleFault Screen := do
  let s ← cgaChar consPutc (withAttribute c) s
  .ok (cgaCursor (cgaScroll s))

/-- `cga_putc`. A tab calls it again for blanks, which do not. -/
def cgaPutc : Word → Screen → Except ConsoleFault Screen :=
  cgaPutcWith (cgaPutcWith fun _ _ => .error .recursion)

/-- `cga_putc` of one character after the other. -/
def cgaPuts (cs : List Word) (s : Screen) : Except ConsoleFault Screen :=
  cs.foldlM (fun s c => cgaPutc c s) s

/-- The position in the cursor registers. -/
def cursorLoc (hi lo : BitVec 8) : BitVec 16 := hi.setWidth 16 <<< 8 ||| lo.setWidth 16

/-- `get_cursor_loc`. -/
def getCursorLoc (s : Screen) : Screen := { s with crtPos := cursorLoc s.cursorHi s.cursorLo }

/-- `cga_init`, with the memory at `CGA_BUF`, which keeps what is written if it is `present`,
that at `MONO_BUF` and the cursor registers. -/
def cgaInit (present : Bool) (cga mono : ℕ → BitVec 16) (hi lo : BitVec 8) : Screen :=
  let was := cga 0
  let cp := if present then Function.update cga 0 0xA55A#16 else cga
  if cp 0 ≠ 0xA55A#16 then ⟨mono, cursorLoc hi lo, hi, lo⟩
  else ⟨Function.update cp 0 was, cursorLoc hi lo, hi, lo⟩

/-! ### Moving the screen up -/

variable {s s' s₀ : Screen} {c : Word} {p : Paper (BitVec 16)}

theorem crtSize_eq : crtSize = 2000 := rfl

theorem copyCells_eq (buf : ℕ → BitVec 16) {dst src : ℕ} (h : dst < src) (n i : ℕ) :
    copyCells buf dst src n i = if dst ≤ i ∧ i < dst + n then buf (i + (src - dst)) else buf i := by
  induction n generalizing buf dst src with
  | zero => rw [copyCells, if_neg (by omega)]
  | succ n ih =>
    rw [copyCells, ih _ (Nat.succ_lt_succ h), Nat.succ_sub_succ]
    have hsrc : dst + (src - dst) = src := Nat.add_sub_cancel' h.le
    by_cases hi : i = dst
    · subst hi
      rw [if_neg (by omega), if_pos ⟨le_rfl, by omega⟩, Function.update_self, hsrc]
    · by_cases hin : dst + 1 ≤ i ∧ i < dst + 1 + n
      · rw [if_pos hin, if_pos (by omega), Function.update_of_ne (by omega)]
      · rw [if_neg hin, if_neg (by omega), Function.update_of_ne hi]

theorem fillCells_eq (buf : ℕ → BitVec 16) (v : BitVec 16) (i n j : ℕ) :
    fillCells buf v i n j = if i ≤ j ∧ j < i + n then v else buf j := by
  induction n generalizing buf i with
  | zero => rw [fillCells, if_neg (by omega)]
  | succ n ih =>
    rw [fillCells, ih]
    by_cases hj : j = i
    · subst hj
      rw [if_neg (by omega), if_pos ⟨le_rfl, by omega⟩, Function.update_self]
    · by_cases hin : i + 1 ≤ j ∧ j < i + 1 + n
      · rw [if_pos hin, if_pos (by omega)]
      · rw [if_neg hin, if_neg (by omega), Function.update_of_ne hj]

theorem cgaScroll_of_lt (h : s.crtPos.toNat < crtSize) : cgaScroll s = s :=
  if_neg (Nat.not_le.mpr h)

/-- The cells after the screen has been moved up. -/
theorem crtBuf_cgaScroll (h : crtSize ≤ s.crtPos.toNat) (i : ℕ) :
    (cgaScroll s).crtBuf i = if i + 80 < 2000 then s.crtBuf (i + 80)
      else if i < 2000 then blankCell else s.crtBuf i := by
  rw [cgaScroll, if_pos h]
  simp only [fillCells_eq]
  rw [copyCells_eq _ (by decide)]
  simp only [crtSize_eq, show crtCols = 80 from rfl]
  by_cases hlast : i + 80 < 2000
  · rw [if_neg (by omega), if_pos (by omega), if_pos hlast]
  · by_cases hi : i < 2000
    · rw [if_pos (by omega), if_neg hlast, if_pos hi]
    · rw [if_neg (by omega), if_neg (by omega), if_neg hlast, if_neg hi]

theorem crtPos_cgaScroll (h : crtSize ≤ s.crtPos.toNat) :
    (cgaScroll s).crtPos.toNat = s.crtPos.toNat - crtCols := by
  rw [cgaScroll, if_pos h]
  rw [crtSize_eq] at h
  simp only [show crtCols = 80 from rfl]
  bv_omega

theorem crtPos_cgaReturn (s : Screen) :
    (cgaReturn s).crtPos.toNat = s.crtPos.toNat - s.crtPos.toNat % crtCols := by
  have hle : s.crtPos % BitVec.ofNat 16 crtCols ≤ s.crtPos := Nat.mod_le _ _
  simp only [cgaReturn]
  rw [BitVec.toNat_sub_of_le hle, BitVec.toNat_umod]
  rfl

/-! ### Characters -/

theorem withAttribute_low (c : Word) : withAttribute c &&& 0xFF#32 = c &&& 0xFF#32 := by
  rw [withAttribute]
  split
  · rw [BitVec.and_or_distrib_right]
    exact BitVec.or_zero
  · rfl

/-- The cell that a character is written to the screen as. -/
def charCell (c : Word) : BitVec 16 := (withAttribute c).setWidth 16

/-- A blank with the attribute of a character. -/
def blankOf (c : Word) : BitVec 16 := (withAttribute c &&& ~~~0xFF#32 ||| 0x20#32).setWidth 16

/-- A character that is written to the screen. -/
def IsPlain (c : Word) : Prop :=
  c &&& 0xFF#32 ≠ 0x08#32 ∧ c &&& 0xFF#32 ≠ 0x0A#32 ∧ c &&& 0xFF#32 ≠ 0x0D#32 ∧
    c &&& 0xFF#32 ≠ 0x09#32

/-- What follows the switch in `cga_putc`. -/
def cgaFinish (s : Screen) : Screen := cgaCursor (cgaScroll s)

variable {consPutc : Word → Screen → Except ConsoleFault Screen}

theorem crtStore_ok (h : s.crtPos.toNat < crtSize) (v : BitVec 16) :
    crtStore v s = .ok { s with crtBuf := Function.update s.crtBuf s.crtPos.toNat v } := if_pos h

theorem cgaPutcWith_plain (hpos : s.crtPos.toNat < crtSize) (hc : IsPlain c) :
    cgaPutcWith consPutc c s = .ok (cgaFinish { s with
      crtBuf := Function.update s.crtBuf s.crtPos.toNat (charCell c)
      crtPos := s.crtPos + 1#16 }) := by
  obtain ⟨hback, hnewline, hreturn, htab⟩ := hc
  rw [cgaPutcWith, cgaChar, withAttribute_low, if_neg hback, if_neg hnewline, if_neg hreturn,
    if_neg htab, crtStore_ok hpos]
  rfl

theorem cgaPutcWith_back (hpos : s.crtPos.toNat < crtSize) (hc : c &&& 0xFF#32 = 0x08#32) :
    cgaPutcWith consPutc c s = .ok (cgaFinish (if 0#16 < s.crtPos then { s with
      crtBuf := Function.update s.crtBuf (s.crtPos - 1#16).toNat (blankOf c)
      crtPos := s.crtPos - 1#16 } else s)) := by
  rw [cgaPutcWith, cgaChar, withAttribute_low, if_pos hc]
  by_cases hzero : 0#16 < s.crtPos
  · have hlt : (s.crtPos - 1#16).toNat < crtSize := by
      rw [crtSize_eq] at hpos ⊢
      bv_omega
    rw [if_pos hzero, if_pos hzero, crtStore_ok hlt]
    rfl
  · rw [if_neg hzero, if_neg hzero]
    rfl

theorem cgaPutcWith_newline (hc : c &&& 0xFF#32 = 0x0A#32) :
    cgaPutcWith consPutc c s =
      .ok (cgaFinish (cgaReturn { s with crtPos := s.crtPos + BitVec.ofNat 16 crtCols })) := by
  rw [cgaPutcWith, cgaChar, withAttribute_low, if_neg (by rw [hc]; decide), if_pos hc]
  rfl

theorem cgaPutcWith_return (hc : c &&& 0xFF#32 = 0x0D#32) :
    cgaPutcWith consPutc c s = .ok (cgaFinish (cgaReturn s)) := by
  rw [cgaPutcWith, cgaChar, withAttribute_low, if_neg (by rw [hc]; decide),
    if_neg (by rw [hc]; decide), if_pos hc]
  rfl

/-! ### The terminal -/

/-- An ordinary character is written at the cursor and advances it. -/
def putCell (a : BitVec 16) (p : Paper (BitVec 16)) : Paper (BitVec 16) :=
  ((p.write a).advance crtCols).settle crtRows

/-- What a character does on the terminal. -/
def typeChar (c : Word) (p : Paper (BitVec 16)) : Paper (BitVec 16) :=
  if c &&& 0xFF#32 = 0x08#32 then
    if p.AtHome then p else (p.back crtCols).write (blankOf c)
  else if c &&& 0xFF#32 = 0x0A#32 then p.down.ret.settle crtRows
  else if c &&& 0xFF#32 = 0x0D#32 then p.ret
  else if c &&& 0xFF#32 = 0x09#32 then (putCell blankCell)^[5] p
  else putCell (charCell c) p

/-- The paper with the cells of a screen, blank below. -/
def Screen.paper (s : Screen) : Paper (BitVec 16) where
  cell r c := if r < crtRows then s.crtBuf (r * crtCols + c) else blankCell
  row := s.crtPos.toNat / crtCols
  col := s.crtPos.toNat % crtCols
  top := 0

/-- The cursor that the hardware shows is at `crt_pos`. -/
def Screen.CursorShown (s : Screen) : Prop :=
  s.cursorHi.toNat * 256 + s.cursorLo.toNat = s.crtPos.toNat

/-- The screen shows the window of the paper, with the cursor on it. The memory behind it is
that of `s₀`. -/
structure Shown (s₀ s : Screen) (p : Paper (BitVec 16)) : Prop where
  shows : p.Shows crtRows crtCols blankCell s.crtBuf s.crtPos.toNat
  lt : s.crtPos.toNat < crtSize
  frame : ∀ i, crtSize ≤ i → s.crtBuf i = s₀.crtBuf i

theorem Screen.shown_paper (h : s.crtPos.toNat < crtSize) : Shown s s s.paper where
  shows := by
    refine ⟨Nat.mod_lt _ (by decide), Nat.zero_le _, ?_, fun i hi => ?_, fun r hr c => ?_⟩
    · simp only [Screen.paper, Nat.sub_zero]
      rw [Nat.mul_comm, Nat.div_add_mod]
    · have hrow : i / crtCols < crtRows := (Nat.div_lt_iff_lt_mul (by decide)).mpr hi
      simp only [Screen.paper, Nat.zero_add]
      rw [if_pos hrow, Nat.mul_comm, Nat.div_add_mod]
    · simp only [Screen.paper, Nat.zero_add] at hr ⊢
      exact if_neg (Nat.not_lt.mpr hr)
  lt := h
  frame _ _ := rfl

/-- The screen follows when the cursor has left the window. -/
theorem shown_cgaFinish (h : p.Shows crtRows crtCols blankCell s.crtBuf s.crtPos.toNat)
    (hrow : p.row ≤ p.top + crtRows) (hframe : ∀ i, crtSize ≤ i → s.crtBuf i = s₀.crtBuf i) :
    Shown s₀ (cgaFinish s) (p.settle crtRows) := by
  by_cases hpos : s.crtPos.toNat < crtSize
  · rw [cgaFinish, cgaScroll_of_lt hpos, h.settle hpos]
    exact ⟨h, hpos, hframe⟩
  · have hge := Nat.not_lt.mp hpos
    -- the cursor is past the last line, by one line at most
    have hrow' : p.row = p.top + crtRows := by
      have hnot := mt h.pos_lt_iff.mpr hpos
      omega
    have hshows : (p.settle crtRows).Shows crtRows crtCols blankCell (cgaScroll s).crtBuf
        (s.crtPos.toNat - crtCols) := by
      refine h.scroll (by decide) hrow' fun i hi => ?_
      rw [crtBuf_cgaScroll hge]
      have hi' : i < 2000 := hi
      by_cases hlast : i + 80 < 2000
      · rw [if_pos hlast]
        exact (if_pos hlast).symm
      · rw [if_neg hlast, if_pos hi']
        exact (if_neg hlast).symm
    rw [← crtPos_cgaScroll hge] at hshows
    refine ⟨hshows, ?_, fun i hi => ?_⟩
    · refine hshows.pos_lt_iff.mpr ?_
      simp only [Paper.settle]
      omega
    · -- behind the screen the buffer is not written
      have hi' : 2000 ≤ i := hi
      rw [cgaFinish, cgaCursor]
      simp only
      rw [crtBuf_cgaScroll hge, if_neg (by omega), if_neg (by omega)]
      exact hframe i hi

theorem Shown.finish (h : Shown s₀ s p) : Shown s₀ (cgaFinish s) p := by
  have hfinish := shown_cgaFinish h.shows (h.shows.pos_lt_iff.mp h.lt).le h.frame
  rw [h.shows.settle h.lt] at hfinish
  exact hfinish

theorem Shown.plain (h : Shown s₀ s p) (hc : IsPlain c) :
    ∃ s', cgaPutcWith consPutc c s = .ok s' ∧ Shown s₀ s' (putCell (charCell c) p) := by
  have hlt := h.lt
  have hrow := h.shows.pos_lt_iff.mp hlt
  rw [crtSize_eq] at hlt
  refine ⟨_, cgaPutcWith_plain h.lt hc, shown_cgaFinish ?_ ?_ fun i hi => ?_⟩
  · have hnext : (s.crtPos + 1#16).toNat = s.crtPos.toNat + 1 := by bv_omega
    simp only [hnext]
    exact (h.shows.write h.lt _).advance
  · rw [Paper.advance]
    split <;> simp only [Paper.write] <;> omega
  · have hne : i ≠ s.crtPos.toNat := by
      rw [crtSize_eq] at hi
      omega
    simp only [Function.update_of_ne hne]
    exact h.frame i hi

theorem Shown.back (h : Shown s₀ s p) (hc : c &&& 0xFF#32 = 0x08#32) :
    ∃ s', cgaPutcWith consPutc c s = .ok s' ∧
      Shown s₀ s' (if p.AtHome then p else (p.back crtCols).write (blankOf c)) := by
  have hlt := h.lt
  have hhome := h.shows.atHome_iff
  rw [crtSize_eq] at hlt
  rw [cgaPutcWith_back h.lt hc]
  refine ⟨_, rfl, Shown.finish ?_⟩
  by_cases hzero : s.crtPos.toNat = 0
  · have hnot : ¬ 0#16 < s.crtPos := by bv_omega
    rw [if_neg hnot, if_pos (hhome.mpr hzero)]
    exact h
  · have hpos : 0#16 < s.crtPos := by bv_omega
    have hprev : (s.crtPos - 1#16).toNat = s.crtPos.toNat - 1 := by bv_omega
    have hlt' : s.crtPos.toNat - 1 < crtSize := (Nat.sub_le _ _).trans_lt h.lt
    rw [if_pos hpos, if_neg (mt hhome.mp hzero)]
    refine ⟨?_, ?_, fun i hi => ?_⟩
    · simp only [hprev]
      exact (h.shows.back (Nat.pos_of_ne_zero hzero)).write hlt' _
    · exact hprev ▸ hlt'
    · have hne : i ≠ (s.crtPos - 1#16).toNat := by
        rw [crtSize_eq] at hi
        omega
      simp only [Function.update_of_ne hne]
      exact h.frame i hi

theorem Shown.ret (h : Shown s₀ s p) (hc : c &&& 0xFF#32 = 0x0D#32) :
    ∃ s', cgaPutcWith consPutc c s = .ok s' ∧ Shown s₀ s' p.ret := by
  refine ⟨_, cgaPutcWith_return hc, Shown.finish ⟨?_, ?_, h.frame⟩⟩
  · rw [crtPos_cgaReturn]
    exact h.shows.ret
  · rw [crtPos_cgaReturn]
    exact (Nat.sub_le _ _).trans_lt h.lt

theorem Shown.newline (h : Shown s₀ s p) (hc : c &&& 0xFF#32 = 0x0A#32) :
    ∃ s', cgaPutcWith consPutc c s = .ok s' ∧ Shown s₀ s' (p.down.ret.settle crtRows) := by
  have hlt := h.lt
  rw [crtSize_eq] at hlt
  refine ⟨_, cgaPutcWith_newline hc, shown_cgaFinish ?_ (h.shows.pos_lt_iff.mp h.lt) h.frame⟩
  have hdown : (s.crtPos + BitVec.ofNat 16 crtCols).toNat = s.crtPos.toNat + crtCols := by
    rw [show crtCols = 80 from rfl]
    bv_omega
  rw [crtPos_cgaReturn]
  simp only [hdown]
  exact h.shows.down.ret

/-- A blank of a tab. -/
theorem Shown.blank (h : Shown s₀ s p) :
    ∃ s', cgaPutcWith (fun _ _ => .error .recursion) 0x20#32 s = .ok s' ∧
      Shown s₀ s' (putCell blankCell p) :=
  h.plain ⟨by decide, by decide, by decide, by decide⟩

theorem Shown.tab (h : Shown s₀ s p) (hc : c &&& 0xFF#32 = 0x09#32) :
    ∃ s', cgaPutc c s = .ok s' ∧ Shown s₀ s' ((putCell blankCell)^[5] p) := by
  obtain ⟨s₁, h₁, hs₁⟩ := h.blank
  obtain ⟨s₂, h₂, hs₂⟩ := hs₁.blank
  obtain ⟨s₃, h₃, hs₃⟩ := hs₂.blank
  obtain ⟨s₄, h₄, hs₄⟩ := hs₃.blank
  obtain ⟨s₅, h₅, hs₅⟩ := hs₄.blank
  refine ⟨cgaFinish s₅, ?_, hs₅.finish⟩
  rw [cgaPutc, cgaPutcWith, cgaChar, withAttribute_low, if_neg (by rw [hc]; decide),
    if_neg (by rw [hc]; decide), if_neg (by rw [hc]; decide), if_pos hc]
  simp only [h₁, h₂, h₃, h₄, h₅, ok_bind]
  rfl

/-- Every character does on the screen what it does on the terminal. -/
theorem Shown.putc (h : Shown s₀ s p) (c : Word) :
    ∃ s', cgaPutc c s = .ok s' ∧ Shown s₀ s' (typeChar c p) := by
  rw [typeChar]
  by_cases hback : c &&& 0xFF#32 = 0x08#32
  · rw [if_pos hback]
    exact h.back hback
  rw [if_neg hback]
  by_cases hnewline : c &&& 0xFF#32 = 0x0A#32
  · rw [if_pos hnewline]
    exact h.newline hnewline
  rw [if_neg hnewline]
  by_cases hreturn : c &&& 0xFF#32 = 0x0D#32
  · rw [if_pos hreturn]
    exact h.ret hreturn
  rw [if_neg hreturn]
  by_cases htab : c &&& 0xFF#32 = 0x09#32
  · rw [if_pos htab]
    exact h.tab htab
  · rw [if_neg htab]
    exact h.plain ⟨hback, hnewline, hreturn, htab⟩

theorem Shown.puts (h : Shown s₀ s p) (cs : List Word) :
    ∃ s', cgaPuts cs s = .ok s' ∧ Shown s₀ s' (cs.foldl (fun p c => typeChar c p) p) := by
  induction cs generalizing s p with
  | nil => exact ⟨s, rfl, h⟩
  | cons c cs ih =>
    obtain ⟨s₁, hput, h₁⟩ := h.putc c
    obtain ⟨s', hputs, h'⟩ := ih h₁
    exact ⟨s', by rw [cgaPuts, List.foldlM_cons, hput, ok_bind]; exact hputs, h'⟩

/-! ### The cursor that is seen -/

theorem cursorShown_cgaCursor (s : Screen) : (cgaCursor s).CursorShown := by
  have hlt := s.crtPos.isLt
  simp only [Screen.CursorShown, cgaCursor, BitVec.toNat_setWidth, BitVec.toNat_ushiftRight,
    Nat.shiftRight_eq_div_pow]
  omega

/-- Every character moves the cursor of the hardware. -/
theorem cursorShown_cgaPutc (h : cgaPutc c s = .ok s') : s'.CursorShown := by
  obtain ⟨s₁, -, hlast⟩ := bind_eq_ok h
  cases hlast
  exact cursorShown_cgaCursor _

theorem cursorShown_cgaPuts {cs : List Word} (hcs : cs ≠ []) (h : cgaPuts cs s = .ok s') :
    s'.CursorShown := by
  rcases List.eq_nil_or_concat cs with rfl | ⟨cs', c, rfl⟩
  · exact absurd rfl hcs
  · rw [List.concat_eq_append, cgaPuts, List.foldlM_append] at h
    obtain ⟨s₁, -, hlast⟩ := bind_eq_ok h
    rw [List.foldlM_cons] at hlast
    obtain ⟨s₂, hput, hnil⟩ := bind_eq_ok hlast
    cases hnil
    exact cursorShown_cgaPutc hput

/-- **The screen is a scrolling terminal.** From every screen with its cursor on it and for every
sequence of characters, the cursor stays on the screen, nothing but the cells of the screen is
written, and the screen shows the window of the terminal. The hardware shows its cursor where
that of the terminal is, once a character has been written. -/
theorem cga_terminal (s : Screen) (hpos : s.crtPos.toNat < crtSize) (cs : List Word) :
    ∃ s', cgaPuts cs s = .ok s' ∧ s'.crtPos.toNat < crtSize ∧
      (∀ i, crtSize ≤ i → s'.crtBuf i = s.crtBuf i) ∧
      (cs.foldl (fun p c => typeChar c p) s.paper).Shows crtRows crtCols blankCell s'.crtBuf
        s'.crtPos.toNat ∧
      (cs ≠ [] → s'.CursorShown) := by
  obtain ⟨s', hputs, h⟩ := (Screen.shown_paper hpos).puts cs
  exact ⟨s', hputs, h.lt, h.frame, h.shows, fun hcs => cursorShown_cgaPuts hcs hputs⟩

/-- A newline and a character at the last cell of a screen. -/
theorem cga_terminal_last :
    ∃ s', cgaPuts [0x41#32, 0x0A#32] ⟨fun _ => blankCell, 1999#16, 0#8, 0#8⟩ = .ok s' ∧
      s'.crtPos.toNat < crtSize ∧ (∀ i, crtSize ≤ i → s'.crtBuf i = blankCell) ∧
      ([0x41#32, 0x0A#32].foldl (fun p c => typeChar c p)
        (Screen.paper ⟨fun _ => blankCell, 1999#16, 0#8, 0#8⟩)).Shows crtRows crtCols blankCell
          s'.crtBuf s'.crtPos.toNat ∧
      s'.CursorShown := by
  obtain ⟨s', hputs, hlt, hframe, hshows, hcursor⟩ :=
    cga_terminal ⟨fun _ => blankCell, 1999#16, 0#8, 0#8⟩ (by decide) [0x41#32, 0x0A#32]
  exact ⟨s', hputs, hlt, hframe, hshows, hcursor (List.cons_ne_nil _ _)⟩

/-! ### The cursor of the hardware -/

/-- A character for the screen, or a call of `get_cursor_loc` when the registers have the values
`hi` and `lo`. -/
inductive ScreenEvent
  | loc (hi lo : BitVec 8)
  | putc (c : Word)

def ScreenEvent.run (ev : ScreenEvent) (s : Screen) : Except ConsoleFault Screen :=
  match ev with
  | loc hi lo => .ok (getCursorLoc { s with cursorHi := hi, cursorLo := lo })
  | putc c => cgaPutc c s

/-- The values of the registers that are read. -/
def ScreenEvent.cursor? : ScreenEvent → Option (BitVec 8 × BitVec 8)
  | loc hi lo => some (hi, lo)
  | putc _ => none

def screenRun (evs : List ScreenEvent) (s : Screen) : Except ConsoleFault Screen :=
  evs.foldlM (fun s ev => ev.run s) s

variable {v : BitVec 8 × BitVec 8} {evs : List ScreenEvent} {locs : List (BitVec 8 × BitVec 8)}

/-- The registers hold a position on the screen. -/
def OnScreen (v : BitVec 8 × BitVec 8) : Prop := (cursorLoc v.1 v.2).toNat < crtSize

theorem crtPos_cgaInit (present : Bool) (cga mono : ℕ → BitVec 16) (hi lo : BitVec 8) :
    (cgaInit present cga mono hi lo).crtPos = cursorLoc hi lo := by
  rw [cgaInit]
  exact (apply_ite Screen.crtPos _ _ _).trans (ite_self _)

/-- A character keeps the cursor on the screen. -/
theorem cgaPutc_ok (h : s.crtPos.toNat < crtSize) (c : Word) :
    ∃ s', cgaPutc c s = .ok s' ∧ s'.crtPos.toNat < crtSize := by
  obtain ⟨s', hput, h'⟩ := (Screen.shown_paper h).putc c
  exact ⟨s', hput, h'.lt⟩

/-- The letter `V`. -/
theorem isPlain_letter : IsPlain 0x56#32 := ⟨by decide, by decide, by decide, by decide⟩

theorem cgaPutc_of_ge (h : crtSize ≤ s.crtPos.toNat) (hc : IsPlain c) :
    cgaPutc c s = .error (.crt s.crtPos.toNat) := by
  obtain ⟨hback, hnewline, hreturn, htab⟩ := hc
  rw [cgaPutc, cgaPutcWith, cgaChar, withAttribute_low, if_neg hback, if_neg hnewline,
    if_neg hreturn, if_neg htab, crtStore, if_neg (Nat.not_lt.mpr h)]
  rfl

theorem screenRun_cons {ev : ScreenEvent} {s₁ : Screen} (h : ev.run s = .ok s₁) :
    screenRun (ev :: evs) s = screenRun evs s₁ := by
  rw [screenRun, List.foldlM_cons, h, ok_bind]
  rfl

/-- A run in which all positions that are read are on the screen stays in the video memory. -/
theorem screenRun_ok (h : s.crtPos.toNat < crtSize)
    (hevs : ∀ v ∈ evs.filterMap ScreenEvent.cursor?, OnScreen v) :
    ∃ s', screenRun evs s = .ok s' := by
  induction evs generalizing s with
  | nil => exact ⟨s, rfl⟩
  | cons ev evs ih =>
    cases ev with
    | loc hi lo =>
      rw [List.filterMap_cons_some (by rfl), List.forall_mem_cons] at hevs
      obtain ⟨s', hruns⟩ := ih (s := getCursorLoc { s with cursorHi := hi, cursorLo := lo })
        hevs.1 hevs.2
      exact ⟨s', (screenRun_cons rfl).trans hruns⟩
    | putc c =>
      obtain ⟨s₁, hput, h₁⟩ :
          ∃ s₁, (ScreenEvent.putc c).run s = .ok s₁ ∧ s₁.crtPos.toNat < crtSize := cgaPutc_ok h c
      rw [List.filterMap_cons_none (by rfl)] at hevs
      obtain ⟨s', hruns⟩ := ih h₁ hevs
      exact ⟨s', (screenRun_cons hput).trans hruns⟩

/-- The run that writes a letter after each position that it reads. -/
def probes (locs : List (BitVec 8 × BitVec 8)) : List ScreenEvent :=
  .putc 0x56#32 :: locs.flatMap fun v => [.loc v.1 v.2, .putc 0x56#32]

theorem probes_cons (v : BitVec 8 × BitVec 8) (locs : List (BitVec 8 × BitVec 8)) :
    probes (v :: locs) = .putc 0x56#32 :: .loc v.1 v.2 :: probes locs := rfl

theorem filterMap_probes (locs : List (BitVec 8 × BitVec 8)) :
    (probes locs).filterMap ScreenEvent.cursor? = locs := by
  induction locs with
  | nil => rfl
  | cons v locs ih =>
    rw [probes_cons, List.filterMap_cons_none (by rfl), List.filterMap_cons_some (by rfl), ih]

/-- If this run stays in the video memory, all its positions are on the screen. -/
theorem of_probes (h : screenRun (probes locs) s = .ok s') :
    s.crtPos.toNat < crtSize ∧ ∀ v ∈ locs, OnScreen v := by
  induction locs generalizing s with
  | nil =>
    refine ⟨?_, fun v hv => absurd hv List.not_mem_nil⟩
    by_contra hge
    rw [probes, screenRun, List.foldlM_cons, ScreenEvent.run,
      cgaPutc_of_ge (Nat.not_lt.mp hge) isPlain_letter, error_bind] at h
    exact absurd h (by simp)
  | cons v locs ih =>
    have hpos : s.crtPos.toNat < crtSize := by
      by_contra hge
      rw [probes_cons, screenRun, List.foldlM_cons, ScreenEvent.run,
        cgaPutc_of_ge (Nat.not_lt.mp hge) isPlain_letter, error_bind] at h
      exact absurd h (by simp)
    obtain ⟨s₁, hput, -⟩ : ∃ s₁, (ScreenEvent.putc 0x56#32).run s = .ok s₁ ∧
      s₁.crtPos.toNat < crtSize := cgaPutc_ok hpos 0x56#32
    rw [probes_cons, screenRun_cons hput, screenRun_cons rfl] at h
    obtain ⟨hv, hlocs⟩ := ih h
    exact ⟨hpos, List.forall_mem_cons.mpr ⟨hv, hlocs⟩⟩

/-- **The console stays in the video memory** exactly for positions of the cursor on the screen:
those that are read when it starts and, in any run that mixes output with further readings,
later. -/
theorem cga_cursor_iff (present : Bool) (cga mono : ℕ → BitVec 16) (hi lo : BitVec 8)
    (locs : List (BitVec 8 × BitVec 8)) :
    (∀ evs : List ScreenEvent, evs.filterMap ScreenEvent.cursor? = locs →
      ∃ s, screenRun evs (cgaInit present cga mono hi lo) = .ok s) ↔
    ∀ v ∈ (hi, lo) :: locs, (cursorLoc v.1 v.2).toNat < crtSize := by
  rw [List.forall_mem_cons, ← crtPos_cgaInit present cga mono hi lo]
  constructor
  · intro h
    obtain ⟨s, hrun⟩ := h (probes locs) (filterMap_probes locs)
    exact of_probes hrun
  · rintro ⟨hpos, hlocs⟩ evs rfl
    exact screenRun_ok hpos hlocs

/-- A guest has hidden the cursor right behind the last cell. -/
theorem not_cga_cursor_hidden : cursorLoc 0x07#8 0xD0#8 = 2000#16 ∧
    cgaPutc 0x56#32 (getCursorLoc ⟨fun _ => blankCell, 0#16, 0x07#8, 0xD0#8⟩) =
      .error (.crt 2000) :=
  ⟨by decide, cgaPutc_of_ge (by decide) isPlain_letter⟩

end JosVmx.Kern
