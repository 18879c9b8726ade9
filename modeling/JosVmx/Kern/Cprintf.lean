import JosVmx.Kern.Printf
import JosVmx.Kern.Screen

/-!
# Printing on the screen

`cprintf` of `kern/printf.c` on the text screen of `kern/console.c`: `putch` hands every character
of a text to `cputchar`, which is `cga_putc`.

A format prints its text and goes on behind it, and `cga_putc` does to the screen what the
character does on a terminal. Together, all that a kernel prints is one text on one terminal.

## Main definitions

* `Kern.cprintf` — the function of the source
* `Call` — a call of it

## Main results

* `Kern.cprintf_terminal` — any calls, one after the other, type their texts on the terminal
-/

namespace JosVmx.Kern

open Lib

/-! ### The functions of the source -/

/-- What goes wrong when something is printed. -/
inductive CprintfFault
  | format (e : FormatFault)
  | console (e : ConsoleFault)
  deriving DecidableEq, Repr

/-- `cputchar`, on a screen that has not been left so far. -/
def cputchar (c : Word) (s : Except ConsoleFault Screen) : Except ConsoleFault Screen := do
  let s ← s
  cgaPutc c s

/-- `cprintf`: what it returns, and the screen that it leaves. -/
def cprintf (f : List (BitVec 8)) (ap : List Arg) (s : Screen) :
    Except CprintfFault (Word × Screen) :=
  match vcprintf cputchar f ap (.ok s) with
  | .error e => .error (.format e)
  | .ok (_, .error e) => .error (.console e)
  | .ok (cnt, .ok s) => .ok (cnt, s)

/-- A call of `cprintf`, by its format without the NUL and its arguments. -/
structure Call where
  fmt : List (BitVec 8)
  args : List Arg

/-- Calls one after the other. Nothing in the kernel looks at what they return. -/
def cprintfs : List Call → Screen → Except CprintfFault Screen
  | [], s => .ok s
  | c :: cs, s => do
    let (_, s) ← cprintf (c.fmt ++ [0#8]) c.args s
    cprintfs cs s

/-! ### A call -/

/-- The arguments have the types that the format asks for. -/
def Call.WellTyped (c : Call) : Prop := 0#8 ∉ c.fmt ∧ Enough (argTypes c.fmt) c.args

/-- What a call prints. -/
def Call.Prints (c : Call) (text : List Word) : Prop := 0#8 ∉ c.fmt ∧ Text c.fmt c.args text

variable {s s₀ : Screen} {p : Paper (BitVec 16)} {f : List (BitVec 8)} {ap : List Arg}
  {text : List Word} {c : Call} {cs : List Call}

theorem Call.WellTyped.prints (h : c.WellTyped) : ∃ text, c.Prints text := by
  obtain ⟨hnul, hargs⟩ := h
  obtain ⟨ts, -, hts⟩ := perform_of_enough (items c.fmt) hargs
  refine ⟨ts.flatten, hnul, (text_iff hnul).mpr ?_⟩
  rw [formatText, formatTextWith, hts]
  rfl

/-- A character after one that has left the screen is not put anywhere. -/
theorem emit_cputchar (text : List Word) (s : Screen) :
    emit cputchar text (.ok s) = cgaPuts text s := by
  have herror (text : List Word) (e : ConsoleFault) : emit cputchar text (.error e) = .error e := by
    induction text with
    | nil => rfl
    | cons c text ih => exact ih
  induction text generalizing s with
  | nil => rfl
  | cons c text ih =>
    rw [emit_cons, cgaPuts, List.foldlM_cons, cputchar, ok_bind]
    cases hput : cgaPutc c s with
    | error e => exact herror text e
    | ok s' => exact ih s'

/-- A call types its text on the terminal. -/
theorem Shown.cprintf (h : Shown s₀ s p) (hf : 0#8 ∉ f) (htext : Text f ap text) :
    ∃ s', Kern.cprintf (f ++ [0#8]) ap s = .ok (0#32, s') ∧
      Shown s₀ s' (text.foldl (fun p c => typeChar c p) p) := by
  obtain ⟨s', hputs, h'⟩ := h.puts text
  refine ⟨s', ?_, h'⟩
  rw [Kern.cprintf, vcprintf_eq hf htext, emit_cputchar, hputs]

/-! ### Several calls -/

theorem Shown.cprintfs (h : Shown s₀ s p) {texts : List (List Word)}
    (htexts : List.Forall₂ Call.Prints cs texts) :
    ∃ s', Kern.cprintfs cs s = .ok s' ∧
      Shown s₀ s' (texts.flatten.foldl (fun p c => typeChar c p) p) := by
  induction htexts generalizing s p with
  | nil => exact ⟨s, rfl, h⟩
  | cons hcall _ ih =>
    obtain ⟨s₁, hprint, h₁⟩ := h.cprintf hcall.1 hcall.2
    obtain ⟨s', hrest, h'⟩ := ih h₁
    refine ⟨s', ?_, ?_⟩
    · rw [Kern.cprintfs, hprint, ok_bind]
      exact hrest
    · rw [List.flatten_cons, List.foldl_append]
      exact h'

theorem exists_prints (h : ∀ c ∈ cs, c.WellTyped) : ∃ texts, List.Forall₂ Call.Prints cs texts := by
  induction cs with
  | nil => exact ⟨[], .nil⟩
  | cons c cs ih =>
    obtain ⟨hc, hcs⟩ := List.forall_mem_cons.mp h
    obtain ⟨text, htext⟩ := hc.prints
    obtain ⟨texts, htexts⟩ := ih hcs
    exact ⟨text :: texts, .cons htext htexts⟩

/-- **The console is a terminal for all that is printed.** From every screen with its cursor on it,
any calls with arguments of the right types print their texts, without an access outside of the
formats, the arguments and the screen, and the screen shows the window of a terminal on which all
these texts are typed one after the other. -/
theorem cprintf_terminal (s : Screen) (hpos : s.crtPos.toNat < crtSize) (cs : List Call)
    (hcs : ∀ c ∈ cs, c.WellTyped) :
    ∃ texts s', List.Forall₂ Call.Prints cs texts ∧ cprintfs cs s = .ok s' ∧
      s'.crtPos.toNat < crtSize ∧ (∀ i, crtSize ≤ i → s'.crtBuf i = s.crtBuf i) ∧
      (texts.flatten.foldl (fun p c => typeChar c p) s.paper).Shows crtRows crtCols blankCell
        s'.crtBuf s'.crtPos.toNat := by
  obtain ⟨texts, htexts⟩ := exists_prints hcs
  obtain ⟨s', hrun, h⟩ := (Screen.shown_paper hpos).cprintfs htexts
  exact ⟨texts, s', htexts, hrun, h.lt, h.frame, h.shows⟩

/-- A number and a line at the last cell of a screen. -/
theorem cprintf_terminal_last :
    ∃ texts s', List.Forall₂ Call.Prints
        [⟨bytes "%d", [.word 12#32]⟩, ⟨bytes "%s\n", [.str none]⟩] texts ∧
      cprintfs [⟨bytes "%d", [.word 12#32]⟩, ⟨bytes "%s\n", [.str none]⟩]
        ⟨fun _ => blankCell, 1999#16, 0#8, 0#8⟩ = .ok s' ∧
      s'.crtPos.toNat < crtSize ∧ (∀ i, crtSize ≤ i → s'.crtBuf i = blankCell) ∧
      (texts.flatten.foldl (fun p c => typeChar c p)
        (Screen.paper ⟨fun _ => blankCell, 1999#16, 0#8, 0#8⟩)).Shows crtRows crtCols blankCell
          s'.crtBuf s'.crtPos.toNat := by
  refine cprintf_terminal ⟨fun _ => blankCell, 1999#16, 0#8, 0#8⟩ (by decide) _ fun c hc => ?_
  rcases List.mem_cons.mp hc with rfl | hc
  · exact ⟨by decide, trivial, trivial⟩
  · obtain rfl := List.mem_singleton.mp hc
    exact ⟨by decide, fun b hb => absurd hb (by simp), trivial⟩

end JosVmx.Kern
