import JosVmx.Inc.Mmu
import JosVmx.Lib.Loop

/-!
# Formatted printing

`vprintfmt` of `lib/printfmt.c` and what it calls. It sends characters to a function `putch`
that the caller gives it together with a pointer `putdat` to its own data; here that is a
function on an arbitrary type of states.

A format is the bytes from its pointer on, with the NUL at its end, and the positions in it are
integers: the code moves backwards to print an escape that it does not know. An argument is a
word, a `long long` or a string; of a string there are the bytes that may be read. Arithmetic
is that of the machine.

## Main definitions

* `vprintfmt`, `printfmt`, `printnum` — the functions of the source
* `FormatFault` — what goes wrong when an access is not covered
-/

namespace JosVmx.Kern

open Lib

variable {σ : Type}

/-- What goes wrong while a format is printed. -/
inductive FormatFault
  /-- a byte outside the format -/
  | fmt (i : ℤ)
  /-- a byte behind those of a string argument -/
  | str
  /-- an address outside `error_string` -/
  | errorString (i : Word)
  /-- no argument left, or one of another type -/
  | arg
  /-- a call that calls itself again -/
  | recursion
  /-- a loop that goes on -/
  | diverge
  deriving DecidableEq, Repr

/-- A character constant. -/
def chr (c : Char) : BitVec 8 := BitVec.ofNat 8 c.toNat

/-- The bytes of a string constant, without the NUL. -/
def bytes (s : String) : List (BitVec 8) := s.toList.map chr

/-- A `char` as an `int`. -/
def ofChar (c : BitVec 8) : Word := c.signExtend 32

/-- An `unsigned char` as an `int`. -/
def ofUchar (c : BitVec 8) : Word := c.setWidth 32

/-! ### Arguments -/

/-- An argument. A pointer that is printed as such is a word; a string is null, or given by the
bytes that may be read from the pointer on. -/
inductive Arg
  | word (v : Word)
  | dword (v : BitVec 64)
  | str (p : Option (List (BitVec 8)))
  deriving DecidableEq, Repr

/-- `va_arg(ap, int)`, and of any other type of 32 bits that is not a string. -/
def vaWord : List Arg → Except FormatFault (Word × List Arg)
  | .word v :: ap => .ok (v, ap)
  | _ => .error .arg

/-- `va_arg(ap, long long)`. -/
def vaDword : List Arg → Except FormatFault (BitVec 64 × List Arg)
  | .dword v :: ap => .ok (v, ap)
  | _ => .error .arg

/-- `va_arg(ap, char *)`. -/
def vaStr : List Arg → Except FormatFault (Option (List (BitVec 8)) × List Arg)
  | .str p :: ap => .ok (p, ap)
  | _ => .error .arg

/-- `getuint`. An `unsigned long` is an `unsigned int`. -/
def getuint (ap : List Arg) (lflag : Word) : Except FormatFault (BitVec 64 × List Arg) :=
  if 2 ≤ lflag.toInt then vaDword ap
  else do
    let (v, ap) ← vaWord ap
    .ok (v.setWidth 64, ap)

/-- `getint`. A `long` is an `int`. -/
def getint (ap : List Arg) (lflag : Word) : Except FormatFault (BitVec 64 × List Arg) :=
  if 2 ≤ lflag.toInt then vaDword ap
  else do
    let (v, ap) ← vaWord ap
    .ok (v.signExtend 64, ap)

/-! ### Numbers and strings -/

/-- `for (; width > 0; width--) putch(c, putdat)`. -/
def putPad (putch : Word → σ → σ) (c width : Word) (s : σ) : σ := (putch c)^[width.toInt.toNat] s

/-- `"0123456789abcdef"[d]`. -/
def digitChar (d : ℕ) : Word := ofChar ((bytes "0123456789abcdef").getD d 0#8)

/-- `printnum`, for a number of at most `fuel` digits. -/
def printnum (putch : Word → σ → σ) (base padc : Word) :
    ℕ → BitVec 64 → Word → σ → Except FormatFault σ
  | 0, _, _, _ => .error .diverge
  | fuel + 1, num, width, s => do
    let s ←
      if base.setWidth 64 ≤ num then
        printnum putch base padc fuel (num / base.setWidth 64) (width - 1#32) s
      else
        -- `while (--width > 0)`
        .ok (putPad putch padc (width - 1#32) s)
    .ok (putch (digitChar (num % base.setWidth 64).toNat) s)

/-- `strnlen`, with what has been counted so far. -/
def strnlen (size n : Word) : List (BitVec 8) → Except FormatFault Word
  | [] => if size = 0#32 then .ok n else .error .str
  | b :: p => if size = 0#32 ∨ b = 0#8 then .ok n else strnlen (size - 1#32) (n + 1#32) p

/-- What the flags, the width and the precision of an escape set. -/
structure Spec where
  padc : Word
  width : Word
  precision : Word
  lflag : Word
  altflag : Bool
  deriving DecidableEq, Repr

/-- The loop that prints the characters of a string, with the width that it leaves. -/
def putChars (putch : Word → σ → σ) (altflag : Bool) :
    List (BitVec 8) → Word → Word → σ → Except FormatFault (Word × σ)
  | [], _, _, _ => .error .str
  | b :: p, precision, width, s =>
    if b = 0#8 then .ok (width, s)
    else
      let c := if altflag ∧ ((ofChar b).toInt < 0x20 ∨ 0x7E < (ofChar b).toInt) then
        ofChar (chr '?') else ofChar b
      if precision.toInt < 0 then
        putChars putch altflag p precision (width - 1#32) (putch c s)
      else if 0 ≤ (precision - 1#32).toInt then
        putChars putch altflag p (precision - 1#32) (width - 1#32) (putch c s)
      else .ok (width, s)

/-- The escape `%s`, for the bytes of its argument. -/
def putString (putch : Word → σ → σ) (sp : Spec) (p : List (BitVec 8)) (s : σ) :
    Except FormatFault σ := do
  let (width, s) ←
    if 0 < sp.width.toInt ∧ sp.padc ≠ ofChar (chr '-') then do
      let n ← strnlen sp.precision 0#32 p
      let width := sp.width - n
      .ok (if 0 < width.toInt then 0#32 else width, putPad putch sp.padc width s)
    else .ok (sp.width, s)
  let (width, s) ← putChars putch sp.altflag p sp.precision width s
  .ok (putPad putch (ofChar (chr ' ')) width s)

/-! ### Errors -/

/-- `error_string`. -/
def errorStrings : List (Option (List (BitVec 8))) :=
  [none, some (bytes "unspecified error"), some (bytes "bad environment"),
    some (bytes "invalid parameter"), some (bytes "out of memory"),
    some (bytes "out of environments"), some (bytes "segmentation fault")]

/-- `MAXERROR`. -/
def maxerror : Word := 6#32

/-- `error_string[i]`. An entry has four bytes, and an address has 32 bits. -/
def errorString (i : Word) : Except FormatFault (Option (List (BitVec 8))) :=
  if h : (i * 4#32).toNat / 4 < errorStrings.length then
    .ok (errorStrings.get ⟨(i * 4#32).toNat / 4, h⟩)
  else .error (.errorString i)

/-- The index `err` after `if (err < 0) err = -err`. -/
def errorIndex (err : Word) : Word := if err.toInt < 0 then -err else err

/-- The escape `%e`, when `printfmt` is the function that it calls. -/
def putError (printfmt : List (BitVec 8) → List Arg → σ → Except FormatFault σ) (err : Word)
    (s : σ) : Except FormatFault σ :=
  let err := errorIndex err
  if maxerror.toInt < err.toInt then
    printfmt (bytes "error %d" ++ [0#8]) [.word err] s
  else do
    match ← errorString err with
    | none => printfmt (bytes "error %d" ++ [0#8]) [.word err] s
    | some p => printfmt (bytes "%s" ++ [0#8]) [.str (some (p ++ [0#8]))] s

/-! ### Escapes -/

/-- A byte of the format. -/
def fmtByte (f : List (BitVec 8)) (i : ℤ) : Except FormatFault (BitVec 8) :=
  if 0 ≤ i ∧ i < f.length then .ok (f.getD i.toNat 0#8) else .error (.fmt i)

def isDigit (ch : BitVec 8) : Bool := chr '0' ≤ ch ∧ ch ≤ chr '9'

/-- The labels of the switch that go on with the escape. -/
inductive Modifier
  | minus
  | zero
  | digit
  | star
  | dot
  | alt
  | long
  deriving DecidableEq, Repr

def modifier (ch : BitVec 8) : Option Modifier :=
  if ch = chr '-' then some .minus
  else if ch = chr '0' then some .zero
  else if isDigit ch then some .digit
  else if ch = chr '*' then some .star
  else if ch = chr '.' then some .dot
  else if ch = chr '#' then some .alt
  else if ch = chr 'l' then some .long
  else none

/-- The labels of the switch that end the escape. -/
inductive Conv
  | c
  | e
  | s
  | d
  | u
  | o
  | p
  | x
  | percent
  deriving DecidableEq, Repr

def conv (ch : BitVec 8) : Option Conv :=
  if ch = chr 'c' then some .c
  else if ch = chr 'e' then some .e
  else if ch = chr 's' then some .s
  else if ch = chr 'd' then some .d
  else if ch = chr 'u' then some .u
  else if ch = chr 'o' then some .o
  else if ch = chr 'p' then some .p
  else if ch = chr 'x' then some .x
  else if ch = chr '%' then some .percent
  else none

/-- An escape while it is read. -/
structure Escape where
  spec : Spec
  fmt : ℤ
  ap : List Arg

/-- What the escape starts with. -/
def Spec.start : Spec := ⟨ofChar (chr ' '), -1#32, -1#32, 0#32, false⟩

/-- The label `process_precision`, after `precision` has been set. -/
def Spec.processPrecision (sp : Spec) (precision : Word) : Spec :=
  if sp.width.toInt < 0 then { sp with width := precision, precision := -1#32 }
  else { sp with precision := precision }

/-- A round of the loop over the digits of a number, after the first one. -/
def digitRound (f : List (BitVec 8)) (st : Word × ℤ) : Except FormatFault (Option (Word × ℤ)) := do
  let ch ← fmtByte f st.2
  if isDigit ch then .ok (some (st.1 * 10#32 + ofChar ch - ofChar (chr '0'), st.2 + 1))
  else .ok none

/-- The part of the switch that goes on with the escape. It stops in front of any other
character. -/
def escapeRound (f : List (BitVec 8)) (esc : Escape) : Except FormatFault (Option Escape) := do
  let ch ← fmtByte f esc.fmt
  let sp := esc.spec
  match modifier ch with
  | some .minus =>
    .ok (some { esc with spec := { sp with padc := ofChar (chr '-') }, fmt := esc.fmt + 1 })
  | some .zero =>
    .ok (some { esc with spec := { sp with padc := ofChar (chr '0') }, fmt := esc.fmt + 1 })
  | some .digit => do
    let (precision, fmt) ← whileLoop .diverge (digitRound f) (f.length + 1)
      (0#32 * 10#32 + ofChar ch - ofChar (chr '0'), esc.fmt + 1)
    .ok (some { esc with spec := sp.processPrecision precision, fmt := fmt })
  | some .star => do
    let (precision, ap) ← vaWord esc.ap
    .ok (some ⟨sp.processPrecision precision, esc.fmt + 1, ap⟩)
  | some .dot =>
    let width := if sp.width.toInt < 0 then 0#32 else sp.width
    .ok (some { esc with spec := { sp with width := width }, fmt := esc.fmt + 1 })
  | some .alt =>
    .ok (some { esc with spec := { sp with altflag := true }, fmt := esc.fmt + 1 })
  | some .long =>
    .ok (some { esc with spec := { sp with lflag := sp.lflag + 1#32 }, fmt := esc.fmt + 1 })
  | none => .ok none

/-- A conversion, when `printfmt` is the function that `%e` calls. -/
def convert (printfmt : List (BitVec 8) → List Arg → σ → Except FormatFault σ)
    (putch : Word → σ → σ) (k : Conv) (sp : Spec) (ap : List Arg) (s : σ) :
    Except FormatFault (List Arg × σ) :=
  match k with
  | .c => do
    let (v, ap) ← vaWord ap
    .ok (ap, putch v s)
  | .e => do
    let (err, ap) ← vaWord ap
    let s ← putError printfmt err s
    .ok (ap, s)
  | .s => do
    let (p, ap) ← vaStr ap
    let s ← putString putch sp (p.getD (bytes "(null)" ++ [0#8])) s
    .ok (ap, s)
  | .d => do
    let (num, ap) ← getint ap sp.lflag
    let (num, s) := if num.toInt < 0 then (-num, putch (ofChar (chr '-')) s) else (num, s)
    let s ← printnum putch 10#32 sp.padc 64 num sp.width s
    .ok (ap, s)
  | .u => do
    let (num, ap) ← getuint ap sp.lflag
    let s ← printnum putch 10#32 sp.padc 64 num sp.width s
    .ok (ap, s)
  | .o => do
    let (num, ap) ← getuint ap sp.lflag
    let s ← printnum putch 8#32 sp.padc 64 num sp.width s
    .ok (ap, s)
  | .p => do
    let s := putch (ofChar (chr 'x')) (putch (ofChar (chr '0')) s)
    let (v, ap) ← vaWord ap
    let s ← printnum putch 16#32 sp.padc 64 (v.setWidth 64) sp.width s
    .ok (ap, s)
  | .x => do
    let (num, ap) ← getuint ap sp.lflag
    let s ← printnum putch 16#32 sp.padc 64 num sp.width s
    .ok (ap, s)
  | .percent => .ok (ap, putch (ofUchar (chr '%')) s)

/-- A round of the loop that moves back to the start of an escape. -/
def rewindRound (f : List (BitVec 8)) (fmt : ℤ) : Except FormatFault (Option ℤ) := do
  let ch ← fmtByte f (fmt - 1)
  if ch ≠ chr '%' then .ok (some (fmt - 1)) else .ok none

/-! ### The whole function -/

/-- The state of `vprintfmt` between two characters or escapes. -/
structure Printing (σ : Type) where
  fmt : ℤ
  ap : List Arg
  putdat : σ

/-- An ordinary character, or an escape. -/
def formatRound (printfmt : List (BitVec 8) → List Arg → σ → Except FormatFault σ)
    (putch : Word → σ → σ) (f : List (BitVec 8)) (st : Printing σ) :
    Except FormatFault (Option (Printing σ)) := do
  let ch ← fmtByte f st.fmt
  if ch = chr '%' then do
    let esc ← whileLoop .diverge (escapeRound f) (f.length + 1) ⟨.start, st.fmt + 1, st.ap⟩
    let ch ← fmtByte f esc.fmt
    match conv ch with
    | some k => do
      let (ap, s) ← convert printfmt putch k esc.spec esc.ap st.putdat
      .ok (some ⟨esc.fmt + 1, ap, s⟩)
    | none => do
      -- print it literally, from the character after the `%` on
      let fmt ← whileLoop .diverge (rewindRound f) (f.length + 1) (esc.fmt + 1 - 1)
      .ok (some ⟨fmt, esc.ap, putch (ofChar (chr '%')) st.putdat⟩)
  else if ch = 0#8 then .ok none
  else .ok (some ⟨st.fmt + 1, st.ap, putch (ofUchar ch) st.putdat⟩)

/-- `vprintfmt`, when `printfmt` is the function that `%e` calls. -/
def vprintfmtWith (printfmt : List (BitVec 8) → List Arg → σ → Except FormatFault σ)
    (putch : Word → σ → σ) (f : List (BitVec 8)) (ap : List Arg) (s : σ) :
    Except FormatFault σ := do
  let st ← whileLoop .diverge (formatRound printfmt putch f) (f.length + 1) ⟨0, ap, s⟩
  .ok st.putdat

/-- `printfmt`, as `%e` calls it: its formats have no `%e`. -/
def printfmt (putch : Word → σ → σ) : List (BitVec 8) → List Arg → σ → Except FormatFault σ :=
  vprintfmtWith (fun _ _ _ => .error .recursion) putch

/-- `vprintfmt`. -/
def vprintfmt (putch : Word → σ → σ) : List (BitVec 8) → List Arg → σ → Except FormatFault σ :=
  vprintfmtWith (printfmt putch) putch

end JosVmx.Kern
