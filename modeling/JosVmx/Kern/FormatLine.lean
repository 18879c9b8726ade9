import JosVmx.Kern.Cprintf
import JosVmx.Kern.Strtol

/-!
# Formats of the kernel's messages

The messages of the kernel are made of plain text and of few escapes: hexadecimal numbers filled
with zeros, decimal numbers, strings and characters. Each of them prints a text of its own, and
`Prints.append` puts these together.

## Main results

* `prints_lit`, `prints_hex`, `prints_dec`, `prints_cstr`, `prints_chr` — what the parts of a
  message print
* `prints_message` — a message prints what its parts print
* `hexField_inj` — a field determines its number
-/

namespace JosVmx.Kern

open Lib

/-! ### Plain text -/

/-- The characters of a string constant, as they are printed. -/
def lit (s : String) : List Word := (bytes s).map ofUchar

/-- Text without an escape. -/
def Plain (f : List (BitVec 8)) : Prop := chr '%' ∉ f ∧ 0#8 ∉ f

instance instDecidablePlain (f : List (BitVec 8)) : Decidable (Plain f) :=
  inferInstanceAs (Decidable (_ ∧ _))

variable {f : List (BitVec 8)} {w : ℕ}

theorem items_append_text (hf : chr '%' ∉ f) (r : List (BitVec 8)) :
    items (f ++ r) = f.map Item.text ++ items r := by
  induction f with
  | nil => rfl
  | cons c f ih =>
    rw [List.mem_cons, not_or] at hf
    rw [List.cons_append, items_text (Ne.symm hf.1), ih hf.2]
    rfl

/-- Text without an escape is printed as it is. -/
theorem prints_text (hf : Plain f) : Prints f [] (f.map ofUchar) := by
  intro σ putch rest ap s hrest
  have hnul : 0#8 ∉ f ++ rest := by
    rw [List.mem_append]
    exact not_or.mpr ⟨hf.2, hrest⟩
  rw [vprintfmt_eq hnul, vprintfmt_eq hrest, formatText, formatTextWith, formatTextWith,
    items_append_text hf.1, perform_map_text, List.nil_append]
  cases perform nestedText (items rest) ap with
  | error e => rfl
  | ok r => exact congrArg Except.ok (emit_append ..)

theorem prints_lit (s : String) (hs : Plain (bytes s)) : Prints (bytes s) [] (lit s) :=
  prints_text hs

/-! ### Escapes -/

/-- A hexadecimal number, filled with zeros. -/
def hexField (width v : ℕ) : List Word := codeField .zero width v 16

/-- A hexadecimal number. -/
def hexText (v : ℕ) : List Word := (numeral 16 v).map digitChar

/-- An escape for one argument of 32 bits. -/
theorem prints_number (flag : Flag) (width : ℕ) (h : width < 2 ^ 31) (k : NumberConv) (v : Word) :
    Prints (chr '%' :: (numberModifiers flag (.digits width h) 0 ++ [k.toConv.char])) [.word v]
      (codeField flag width ((Arg.word v).value k.signed) k.base) :=
  (prints_number_iff flag (.digits width h) 0 k (a := .word v) ⟨trivial, trivial⟩).mpr rfl

theorem prints_hex (h : w < 10) (v : Word) :
    Prints [chr '%', chr '0', digitByte w, chr 'x'] [.word v] (hexField w v.toNat) := by
  have hprint := prints_number .zero w (h.trans (by decide)) .x v
  rw [numberModifiers, Count.source, numeral_of_lt h] at hprint
  exact hprint

theorem prints_hexText (v : Word) : Prints (bytes "%x") [.word v] (hexText v.toNat) := by
  have hprint := (prints_number_iff .plain .absent 0 .x (a := .word v) ⟨trivial, trivial⟩
    (t := codeField .plain 0 v.toNat 16)).mpr rfl
  rw [codeField, if_neg (by omega), Nat.zero_sub, List.replicate_zero, List.nil_append] at hprint
  exact hprint

theorem prints_dec (v : Word) : Prints (bytes "%d") [.word v] (decimalText v.toInt) := by
  have hprint := (prints_number_iff .plain .absent 0 .d (a := .word v) ⟨trivial, trivial⟩
    (t := codeField .plain 0 v.toInt 10)).mpr rfl
  rw [codeField, Nat.zero_sub, List.replicate_zero, List.nil_append] at hprint
  exact hprint

theorem prints_chr (v : Word) : Prints (bytes "%c") [.word v] [v] :=
  (prints_iff (m := []) (k := .c) (by decide) rfl).mpr rfl

theorem prints_str {p : List (BitVec 8)} (hp : 0#8 ∉ p) (hlen : p.length < 2 ^ 31 - 1) :
    Prints (bytes "%s") [.str (some (p ++ [0#8]))] (p.map ofChar) := by
  refine (prints_iff (m := []) (k := .s) (by decide) ?_).mpr rfl
  rw [Item.perform, modifiers]
  simp only [ok_bind, Conv.text, vaStr, Spec.finish, Option.getD_some, stringText_start hp hlen]

/-- A pointer, with `0x` in front. -/
def ptrText (v : Word) : List Word := lit "0x" ++ hexText v.toNat

theorem prints_ptr (v : Word) : Prints (bytes "%p") [.word v] (ptrText v) := by
  have hnum : numberText 16 Spec.start.padc v.toNat Spec.start.width = hexText v.toNat :=
    numberText_of_nonpos (by decide) (v.isLt.trans (by decide)) (by decide) _
  refine (prints_iff (m := []) (k := .p) (by decide) ?_).mpr rfl
  rw [Item.perform, modifiers]
  simp only [ok_bind, Conv.text, vaWord, Spec.finish, hnum]
  rfl

/-- The flag `#` changes nothing in a number. -/
theorem prints_hexAlt (v : Word) : Prints (bytes "%#x") [.word v] (hexText v.toNat) := by
  have hnum : numberText 16 Spec.start.padc v.toNat Spec.start.width = hexText v.toNat :=
    numberText_of_nonpos (by decide) (v.isLt.trans (by decide)) (by decide) _
  refine (prints_iff (m := [chr '#']) (k := .x) (by decide) ?_).mpr rfl
  have hmodify : modifiers [chr '#'] none .start [.word v] =
      .ok ({ Spec.start with altflag := true }, [.word v]) := by
    rfl
  rw [Item.perform, hmodify, ← hnum]
  rfl

/-- A string that ends in its bytes is printed up to its NUL. -/
theorem prints_cstr {p : List (BitVec 8)} (hp : 0#8 ∈ p) (hlen : (cstr p).length < 2 ^ 31 - 1) :
    Prints (bytes "%s") [.str (some p)] ((cstr p).map ofChar) := by
  have hne : ∀ b ∈ cstr p, decide (b ≠ 0#8) = true :=
    List.all_eq_true.mp List.all_takeWhile
  have hnul : 0#8 ∉ cstr p := fun h => absurd rfl (of_decide_eq_true (hne _ h))
  have hshown : shown (-1#32) p = cstr p := if_pos (by decide)
  have hshown' : shown (-1#32) (cstr p ++ [0#8]) = cstr p := by
    rw [shown, if_pos (by decide), cstr, List.takeWhile_append_of_pos hne]
    exact List.append_nil _
  -- what stands behind the NUL is not looked at
  have htext : stringText .start p = stringText .start (cstr p ++ [0#8]) := by
    have hcov : Covers (-1#32) p := .inl hp
    have hcov' : Covers (-1#32) (cstr p ++ [0#8]) :=
      .inl (List.mem_append_right _ (List.mem_singleton_self _))
    have hwidth : ¬ (0 < (-1#32).toInt ∧ ofChar (chr ' ') ≠ ofChar (chr '-')) :=
      fun h => absurd h.1 (by decide)
    rw [stringText, stringText, Spec.start]
    simp only [if_pos hcov, if_pos hcov', if_neg hwidth, hshown, hshown']
  refine (prints_iff (m := []) (k := .s) (by decide) ?_).mpr rfl
  rw [Item.perform, modifiers]
  simp only [ok_bind, Conv.text, vaStr, Spec.finish, Option.getD_some, htext,
    stringText_start hnul hlen]

/-! ### Messages -/

/-- A part of a message, with its argument. -/
inductive Piece
  | text (s : String)
  | hex (width : ℕ) (v : Word)
  | hexMin (v : Word)
  | hexAlt (v : Word)
  | dec (v : Word)
  | str (p : List (BitVec 8))
  | char (v : Word)

namespace Piece

def fmt : Piece → List (BitVec 8)
  | text s => bytes s
  | hex width _ => [chr '%', chr '0', digitByte width, chr 'x']
  | hexMin _ => bytes "%x"
  | hexAlt _ => bytes "%#x"
  | dec _ => bytes "%d"
  | str _ => bytes "%s"
  | char _ => bytes "%c"

def args : Piece → List Arg
  | text _ => []
  | hex _ v | hexMin v | hexAlt v | dec v | char v => [.word v]
  | str p => [.str (some p)]

/-- What is printed for a part. -/
def out : Piece → List Word
  | text s => lit s
  | hex width v => hexField width v.toNat
  | hexMin v | hexAlt v => hexText v.toNat
  | dec v => decimalText v.toInt
  | str p => (cstr p).map ofChar
  | char v => [v]

/-- A part that can be printed. -/
def Ok : Piece → Prop
  | text s => Plain (bytes s)
  | hex width _ => width < 10
  | str p => 0#8 ∈ p ∧ (cstr p).length < 2 ^ 31 - 1
  | hexMin _ | hexAlt _ | dec _ | char _ => True

theorem Ok.nul_notMem {p : Piece} (h : p.Ok) : 0#8 ∉ p.fmt := by
  have hdigit : ∀ d < 10, 0#8 ∉ [chr '%', chr '0', digitByte d, chr 'x'] := by decide
  have hplain : ∀ f ∈ [bytes "%x", bytes "%#x", bytes "%d", bytes "%s", bytes "%c"], 0#8 ∉ f := by
    decide
  simp only [List.forall_mem_cons] at hplain
  obtain ⟨hx, halt, hd, hs, hc, -⟩ := hplain
  cases p with
  | text s => exact h.2
  | hex width v => exact hdigit width h
  | hexMin v => exact hx
  | hexAlt v => exact halt
  | dec v => exact hd
  | str p => exact hs
  | char v => exact hc

theorem Ok.prints {p : Piece} (h : p.Ok) : Prints p.fmt p.args p.out := by
  cases p with
  | text s => exact prints_lit s h
  | hex width v => exact prints_hex h v
  | hexMin v => exact prints_hexText v
  | hexAlt v => exact prints_hexAlt v
  | dec v => exact prints_dec v
  | str p => exact prints_cstr h.1 h.2
  | char v => exact prints_chr v

end Piece

/-- A message prints its parts one after the other. -/
theorem prints_message {ps : List Piece} (h : ∀ p ∈ ps, p.Ok) :
    0#8 ∉ ps.flatMap Piece.fmt ∧
      Prints (ps.flatMap Piece.fmt) (ps.flatMap Piece.args) (ps.flatMap Piece.out) := by
  induction ps with
  | nil => exact ⟨List.not_mem_nil, prints_text ⟨List.not_mem_nil, List.not_mem_nil⟩⟩
  | cons p ps ih =>
    obtain ⟨hp, hps⟩ := List.forall_mem_cons.mp h
    obtain ⟨hnul, hprints⟩ := ih hps
    simp only [List.flatMap_cons]
    refine ⟨?_, hp.prints.append hprints hnul⟩
    rw [List.mem_append]
    exact not_or.mpr ⟨hp.nul_notMem, hnul⟩

/-- The parts of a call of `cprintf`. -/
structure Call.Says (c : Call) (ps : List Piece) : Prop where
  ok : ∀ p ∈ ps, p.Ok
  fmt : c.fmt = ps.flatMap Piece.fmt
  args : c.args = ps.flatMap Piece.args

theorem Call.Says.prints {c : Call} {ps : List Piece} (h : c.Says ps) :
    c.Prints (ps.flatMap Piece.out) := by
  obtain ⟨hnul, hprints⟩ := prints_message h.ok
  rw [Call.Prints, h.fmt, h.args]
  exact ⟨hnul, hprints.isText⟩

/-- Text only. -/
theorem Call.says_text {c : Call} (s : String) (hs : Plain (bytes s)) (hfmt : c.fmt = bytes s)
    (hargs : c.args = []) : c.Says [.text s] where
  ok := List.forall_mem_singleton.mpr hs
  fmt := by rw [hfmt, List.flatMap_singleton, Piece.fmt]
  args := by rw [hargs, List.flatMap_singleton, Piece.args]

/-- What some messages print. -/
def messagesText (ms : List (List Piece)) : List Word := ms.flatMap (·.flatMap Piece.out)

theorem forall₂_prints {cs : List Call} {ms : List (List Piece)}
    (h : List.Forall₂ Call.Says cs ms) :
    List.Forall₂ Call.Prints cs (ms.map (·.flatMap Piece.out)) := by
  rw [List.forall₂_map_right_iff]
  exact h.imp fun _ _ hsays => hsays.prints

/-- Messages are typed on the terminal. -/
theorem Shown.says {s s₀ : Screen} {p : Lib.Paper (BitVec 16)} {cs : List Call}
    {ms : List (List Piece)} (h : Shown s₀ s p) (hcs : List.Forall₂ Call.Says cs ms) :
    ∃ s', Kern.cprintfs cs s = .ok s' ∧
      Shown s₀ s' ((messagesText ms).foldl (fun p c => typeChar c p) p) := by
  rw [messagesText, List.flatMap_def]
  exact h.cprintfs (forall₂_prints hcs)

/-! ### Reading a field -/

theorem digitChar_inj {d e : ℕ} (hd : d < 16) (he : e < 16) (h : digitChar d = digitChar e) :
    d = e := by
  have hall : ∀ d < 16, ∀ e < 16, digitChar d = digitChar e → d = e := by decide
  exact hall d hd e he h

/-- Digits that are printed alike are the same. -/
theorem map_digitChar_inj {ds es : List ℕ} (hds : ∀ d ∈ ds, d < 16) (hes : ∀ e ∈ es, e < 16)
    (h : ds.map digitChar = es.map digitChar) : ds = es := by
  induction ds generalizing es with
  | nil => exact (List.map_eq_nil_iff.mp h.symm).symm
  | cons d ds ih =>
    cases es with
    | nil => exact absurd h (by simp)
    | cons e es =>
      rw [List.map_cons, List.map_cons, List.cons.injEq] at h
      obtain ⟨hd, hds⟩ := List.forall_mem_cons.mp hds
      obtain ⟨he, hes⟩ := List.forall_mem_cons.mp hes
      rw [digitChar_inj hd he h.1, ih hds hes h.2]

/-- The digits of a field, with the zeros in front of them. -/
theorem hexField_eq (w v : ℕ) :
    hexField w v =
      (List.replicate (w - (numeral 16 v).length) 0 ++ numeral 16 v).map digitChar := by
  rw [hexField, codeField, if_neg (by omega), List.map_append, List.map_replicate]
  rfl

theorem value_zeros_numeral (n v : ℕ) :
    (List.replicate n 0 ++ numeral 16 v).foldl (fun a d => a * 16 + d) 0 = v := by
  rw [List.foldl_append, value_zeros, value_numeral]

/-- A field determines its number. -/
theorem hexField_inj {w v v' : ℕ} (h : hexField w v = hexField w v') : v = v' := by
  have hlt (n v : ℕ) : ∀ d ∈ List.replicate n 0 ++ numeral 16 v, d < 16 := fun d hd =>
    lt_of_mem_zeros_numeral (.inr (.inr rfl)) hd
  rw [hexField_eq, hexField_eq] at h
  have hdigits := map_digitChar_inj (hlt _ _) (hlt _ _) h
  rw [← value_zeros_numeral (w - (numeral 16 v).length) v, hdigits, value_zeros_numeral]

theorem hexField_zero (v : ℕ) : hexField 0 v = hexText v := by
  rw [hexField_eq, Nat.zero_sub, List.replicate_zero, List.nil_append, hexText]

theorem hexText_inj {v v' : ℕ} (h : hexText v = hexText v') : v = v' := by
  rw [← hexField_zero, ← hexField_zero] at h
  exact hexField_inj h

/-- The length of a field that is wide enough. -/
theorem length_hexField {w v : ℕ} (hw : 0 < w) (h : v < 16 ^ w) : (hexField w v).length = w := by
  have hlen := length_numeral_le (by decide : 1 < 16) hw h
  rw [hexField_eq, List.length_map, List.length_append, List.length_replicate]
  omega

end JosVmx.Kern
