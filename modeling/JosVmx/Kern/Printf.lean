import JosVmx.Kern.FormatAccess
import JosVmx.Kern.FormatField
import JosVmx.Lib.ByteMem
import Mathlib.Data.List.Induction

/-!
# `vsnprintf` and `vcprintf`

The two callers of `vprintfmt`. One stores the characters in a buffer and counts them, the other
sends them to the console.

A callback gets the characters of the text one after the other, so an invariant over texts that
grow at their end describes its whole run. The callback of the console increments its pointer to
the count, and not the count, so `vcprintf` always returns zero.

## Main results

* `vsnprintf_truncates` — what is stored, and what is returned
* `printf_agree_iff` — when the two functions agree
-/

namespace JosVmx.Kern

open Lib

variable {f : List (BitVec 8)} {ap : List Arg} {text : List Word} {κ : Type}

/-! ### The functions -/

/-- `E_INVAL`. -/
def eInval : Word := 3#32

/-- `struct sprintbuf`, with the memory that it points to. -/
structure Sprintbuf where
  buf : Word
  ebuf : Word
  cnt : Word
  mem : ByteMem 32

/-- `sprintputch`. -/
def sprintputch (ch : Word) (b : Sprintbuf) : Sprintbuf :=
  let b := { b with cnt := b.cnt + 1#32 }
  if b.buf < b.ebuf then
    { b with buf := b.buf + 1#32, mem := Function.update b.mem b.buf (ch.setWidth 8) }
  else b

/-- `vsnprintf`: what it returns, and the memory that it leaves. -/
def vsnprintf (buf n : Word) (f : List (BitVec 8)) (ap : List Arg) (mem : ByteMem 32) :
    Except FormatFault (Word × ByteMem 32) :=
  let b : Sprintbuf := ⟨buf, buf + n - 1#32, 0#32, mem⟩
  if buf = 0#32 ∨ n.toInt < 1 then .ok (-eInval, mem)
  else do
    let b ← vprintfmt sprintputch f ap b
    .ok (b.cnt, Function.update b.mem b.buf 0#8)

/-- `putch` of `kern/printf.c`, on the console and what `cnt` points to. -/
def putch (cputchar : Word → κ → κ) (ch : Word) (st : κ × Word) : κ × Word :=
  -- `*cnt++` increments the pointer
  (cputchar ch st.1, st.2)

/-- `vcprintf`: what it returns, and the console that it leaves. -/
def vcprintf (cputchar : Word → κ → κ) (f : List (BitVec 8)) (ap : List Arg) (console : κ) :
    Except FormatFault (Word × κ) := do
  let (console, cnt) ← vprintfmt (putch cputchar) f ap (console, 0#32)
  .ok (cnt, console)

/-! ### The text -/

/-- What a format prints, whoever prints it. -/
def Text (f : List (BitVec 8)) (ap : List Arg) (text : List Word) : Prop :=
  vprintfmt (fun c t => t ++ [c]) (f ++ [0#8]) ap [] = .ok text

theorem text_iff (hf : 0#8 ∉ f) : Text f ap text ↔ formatText f ap = .ok text := by
  rw [Text, vprintfmt_eq hf]
  cases formatText f ap with
  | error e => simp [Except.map]
  | ok t => simp [Except.map, emit_concat]

theorem Text.vprintfmt_eq (htext : Text f ap text) (hf : 0#8 ∉ f) {σ : Type} (putch : Word → σ → σ)
    (s : σ) : vprintfmt putch (f ++ [0#8]) ap s = .ok (emit putch text s) := by
  rw [Kern.vprintfmt_eq hf, (text_iff hf).mp htext]
  rfl

theorem Prints.isText {t : List Word} (h : Prints f ap t) : Text f ap t := by
  have hrun := h _ (fun c t => t ++ [c]) [] [] [] List.not_mem_nil
  rw [List.append_nil, List.append_nil, emit_concat] at hrun
  exact hrun

/-! ### The buffer -/

/-- The bytes of a text that fit into a buffer of `n` bytes. -/
def fitting (n : Word) (text : List Word) : List (BitVec 8) :=
  (text.take (n.toNat - 1)).map lowByte

theorem length_fitting (n : Word) (text : List Word) :
    (fitting n text).length = min (n.toNat - 1) text.length := by
  rw [fitting, List.length_map, List.length_take]

theorem fitting_concat_of_lt {n : Word} {text : List Word} (h : text.length < n.toNat - 1)
    (c : Word) : fitting n (text ++ [c]) = fitting n text ++ [lowByte c] := by
  have hall : (text ++ [c]).length ≤ n.toNat - 1 := by
    rw [List.length_append]
    exact h
  rw [fitting, fitting, List.take_of_length_le hall, List.take_of_length_le h.le, List.map_append]
  rfl

theorem fitting_concat_of_le {n : Word} {text : List Word} (h : n.toNat - 1 ≤ text.length)
    (c : Word) : fitting n (text ++ [c]) = fitting n text := by
  rw [fitting, fitting, List.take_append_of_le_length h]

/-- There is room for another character, and the NUL. -/
theorem lt_ebuf_iff {buf n : Word} (hn : 1 ≤ n.toNat) (hbuf : buf.toNat + n.toNat ≤ 2 ^ 32)
    (text : List Word) :
    buf + BitVec.ofNat 32 (fitting n text).length < buf + n - 1#32 ↔
      text.length < n.toNat - 1 := by
  have hlen := length_fitting n text
  have hofNat : (BitVec.ofNat 32 (fitting n text).length).toNat = (fitting n text).length := by
    rw [BitVec.toNat_ofNat, Nat.mod_eq_of_lt (by omega)]
  have hend : (buf + n - 1#32).toNat = buf.toNat + n.toNat - 1 := by
    rw [BitVec.toNat_sub, BitVec.toNat_add, show (1#32).toNat = 1 from rfl]
    omega
  rw [BitVec.lt_def, hend, BitVec.toNat_add, hofNat]
  omega

/-- The buffer after a text: the characters that fit are stored, and all of them are counted. -/
theorem emit_sprintputch {buf n : Word} (hn : 1 ≤ n.toNat) (hbuf : buf.toNat + n.toNat ≤ 2 ^ 32)
    (mem : ByteMem 32) (text : List Word) :
    emit sprintputch text ⟨buf, buf + n - 1#32, 0#32, mem⟩ =
      ⟨buf + BitVec.ofNat 32 (fitting n text).length, buf + n - 1#32,
        BitVec.ofNat 32 text.length, mem.storeBytes buf (fitting n text)⟩ := by
  induction text using List.reverseRecOn with
  | nil =>
    have hempty : fitting n [] = [] := by rw [fitting, List.take_nil, List.map_nil]
    rw [hempty, ByteMem.storeBytes_nil, List.length_nil, List.length_nil, BitVec.add_zero]
    rfl
  | append_singleton text c ih =>
    have hlen := length_fitting n text
    have hlt := n.isLt
    have hcnt : BitVec.ofNat 32 text.length + 1#32 = BitVec.ofNat 32 (text ++ [c]).length := by
      rw [List.length_append, BitVec.ofNat_add]
      rfl
    rw [emit_append, ih, emit_cons, emit_nil, sprintputch]
    simp only [lt_ebuf_iff hn hbuf, hcnt]
    split_ifs with hroom
    · rw [fitting_concat_of_lt hroom, ← ByteMem.storeBytes_concat _ _ _ (by omega)]
      simp only [List.length_append, List.length_singleton, BitVec.ofNat_add, BitVec.add_assoc]
      rfl
    · rw [fitting_concat_of_le (not_lt.mp hroom)]

/-- The result of `vsnprintf` on a buffer. -/
theorem vsnprintf_eq (hf : 0#8 ∉ f) (htext : Text f ap text) {buf n : Word} (hnull : buf ≠ 0#32)
    (hn : 1 ≤ n.toInt) (hbuf : buf.toNat + n.toNat ≤ 2 ^ 32) (mem : ByteMem 32) :
    vsnprintf buf n (f ++ [0#8]) ap mem =
      .ok (BitVec.ofNat 32 text.length, mem.storeBytes buf (fitting n text ++ [0#8])) := by
  have hnat := BitVec.toInt_eq_toNat_cond n
  have hpos : 1 ≤ n.toNat := by split_ifs at hnat <;> omega
  have hlen := length_fitting n text
  have hlt := n.isLt
  rw [vsnprintf, if_neg (by rw [not_or, not_lt]; exact ⟨hnull, hn⟩), htext.vprintfmt_eq hf,
    ok_bind, emit_sprintputch hpos hbuf, ← ByteMem.storeBytes_concat _ _ _ (by omega)]

/-- What is stored: the characters that fit, a NUL behind them, and nothing else. -/
theorem storeBytes_fitting (buf : Word) {n : Word} (hpos : 1 ≤ n.toNat) (text : List Word)
    (mem : ByteMem 32) :
    (∀ i c, i < n.toNat - 1 → text[i]? = some c →
      mem.storeBytes buf (fitting n text ++ [0#8]) (buf + BitVec.ofNat 32 i) = lowByte c) ∧
      mem.storeBytes buf (fitting n text ++ [0#8])
        (buf + BitVec.ofNat 32 (min (n.toNat - 1) text.length)) = 0#8 ∧
      ∀ a, n.toNat ≤ (a - buf).toNat →
        mem.storeBytes buf (fitting n text ++ [0#8]) a = mem a := by
  have hlen := length_fitting n text
  have hlt := n.isLt
  have hbytes : (fitting n text ++ [0#8]).length = min (n.toNat - 1) text.length + 1 := by
    rw [List.length_append, hlen]
    rfl
  refine ⟨fun i c hi hc => ?_, ?_, fun a ha => ?_⟩
  · obtain ⟨hi', rfl⟩ := List.getElem?_eq_some_iff.mp hc
    have hfit : i < (fitting n text).length := by omega
    rw [ByteMem.storeBytes_get (by omega) (by omega), List.getElem_append_left hfit]
    simp only [fitting, List.getElem_map, List.getElem_take]
  · rw [ByteMem.storeBytes_get (by omega) (by omega)]
    exact List.getElem_concat_length hlen.symm _
  · exact ByteMem.storeBytes_of_le (by omega)

/-- **`vsnprintf` truncates.** It refuses a missing buffer. Otherwise it stores as much of the text
as fits in front of a NUL, writes nothing outside of the buffer, and returns the length of the
whole text as an `int`. -/
theorem vsnprintf_truncates (hf : 0#8 ∉ f) (htext : Text f ap text) (buf n : Word)
    (mem : ByteMem 32) :
    (buf = 0#32 ∨ n.toInt < 1 → vsnprintf buf n (f ++ [0#8]) ap mem = .ok (-eInval, mem)) ∧
      (buf ≠ 0#32 → 1 ≤ n.toInt → buf.toNat + n.toNat ≤ 2 ^ 32 → ∃ mem',
        vsnprintf buf n (f ++ [0#8]) ap mem = .ok (BitVec.ofNat 32 text.length, mem') ∧
        (text.length < 2 ^ 31 → (BitVec.ofNat 32 text.length).toInt = text.length) ∧
        (∀ i c, i < n.toNat - 1 → text[i]? = some c →
          mem' (buf + BitVec.ofNat 32 i) = lowByte c) ∧
        mem' (buf + BitVec.ofNat 32 (min (n.toNat - 1) text.length)) = 0#8 ∧
        ∀ a, n.toNat ≤ (a - buf).toNat → mem' a = mem a) := by
  constructor
  · intro hinval
    rw [vsnprintf, if_pos hinval]
  · intro hnull hn hbuf
    have hnat := BitVec.toInt_eq_toNat_cond n
    have hpos : 1 ≤ n.toNat := by split_ifs at hnat <;> omega
    refine ⟨_, vsnprintf_eq hf htext hnull hn hbuf mem, fun hshort => ?_,
      storeBytes_fitting buf hpos text mem⟩
    rw [BitVec.toInt_ofNat', Int.bmod_eq_of_le] <;> omega

theorem vsnprintf_truncates_four :
    ((0x1000#32 : Word) = 0#32 ∨ (4#32 : Word).toInt < 1 →
        vsnprintf 0x1000#32 4#32 (bytes "a%db" ++ [0#8]) [.word 12#32] (fun _ => 7#8) =
          .ok (-eInval, fun _ => 7#8)) ∧
      ((0x1000#32 : Word) ≠ 0#32 → 1 ≤ (4#32 : Word).toInt →
        (0x1000#32 : Word).toNat + (4#32 : Word).toNat ≤ 2 ^ 32 → ∃ mem',
        vsnprintf 0x1000#32 4#32 (bytes "a%db" ++ [0#8]) [.word 12#32] (fun _ => 7#8) =
          .ok (BitVec.ofNat 32 ((bytes "a12b").map ofChar).length, mem') ∧
        (((bytes "a12b").map ofChar).length < 2 ^ 31 →
          (BitVec.ofNat 32 ((bytes "a12b").map ofChar).length).toInt =
            ((bytes "a12b").map ofChar).length) ∧
        (∀ i c, i < (4#32 : Word).toNat - 1 → ((bytes "a12b").map ofChar)[i]? = some c →
          mem' (0x1000#32 + BitVec.ofNat 32 i) = lowByte c) ∧
        mem' (0x1000#32 + BitVec.ofNat 32
          (min ((4#32 : Word).toNat - 1) ((bytes "a12b").map ofChar).length)) = 0#8 ∧
        ∀ a, (4#32 : Word).toNat ≤ (a - 0x1000#32).toNat → mem' a = 7#8) :=
  vsnprintf_truncates (by decide) (by unfold Text; rfl) 0x1000#32 4#32 fun _ => 7#8

/-- A field whose width is the greatest `int`. -/
theorem prints_widest : Prints (bytes "%*d") [.word 0x7fffffff#32, .word 0#32]
    (codeField .plain (2 ^ 31 - 1) 0 10) :=
  (prints_number_iff .plain (.star 0x7fffffff#32 (by decide)) 0 .d (a := .word 0#32)
    ⟨trivial, trivial⟩).mpr rfl

/-- The length of two such fields is no `int`. -/
theorem not_vsnprintf_length : ∃ text mem',
    Text (bytes "%*d%*d") [.word 0x7fffffff#32, .word 0#32, .word 0x7fffffff#32, .word 0#32] text ∧
      vsnprintf 0x1000#32 16#32 (bytes "%*d%*d" ++ [0#8])
        [.word 0x7fffffff#32, .word 0#32, .word 0x7fffffff#32, .word 0#32] (fun _ => 0#8) =
        .ok (-2#32, mem') ∧
      (-2#32 : Word).toInt ≠ text.length := by
  have hnul : 0#8 ∉ bytes "%*d" := by decide
  have htext := (prints_widest.append prints_widest hnul).isText
  have hlen : (codeField .plain (2 ^ 31 - 1) 0 10 ++ codeField .plain (2 ^ 31 - 1) 0 10).length =
      2 ^ 32 - 2 := by
    rw [List.length_append, length_codeField]
    rfl
  have hrun := vsnprintf_eq (by decide) htext (show 0x1000#32 ≠ 0#32 by decide)
    (show 1 ≤ (16#32 : Word).toInt by decide) (by decide) fun _ => 0#8
  rw [hlen] at hrun
  refine ⟨_, _, htext, hrun, ?_⟩
  rw [hlen]
  decide

/-! ### The console -/

theorem emit_putch (cputchar : Word → κ → κ) (text : List Word) (console : κ) (cnt : Word) :
    emit (putch cputchar) text (console, cnt) = (emit cputchar text console, cnt) := by
  induction text generalizing console with
  | nil => rfl
  | cons c text ih => exact ih (cputchar c console)

/-- `vcprintf` sends the whole text, and returns zero. -/
theorem vcprintf_eq (hf : 0#8 ∉ f) (htext : Text f ap text) (cputchar : Word → κ → κ)
    (console : κ) :
    vcprintf cputchar (f ++ [0#8]) ap console = .ok (0#32, emit cputchar text console) := by
  rw [vcprintf, htext.vprintfmt_eq hf, emit_putch]
  rfl

/-! ### Empty texts -/

theorem map_digitChar_ne_nil (base num : ℕ) : (numeral base num).map digitChar ≠ [] := by
  rw [Ne, List.map_eq_nil_iff]
  exact numeral_ne_nil base num

theorem numberText_ne_nil (base num : ℕ) (padc width : Word) :
    numberText base padc num width ≠ [] :=
  List.append_ne_nil_of_right_ne_nil _ (map_digitChar_ne_nil base num)

theorem errorText_ne_nil (err : Word) : errorText err ≠ [] := by
  rw [errorText]
  split
  · next p hp =>
    have hentries : ∀ o ∈ errorStrings, ∀ p ∈ o, p ≠ [] := by decide
    rw [Ne, List.map_eq_nil_iff]
    exact hentries _ (mem_errorStrings hp) p rfl
  · exact List.append_ne_nil_of_left_ne_nil (by decide) _

/-- Only `%s` can print nothing. -/
theorem text_ne_nil {k : Conv} (hk : k ≠ .s) {sp : Spec} {ap' : List Arg} {t : List Word}
    (h : k.text nestedText sp ap = .ok (t, ap')) : t ≠ [] := by
  cases k with
  | s => exact absurd rfl hk
  | percent =>
    cases h
    exact List.cons_ne_nil _ _
  | c | p =>
    obtain ⟨v, -, h⟩ := bind_eq_ok h
    cases h
    exact List.cons_ne_nil _ _
  | e =>
    obtain ⟨v, -, h⟩ := bind_eq_ok h
    simp only [errorTextWith_eq, ok_bind] at h
    cases h
    exact errorText_ne_nil v.1
  | d =>
    obtain ⟨v, -, h⟩ := bind_eq_ok h
    cases h
    exact List.append_ne_nil_of_right_ne_nil _ (numberText_ne_nil _ _ _ _)
  | u | o | x =>
    obtain ⟨v, -, h⟩ := bind_eq_ok h
    cases h
    exact numberText_ne_nil _ _ _ _

theorem shown_eq_nil_iff {precision : Word} {p : List (BitVec 8)} :
    shown precision p = [] ↔ precision = 0#32 ∨ cstr p = [] := by
  have hnat := BitVec.toInt_eq_toNat_cond precision
  have hzero : precision = 0#32 ↔ precision.toInt = 0 :=
    ⟨fun h => by rw [h]; rfl, fun h => BitVec.eq_of_toInt_eq h⟩
  rw [shown, hzero]
  split_ifs with hneg
  · exact (or_iff_right hneg.ne).symm
  · rw [List.take_eq_nil_iff]
    exact or_congr_left (by omega)

/-- A string prints nothing if it is cut to nothing and has no width. -/
theorem stringText_eq_nil_iff {sp : Spec} {p : List (BitVec 8)} {t : List Word}
    (h : stringText sp p = .ok t) :
    t = [] ↔ sp.width.toInt ≤ 0 ∧ (sp.precision = 0#32 ∨ cstr p = []) := by
  rw [← shown_eq_nil_iff]
  have hcov : Covers sp.precision p := stringText_ok_iff.mp ⟨t, h⟩
  rw [stringText, if_pos hcov] at h
  simp only at h
  cases hshown : shown sp.precision p with
  | cons c cs =>
    -- there is a character
    have hne : t ≠ [] := by
      rw [hshown] at h
      split_ifs at h <;> cases h <;> simp
    exact iff_of_false hne fun hnone => absurd hnone.2 (List.cons_ne_nil _ _)
  | nil =>
    have hcount : strnlenText sp.precision p = 0 := by
      rw [strnlenText, List.length_eq_zero_iff, List.take_eq_nil_iff]
      exact (shown_eq_nil_iff.mp hshown).imp_left fun hzero => by rw [hzero]; rfl
    have hfill : ∀ c, padText c sp.width = [] ↔ sp.width.toInt ≤ 0 := by
      intro c
      rw [padText, List.replicate_eq_nil_iff]
      omega
    rw [hshown, hcount] at h
    simp only [List.map_nil, List.length_nil, BitVec.sub_zero, List.append_nil,
      List.nil_append] at h
    rw [and_iff_left rfl]
    split_ifs at h with hleft hpos
    · cases h
      rw [List.append_eq_nil_iff, hfill]
      exact and_iff_left_of_imp fun hle => absurd hpos (not_lt.mpr hle)
    · exact absurd hleft.1 hpos
    · cases h
      exact hfill _

/-- The width in the text of an escape. -/
def Use.width (u : Use) : ℕ := widthOf (parts u.m u.stars)

/-- The precision in the text of an escape. Zeros in front of a number are flags, so the digit zero
alone is none. -/
def Use.precision? (u : Use) : Option Word := precisionOf? (parts u.m u.stars)

/-- A conversion that prints nothing: `%s` without a width, with an empty string or the precision
zero. -/
def Use.Silent (u : Use) : Prop :=
  u.width = 0 ∧ (u.precision? = some 0#32 ∨ ∃ p, u.arg = .str (some p) ∧ cstr p = [])

/-- A format that consists of conversions that print nothing. -/
def Silent (f : List (BitVec 8)) (ap : List Arg) : Prop :=
  (∀ i ∈ items f, ∃ m, i = .escape m .s) ∧ ∀ u ∈ uses f ap, u.Silent

/-- What is set for a conversion is what stands in the text. -/
theorem Use.Runs.parts {u : Use} {t : List Word} (h : u.Runs t) :
    (u.spec.width.toInt ≤ 0 ↔ u.width = 0) ∧
      (u.spec.precision = 0#32 ↔ u.precision? = some 0#32) := by
  have hmods := h.modifiers []
  rw [List.append_nil] at hmods
  have hparts := modifiers_parts hmods
  obtain ⟨hwidth, hprec⟩ := foldl_apply (show (-1#32 : Word).toInt < 0 by decide)
    (Kern.parts u.m u.stars)
  rw [show (-1#32, -1#32) = (Spec.start.width, Spec.start.precision) from rfl, ← hparts]
    at hwidth hprec
  refine ⟨hwidth, ?_⟩
  dsimp only at hprec
  rw [hprec, Use.precision?]
  cases precisionOf? (Kern.parts u.m u.stars) with
  | none => exact iff_of_false (by decide) (by simp)
  | some n => simp

theorem Item.perform_eq_nil_iff {i : Item} {ap' : List Arg} {t : List Word}
    (h : i.perform nestedText ap = .ok (t, ap')) :
    t = [] ↔ (∃ m, i = .escape m .s) ∧ ∀ u ∈ i.use? ap, u.Silent := by
  cases i with
  | text c =>
    cases h
    exact iff_of_false (List.cons_ne_nil _ _) fun hs => by
      obtain ⟨⟨m, hm⟩, -⟩ := hs
      cases hm
  | broken m c =>
    obtain ⟨q, -, htext⟩ := bind_eq_ok h
    cases htext
    exact iff_of_false (List.cons_ne_nil _ _) fun hs => by
      obtain ⟨⟨m', hm⟩, -⟩ := hs
      cases hm
  | escape m k =>
    by_cases hk : k = .s
    · subst hk
      obtain ⟨as, a, rfl, -, hruns, huse⟩ := escape_use (by decide) h
      obtain ⟨hwidth, hprec⟩ := hruns.parts
      obtain ⟨⟨p, ap₁⟩, hp, hstring⟩ := bind_eq_ok hruns.text
      obtain rfl : a = .str p := by cases a <;> cases hp; rfl
      obtain ⟨t', ht', hstring⟩ := bind_eq_ok hstring
      cases hstring
      have harg : cstr (p.getD (bytes "(null)" ++ [0#8])) = [] ↔
          ∃ q, Arg.str p = .str (some q) ∧ cstr q = [] := by
        cases p with
        | none => exact iff_of_false (by decide) (by simp)
        | some q => simp
      rw [stringText_eq_nil_iff ht', huse, harg, hwidth, hprec]
      simp only [Item.escape.injEq, and_true, exists_eq', true_and, Option.mem_some_iff, forall_eq',
        Use.Silent]
    · obtain ⟨q, -, htext⟩ := bind_eq_ok h
      refine iff_of_false (text_ne_nil hk htext) fun hs => ?_
      obtain ⟨⟨m', hm⟩, -⟩ := hs
      cases hm
      exact hk rfl

theorem perform_eq_nil_iff {is : List Item} {ap' : List Arg} {t : List Word}
    (h : perform nestedText is ap = .ok (t, ap')) :
    t = [] ↔ (∀ i ∈ is, ∃ m, i = .escape m .s) ∧ ∀ u ∈ usesOf is ap, u.Silent := by
  induction is generalizing ap t with
  | nil =>
    cases h
    exact iff_of_true rfl ⟨fun i hi => absurd hi List.not_mem_nil,
      fun u hu => absurd hu List.not_mem_nil⟩
  | cons i is ih =>
    obtain ⟨t₁, ap₁, t₂, hi, his, rfl⟩ := perform_cons h
    obtain ⟨rfl, -⟩ := i.perform_mapArgs Use.arg hi
    rw [List.append_eq_nil_iff, i.perform_eq_nil_iff hi, ih his, List.forall_mem_cons, usesOf,
      List.forall_mem_append]
    simp only [Option.mem_toList]
    exact and_and_and_comm

/-- A text is empty if its format is silent. -/
theorem Text.eq_nil_iff (htext : Text f ap text) (hf : 0#8 ∉ f) : text = [] ↔ Silent f ap := by
  have hformat := (text_iff hf).mp htext
  rw [formatText, formatTextWith] at hformat
  cases hperform : perform nestedText (items f) ap with
  | error e => exact absurd (hperform ▸ hformat) (by simp [Except.map])
  | ok q =>
    rw [hperform] at hformat
    cases hformat
    exact perform_eq_nil_iff hperform

/-! ### Both functions -/

/-- `vcprintf` sends the characters that `vsnprintf` stores in the buffer, and both return their
number. -/
def Agree (f : List (BitVec 8)) (ap : List Arg) (buf n : Word) (mem : ByteMem 32) : Prop :=
  ∃ sent cnt mem', vcprintf (fun c t => t ++ [c]) f ap [] = .ok (cnt, sent) ∧
    vsnprintf buf n f ap mem = .ok (cnt, mem') ∧
    (∀ i c, sent[i]? = some c → mem' (buf + BitVec.ofNat 32 i) = lowByte c) ∧
    mem' (buf + BitVec.ofNat 32 sent.length) = 0#8 ∧ cnt.toInt = sent.length

/-- The characters are always the same. The count of `vcprintf` stays zero. -/
theorem printf_characters (hf : 0#8 ∉ f) (htext : Text f ap text) {buf n : Word}
    (hnull : buf ≠ 0#32) (hbuf : buf.toNat + n.toNat ≤ 2 ^ 32) (hn : (text.length : ℤ) < n.toInt)
    (mem : ByteMem 32) :
    vcprintf (fun c t => t ++ [c]) (f ++ [0#8]) ap [] = .ok (0#32, text) ∧ ∃ mem',
      vsnprintf buf n (f ++ [0#8]) ap mem = .ok (BitVec.ofNat 32 text.length, mem') ∧
      (∀ i c, text[i]? = some c → mem' (buf + BitVec.ofNat 32 i) = lowByte c) ∧
      mem' (buf + BitVec.ofNat 32 text.length) = 0#8 := by
  have hnat := BitVec.toInt_eq_toNat_cond n
  have hroom : text.length ≤ n.toNat - 1 ∧ 1 ≤ n.toNat := by
    split_ifs at hnat <;> omega
  have hsent := vcprintf_eq hf htext (fun c t => t ++ [c]) []
  rw [emit_concat, List.nil_append] at hsent
  obtain ⟨hchars, hend, -⟩ := storeBytes_fitting buf hroom.2 text mem
  rw [min_eq_right hroom.1] at hend
  refine ⟨hsent, _, vsnprintf_eq hf htext hnull (by omega) hbuf mem, fun i c hc => ?_, hend⟩
  obtain ⟨hi, -⟩ := List.getElem?_eq_some_iff.mp hc
  exact hchars i c (hi.trans_le hroom.1) hc

/-- **When the two functions agree.** The characters are always the same, the counts only if
there is nothing to count. -/
theorem printf_agree_iff (hf : 0#8 ∉ f) (htext : Text f ap text) {buf n : Word}
    (hnull : buf ≠ 0#32) (hbuf : buf.toNat + n.toNat ≤ 2 ^ 32) (hn : (text.length : ℤ) < n.toInt)
    (mem : ByteMem 32) : Agree (f ++ [0#8]) ap buf n mem ↔ Silent f ap := by
  obtain ⟨hsent, mem', hstored, hchars, hend⟩ := printf_characters hf htext hnull hbuf hn mem
  rw [← htext.eq_nil_iff hf]
  constructor
  · rintro ⟨sent, cnt, mem'', hsent', -, -, -, hlen⟩
    -- `vcprintf` returns zero
    have hboth := Except.ok.inj (hsent.symm.trans hsent')
    obtain ⟨rfl, rfl⟩ := Prod.mk.inj hboth
    exact List.length_eq_zero_iff.mp (Int.ofNat_eq_zero.mp hlen.symm)
  · rintro rfl
    exact ⟨[], 0#32, mem', hsent, hstored, hchars, hend, rfl⟩

/-- A precision that is a star with the argument zero, and one that is written as zero. -/
theorem printf_agree_iff_zero :
    Agree (bytes "%.*s" ++ [0#8]) [.word 0#32, .str (some (bytes "abc" ++ [0#8]))] 0x1000#32 16#32
        (fun _ => 7#8) ∧
      ¬ Agree (bytes "%.0s" ++ [0#8]) [.str (some (bytes "abc" ++ [0#8]))] 0x1000#32 16#32
        (fun _ => 7#8) := by
  constructor
  · refine (printf_agree_iff (by decide) (show Text _ _ [] by unfold Text; rfl) (by decide)
      (by decide) (by decide) fun _ => 7#8).mpr ⟨fun i hi => ?_, fun u hu => ?_⟩
    · have hitems : items (bytes "%.*s") = [.escape (bytes ".*") .s] := rfl
      rw [hitems] at hi
      exact ⟨_, List.mem_singleton.mp hi⟩
    · have huses : uses (bytes "%.*s") [.word 0#32, .str (some (bytes "abc" ++ [0#8]))] =
          [⟨bytes ".*", [.word 0#32], .s, .str (some (bytes "abc" ++ [0#8]))⟩] := rfl
      have hparts : parts (bytes ".*") [.word 0#32] = [.dot, .number 0#32] := by
        refine (parts_dot _ _).trans (congrArg _ ((parts_star [] _ _).trans ?_))
        rw [parts]
      rw [huses] at hu
      obtain rfl := List.mem_singleton.mp hu
      rw [Use.Silent, Use.width, Use.precision?, hparts]
      exact ⟨rfl, .inl rfl⟩
  · intro h
    obtain ⟨-, hsilent⟩ := (printf_agree_iff (by decide)
      (show Text _ _ ((bytes "abc").map ofChar) by unfold Text; rfl) (by decide) (by decide)
      (by decide) fun _ => 7#8).mp h
    have huses : uses (bytes "%.0s") [.str (some (bytes "abc" ++ [0#8]))] =
        [⟨bytes ".0", [], .s, .str (some (bytes "abc" ++ [0#8]))⟩] := rfl
    have hparts : parts (bytes ".0") [] = [.dot] := by
      refine (parts_dot _ _).trans (congrArg _ ((parts_flag ?_ ?_ ?_ [] _).trans ?_))
      · decide
      · decide
      · decide
      · rw [parts]
    rw [huses] at hsilent
    have huse := (hsilent _ (List.mem_singleton_self _)).2
    rw [Use.precision?, hparts] at huse
    rcases huse with hzero | ⟨p, hp, hempty⟩
    · exact absurd hzero (by decide)
    · cases hp
      exact absurd hempty (by decide)

/-- One character is counted by one of the two functions. -/
theorem not_printf_agree :
    vcprintf (fun c t => t ++ [c]) (bytes "a" ++ [0#8]) [] [] = .ok (0#32, [ofChar (chr 'a')]) ∧
      ∃ mem', vsnprintf 0x1000#32 16#32 (bytes "a" ++ [0#8]) [] (fun _ => 7#8) = .ok (1#32, mem') :=
  ⟨rfl, _, vsnprintf_eq (by decide) (show Text _ _ [ofChar (chr 'a')] by unfold Text; rfl)
    (by decide) (by decide) (by decide) _⟩

end JosVmx.Kern
