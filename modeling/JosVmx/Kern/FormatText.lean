import JosVmx.Kern.Printfmt
import JosVmx.Lib.Numeral

/-!
# The texts of conversions

What the parts of `vprintfmt` that send characters send. The callback only ever gets the
characters of a text, one after the other, so the parts are described by their texts, and a text
does not depend on the callback.

## Main results

* `printnum_eq`, `putString_eq` — a number and a string in their fields
* `convert_eq` — a conversion sends its text
-/

namespace JosVmx.Kern

open Lib

variable {σ : Type} {putch : Word → σ → σ}

/-- Send the characters of a text one after the other. -/
def emit (putch : Word → σ → σ) (t : List Word) (s : σ) : σ := t.foldl (fun s c => putch c s) s

@[simp] theorem emit_nil (s : σ) : emit putch [] s = s := rfl

@[simp] theorem emit_cons (c : Word) (t : List Word) (s : σ) :
    emit putch (c :: t) s = emit putch t (putch c s) := rfl

@[simp] theorem emit_append (t u : List Word) (s : σ) :
    emit putch (t ++ u) s = emit putch u (emit putch t s) := List.foldl_append

/-- A callback that collects the characters. -/
theorem emit_concat (t u : List Word) : emit (fun c t => t ++ [c]) t u = u ++ t := by
  induction t generalizing u with
  | nil => rw [emit_nil, List.append_nil]
  | cons c t ih => rw [emit_cons, ih, List.append_assoc, List.singleton_append]

/-- A character in memory. -/
def lowByte (ch : Word) : BitVec 8 := ch.setWidth 8

/-! ### Numbers -/

/-- The characters that fill a field of width `width`. -/
def padText (c width : Word) : List Word := List.replicate width.toInt.toNat c

theorem putPad_eq (c width : Word) (s : σ) :
    putPad putch c width s = emit putch (padText c width) s := by
  rw [putPad, padText]
  induction width.toInt.toNat generalizing s with
  | zero => rfl
  | succ n ih => rw [Function.iterate_succ_apply, ih, List.replicate_succ, emit_cons]

/-- A number in a field. The width counts down by one for every digit. -/
def numberText (base : ℕ) (padc : Word) (num : ℕ) (width : Word) : List Word :=
  padText padc (width - BitVec.ofNat 32 (numeral base num).length) ++
    (numeral base num).map digitChar

theorem numberText_of_lt {base num : ℕ} (h : num < base) (padc width : Word) :
    numberText base padc num width = padText padc (width - 1#32) ++ [digitChar num] := by
  rw [numberText, numeral_of_lt h]
  rfl

theorem numberText_of_le {base num : ℕ} (hb : 1 < base) (h : base ≤ num) (padc width : Word) :
    numberText base padc num width =
      numberText base padc (num / base) (width - 1#32) ++ [digitChar (num % base)] := by
  have hwidth : width - BitVec.ofNat 32 ((numeral base (num / base)).length + 1) =
      width - 1#32 - BitVec.ofNat 32 (numeral base (num / base)).length := by
    rw [BitVec.ofNat_add]
    bv_omega
  rw [numberText, numeral_of_le hb h, List.length_append, List.length_singleton, hwidth,
    List.map_append, ← List.append_assoc]
  rfl

/-- `printnum` sends the number in its field. -/
theorem printnum_eq {base : Word} (hb : 1 < base.toNat) (padc : Word) {fuel : ℕ}
    {num : BitVec 64} (h : num.toNat < base.toNat ^ (fuel + 1)) (width : Word) (s : σ) :
    printnum putch base padc (fuel + 1) num width s =
      .ok (emit putch (numberText base.toNat padc num.toNat width) s) := by
  have hbase : (base.setWidth 64).toNat = base.toNat := BitVec.toNat_setWidth_of_le (by decide)
  have hmod : (num % base.setWidth 64).toNat = num.toNat % base.toNat := by
    rw [BitVec.toNat_umod, hbase]
  induction fuel generalizing num width s with
  | zero =>
    rw [Nat.zero_add, Nat.pow_one] at h
    have hlt : ¬ base.setWidth 64 ≤ num := by
      rw [BitVec.le_def, hbase]
      exact Nat.not_le.mpr h
    rw [printnum, if_neg hlt, numberText_of_lt h, emit_append, ← putPad_eq, hmod,
      Nat.mod_eq_of_lt h]
    rfl
  | succ fuel ih =>
    have hdiv : (num / base.setWidth 64).toNat = num.toNat / base.toNat := by
      rw [BitVec.toNat_udiv, hbase]
    rw [printnum]
    split_ifs with hle
    · -- the more significant digits first
      rw [BitVec.le_def, hbase] at hle
      rw [Nat.pow_succ] at h
      have hlt : (num / base.setWidth 64).toNat < base.toNat ^ (fuel + 1) := by
        rw [hdiv]
        exact Nat.div_lt_of_lt_mul (by rwa [Nat.mul_comm])
      rw [ih hlt _ _ (by rw [BitVec.toNat_umod, hbase]), hdiv, ok_bind, hmod,
        numberText_of_le hb hle, emit_append]
      rfl
    · rw [BitVec.le_def, hbase, Nat.not_le] at hle
      rw [numberText_of_lt hle, emit_append, ← putPad_eq, hmod, Nat.mod_eq_of_lt hle]
      rfl

/-! ### Strings -/

/-- The characters of a string in front of its NUL. -/
def cstr (p : List (BitVec 8)) : List (BitVec 8) := p.takeWhile (· ≠ 0#8)

@[simp] theorem cstr_nul (p : List (BitVec 8)) : cstr (0#8 :: p) = [] := rfl

theorem cstr_cons {b : BitVec 8} (hb : b ≠ 0#8) (p : List (BitVec 8)) :
    cstr (b :: p) = b :: cstr p := List.takeWhile_cons_of_pos (decide_eq_true hb)

/-- The characters of a string that a precision lets through. -/
def shown (precision : Word) (p : List (BitVec 8)) : List (BitVec 8) :=
  if precision.toInt < 0 then cstr p else (cstr p).take precision.toInt.toNat

/-- The bytes contain the end of what is read: the NUL, or the byte behind the precision. -/
def Covers (precision : Word) (p : List (BitVec 8)) : Prop :=
  0#8 ∈ p ∨ 0 ≤ precision.toInt ∧ precision.toInt.toNat < p.length

instance (precision : Word) (p : List (BitVec 8)) : Decidable (Covers precision p) :=
  inferInstanceAs (Decidable (_ ∨ _))

/-- A character of a string as it is printed. -/
def shownChar (altflag : Bool) (b : BitVec 8) : Word :=
  if altflag ∧ ((ofChar b).toInt < 0x20 ∨ 0x7E < (ofChar b).toInt) then ofChar (chr '?')
  else ofChar b

theorem toInt_sub_ofNat (width : Word) {n : ℕ} (hn : n < 2 ^ 31) (h : -2 ^ 31 ≤ width.toInt - n) :
    (width - BitVec.ofNat 32 n).toInt = width.toInt - n := by
  have hlt := BitVec.toInt_lt (x := width)
  have hofNat : (BitVec.ofNat 32 n).toInt = n := by
    rw [BitVec.toInt_ofNat', Int.bmod_eq_of_le] <;> omega
  rw [BitVec.toInt_sub, hofNat, Int.bmod_eq_of_le] <;> omega

/-- A count that is too small for an `int` becomes positive. -/
theorem toInt_sub_ofNat_of_lt (width : Word) {n : ℕ} (hn : n < 2 ^ 31)
    (h : width.toInt - n < -2 ^ 31) :
    (width - BitVec.ofNat 32 n).toInt = width.toInt - n + 2 ^ 32 := by
  have hle := BitVec.le_toInt width
  have hofNat : (BitVec.ofNat 32 n).toInt = n := by
    rw [BitVec.toInt_ofNat', Int.bmod_eq_of_le] <;> omega
  rw [BitVec.toInt_sub, hofNat, Int.bmod_def]
  split_ifs <;> omega

theorem toInt_sub_one {n : Word} (h : 0 ≤ n.toInt) : (n - 1#32).toInt = n.toInt - 1 := by
  exact toInt_sub_ofNat (n := 1) n (by decide) (by omega)

@[simp] theorem shownChar_false (b : BitVec 8) : shownChar false b = ofChar b :=
  if_neg fun h => Bool.false_ne_true h.1

theorem length_shown_le (precision : Word) (p : List (BitVec 8)) :
    (shown precision p).length ≤ (cstr p).length := by
  rw [shown]
  split_ifs
  · exact le_rfl
  · exact List.length_take_le' ..

theorem shown_cons_of_neg {precision : Word} (h : precision.toInt < 0) {b : BitVec 8}
    (hb : b ≠ 0#8) (p : List (BitVec 8)) :
    shown precision (b :: p) = b :: shown precision p := by
  rw [shown, if_pos h, shown, if_pos h, cstr_cons hb]

theorem shown_cons_of_pos {precision : Word} (h : 0 < precision.toInt) {b : BitVec 8}
    (hb : b ≠ 0#8) (p : List (BitVec 8)) :
    shown precision (b :: p) = b :: shown (precision - 1#32) p := by
  have hsub := toInt_sub_one h.le
  have hsucc : precision.toInt.toNat = (precision.toInt - 1).toNat + 1 := by omega
  rw [shown, if_neg (by omega), shown, if_neg (by omega), hsub, cstr_cons hb, hsucc,
    List.take_succ_cons]

theorem covers_cons_of_neg {precision : Word} (h : precision.toInt < 0) {b : BitVec 8}
    (hb : b ≠ 0#8) (p : List (BitVec 8)) : Covers precision (b :: p) ↔ Covers precision p := by
  simp only [Covers, List.mem_cons, hb.symm, false_or, not_le.mpr h, false_and, or_false]

theorem covers_cons_of_pos {precision : Word} (h : 0 < precision.toInt) {b : BitVec 8}
    (hb : b ≠ 0#8) (p : List (BitVec 8)) :
    Covers precision (b :: p) ↔ Covers (precision - 1#32) p := by
  have hsub := toInt_sub_one h.le
  simp only [Covers, List.mem_cons, hb.symm, false_or, List.length_cons, hsub]
  exact or_congr_right (by omega)

/-- The loop of `%s` sends what the precision lets through, and counts it off the width. -/
theorem putChars_eq (altflag : Bool) (p : List (BitVec 8)) (precision width : Word) (s : σ) :
    putChars putch altflag p precision width s =
      if Covers precision p then
        .ok (width - BitVec.ofNat 32 (shown precision p).length,
          emit putch ((shown precision p).map (shownChar altflag)) s)
      else .error .str := by
  induction p generalizing precision width s with
  | nil =>
    have hnil : ¬ Covers precision [] := by
      rintro (h | h)
      · exact List.not_mem_nil h
      · exact Nat.not_lt_zero _ h.2
    rw [putChars, if_neg hnil]
  | cons b p ih =>
    have hwidth : ∀ n, width - 1#32 - BitVec.ofNat 32 n = width - BitVec.ofNat 32 (n + 1) := by
      intro n
      rw [BitVec.ofNat_add]
      bv_omega
    rw [putChars]
    by_cases hb : b = 0#8
    · have hcov : Covers precision (b :: p) := Or.inl (hb ▸ List.mem_cons_self ..)
      rw [if_pos hb, if_pos hcov, hb, shown, cstr_nul, List.take_nil, ite_self, List.length_nil,
        BitVec.sub_zero, List.map_nil, emit_nil]
    · rw [if_neg hb]
      rcases lt_trichotomy precision.toInt 0 with hneg | hzero | hpos
      · rw [if_pos hneg, ih, if_congr (covers_cons_of_neg hneg hb p) rfl rfl,
          shown_cons_of_neg hneg hb, List.length_cons, hwidth]
        rfl
      · -- the byte behind the precision has been read
        have hstop : ¬ 0 ≤ (precision - 1#32).toInt := by
          rw [toInt_sub_one hzero.ge]
          omega
        have hcov : Covers precision (b :: p) := Or.inr ⟨hzero.ge, by
          rw [hzero]
          exact Nat.succ_pos _⟩
        rw [if_neg hzero.not_lt, if_neg hstop, if_pos hcov, shown, if_neg hzero.not_lt, hzero]
        simp
      · have hgo : 0 ≤ (precision - 1#32).toInt := by
          rw [toInt_sub_one hpos.le]
          omega
        rw [if_neg hpos.not_gt, if_pos hgo, ih, if_congr (covers_cons_of_pos hpos hb p) rfl rfl,
          shown_cons_of_pos hpos hb, List.length_cons, hwidth]
        rfl

/-- What `strnlen` counts. -/
def strnlenText (size : Word) (p : List (BitVec 8)) : ℕ := ((cstr p).take size.toNat).length

theorem strnlen_eq (size n : Word) (p : List (BitVec 8)) (h : 0#8 ∈ p ∨ size.toNat ≤ p.length) :
    strnlen size n p = .ok (n + BitVec.ofNat 32 (strnlenText size p)) := by
  induction p generalizing size n with
  | nil =>
    have hsize : size = 0#32 := by
      rcases h with h | h
      · exact absurd h List.not_mem_nil
      · exact BitVec.eq_of_toNat_eq (Nat.le_zero.mp h)
    rw [strnlen, if_pos hsize, hsize]
    simp [strnlenText]
  | cons b p ih =>
    rw [strnlen]
    -- the size and the NUL stop the count, whichever comes first
    split_ifs with hstop
    · rcases hstop with rfl | rfl <;> simp [strnlenText]
    · obtain ⟨hsize, hb⟩ := not_or.mp hstop
      have hpos : 0 < size.toNat := by bv_omega
      have hsub : (size - 1#32).toNat = size.toNat - 1 := by bv_omega
      have hsucc : size.toNat = size.toNat - 1 + 1 := by omega
      have hrest : 0#8 ∈ p ∨ (size - 1#32).toNat ≤ p.length := by
        rw [List.mem_cons, List.length_cons] at h
        rcases h with (h | h) | h
        · exact absurd h.symm hb
        · exact Or.inl h
        · exact Or.inr (by omega)
      have hlen : strnlenText size (b :: p) = strnlenText (size - 1#32) p + 1 := by
        rw [strnlenText, strnlenText, cstr_cons hb, hsub, hsucc, List.take_succ_cons,
          List.length_cons]
        rfl
      rw [ih _ _ hrest, hlen, BitVec.ofNat_add, BitVec.add_assoc, BitVec.add_comm 1#32]

theorem strnlen_error {size n : Word} {p : List (BitVec 8)} {e : FormatFault}
    (h : strnlen size n p = .error e) : e = .str := by
  induction p generalizing size n with
  | nil =>
    rw [strnlen] at h
    split_ifs at h
    exact (Except.error.inj h).symm
  | cons b p ih =>
    rw [strnlen] at h
    split_ifs at h
    exact ih h

/-- A string in its field. -/
def stringText (sp : Spec) (p : List (BitVec 8)) : Except FormatFault (List Word) :=
  if Covers sp.precision p then
    let text := (shown sp.precision p).map (shownChar sp.altflag)
    let right := fun width : Word =>
      padText (ofChar (chr ' ')) (width - BitVec.ofNat 32 text.length)
    if 0 < sp.width.toInt ∧ sp.padc ≠ ofChar (chr '-') then
      let width := sp.width - BitVec.ofNat 32 (strnlenText sp.precision p)
      .ok (padText sp.padc width ++ text ++ right (if 0 < width.toInt then 0#32 else width))
    else .ok (text ++ right sp.width)
  else .error .str

theorem putString_eq (sp : Spec) (p : List (BitVec 8)) (s : σ) :
    putString putch sp p s = (stringText sp p).map (emit putch · s) := by
  rw [putString, stringText]
  by_cases hcov : Covers sp.precision p
  · have hread : 0#8 ∈ p ∨ sp.precision.toNat ≤ p.length := by
      refine hcov.imp_right fun h => ?_
      have hnat := BitVec.toInt_eq_toNat_cond sp.precision
      have hlt := sp.precision.isLt
      split_ifs at hnat <;> omega
    rw [if_pos hcov]
    split_ifs with hleft
    · simp only [strnlen_eq _ _ _ hread, putPad_eq, ok_bind, putChars_eq, if_pos hcov,
        BitVec.zero_add, List.length_map, Except.map, emit_append]
    · simp only [putPad_eq, ok_bind, putChars_eq, if_pos hcov, List.length_map, Except.map,
        emit_append]
  · rw [if_neg hcov]
    split_ifs with hleft
    · cases hlen : strnlen sp.precision 0#32 p with
      | error e => rw [strnlen_error hlen]; rfl
      | ok n => simp only [ok_bind, putChars_eq, if_neg hcov, error_bind, Except.map]
    · simp only [ok_bind, putChars_eq, if_neg hcov, error_bind, Except.map]

/-! ### Conversions -/

/-- A function like `printfmt` sends the text that belongs to a format and its arguments. -/
def Sends (printfmt : List (BitVec 8) → List Arg → σ → Except FormatFault σ)
    (putch : Word → σ → σ) (nested : List (BitVec 8) → List Arg → Except FormatFault (List Word)) :
    Prop :=
  ∀ f ap s, 0#8 ∉ f → printfmt (f ++ [0#8]) ap s = (nested f ap).map (emit putch · s)

variable {printfmt : List (BitVec 8) → List Arg → σ → Except FormatFault σ}
  {nested : List (BitVec 8) → List Arg → Except FormatFault (List Word)}

/-- The text of `%e`, when `nested` is that of a format. -/
def errorTextWith (nested : List (BitVec 8) → List Arg → Except FormatFault (List Word))
    (err : Word) : Except FormatFault (List Word) :=
  if maxerror.toInt < (errorIndex err).toInt then
    nested (bytes "error %d") [.word (errorIndex err)]
  else do
    match ← errorString (errorIndex err) with
    | none => nested (bytes "error %d") [.word (errorIndex err)]
    | some p => nested (bytes "%s") [.str (some (p ++ [0#8]))]

theorem putError_eq (hsends : Sends printfmt putch nested) (err : Word) (s : σ) :
    putError printfmt err s = (errorTextWith nested err).map (emit putch · s) := by
  have hnumber : 0#8 ∉ bytes "error %d" := by decide
  have hstring : 0#8 ∉ bytes "%s" := by decide
  rw [putError, errorTextWith]
  split_ifs
  · exact hsends _ _ _ hnumber
  · cases errorString (errorIndex err) with
    | error e => rfl
    | ok p =>
      cases p with
      | none => exact hsends _ _ _ hnumber
      | some p => exact hsends _ _ _ hstring

/-- The text of a conversion, and the arguments that it leaves. -/
def Conv.text (nested : List (BitVec 8) → List Arg → Except FormatFault (List Word)) (k : Conv)
    (sp : Spec) (ap : List Arg) : Except FormatFault (List Word × List Arg) :=
  match k with
  | .c => do
    let (v, ap) ← vaWord ap
    .ok ([v], ap)
  | .e => do
    let (err, ap) ← vaWord ap
    let t ← errorTextWith nested err
    .ok (t, ap)
  | .s => do
    let (arg, ap) ← vaStr ap
    let t ← stringText sp (arg.getD (bytes "(null)" ++ [0#8]))
    .ok (t, ap)
  | .d => do
    let (num, ap) ← getint ap sp.lflag
    let sign := if num.toInt < 0 then [ofChar (chr '-')] else []
    .ok (sign ++ numberText 10 sp.padc num.toInt.natAbs sp.width, ap)
  | .u => do
    let (num, ap) ← getuint ap sp.lflag
    .ok (numberText 10 sp.padc num.toNat sp.width, ap)
  | .o => do
    let (num, ap) ← getuint ap sp.lflag
    .ok (numberText 8 sp.padc num.toNat sp.width, ap)
  | .p => do
    let (v, ap) ← vaWord ap
    .ok ([ofChar (chr '0'), ofChar (chr 'x')] ++ numberText 16 sp.padc v.toNat sp.width, ap)
  | .x => do
    let (num, ap) ← getuint ap sp.lflag
    .ok (numberText 16 sp.padc num.toNat sp.width, ap)
  | .percent => .ok ([ofUchar (chr '%')], ap)

/-- All numbers that are printed are short enough for `printnum`. -/
theorem lt_base_pow {base : ℕ} (hb : 1 < base) (num : BitVec 64) : num.toNat < base ^ 64 :=
  num.isLt.trans_le (Nat.pow_le_pow_left hb 64)

theorem natAbs_toInt_of_neg {num : BitVec 64} (h : num.toInt < 0) :
    (-num).toNat = num.toInt.natAbs := by
  have hnat := BitVec.toInt_eq_toNat_cond num
  have hlt := num.isLt
  rw [BitVec.toNat_neg]
  split_ifs at hnat <;> omega

theorem natAbs_toInt_of_nonneg {num : BitVec 64} (h : 0 ≤ num.toInt) :
    num.toNat = num.toInt.natAbs := by
  have hnat := BitVec.toInt_eq_toNat_cond num
  have hlt := num.isLt
  split_ifs at hnat <;> omega

/-- **A conversion sends its text.** -/
theorem convert_eq (hsends : Sends printfmt putch nested) (k : Conv) (sp : Spec) (ap : List Arg)
    (s : σ) :
    convert printfmt putch k sp ap s =
      (k.text nested sp ap).map fun r => (r.2, emit putch r.1 s) := by
  have hnum : ∀ (base : Word) (num : BitVec 64) (s : σ), 1 < base.toNat →
      printnum putch base sp.padc 64 num sp.width s =
        .ok (emit putch (numberText base.toNat sp.padc num.toNat sp.width) s) :=
    fun base num s hb => printnum_eq hb sp.padc (lt_base_pow hb num) sp.width s
  cases k with
  | c =>
    rw [convert, Conv.text]
    cases vaWord ap <;> rfl
  | e =>
    rw [convert, Conv.text]
    cases vaWord ap with
    | error e => rfl
    | ok v =>
      simp only [ok_bind, putError_eq hsends]
      cases errorTextWith nested v.1 <;> rfl
  | s =>
    rw [convert, Conv.text]
    cases vaStr ap with
    | error e => rfl
    | ok p =>
      simp only [ok_bind, putString_eq]
      cases stringText sp (p.1.getD (bytes "(null)" ++ [0#8])) <;> rfl
  | d =>
    rw [convert, Conv.text]
    cases getint ap sp.lflag with
    | error e => rfl
    | ok num =>
      simp only [ok_bind]
      -- the sign is put first, then the absolute value
      split_ifs with hneg
      · rw [hnum _ _ _ (by decide), natAbs_toInt_of_neg hneg]
        rfl
      · rw [hnum _ _ _ (by decide), natAbs_toInt_of_nonneg (not_lt.mp hneg)]
        rfl
  | p =>
    rw [convert, Conv.text]
    cases vaWord ap with
    | error e => rfl
    | ok v =>
      have hv : (v.1.setWidth 64).toNat = v.1.toNat := BitVec.toNat_setWidth_of_le (by decide)
      simp only [ok_bind, hnum 16#32 _ _ (by decide), hv]
      rfl
  | percent => rfl
  | u | o | x =>
    rw [convert, Conv.text]
    cases getuint ap sp.lflag with
    | error e => rfl
    | ok num =>
      simp only [ok_bind]
      rw [hnum _ _ _ (by decide)]
      rfl

end JosVmx.Kern
