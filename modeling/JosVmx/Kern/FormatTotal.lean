import JosVmx.Kern.FormatItems

/-!
# Every format is printed

A format whose arguments have the types that its items take is printed to the end: all accesses
to the format, to the strings and to the table of errors are covered, and the loops end. What is
no conversion is printed as it stands in the format.

## Main results

* `errorTextWith_eq` — the text of an error
* `vprintfmt_total` — the run of `vprintfmt` on a whole format
-/

namespace JosVmx.Kern

open Lib

variable {ap : List Arg}

/-! ### Errors -/

/-- A negative index remains only where negating overflows. -/
theorem errorIndex_neg_iff {err : Word} : (errorIndex err).toInt < 0 ↔ err = 0x80000000#32 := by
  have hlt := err.isLt
  have hnat := BitVec.toInt_eq_toNat_cond err
  rw [errorIndex]
  constructor
  · intro h
    have hneg := BitVec.toInt_eq_toNat_cond (-err)
    rw [BitVec.toNat_neg] at hneg
    refine BitVec.eq_of_toNat_eq (Eq.trans ?_ (show 2 ^ 31 = (0x80000000#32).toNat from rfl))
    split_ifs at h hnat hneg <;> omega
  · rintro rfl
    decide

theorem padText_of_nonpos {width : Word} (h : width.toInt ≤ 0) (c : Word) :
    padText c width = [] := by
  rw [padText, Int.toNat_of_nonpos h, List.replicate_zero]

/-- A number that is printed has at most 64 digits. -/
theorem length_numeral_le_64 {base num : ℕ} (hb : 1 < base) (h : num < 2 ^ 64) :
    (numeral base num).length ≤ 64 :=
  length_numeral_le hb (by decide) (h.trans_le (Nat.pow_le_pow_left hb 64))

/-- Without a width there is nothing to fill. -/
theorem numberText_of_nonpos {base num : ℕ} (hb : 1 < base) (h : num < 2 ^ 64) {width : Word}
    (hwidth : -1 ≤ width.toInt ∧ width.toInt ≤ 0) (padc : Word) :
    numberText base padc num width = (numeral base num).map digitChar := by
  have hlen := length_numeral_le_64 hb h
  have hsub := toInt_sub_ofNat (n := (numeral base num).length) width (by omega)
    (by omega)
  rw [numberText, padText_of_nonpos (by omega), List.nil_append]

/-- The text of a number without a width. -/
def decimalText (num : ℤ) : List Word :=
  (if num < 0 then [ofChar (chr '-')] else []) ++ (numeral 10 num.natAbs).map digitChar

/-- The text of an error. -/
def errorText (err : Word) : List Word :=
  match errorStrings.getD (errorIndex err).toNat none with
  | some p => p.map ofChar
  | none => (bytes "error ").map ofUchar ++ decimalText (errorIndex err).toInt

theorem natAbs_toInt_lt (v : Word) : v.toInt.natAbs < 2 ^ 64 := by
  have hlt := BitVec.toInt_lt (x := v)
  have hle := BitVec.le_toInt v
  omega

theorem nestedText_number (v : Word) : nestedText (bytes "error %d") [.word v] =
    .ok ((bytes "error ").map ofUchar ++ decimalText v.toInt) := by
  have hitems : items (bytes "error %d") =
      (bytes "error ").map Item.text ++ [.escape [] .d] := by decide
  have hext : (v.signExtend 64).toInt = v.toInt := BitVec.toInt_signExtend_of_le (by decide)
  have hnumber : numberText 10 Spec.start.padc v.toInt.natAbs Spec.start.width =
      (numeral 10 v.toInt.natAbs).map digitChar :=
    numberText_of_nonpos (by decide) (natAbs_toInt_lt v) (by decide) _
  rw [nestedText, formatTextWith, hitems, perform_map_text, perform, Item.perform, modifiers]
  have hget : getint [.word v] Spec.start.lflag = .ok (v.signExtend 64, []) := rfl
  simp only [ok_bind, Conv.text, Spec.finish, hget, perform, Except.map, List.append_nil, hext,
    hnumber, decimalText]

/-- A short string without a width or a precision is printed as it is. -/
theorem stringText_start {p : List (BitVec 8)} (hp : 0#8 ∉ p) (hlen : p.length < 2 ^ 31 - 1) :
    stringText .start (p ++ [0#8]) = .ok (p.map ofChar) := by
  have hcstr : cstr (p ++ [0#8]) = p := by
    have hne : ∀ b ∈ p, decide (b ≠ 0#8) = true := fun b hb =>
      decide_eq_true fun h : b = 0#8 => hp (h ▸ hb)
    rw [cstr, List.takeWhile_append_of_pos hne]
    exact List.append_nil p
  have hshown : shown (-1#32) (p ++ [0#8]) = p := by
    rw [shown, if_pos (by decide), hcstr]
  have hcov : Covers (-1#32) (p ++ [0#8]) :=
    Or.inl (List.mem_append_right _ (List.mem_singleton_self _))
  have hwidth := toInt_sub_ofNat (n := p.length) (-1#32) (by omega)
    (by rw [show (-1#32).toInt = -1 from rfl]; omega)
  have hplain : p.map (shownChar false) = p.map ofChar :=
    List.map_congr_left fun b _ => shownChar_false b
  have hnopad : padText (ofChar (chr ' ')) (-1#32 - BitVec.ofNat 32 p.length) = [] :=
    padText_of_nonpos (by
      rw [hwidth]
      exact (Int.sub_le_self _ (Int.natCast_nonneg _)).trans (by decide)) _
  rw [stringText, Spec.start]
  simp only [if_pos hcov, hshown, hplain, List.length_map, hnopad, List.append_nil]
  exact if_neg fun h => absurd h.1 (by decide)

theorem nestedText_string {p : List (BitVec 8)} (hp : 0#8 ∉ p) (hlen : p.length < 2 ^ 31 - 1) :
    nestedText (bytes "%s") [.str (some (p ++ [0#8]))] = .ok (p.map ofChar) := by
  have hitems : items (bytes "%s") = [.escape [] .s] := by decide
  rw [nestedText, formatTextWith, hitems, perform, Item.perform, modifiers]
  simp only [ok_bind, Conv.text, vaStr, Spec.finish, Option.getD_some, stringText_start hp hlen,
    perform, List.append_nil, Except.map]

/-- What an index into the table gives. -/
theorem errorString_eq {i : Word} (h : i.toNat < errorStrings.length ∨ i = 0x80000000#32) :
    errorString i = .ok (errorStrings.getD i.toNat none) := by
  rcases h with h | rfl
  · have haddr : (i * 4#32).toNat / 4 = i.toNat := by
      rw [BitVec.toNat_mul, show (4#32).toNat = 4 from rfl, Nat.mod_eq_of_lt, Nat.mul_div_cancel]
      · decide
      · exact Nat.mul_lt_mul_of_pos_right h (by decide) |>.trans (by decide)
    have hlt : (i * 4#32).toNat / 4 < errorStrings.length := haddr.symm ▸ h
    rw [errorString, dif_pos hlt, List.getD_eq_getElem _ _ h, List.get_eq_getElem]
    simp only [haddr]
  · -- the address wraps around to the first entry
    rfl

theorem mem_errorStrings {i : ℕ} {p : List (BitVec 8)} (h : errorStrings.getD i none = some p) :
    some p ∈ errorStrings := by
  rcases lt_or_ge i errorStrings.length with hlt | hge
  · rw [List.getD_eq_getElem _ _ hlt] at h
    exact h ▸ List.getElem_mem hlt
  · rw [List.getD_eq_default _ _ hge] at h
    exact absurd h (by simp)

theorem errorTextWith_eq (err : Word) : errorTextWith nestedText err = .ok (errorText err) := by
  have hmax : maxerror.toInt = 6 := rfl
  have hnat := BitVec.toInt_eq_toNat_cond (errorIndex err)
  rw [errorTextWith, errorText, nestedText_number, hmax]
  split_ifs with hbig
  · have hge : errorStrings.length ≤ (errorIndex err).toNat := by
      rw [show errorStrings.length = 7 from rfl]
      split_ifs at hnat <;> omega
    rw [List.getD_eq_default _ _ hge]
  · have hindex : (errorIndex err).toNat < errorStrings.length ∨
        errorIndex err = 0x80000000#32 := by
      rcases lt_or_ge (errorIndex err).toInt 0 with hneg | hpos
      · right
        rw [errorIndex_neg_iff.mp hneg]
        decide
      · left
        rw [show errorStrings.length = 7 from rfl]
        split_ifs at hnat <;> omega
    rw [errorString_eq hindex]
    cases hentry : errorStrings.getD (errorIndex err).toNat none with
    | none => rfl
    | some p =>
      have hshort : ∀ o ∈ errorStrings, ∀ p ∈ o, 0#8 ∉ p ∧ p.length < 2 ^ 31 - 1 := by decide
      obtain ⟨hnul, hlen⟩ := hshort _ (mem_errorStrings hentry) p rfl
      exact nestedText_string hnul hlen

/-! ### Arguments -/

/-- The types of arguments that a format can ask for. -/
inductive ArgType
  | word
  | dword
  | str
  deriving DecidableEq, Repr

/-- An argument of a type. A string that is not null has a NUL. -/
def Arg.HasType : Arg → ArgType → Prop
  | .word _, .word => True
  | .dword _, .dword => True
  | .str p, .str => ∀ b ∈ p, 0#8 ∈ b
  | _, _ => False

/-- The list starts with arguments of the types. -/
def Enough : List ArgType → List Arg → Prop
  | [], _ => True
  | t :: ts, a :: ap => a.HasType t ∧ Enough ts ap
  | _ :: _, [] => False

/-- The number of arguments that modifiers take. -/
def stars (m : List (BitVec 8)) : ℕ := m.count (chr '*')

/-- The arguments that modifiers take: one for each star. -/
def starTypes (m : List (BitVec 8)) : List ArgType := List.replicate (stars m) .word

/-- The number of flags `l`. -/
def longs (m : List (BitVec 8)) : ℕ := m.count (chr 'l')

/-- The arguments that a numeric conversion takes. -/
def numberTypes (lflag : Word) : List ArgType := if 2 ≤ lflag.toInt then [.dword] else [.word]

/-- The arguments that a conversion takes. -/
def Conv.argTypes (lflag : Word) : Conv → List ArgType
  | .c | .e | .p => [.word]
  | .s => [.str]
  | .d | .u | .o | .x => numberTypes lflag
  | .percent => []

def Item.argTypes : Item → List ArgType
  | .text _ => []
  | .escape m k => starTypes m ++ k.argTypes (BitVec.ofNat 32 (longs m))
  | .broken m _ => starTypes m

/-- The types of the arguments of a format. -/
def argTypes (f : List (BitVec 8)) : List ArgType := (items f).flatMap Item.argTypes

theorem enough_append {ts us : List ArgType} {ap : List Arg} :
    Enough (ts ++ us) ap ↔ Enough ts ap ∧ Enough us (ap.drop ts.length) := by
  induction ts generalizing ap with
  | nil => exact (true_and _).symm ▸ Iff.rfl
  | cons t ts ih =>
    cases ap with
    | nil => exact ⟨False.elim, fun h => h.1⟩
    | cons a ap =>
      rw [List.cons_append, List.length_cons, List.drop_succ_cons]
      exact (and_congr_right fun _ => ih).trans and_assoc.symm

theorem vaWord_of_enough (h : Enough [.word] ap) : ∃ v, vaWord ap = .ok (v, ap.drop 1) := by
  match ap, h with
  | .word v :: ap, _ => exact ⟨v, rfl⟩
  | .dword _ :: _, h => exact h.1.elim
  | .str _ :: _, h => exact h.1.elim

theorem vaDword_of_enough (h : Enough [.dword] ap) : ∃ v, vaDword ap = .ok (v, ap.drop 1) := by
  match ap, h with
  | .dword v :: ap, _ => exact ⟨v, rfl⟩
  | .word _ :: _, h => exact h.1.elim
  | .str _ :: _, h => exact h.1.elim

theorem vaStr_of_enough (h : Enough [.str] ap) :
    ∃ p, vaStr ap = .ok (p, ap.drop 1) ∧ ∀ b ∈ p, 0#8 ∈ b := by
  match ap, h with
  | .str p :: ap, h => exact ⟨p, rfl, h.1⟩
  | .word _ :: _, h => exact h.1.elim
  | .dword _ :: _, h => exact h.1.elim

theorem stars_append (m m' : List (BitVec 8)) : stars (m ++ m') = stars m + stars m' :=
  List.count_append

theorem longs_append (m m' : List (BitVec 8)) : longs (m ++ m') = longs m + longs m' :=
  List.count_append

theorem starTypes_append (m m' : List (BitVec 8)) :
    starTypes (m ++ m') = starTypes m ++ starTypes m' := by
  rw [starTypes, stars_append, List.replicate_add]
  rfl

@[simp] theorem lflag_processPrecision (sp : Spec) (n : Word) :
    (sp.processPrecision n).lflag = sp.lflag := by
  rw [Spec.processPrecision]
  split_ifs <;> rfl

@[simp] theorem lflag_finish (sp : Spec) (num : Option Word) :
    (sp.finish num).lflag = sp.lflag := by
  cases num with
  | none => rfl
  | some n => exact lflag_processPrecision sp n

/-- Only a star takes an argument, and only `l` is counted. -/
theorem stars_singleton (ch : BitVec 8) :
    stars [ch] = if modifier ch = some .star then 1 else 0 := by
  revert ch
  decide

theorem starTypes_singleton (ch : BitVec 8) :
    starTypes [ch] = if modifier ch = some .star then [.word] else [] := by
  rw [starTypes, stars_singleton]
  split_ifs <;> rfl

theorem longs_singleton (ch : BitVec 8) :
    longs [ch] = if modifier ch = some .long then 1 else 0 := by
  revert ch
  decide

theorem modify_of_enough {ch : BitVec 8} (sp : Spec) (h : Enough (starTypes [ch]) ap) :
    ∃ num sp', modify ch sp ap = .ok (num, sp', ap.drop (starTypes [ch]).length) ∧
      sp'.lflag = sp.lflag + BitVec.ofNat 32 (longs [ch]) := by
  rw [starTypes_singleton] at h ⊢
  rw [longs_singleton]
  cases hmod : modifier ch with
  | none => exact ⟨none, sp, by simp only [modify, hmod]; rfl, (BitVec.add_zero _).symm⟩
  | some k =>
    rw [hmod] at h
    cases k with
    | star =>
      obtain ⟨v, hv⟩ := vaWord_of_enough h
      refine ⟨none, sp.processPrecision v, ?_, ?_⟩
      · simp only [modify, hmod, hv]
        rfl
      · rw [lflag_processPrecision]
        exact (BitVec.add_zero _).symm
    | long => exact ⟨none, _, by simp only [modify, hmod]; rfl, rfl⟩
    | minus | zero | dot | alt | digit =>
      refine ⟨_, _, by simp only [modify, hmod]; rfl, ?_⟩
      exact (BitVec.add_zero _).symm

/-- In the middle of a number or not, a character that is no digit takes effect. -/
theorem modifiers_restart {ch : BitVec 8} (num : Option Word)
    (h : ∀ n ∈ num, isDigit ch = false) (m : List (BitVec 8)) (sp : Spec) (ap : List Arg) :
    modifiers (ch :: m) num sp ap = modifiers (ch :: m) none (sp.finish num) ap := by
  cases num with
  | none => rfl
  | some n => exact modifiers_finish (h n rfl) m n sp ap

theorem modifier_of_isDigit {ch : BitVec 8} (h : isDigit ch = true) :
    modifier ch ≠ some .star ∧ modifier ch ≠ some .long := by
  revert ch
  decide

/-- The modifiers take their arguments, and the flag `l` is counted. -/
theorem modifiers_of_enough (m : List (BitVec 8)) (num : Option Word) (sp : Spec)
    (h : Enough (starTypes m) ap) :
    ∃ sp', modifiers m num sp ap = .ok (sp', ap.drop (starTypes m).length) ∧
      sp'.lflag = sp.lflag + BitVec.ofNat 32 (longs m) := by
  induction m generalizing num sp ap with
  | nil =>
    refine ⟨sp.finish num, rfl, ?_⟩
    rw [lflag_finish]
    exact (BitVec.add_zero _).symm
  | cons ch m ih =>
    rw [← List.singleton_append, starTypes_append, longs_append] at *
    rw [List.singleton_append] at *
    obtain ⟨hch, hm⟩ := enough_append.mp h
    rw [List.length_append, ← List.drop_drop]
    -- a digit of a number takes no argument; any other character ends the number
    by_cases hdigit : ∃ n, num = some n ∧ isDigit ch = true
    · obtain ⟨n, rfl, hdigit⟩ := hdigit
      obtain ⟨hstar, hlong⟩ := modifier_of_isDigit hdigit
      rw [starTypes_singleton, if_neg hstar] at hm ⊢
      rw [longs_singleton, if_neg hlong, Nat.zero_add, modifiers_digit hdigit]
      exact ih _ _ hm
    · have hrestart : ∀ n ∈ num, isDigit ch = false := fun n hn =>
        Bool.eq_false_iff.mpr fun hd => hdigit ⟨n, hn, hd⟩
      obtain ⟨num', sp', hmodify, hlflag⟩ := modify_of_enough (sp.finish num) hch
      obtain ⟨sp'', hrest, hlflag'⟩ := ih num' sp' hm
      refine ⟨sp'', ?_, ?_⟩
      · rw [modifiers_restart num hrestart, modifiers_none, hmodify, ok_bind, hrest]
      · rw [hlflag', hlflag, lflag_finish, BitVec.add_assoc, BitVec.ofNat_add]

theorem getint_of_enough {lflag : Word} (h : Enough (numberTypes lflag) ap) :
    ∃ v, getint ap lflag = .ok (v, ap.drop (numberTypes lflag).length) := by
  rw [numberTypes] at h ⊢
  rw [getint]
  split_ifs at h ⊢
  · exact vaDword_of_enough h
  · obtain ⟨v, hv⟩ := vaWord_of_enough h
    exact ⟨v.signExtend 64, by rw [hv]; rfl⟩

theorem getuint_of_enough {lflag : Word} (h : Enough (numberTypes lflag) ap) :
    ∃ v, getuint ap lflag = .ok (v, ap.drop (numberTypes lflag).length) := by
  rw [numberTypes] at h ⊢
  rw [getuint]
  split_ifs at h ⊢
  · exact vaDword_of_enough h
  · obtain ⟨v, hv⟩ := vaWord_of_enough h
    exact ⟨v.setWidth 64, by rw [hv]; rfl⟩

theorem stringText_ok_iff {sp : Spec} {p : List (BitVec 8)} :
    (∃ t, stringText sp p = .ok t) ↔ Covers sp.precision p := by
  rw [stringText]
  split_ifs with hcov hleft
  · exact iff_of_true ⟨_, rfl⟩ hcov
  · exact iff_of_true ⟨_, rfl⟩ hcov
  · exact iff_of_false (by simp) hcov

/-- A conversion has a text if its argument is there. -/
theorem text_of_enough (k : Conv) (sp : Spec) (h : Enough (k.argTypes sp.lflag) ap) :
    ∃ t, k.text nestedText sp ap = .ok (t, ap.drop (k.argTypes sp.lflag).length) := by
  cases k with
  | c | p =>
    obtain ⟨v, hv⟩ := vaWord_of_enough h
    exact ⟨_, by simp only [Conv.text, hv, ok_bind]; rfl⟩
  | e =>
    obtain ⟨v, hv⟩ := vaWord_of_enough h
    exact ⟨_, by simp only [Conv.text, hv, ok_bind, errorTextWith_eq]; rfl⟩
  | s =>
    obtain ⟨p, hp, hnul⟩ := vaStr_of_enough h
    have hread : 0#8 ∈ p.getD (bytes "(null)" ++ [0#8]) := by
      cases p with
      | none => decide
      | some p => exact hnul p rfl
    obtain ⟨t, ht⟩ := stringText_ok_iff.mpr (Or.inl hread : Covers sp.precision _)
    exact ⟨t, by simp only [Conv.text, hp, ok_bind, ht]; rfl⟩
  | d =>
    obtain ⟨v, hv⟩ := getint_of_enough h
    exact ⟨_, by simp only [Conv.text, hv, ok_bind]; rfl⟩
  | u | o | x =>
    obtain ⟨v, hv⟩ := getuint_of_enough h
    exact ⟨_, by simp only [Conv.text, hv, ok_bind]; rfl⟩
  | percent => exact ⟨_, rfl⟩

/-! ### The whole format -/

/-- What is no conversion is printed as it stands in the format. -/
def Item.Literal : Item → List Word → Prop
  | .escape _ _, _ => True
  | i, t => t = i.source.map ofUchar

theorem Item.perform_of_enough (i : Item) (h : Enough i.argTypes ap) :
    ∃ t, i.perform nestedText ap = .ok (t, ap.drop i.argTypes.length) ∧ i.Literal t := by
  cases i with
  | text c => exact ⟨_, rfl, rfl⟩
  | escape m k =>
    obtain ⟨hm, hk⟩ := enough_append.mp h
    obtain ⟨sp, hmods, hlflag⟩ := modifiers_of_enough m none .start hm
    rw [show Spec.start.lflag = 0#32 from rfl, BitVec.zero_add] at hlflag
    rw [← hlflag] at hk
    obtain ⟨t, ht⟩ := text_of_enough k sp hk
    refine ⟨t, ?_, trivial⟩
    rw [Item.perform, hmods, Item.argTypes, List.length_append, ← List.drop_drop, ← hlflag]
    exact ht
  | broken m c =>
    obtain ⟨sp, hmods, -⟩ := modifiers_of_enough m none .start h
    refine ⟨_, ?_, rfl⟩
    rw [Item.perform, hmods]
    rfl

theorem perform_of_enough (is : List Item) (h : Enough (is.flatMap Item.argTypes) ap) :
    ∃ ts, List.Forall₂ Item.Literal is ts ∧
      perform nestedText is ap = .ok (ts.flatten, ap.drop (is.flatMap Item.argTypes).length) := by
  induction is generalizing ap with
  | nil => exact ⟨[], .nil, rfl⟩
  | cons i is ih =>
    obtain ⟨hi, his⟩ := enough_append.mp h
    obtain ⟨t, ht, hlit⟩ := i.perform_of_enough hi
    obtain ⟨ts, hlits, hts⟩ := ih his
    refine ⟨t :: ts, .cons hlit hlits, ?_⟩
    rw [perform, ht, List.flatMap_cons, List.length_append, ← List.drop_drop]
    simp only [ok_bind, hts, List.flatten_cons]

/-- **`vprintfmt` is total.** With arguments of the types that a format asks for, it runs to the
end, and the text that it sends consists of the texts of the items, in their order. The characters
that belong to no conversion are among them as they are. -/
theorem vprintfmt_total {f : List (BitVec 8)} (hf : 0#8 ∉ f) {ap : List Arg}
    (hargs : Enough (argTypes f) ap) :
    (items f).flatMap Item.source = f ∧ WellFormedItems (items f) ∧
      ∃ ts, List.Forall₂ Item.Literal (items f) ts ∧
        ∀ {σ : Type} (putch : Word → σ → σ) (s : σ),
          vprintfmt putch (f ++ [0#8]) ap s = .ok (emit putch ts.flatten s) := by
  obtain ⟨ts, hlit, hts⟩ := perform_of_enough (items f) hargs
  refine ⟨items_source f, wellFormed_items f, ts, hlit, fun putch s => ?_⟩
  rw [vprintfmt_eq hf, formatText, formatTextWith, hts]
  rfl

/-- A format that ends inside of an escape. -/
theorem vprintfmt_total_width : (items (bytes "%d%-5")).flatMap Item.source = bytes "%d%-5" ∧
    WellFormedItems (items (bytes "%d%-5")) ∧
      ∃ ts, List.Forall₂ Item.Literal (items (bytes "%d%-5")) ts ∧
        ∀ {σ : Type} (putch : Word → σ → σ) (s : σ),
          vprintfmt putch (bytes "%d%-5" ++ [0#8]) [.word 7#32] s =
            .ok (emit putch ts.flatten s) :=
  vprintfmt_total (by decide) ⟨trivial, trivial⟩

end JosVmx.Kern
