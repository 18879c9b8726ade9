import JosVmx.Kern.FormatNumber

/-!
# Fields

What the fields of `%d`, `%u`, `%o` and `%x` and of `%s` should contain, and when they do.

The width of a number is counted down by its digits only, not by its sign, and the flag `-` is a
fill character like any other. So a number does not fill its field if there is something to fill
and it has a sign, or the flag is `-`.

The digit zero is a flag wherever a number may start. So a precision that is written as zero is
none, and a zero in front of a width or of a precision fills the field with zeros on the left.

## Main results

* `number_field_iff` — when a number fills its field
* `string_field_iff` — when a string fills its field
-/

namespace JosVmx.Kern

open Lib

/-! ### Numbers -/

/-- A flag in front of a width. -/
inductive Flag
  | plain
  | zero
  | minus
  deriving DecidableEq, Repr

def Flag.source : Flag → List (BitVec 8)
  | plain => []
  | zero => [chr '0']
  | minus => [chr '-']

/-- The fill character that a flag sets. -/
def Flag.padc : Flag → Word
  | plain => ofChar (chr ' ')
  | zero => ofChar (chr '0')
  | minus => ofChar (chr '-')

/-- The conversions that print a number in a field. -/
inductive NumberConv
  | d
  | u
  | o
  | x
  deriving DecidableEq, Repr

namespace NumberConv

def toConv : NumberConv → Conv
  | d => .d
  | u => .u
  | o => .o
  | x => .x

def base : NumberConv → ℕ
  | d | u => 10
  | o => 8
  | x => 16

def signed : NumberConv → Bool
  | d => true
  | u | o | x => false

theorem one_lt_base (k : NumberConv) : 1 < k.base := by cases k <;> decide

theorem base_le (k : NumberConv) : k.base ≤ 16 := by cases k <;> decide

end NumberConv

/-- The number in an argument. -/
def Arg.value (signed : Bool) : Arg → ℤ
  | .word v => if signed then v.toInt else v.toNat
  | .dword v => if signed then v.toInt else v.toNat
  | .str _ => 0

/-- The field of a number: blanks in front of it, zeros behind its sign, or blanks behind it. -/
def numberField (flag : Flag) (width : ℕ) (num : ℤ) (base : ℕ) : List Word :=
  let sign := if num < 0 then [ofChar (chr '-')] else []
  let digits := (numeral base num.natAbs).map digitChar
  let fill := width - (sign ++ digits).length
  match flag with
  | .plain => List.replicate fill (ofChar (chr ' ')) ++ (sign ++ digits)
  | .zero => sign ++ (List.replicate fill (ofChar (chr '0')) ++ digits)
  | .minus => sign ++ digits ++ List.replicate fill (ofChar (chr ' '))

/-- What the code prints instead. -/
def codeField (flag : Flag) (width : ℕ) (num : ℤ) (base : ℕ) : List Word :=
  (if num < 0 then [ofChar (chr '-')] else []) ++
    (List.replicate (width - (numeral base num.natAbs).length) flag.padc ++
      (numeral base num.natAbs).map digitChar)

theorem digitChar_ne_minus {d : ℕ} (h : d < 16) : digitChar d ≠ ofChar (chr '-') := by
  have hall : ∀ d < 16, digitChar d ≠ ofChar (chr '-') := by decide
  exact hall d h

theorem length_codeField (flag : Flag) (width : ℕ) (num : ℤ) (base : ℕ) :
    (codeField flag width num base).length =
      (if num < 0 then 1 else 0) + max width (numeral base num.natAbs).length := by
  rw [codeField, List.length_append, List.length_append, List.length_replicate, List.length_map]
  split_ifs <;> simp only [List.length_cons, List.length_nil] <;> omega

theorem length_numberField (flag : Flag) (width : ℕ) (num : ℤ) (base : ℕ) :
    (numberField flag width num base).length =
      max width ((if num < 0 then 1 else 0) + (numeral base num.natAbs).length) := by
  cases flag <;> rw [numberField] <;>
    simp only [List.length_append, List.length_replicate, List.length_map] <;>
    split_ifs <;> simp only [List.length_cons, List.length_nil] <;> omega

/-- The two fields differ as soon as there is something to fill, and a sign or the flag `-`. -/
theorem numberField_eq_codeField_iff (flag : Flag) (width : ℕ) (num : ℤ) {base : ℕ}
    (hb : 1 < base) (h16 : base ≤ 16) :
    numberField flag width num base = codeField flag width num base ↔
      width ≤ (numeral base num.natAbs).length ∨ 0 ≤ num ∧ flag ≠ .minus := by
  constructor
  · intro h
    by_contra hcon
    obtain ⟨hlong, hflag⟩ := not_or.mp hcon
    rw [not_le] at hlong
    rcases lt_or_ge num 0 with hneg | hpos
    · -- the sign is not counted
      have hlen := congrArg List.length h
      rw [length_numberField, length_codeField, if_pos hneg] at hlen
      omega
    · -- the digits stand behind the fill characters
      have hminus : flag = .minus := by
        by_contra hne
        exact hflag ⟨hpos, hne⟩
      obtain ⟨d, ds, hnum⟩ := List.exists_cons_of_ne_nil (numeral_ne_nil base num.natAbs)
      have hd : d < 16 := (lt_of_mem_numeral hb (hnum ▸ List.mem_cons_self ..)).trans_le h16
      obtain ⟨n, hn⟩ := Nat.exists_eq_add_of_lt hlong
      have hfill : width - (numeral base num.natAbs).length = n + 1 := by omega
      rw [hminus, numberField, codeField, if_neg (not_lt.mpr hpos), hfill, hnum,
        List.replicate_succ] at h
      exact digitChar_ne_minus hd (List.cons.inj h).1
  · rintro (hshort | ⟨hpos, hflag⟩)
    · have hnone : width - (numeral base num.natAbs).length = 0 := by omega
      have hnone' : ∀ sign : List Word,
          width - (sign.length + (numeral base num.natAbs).length) = 0 := fun sign => by omega
      cases flag <;> rw [numberField, codeField, hnone] <;>
        simp only [List.length_append, List.length_map, hnone', List.replicate_zero,
          List.nil_append, List.append_nil]
    · cases flag with
      | plain | zero =>
        rw [numberField, codeField, if_neg (not_lt.mpr hpos)]
        simp only [List.nil_append, List.length_map, Flag.padc]
      | minus => exact absurd rfl hflag

/-! ### What the code reads -/

theorem getint_value {lflag : Word} {a : Arg} (ha : Enough (numberTypes lflag) [a]) :
    ∃ num, getint [a] lflag = .ok (num, []) ∧ num.toInt = a.value true := by
  rw [numberTypes] at ha
  rw [getint]
  split_ifs at ha ⊢ with hlflag
  · cases a with
    | dword v => exact ⟨v, rfl, rfl⟩
    | word v => exact ha.1.elim
    | str p => exact ha.1.elim
  · cases a with
    | word v => exact ⟨v.signExtend 64, rfl, BitVec.toInt_signExtend_of_le (by decide)⟩
    | dword v => exact ha.1.elim
    | str p => exact ha.1.elim

theorem getuint_value {lflag : Word} {a : Arg} (ha : Enough (numberTypes lflag) [a]) :
    ∃ num, getuint [a] lflag = .ok (num, []) ∧ (num.toNat : ℤ) = a.value false := by
  rw [numberTypes] at ha
  rw [getuint]
  split_ifs at ha ⊢ with hlflag
  · cases a with
    | dword v => exact ⟨v, rfl, rfl⟩
    | word v => exact ha.1.elim
    | str p => exact ha.1.elim
  · cases a with
    | word v =>
      exact ⟨v.setWidth 64, rfl, congrArg _ (BitVec.toNat_setWidth_of_le (by decide))⟩
    | dword v => exact ha.1.elim
    | str p => exact ha.1.elim

/-- The text of a number, and its argument. -/
theorem text_number (k : NumberConv) (sp : Spec) {a : Arg}
    (ha : Enough (numberTypes sp.lflag) [a]) :
    k.toConv.text nestedText sp [a] =
      .ok ((if a.value k.signed < 0 then [ofChar (chr '-')] else []) ++
        numberText k.base sp.padc (a.value k.signed).natAbs sp.width, []) := by
  cases k with
  | d =>
    obtain ⟨num, hget, hnum⟩ := getint_value ha
    simp only [NumberConv.toConv, Conv.text, hget, ok_bind, NumberConv.signed, ← hnum]
    rfl
  | u | o | x =>
    obtain ⟨num, hget, hnum⟩ := getuint_value ha
    simp only [NumberConv.toConv, Conv.text, hget, ok_bind, NumberConv.signed, ← hnum,
      Int.natAbs_natCast, if_neg (Int.natCast_nonneg _).not_gt]
    rfl

/-- No number has more than 64 digits. -/
theorem length_numeral_value (k : NumberConv) (signed : Bool) (a : Arg) :
    (numeral k.base (a.value signed).natAbs).length ≤ 64 := by
  refine length_numeral_le_64 k.one_lt_base ?_
  cases a with
  | word v =>
    have hlt := v.isLt
    have hint := natAbs_toInt_lt v
    cases signed <;> simp only [Arg.value, if_true, if_false, Bool.false_eq_true] <;> omega
  | dword v =>
    have hlt := v.isLt
    have hint := BitVec.toInt_lt (x := v)
    have hint' := BitVec.le_toInt v
    cases signed <;> simp only [Arg.value, if_true, if_false, Bool.false_eq_true] <;> omega
  | str p => exact Nat.pos_of_neZero _

/-- The modifiers of a number: a flag, a width and any number of flags `l`. -/
def numberModifiers (flag : Flag) (width : Count) (longs : ℕ) : List (BitVec 8) :=
  flag.source ++ (width.source ++ List.replicate longs (chr 'l'))

theorem Flag.isModifier_source (flag : Flag) : ∀ ch ∈ flag.source, isModifier ch := by
  cases flag <;> decide

theorem isModifier_numberModifiers (flag : Flag) (width : Count) (longs : ℕ) :
    ∀ ch ∈ numberModifiers flag width longs, isModifier ch := by
  rw [numberModifiers, List.forall_mem_append, List.forall_mem_append]
  refine ⟨flag.isModifier_source, width.isModifier_source, fun ch hch => ?_⟩
  rw [List.eq_of_mem_replicate hch]
  decide

theorem modifiers_flag (flag : Flag) (m : List (BitVec 8)) (sp : Spec) (ap : List Arg)
    (hsp : sp.padc = ofChar (chr ' ')) :
    modifiers (flag.source ++ m) none sp ap =
      modifiers m none { sp with padc := flag.padc } ap := by
  cases flag with
  | plain => rw [Flag.padc, ← hsp]; rfl
  | zero | minus => exact modifiers_none ..

theorem modifiers_numberModifiers (flag : Flag) (width : Count) (longs : ℕ) (ap : List Arg) :
    modifiers (numberModifiers flag width longs) none .start (width.args ++ ap) =
      .ok ({ width.set { Spec.start with padc := flag.padc } with
        lflag := BitVec.ofNat 32 longs }, ap) := by
  have hlongs : ∀ ch ∈ (List.replicate longs (chr 'l')).head?, isDigit ch = false := by
    intro ch hch
    rw [List.eq_of_mem_replicate (List.mem_of_mem_head? hch)]
    decide
  rw [numberModifiers, modifiers_flag flag _ _ _ rfl, modifiers_count width hlongs,
    modifiers_longs, width.lflag_set]
  exact congrArg (fun n => Except.ok (({ width.set { Spec.start with padc := flag.padc } with
    lflag := n } : Spec), ap)) (BitVec.zero_add _)

/-- The fill characters of a width. -/
theorem padText_count (width : Count) {sp : Spec} (hsp : sp.width = -1#32) {n : ℕ}
    (hn : n < 2 ^ 31) :
    padText (width.set sp).padc ((width.set sp).width - BitVec.ofNat 32 n) =
      List.replicate (width.value - n) sp.padc := by
  rcases width.width_set hsp with hwidth | ⟨hwidth, hzero⟩
  · have hsub := toInt_sub_ofNat _ hn (show -2 ^ 31 ≤ (width.set sp).width.toInt - n by omega)
    rcases Nat.eq_zero_or_pos width.value with hzero | hpos
    · rw [padText_of_nonpos (by omega), hzero, Nat.zero_sub, List.replicate_zero]
    · rw [padText, hsub, width.padc_set hpos.ne', hwidth, Int.toNat_sub]
  · have hneg : (width.set sp).width.toInt = -1 := by
      rw [hwidth]
      rfl
    have hsub := toInt_sub_ofNat _ hn (show -2 ^ 31 ≤ (width.set sp).width.toInt - n by omega)
    rw [padText_of_nonpos (by omega), hzero, Nat.zero_sub, List.replicate_zero]

/-- What the code prints. -/
theorem prints_number_iff (flag : Flag) (width : Count) (longs : ℕ) (k : NumberConv) {a : Arg}
    (ha : Enough (numberTypes (BitVec.ofNat 32 longs)) [a]) {t : List Word} :
    Prints (chr '%' :: (numberModifiers flag width longs ++ [k.toConv.char]))
        (width.args ++ [a]) t ↔
      t = codeField flag width.value (a.value k.signed) k.base := by
  refine prints_iff (isModifier_numberModifiers flag width longs) ?_
  have htext := text_number k { width.set { Spec.start with padc := flag.padc } with
    lflag := BitVec.ofNat 32 longs } ha
  rw [Item.perform, modifiers_numberModifiers]
  refine htext.trans ?_
  rw [codeField, numberText,
    padText_count width rfl ((length_numeral_value k k.signed a).trans_lt (by decide))]

/-- **When a number fills its field.** It does if it has at least as many digits as the field is
wide, or if it has no sign and the flag is not `-`. -/
theorem number_field_iff (flag : Flag) (width : Count) (longs : ℕ) (k : NumberConv) {a : Arg}
    (ha : Enough (numberTypes (BitVec.ofNat 32 longs)) [a]) :
    Prints (chr '%' :: (numberModifiers flag width longs ++ [k.toConv.char])) (width.args ++ [a])
        (numberField flag width.value (a.value k.signed) k.base) ↔
      width.value ≤ (numeral k.base (a.value k.signed).natAbs).length ∨
        0 ≤ a.value k.signed ∧ flag ≠ .minus := by
  rw [prints_number_iff flag width longs k ha,
    numberField_eq_codeField_iff flag _ _ k.one_lt_base k.base_le]

theorem number_field_iff_hex :
    Prints
        (chr '%' :: (numberModifiers .zero (.digits 4 (by decide)) 0 ++ [NumberConv.x.toConv.char]))
        ([] ++ [.word 0xab#32]) (numberField .zero 4 0xab 16) ↔
      4 ≤ (numeral 16 0xab).length ∨ (0 : ℤ) ≤ 0xab ∧ Flag.zero ≠ .minus :=
  number_field_iff .zero (.digits 4 (by decide)) 0 .x (a := .word 0xab#32) ⟨trivial, trivial⟩

/-- A negative number makes its field longer, and the flag `-` fills it with `-`. -/
theorem not_number_field :
    vprintfmt (fun c t => t ++ [c]) (bytes "%5d" ++ [0#8]) [.word (-3#32)] [] =
        .ok ((bytes "-    3").map ofChar) ∧
      numberField .plain 5 (-3) 10 = (bytes "   -3").map ofChar ∧
    vprintfmt (fun c t => t ++ [c]) (bytes "%-5d" ++ [0#8]) [.word 3#32] [] =
        .ok ((bytes "----3").map ofChar) ∧
      numberField .minus 5 3 10 = (bytes "3    ").map ofChar := by
  refine ⟨rfl, ?_, rfl, ?_⟩ <;> decide

/-! ### Strings -/

/-- The field of a string: blanks in front of what the precision lets through, or behind it. -/
def stringField (left : Bool) (width : ℕ) (precision : Option ℕ) (s : List (BitVec 8)) :
    List Word :=
  let text := (precision.elim s s.take).map ofChar
  let fill := List.replicate (width - text.length) (ofChar (chr ' '))
  if left then text ++ fill else fill ++ text

/-- A precision in an escape. -/
def precisionSource : Written → List (BitVec 8)
  | .absent => []
  | c => chr '.' :: c.source

/-- The flag `-`, or none. -/
def leftFlag (left : Bool) : Flag := if left then .minus else .plain

/-- The modifiers of a string: perhaps the flag `-`, a width and a precision. -/
def stringModifiers (left : Bool) (width precision : Written) : List (BitVec 8) :=
  (leftFlag left).source ++ (width.source ++ precisionSource precision)

/-- What `strnlen` counts is what is printed. -/
theorem strnlenText_eq {precision : Word} {p : List (BitVec 8)} (hlen : (cstr p).length < 2 ^ 31) :
    strnlenText precision p = (shown precision p).length := by
  have hnat := BitVec.toInt_eq_toNat_cond precision
  have hlt := precision.isLt
  rw [strnlenText, shown]
  split_ifs with hneg
  · rw [List.take_of_length_le]
    split_ifs at hnat <;> omega
  · rw [show precision.toNat = precision.toInt.toNat by split_ifs at hnat <;> omega]

/-- The blanks that are printed when the width overflows while the characters are counted off
it a second time. -/
def overflowBlanks (width length : ℕ) : ℕ :=
  if 2 * length ≤ width + 2 ^ 31 then 0 else width + 2 ^ 32 - 2 * length

/-- The text of a string in a field of width `w`, as the code prints it. -/
def codeStringField (padc : Word) (w : ℕ) (text : List Word) : List Word :=
  if 0 < w ∧ padc ≠ ofChar (chr '-') then
    List.replicate (w - text.length) padc ++ text ++
      List.replicate (overflowBlanks w text.length) (ofChar (chr ' '))
  else text ++ List.replicate (w - text.length) (ofChar (chr ' '))

theorem stringText_width {sp : Spec} (halt : sp.altflag = false) {w : ℕ}
    (hw : sp.width.toInt = w ∨ sp.width = -1#32 ∧ w = 0) {p : List (BitVec 8)} (hp : 0#8 ∈ p)
    (hlen : (cstr p).length < 2 ^ 31) :
    stringText sp p = .ok (codeStringField sp.padc w ((shown sp.precision p).map ofChar)) := by
  have hplain : (shown sp.precision p).map (shownChar false) = (shown sp.precision p).map ofChar :=
    List.map_congr_left fun b _ => shownChar_false b
  have hL : (shown sp.precision p).length < 2 ^ 31 := (length_shown_le ..).trans_lt hlen
  have hmone : (-1#32 : Word).toInt = -1 := rfl
  have hpos : 0 < sp.width.toInt ↔ 0 < w := by
    rcases hw with hw | ⟨hw, hzero⟩
    · omega
    · rw [hw, hmone]
      omega
  have hcov : Covers sp.precision p := Or.inl hp
  rw [stringText, if_pos hcov, codeStringField]
  simp only [halt, hplain, List.length_map, strnlenText_eq hlen, hpos]
  generalize (shown sp.precision p).length = L at hL
  have hsub := toInt_sub_ofNat sp.width hL (by
    rcases hw with hw | ⟨hw, hzero⟩
    · omega
    · rw [hw, hmone]
      omega)
  split_ifs with hleft hfill
  · -- all blanks go in front
    have hw : sp.width.toInt = w := hw.resolve_right fun h => by omega
    have hnone := toInt_sub_ofNat 0#32 hL (by rw [BitVec.toInt_zero]; omega)
    rw [BitVec.toInt_zero] at hnone
    have hblanks : overflowBlanks w L = 0 := if_pos (by omega)
    rw [padText, hsub, hw, Int.toNat_sub, padText_of_nonpos (by omega), hblanks,
      List.replicate_zero]
  · have hw : sp.width.toInt = w := hw.resolve_right fun h => by omega
    rw [padText, hsub, hw, Int.toNat_sub, padText, overflowBlanks]
    -- the width counts down from a negative number
    split_ifs with hsmall
    · rw [toInt_sub_ofNat _ hL (by omega), Int.toNat_of_nonpos (by omega)]
    · have hwrap := toInt_sub_ofNat_of_lt (sp.width - BitVec.ofNat 32 L) hL (by omega)
      have hcount : Int.toNat ((w : ℤ) - L - L + 2 ^ 32) = w + 2 ^ 32 - 2 * L := by omega
      rw [hwrap, hsub, hw, hcount]
  · rcases hw with hw | ⟨hw, hzero⟩
    · rw [padText, hsub, hw, Int.toNat_sub]
    · rw [hw, hmone] at hsub
      rw [hw, padText_of_nonpos (by omega), hzero, Nat.zero_sub, List.replicate_zero]

/-- What the modifiers of a string set. -/
def stringSpec (left : Bool) (width precision : Written) : Spec :=
  let sp := width.set { Spec.start with padc := (leftFlag left).padc }
  match precision with
  | .absent => sp
  | c => c.set sp.dot

theorem isModifier_stringModifiers (left : Bool) (width precision : Written) :
    ∀ ch ∈ stringModifiers left width precision, isModifier ch := by
  rw [stringModifiers, List.forall_mem_append, List.forall_mem_append]
  refine ⟨Flag.isModifier_source _, width.isModifier_source, ?_⟩
  cases precision with
  | absent => exact fun ch hch => absurd hch List.not_mem_nil
  | digits ds hne hds h | star v h =>
    exact List.forall_mem_cons.mpr ⟨by decide, Written.isModifier_source _⟩

theorem modifiers_stringModifiers (left : Bool) (width precision : Written) (ap : List Arg) :
    modifiers (stringModifiers left width precision) none .start
        (width.args ++ (precision.args ++ ap)) =
      .ok (stringSpec left width precision, ap) := by
  have hdot (c : Written) (sp : Spec) : modifiers (chr '.' :: c.source) none sp (c.args ++ ap) =
      .ok (c.set sp.dot, ap) := by
    have hrun := modifiers_dot (m := []) c (fun _ h => absurd h (Option.not_mem_none _)) sp ap
    rw [List.append_nil] at hrun
    exact hrun
  have hhead : ∀ ch ∈ (precisionSource precision).head?, isDigit ch = false := by
    intro ch hch
    cases precision with
    | absent => exact absurd hch (Option.not_mem_none _)
    | digits ds hne hds h | star v h =>
      obtain rfl := Option.some.inj hch
      decide
  rw [stringModifiers, modifiers_flag _ _ _ _ rfl, modifiers_written width hhead]
  cases precision with
  | absent => rfl
  | digits ds hne hds h => exact hdot (.digits ds hne hds h) _
  | star v h => exact hdot (.star v h) _

/-- The precision that a number sets lets its first characters through. -/
theorem shown_value? (c : Written) (p : List (BitVec 8)) :
    shown (c.value?.elim (-1#32) (BitVec.ofNat 32 ·)) p = c.value?.elim (cstr p) (cstr p).take := by
  cases hvalue : c.value? with
  | none => rfl
  | some n =>
    have hlt := c.value?_lt hvalue
    have hint : (BitVec.ofNat 32 n).toInt = n := by
      rw [BitVec.toInt_ofNat', Int.bmod_eq_of_le] <;> omega
    rw [Option.elim, Option.elim, shown, hint, if_neg (by omega), Int.toNat_natCast]

section StringSpec

variable (left : Bool) (width precision : Written)

/-- What is set in front of the precision. -/
def widthSpec : Spec := width.set { Spec.start with padc := (leftFlag left).padc }

theorem width_widthSpec : (widthSpec left width).width.toInt = width.value ∨
    (widthSpec left width).width = -1#32 ∧ width.value = 0 := width.width_set rfl

theorem width_dot : (widthSpec left width).dot.width.toInt = width.value := by
  show (if (widthSpec left width).width.toInt < 0 then 0#32
    else (widthSpec left width).width).toInt = width.value
  rcases width_widthSpec left width with hwidth | ⟨hwidth, hzero⟩
  · rw [if_neg (by omega), hwidth]
  · rw [hwidth, hzero]
    decide

/-- What a precision sets behind the dot. -/
theorem set_dot (c : Written) : (c.set (widthSpec left width).dot).width.toInt = width.value ∧
    (c.set (widthSpec left width).dot).precision =
      if c.writtenZero then -1#32 else c.value?.elim (-1#32) (BitVec.ofNat 32 ·) := by
  have hnonneg : 0 ≤ (widthSpec left width).dot.width.toInt := by
    rw [width_dot]
    exact Int.natCast_nonneg _
  obtain ⟨hwidth, hprec⟩ := c.set_of_nonneg hnonneg
  have hnone : (widthSpec left width).dot.precision = -1#32 := width.precision_set rfl rfl
  rw [hnone] at hprec
  exact ⟨by rw [hwidth, width_dot], hprec⟩

theorem width_stringSpec :
    (stringSpec left width precision).width.toInt = width.value ∨
      (stringSpec left width precision).width = -1#32 ∧ width.value = 0 := by
  cases precision with
  | absent => exact width_widthSpec left width
  | digits ds hne hds h => exact .inl (set_dot left width (.digits ds hne hds h)).1
  | star v h => exact .inl (set_dot left width (.star v h)).1

theorem precision_stringSpec : (stringSpec left width precision).precision =
    if precision.writtenZero then -1#32
    else precision.value?.elim (-1#32) (BitVec.ofNat 32 ·) := by
  cases precision with
  | absent => exact width.precision_set rfl rfl
  | digits ds hne hds h => exact (set_dot left width (.digits ds hne hds h)).2
  | star v h => exact (set_dot left width (.star v h)).2

/-- A zero in front of one of the numbers is the flag for zeros. -/
theorem padc_stringSpec : (stringSpec left width precision).padc =
    if width.leadingZero || precision.leadingZero then ofChar (chr '0')
    else (leftFlag left).padc := by
  have hwidth : (widthSpec left width).padc =
      if width.leadingZero then ofChar (chr '0') else (leftFlag left).padc := width.padc_set _
  have hset (c : Written) : (c.set (widthSpec left width).dot).padc =
      if width.leadingZero || c.leadingZero then ofChar (chr '0') else (leftFlag left).padc := by
    rw [c.padc_set, Spec.dot, hwidth]
    cases c.leadingZero <;> cases width.leadingZero <;> rfl
  cases precision with
  | absent =>
    rw [Written.leadingZero, Bool.or_false]
    exact hwidth
  | digits ds hne hds h => exact hset (.digits ds hne hds h)
  | star v h => exact hset (.star v h)

theorem altflag_stringSpec : (stringSpec left width precision).altflag = false := by
  have hset (c : Written) : (c.set (widthSpec left width).dot).altflag = false :=
    (c.altflag_set _).trans (width.altflag_set _)
  cases precision with
  | absent => exact width.altflag_set _
  | digits ds hne hds h => exact hset (.digits ds hne hds h)
  | star v h => exact hset (.star v h)

/-- A precision that is written as zero lets everything through. -/
theorem shown_stringSpec (p : List (BitVec 8)) :
    shown (stringSpec left width precision).precision p =
      if precision.writtenZero then cstr p else precision.value?.elim (cstr p) (cstr p).take := by
  rw [precision_stringSpec]
  split_ifs
  · rfl
  · exact shown_value? precision p

end StringSpec

theorem codeStringField_of_pos {padc : Word} {w : ℕ} (hw : 0 < w)
    (hpadc : padc ≠ ofChar (chr '-')) (text : List Word) :
    codeStringField padc w text = List.replicate (w - text.length) padc ++ text ++
      List.replicate (overflowBlanks w text.length) (ofChar (chr ' ')) := if_pos ⟨hw, hpadc⟩

/-- What the field of a string contains, unless the width overflows. -/
theorem stringField_eq_iff (left : Bool) (w : ℕ) (precision : Option ℕ) (s : List (BitVec 8))
    (hlen : (precision.elim s s.take).length < 2 ^ 31) :
    stringField left w precision s =
        codeStringField (leftFlag left).padc w ((precision.elim s s.take).map ofChar) ↔
      left = true ∨ w = 0 ∨ 2 * (precision.elim s s.take).length ≤ w + 2 ^ 31 := by
  have hblank : ofChar (chr ' ') ≠ ofChar (chr '-') := by decide
  rw [stringField]
  generalize precision.elim s s.take = text at hlen
  rcases Nat.eq_zero_or_pos w with rfl | hpos
  · simp only [codeStringField, Nat.zero_sub, List.replicate_zero, List.append_nil,
      List.nil_append, ite_self, Nat.lt_irrefl, false_and, if_false, true_or, or_true]
  · cases left with
    | true =>
      have hcode : codeStringField (leftFlag true).padc w (text.map ofChar) =
          text.map ofChar ++ List.replicate (w - (text.map ofChar).length) (ofChar (chr ' ')) :=
        if_neg fun h => h.2 rfl
      exact iff_of_true hcode.symm (Or.inl rfl)
    | false =>
      have hcode := codeStringField_of_pos hpos (show (leftFlag false).padc ≠ _ from hblank)
        (text.map ofChar)
      rw [hcode, List.length_map]
      constructor
      · intro h
        -- the two texts differ in the blanks of the second countdown
        have hcount := congrArg List.length h
        simp only [Bool.false_eq_true, if_false, List.length_append, List.length_replicate,
          List.length_map, overflowBlanks] at hcount
        right
        right
        split_ifs at hcount <;> omega
      · intro h
        have hnone : overflowBlanks w text.length = 0 := by
          rcases h with h | h | h
          · exact absurd h Bool.false_ne_true
          · omega
          · exact if_pos h
        rw [hnone, List.replicate_zero, List.append_nil]
        rfl

theorem ofChar_injective : Function.Injective ofChar := by
  intro a b h
  have hint := congrArg BitVec.toInt h
  rw [ofChar, ofChar, BitVec.toInt_signExtend_of_le (by decide),
    BitVec.toInt_signExtend_of_le (by decide)] at hint
  exact BitVec.eq_of_toInt_eq hint

/-- With a precision that is written as zero, the whole string is printed, and zeros in front of
it. -/
theorem stringField_zero_eq_iff (left : Bool) (w : ℕ) {s : List (BitVec 8)}
    (hlen : s.length < 2 ^ 31) :
    stringField left w (some 0) s = codeStringField (ofChar (chr '0')) w (s.map ofChar) ↔
      s = List.replicate w (chr ' ') := by
  have hfield : stringField left w (some 0) s = List.replicate w (ofChar (chr ' ')) := by
    rw [stringField, Option.elim, List.take_zero, List.map_nil]
    simp only [List.length_nil, Nat.sub_zero, List.nil_append, List.append_nil, ite_self]
  have hblanks : s.map ofChar = List.replicate w (ofChar (chr ' ')) ↔
      s = List.replicate w (chr ' ') := by
    rw [← List.map_replicate, (List.map_injective_iff.mpr ofChar_injective).eq_iff]
  rw [hfield, ← hblanks]
  rcases Nat.eq_zero_or_pos w with rfl | hpos
  · rw [codeStringField, if_neg (fun h => absurd h.1 (Nat.lt_irrefl 0)), Nat.zero_sub,
      List.replicate_zero, List.append_nil]
    exact eq_comm
  · rw [codeStringField_of_pos hpos (by decide), List.length_map]
    constructor
    · intro h
      have hcount := congrArg List.length h
      simp only [List.length_append, List.length_replicate, List.length_map,
        overflowBlanks] at hcount
      have hle : w ≤ s.length := by
        by_contra hlt
        -- the first character would be a zero
        obtain ⟨n, hn⟩ := Nat.exists_eq_add_of_lt (not_le.mp hlt)
        rw [show w - s.length = n + 1 by omega, List.replicate_succ,
          show w = w - 1 + 1 by omega, List.replicate_succ] at h
        exact absurd (List.cons.inj h).1 (by decide)
      have hnone : overflowBlanks w s.length = 0 := by
        rw [overflowBlanks]
        split_ifs at hcount ⊢ <;> omega
      rw [hnone, Nat.sub_eq_zero_of_le hle, List.replicate_zero, List.replicate_zero,
        List.nil_append, List.append_nil] at h
      exact h.symm
    · intro h
      have hcount := congrArg List.length h
      rw [List.length_map, List.length_replicate] at hcount
      have hnone : overflowBlanks w s.length = 0 := if_pos (by omega)
      rw [hnone, hcount, Nat.sub_self, List.replicate_zero, List.replicate_zero, List.nil_append,
        List.append_nil, h]

/-- With zeros on the left, a string fills its field only if there is nothing to fill. -/
theorem stringField_zeros_eq_iff (left : Bool) (w : ℕ) (precision : Option ℕ)
    (s : List (BitVec 8)) (hlen : (precision.elim s s.take).length < 2 ^ 31) :
    stringField left w precision s =
        codeStringField (ofChar (chr '0')) w ((precision.elim s s.take).map ofChar) ↔
      w = 0 ∨ w ≤ (precision.elim s s.take).length ∧
        2 * (precision.elim s s.take).length ≤ w + 2 ^ 31 := by
  rw [stringField]
  generalize precision.elim s s.take = text at hlen
  rcases Nat.eq_zero_or_pos w with rfl | hpos
  · simp only [codeStringField, Nat.zero_sub, List.replicate_zero, List.append_nil,
      List.nil_append, ite_self, Nat.lt_irrefl, false_and, if_false, true_or]
  · rw [codeStringField_of_pos hpos (by decide), List.length_map, or_iff_right hpos.ne']
    constructor
    · intro h
      have hcount := congrArg List.length h
      have hzeros := congrArg (List.count (ofChar (chr '0'))) h
      have hne : (ofChar (chr ' ') == ofChar (chr '0')) = false := by decide
      -- the zeros on the left are not in the field
      have hnone : w - text.length = 0 := by
        cases left <;>
          simp only [Bool.false_eq_true, if_true, if_false, List.count_append,
            List.count_replicate_self, List.count_replicate, hne] at hzeros <;> omega
      refine ⟨Nat.sub_eq_zero_iff_le.mp hnone, ?_⟩
      cases left <;>
        simp only [Bool.false_eq_true, if_true, if_false, List.length_append,
          List.length_replicate, List.length_map, overflowBlanks] at hcount <;>
        split_ifs at hcount <;> omega
    · rintro ⟨hle, hshort⟩
      have hnone : overflowBlanks w text.length = 0 := if_pos hshort
      rw [hnone, Nat.sub_eq_zero_of_le hle]
      simp only [List.replicate_zero, List.append_nil, List.nil_append, ite_self]

/-- What the code prints. -/
theorem prints_string_iff (left : Bool) (width precision : Written) {p : List (BitVec 8)}
    (hp : 0#8 ∈ p) (hlen : (cstr p).length < 2 ^ 31) {t : List Word} :
    Prints (chr '%' :: (stringModifiers left width precision ++ [Conv.s.char]))
        (width.args ++ (precision.args ++ [.str (some p)])) t ↔
      t = codeStringField (stringSpec left width precision).padc width.value
        ((shown (stringSpec left width precision).precision p).map ofChar) := by
  refine prints_iff (isModifier_stringModifiers left width precision) ?_
  have htext := stringText_width (altflag_stringSpec left width precision)
    (width_stringSpec left width precision) hp hlen
  rw [Item.perform, modifiers_stringModifiers]
  simp only [ok_bind, Conv.text, vaStr, Option.getD_some, htext]

/-- **When a string fills its field.** A precision that is written as zero is not seen; then the
field is right only if the string consists of the blanks that should be there instead of it. If
there is a zero in front of one of the numbers, it is right only if there is nothing to fill.
Otherwise it is right, unless the width is counted down so often that it overflows. -/
theorem string_field_iff (left : Bool) (width precision : Written) {p : List (BitVec 8)}
    (hp : 0#8 ∈ p) (hlen : (cstr p).length < 2 ^ 31) :
    Prints (chr '%' :: (stringModifiers left width precision ++ [Conv.s.char]))
        (width.args ++ (precision.args ++ [.str (some p)]))
        (stringField left width.value precision.value? (cstr p)) ↔
      if precision.writtenZero then cstr p = List.replicate width.value (chr ' ')
      else if width.leadingZero || precision.leadingZero then
        width.value = 0 ∨ width.value ≤ (precision.value?.elim (cstr p) (cstr p).take).length ∧
          2 * (precision.value?.elim (cstr p) (cstr p).take).length ≤ width.value + 2 ^ 31
      else left = true ∨ width.value = 0 ∨
        2 * (precision.value?.elim (cstr p) (cstr p).take).length ≤ width.value + 2 ^ 31 := by
  rw [prints_string_iff left width precision hp hlen, padc_stringSpec, shown_stringSpec]
  cases hzero : precision.writtenZero with
  | true =>
    rw [if_pos rfl, if_pos rfl, Written.leadingZero_of_writtenZero hzero, Bool.or_true, if_pos rfl,
      Written.value?_of_writtenZero hzero]
    exact stringField_zero_eq_iff left width.value hlen
  | false =>
    have hcut : (precision.value?.elim (cstr p) (cstr p).take).length < 2 ^ 31 := by
      have hle := length_shown_le (stringSpec left width precision).precision p
      rw [shown_stringSpec, hzero, if_neg Bool.false_ne_true] at hle
      exact hle.trans_lt hlen
    rw [if_neg Bool.false_ne_true, if_neg Bool.false_ne_true]
    split_ifs
    · exact stringField_zeros_eq_iff left width.value precision.value? (cstr p) hcut
    · exact stringField_eq_iff left width.value precision.value? (cstr p) hcut

/-- The precision `3` and the width `5`, once with a zero in front of the precision. -/
theorem string_field_iff_three :
    (Prints (chr '%' :: (stringModifiers true (.star 5#32 (by decide))
            (.digits [3] (by decide) (by decide) (by decide)) ++ [Conv.s.char]))
          ([.word 5#32] ++ ([] ++ [.str (some (bytes "abcdef" ++ [0#8]))]))
          (stringField true 5 (some 3) (cstr (bytes "abcdef" ++ [0#8])))) ∧
    ¬ Prints (chr '%' :: (stringModifiers true (.star 5#32 (by decide))
            (.digits [0, 3] (by decide) (by decide) (by decide)) ++ [Conv.s.char]))
          ([.word 5#32] ++ ([] ++ [.str (some (bytes "abcdef" ++ [0#8]))]))
          (stringField true 5 (some 3) (cstr (bytes "abcdef" ++ [0#8]))) :=
  ⟨(string_field_iff true (.star 5#32 (by decide))
      (.digits [3] (by decide) (by decide) (by decide)) (by decide) (by decide)).mpr (.inl rfl),
    fun h => absurd ((string_field_iff true (.star 5#32 (by decide))
      (.digits [0, 3] (by decide) (by decide) (by decide)) (by decide) (by decide)).mp h)
      (by decide)⟩

/-- The precision of `%.0s` is not seen, the one of `%.*s` is. In `%10.05s` the zero is a flag. -/
theorem not_string_field :
    vprintfmt (fun c t => t ++ [c]) (bytes "%.0s" ++ [0#8])
        [.str (some (bytes "abc" ++ [0#8]))] [] = .ok ((bytes "abc").map ofChar) ∧
      stringField false 0 (some 0) (bytes "abc") = [] ∧
    vprintfmt (fun c t => t ++ [c]) (bytes "%.*s" ++ [0#8])
        [.word 0#32, .str (some (bytes "abc" ++ [0#8]))] [] = .ok [] ∧
    vprintfmt (fun c t => t ++ [c]) (bytes "%10.05s" ++ [0#8])
        [.str (some (bytes "abc" ++ [0#8]))] [] = .ok ((bytes "0000000abc").map ofChar) ∧
      stringField false 10 (some 5) (bytes "abc") = (bytes "       abc").map ofChar :=
  ⟨rfl, rfl, rfl, rfl, rfl⟩

end JosVmx.Kern
