import JosVmx.Kern.FormatEscape
import Mathlib.Data.List.TakeWhile

/-!
# Numbers in an escape

A width or a precision is missing, written in digits or given by a star. The digits of a number may
start with zeros, which are flags.

## Main definitions

* `Count`, `Written` — a number, and a number with any digits
* `parts` — the numbers and the dots of an escape

## Main results

* `modifiers_count`, `modifiers_written` — the modifiers of a number set the number
-/

namespace JosVmx.Kern

open Lib

variable {m : List (BitVec 8)} {sp sp' : Spec} {ap ap' : List Arg}

/-! ### Digits -/

/-- The digit `d` in a format. -/
def digitByte (d : ℕ) : BitVec 8 := (bytes "0123456789").getD d 0#8

theorem isDigit_digitByte {d : ℕ} (h : d < 10) : isDigit (digitByte d) = true := by
  have hall : ∀ d < 10, isDigit (digitByte d) = true := by decide
  exact hall d h

theorem ofChar_digitByte {d : ℕ} (h : d < 10) :
    ofChar (digitByte d) - ofChar (chr '0') = BitVec.ofNat 32 d := by
  have hall : ∀ d < 10, ofChar (digitByte d) - ofChar (chr '0') = BitVec.ofNat 32 d := by decide
  exact hall d h

theorem modifier_digitByte {d : ℕ} (h : d < 10) (hne : d ≠ 0) :
    modifier (digitByte d) = some .digit := by
  have hall : ∀ d < 10, d ≠ 0 → modifier (digitByte d) = some .digit := by decide
  exact hall d h hne

/-- A step of the loop over the digits. -/
theorem digit_step {d v : ℕ} (h : d < 10) :
    BitVec.ofNat 32 v * 10#32 + ofChar (digitByte d) - ofChar (chr '0') =
      BitVec.ofNat 32 (v * 10 + d) := by
  rw [BitVec.ofNat_add, BitVec.ofNat_mul, ← ofChar_digitByte h]
  bv_omega

/-- The digits after the first one. -/
theorem modifiers_digits {ds : List ℕ} (hds : ∀ d ∈ ds, d < 10) (v : ℕ) (m : List (BitVec 8))
    (sp : Spec) (ap : List Arg) :
    modifiers (ds.map digitByte ++ m) (some (BitVec.ofNat 32 v)) sp ap =
      modifiers m (some (BitVec.ofNat 32 (ds.foldl (fun v d => v * 10 + d) v))) sp ap := by
  induction ds generalizing v with
  | nil => rfl
  | cons d ds ih =>
    have hd := hds d (List.mem_cons_self ..)
    rw [List.map_cons, List.cons_append, modifiers_digit (isDigit_digitByte hd), digit_step hd,
      ih fun d hd => hds d (List.mem_cons_of_mem _ hd), List.foldl_cons]

/-- What stands behind a number ends it. -/
theorem modifiers_complete (hm : ∀ ch ∈ m.head?, isDigit ch = false) (n : Word) (sp : Spec)
    (ap : List Arg) :
    modifiers m (some n) sp ap = modifiers m none (sp.processPrecision n) ap := by
  cases m with
  | nil => rfl
  | cons ch m => exact modifiers_finish (hm ch rfl) m n sp ap

/-- The number that digits write. -/
def decimal (ds : List ℕ) : ℕ := ds.foldl (fun v d => v * 10 + d) 0

theorem decimal_numeral (n : ℕ) : decimal (numeral 10 n) = n := value_numeral 10 n

theorem le_foldl_digits (ds : List ℕ) (v : ℕ) : v ≤ ds.foldl (fun v d => v * 10 + d) v := by
  induction ds generalizing v with
  | nil => exact le_rfl
  | cons d ds ih =>
    rw [List.foldl_cons]
    exact (show v ≤ v * 10 + d by omega).trans (ih _)

/-- What digits set: a zero in front of them is a flag, and there is no number if all are zeros. -/
def Spec.digits (ds : List ℕ) (sp : Spec) : Spec :=
  { (if decimal ds = 0 then sp else sp.processPrecision (BitVec.ofNat 32 (decimal ds))) with
    padc := if ds.head? = some 0 then ofChar (chr '0') else sp.padc }

theorem padc_processPrecision (sp : Spec) (n : Word) : (sp.processPrecision n).padc = sp.padc := by
  rw [Spec.processPrecision]
  split_ifs <;> rfl

theorem altflag_processPrecision (sp : Spec) (n : Word) :
    (sp.processPrecision n).altflag = sp.altflag := by
  rw [Spec.processPrecision]
  split_ifs <;> rfl

theorem Spec.digits_of_head {d : ℕ} (hd : d ≠ 0) (ds : List ℕ) (sp : Spec) :
    sp.digits (d :: ds) = sp.processPrecision (BitVec.ofNat 32 (decimal (d :: ds))) := by
  have hhead : (d :: ds).head? ≠ some 0 := fun h => hd (Option.some.inj h)
  have hpos : decimal (d :: ds) ≠ 0 := by
    have hle := le_foldl_digits ds (0 * 10 + d)
    rw [decimal, List.foldl_cons]
    omega
  rw [Spec.digits, if_neg hhead, if_neg hpos, ← padc_processPrecision]

/-- Digits set a width or a precision. -/
theorem modifiers_decimal {ds : List ℕ} (hds : ∀ d ∈ ds, d < 10)
    (hm : ∀ ch ∈ m.head?, isDigit ch = false) (sp : Spec) (ap : List Arg) :
    modifiers (ds.map digitByte ++ m) none sp ap = modifiers m none (sp.digits ds) ap := by
  induction ds generalizing sp with
  | nil => rfl
  | cons d ds ih =>
    obtain ⟨hd, hds'⟩ := List.forall_mem_cons.mp hds
    rw [List.map_cons, List.cons_append, modifiers_none]
    by_cases hzero : d = 0
    · -- the flag
      subst hzero
      have hflag : modify (digitByte 0) sp ap =
          .ok (none, { sp with padc := ofChar (chr '0') }, ap) := rfl
      have hsame : Spec.digits ds { sp with padc := ofChar (chr '0') } = sp.digits (0 :: ds) := by
        have hvalue : decimal (0 :: ds) = decimal ds := rfl
        simp only [Spec.digits, hvalue, List.head?_cons, if_true, ite_self, Spec.processPrecision]
        split_ifs <;> rfl
      rw [hflag, ok_bind]
      exact (ih hds' _).trans (by rw [hsame])
    · have hfirst : modify (digitByte d) sp ap = .ok (some (BitVec.ofNat 32 d), sp, ap) := by
        have hstep := digit_step (v := 0) hd
        rw [Nat.zero_mul, Nat.zero_add] at hstep
        simp only [modify, modifier_digitByte hd hzero]
        rw [← hstep]
      have hvalue : decimal (d :: ds) = ds.foldl (fun v d => v * 10 + d) d := by
        rw [decimal, List.foldl_cons, Nat.zero_mul, Nat.zero_add]
      rw [hfirst, ok_bind, modifiers_digits hds', ← hvalue, modifiers_complete hm,
        Spec.digits_of_head hzero]

theorem lt_of_mem_numeral_ten {n d : ℕ} (hd : d ∈ numeral 10 n) : d < 10 :=
  lt_of_mem_numeral (by decide) hd

/-- The flags `l`. -/
theorem modifiers_longs (n : ℕ) (sp : Spec) (ap : List Arg) :
    modifiers (List.replicate n (chr 'l')) none sp ap =
      .ok ({ sp with lflag := sp.lflag + BitVec.ofNat 32 n }, ap) := by
  induction n generalizing sp with
  | zero =>
    rw [BitVec.add_zero]
    rfl
  | succ n ih =>
    have hstep :
        modify (chr 'l') sp ap = .ok (none, { sp with lflag := sp.lflag + 1#32 }, ap) := rfl
    rw [List.replicate_succ, modifiers_none, hstep, ok_bind, ih, BitVec.add_assoc, Nat.add_comm,
      BitVec.ofNat_add]

/-- Every digit is a modifier. -/
theorem isModifier_digits {ds : List ℕ} (hds : ∀ d ∈ ds, d < 10) :
    ∀ ch ∈ ds.map digitByte, isModifier ch := by
  have hall : ∀ d < 10, isModifier (digitByte d) := by decide
  intro ch hch
  obtain ⟨d, hd, rfl⟩ := List.mem_map.mp hch
  exact hall d (hds d hd)

/-- A number that is written as usual starts with a zero only if it is zero. -/
theorem Spec.digits_numeral (n : ℕ) (sp : Spec) :
    sp.digits (numeral 10 n) =
      if n = 0 then { sp with padc := ofChar (chr '0') }
      else sp.processPrecision (BitVec.ofNat 32 n) := by
  split_ifs with hn
  · rw [hn]
    rfl
  · obtain ⟨d, ds, hnum, hd⟩ := exists_numeral_cons 10 hn
    have hvalue := decimal_numeral n
    rw [hnum] at hvalue ⊢
    rw [Spec.digits_of_head hd, hvalue]

/-- A width or a precision in an escape: missing, in digits as usual, or given by a star. It is a
nonnegative `int`. -/
inductive Count
  | absent
  | digits (n : ℕ) (h : n < 2 ^ 31)
  | star (v : Word) (h : 0 ≤ v.toInt)

namespace Count

def source : Count → List (BitVec 8)
  | absent => []
  | digits n _ => (numeral 10 n).map digitByte
  | star _ _ => [chr '*']

def args : Count → List Arg
  | absent => []
  | digits _ _ => []
  | star v _ => [.word v]

/-- The number, if there is one. -/
def value? : Count → Option ℕ
  | absent => none
  | digits n _ => some n
  | star v _ => some v.toInt.toNat

/-- The number, or zero. -/
def value (c : Count) : ℕ := c.value?.getD 0

/-- What the modifiers of a number set. The digit zero on its own is taken for a flag. -/
def set (c : Count) (sp : Spec) : Spec :=
  match c with
  | absent => sp
  | digits n _ =>
    if n = 0 then { sp with padc := ofChar (chr '0') } else sp.processPrecision (BitVec.ofNat 32 n)
  | star v _ => sp.processPrecision v

theorem isModifier_source (c : Count) : ∀ ch ∈ c.source, isModifier ch := by
  cases c with
  | absent => exact fun ch hch => absurd hch List.not_mem_nil
  | digits n h => exact isModifier_digits fun _ => lt_of_mem_numeral_ten
  | star v h => exact List.forall_mem_singleton.mpr (by decide)

theorem lflag_set (c : Count) (sp : Spec) : (c.set sp).lflag = sp.lflag := by
  cases c with
  | absent => rfl
  | star v h => exact lflag_processPrecision sp v
  | digits n h =>
    rw [set]
    split_ifs
    · rfl
    · exact lflag_processPrecision ..

end Count

/-- The modifiers of a number set the number. -/
theorem modifiers_count (c : Count) (hm : ∀ ch ∈ m.head?, isDigit ch = false) (sp : Spec)
    (ap : List Arg) :
    modifiers (c.source ++ m) none sp (c.args ++ ap) = modifiers m none (c.set sp) ap := by
  cases c with
  | absent => rfl
  | star v h => exact modifiers_none ..
  | digits n h =>
    rw [Count.set, ← Spec.digits_numeral]
    exact modifiers_decimal (fun _ => lt_of_mem_numeral_ten) hm sp ap

/-- The width that is set, if none has been set before. -/
theorem Count.width_set (c : Count) {sp : Spec} (hsp : sp.width = -1#32) :
    (c.set sp).width.toInt = c.value ∨ (c.set sp).width = -1#32 ∧ c.value = 0 := by
  have hneg : sp.width.toInt < 0 := by
    rw [hsp]
    decide
  cases c with
  | absent => exact Or.inr ⟨hsp, rfl⟩
  | star v h =>
    left
    rw [set, Spec.processPrecision, if_pos hneg]
    exact (Int.toNat_of_nonneg h).symm
  | digits n h =>
    rw [set]
    split_ifs with hn
    · exact Or.inr ⟨hsp, hn⟩
    · left
      rw [Spec.processPrecision, if_pos hneg]
      show (BitVec.ofNat 32 n).toInt = (n : ℤ)
      rw [BitVec.toInt_ofNat', Int.bmod_eq_of_le] <;> omega

/-- A width that is not zero keeps the flag. -/
theorem Count.padc_set (c : Count) {sp : Spec} (hc : c.value ≠ 0) : (c.set sp).padc = sp.padc := by
  cases c with
  | absent => rfl
  | star v h =>
    rw [set, Spec.processPrecision]
    split_ifs <;> rfl
  | digits n h =>
    have hn : n ≠ 0 := hc
    rw [set, if_neg hn, Spec.processPrecision]
    split_ifs <;> rfl

/-! ### Numbers with zeros in front -/

/-- A width or a precision in an escape: missing, in any digits, or given by a star. It is a
nonnegative `int`. -/
inductive Written
  | absent
  | digits (ds : List ℕ) (hne : ds ≠ []) (hds : ∀ d ∈ ds, d < 10) (h : decimal ds < 2 ^ 31)
  | star (v : Word) (h : 0 ≤ v.toInt)

namespace Written

def source : Written → List (BitVec 8)
  | absent => []
  | digits ds _ _ _ => ds.map digitByte
  | star _ _ => [chr '*']

def args : Written → List Arg
  | star v _ => [.word v]
  | absent | digits _ _ _ _ => []

/-- The number, if there is one. -/
def value? : Written → Option ℕ
  | absent => none
  | digits ds _ _ _ => some (decimal ds)
  | star v _ => some v.toInt.toNat

/-- The number, or zero. -/
def value (c : Written) : ℕ := c.value?.getD 0

/-- The number starts with the digit zero. -/
def leadingZero : Written → Bool
  | digits ds _ _ _ => ds.head? = some 0
  | absent | star _ _ => false

/-- The number is zero, in digits. -/
def writtenZero : Written → Bool
  | digits ds _ _ _ => decimal ds = 0
  | absent | star _ _ => false

/-- What the modifiers of a number set. -/
def set (c : Written) (sp : Spec) : Spec :=
  match c with
  | absent => sp
  | digits ds _ _ _ => sp.digits ds
  | star v _ => sp.processPrecision v

theorem isModifier_source (c : Written) : ∀ ch ∈ c.source, isModifier ch := by
  cases c with
  | absent => exact fun ch hch => absurd hch List.not_mem_nil
  | digits ds hne hds h => exact isModifier_digits hds
  | star v h => exact List.forall_mem_singleton.mpr (by decide)

theorem value?_lt (c : Written) {n : ℕ} (h : c.value? = some n) : n < 2 ^ 31 := by
  cases c with
  | absent => exact absurd h (by simp [value?])
  | digits ds hne hds hlt => exact Option.some.inj h ▸ hlt
  | star v hv =>
    have hlt := BitVec.toInt_lt (x := v)
    rw [← Option.some.inj h]
    omega

/-- Digits that write zero start with a zero. -/
theorem leadingZero_of_writtenZero {c : Written} (h : c.writtenZero = true) :
    c.leadingZero = true := by
  cases c with
  | absent => exact absurd h Bool.false_ne_true
  | star v hv => exact absurd h Bool.false_ne_true
  | digits ds hne hds hlt =>
    have hzero : decimal ds = 0 := of_decide_eq_true h
    obtain ⟨d, ds', rfl⟩ := List.exists_cons_of_ne_nil hne
    have hle := le_foldl_digits ds' (0 * 10 + d)
    rw [decimal, List.foldl_cons] at hzero
    have hd : d = 0 := by omega
    exact decide_eq_true (congrArg some hd)

theorem value?_of_writtenZero {c : Written} (h : c.writtenZero = true) : c.value? = some 0 := by
  cases c with
  | absent => exact absurd h Bool.false_ne_true
  | star v hv => exact absurd h Bool.false_ne_true
  | digits ds hne hds hlt => exact congrArg some (of_decide_eq_true h)

theorem altflag_set (c : Written) (sp : Spec) : (c.set sp).altflag = sp.altflag := by
  cases c with
  | absent => rfl
  | star v h => exact altflag_processPrecision sp v
  | digits ds hne hds h =>
    simp only [set, Spec.digits]
    split_ifs
    · rfl
    · exact altflag_processPrecision ..

/-- A zero in front of a number sets the flag. -/
theorem padc_set (c : Written) (sp : Spec) :
    (c.set sp).padc = if c.leadingZero then ofChar (chr '0') else sp.padc := by
  cases c with
  | absent => rfl
  | star v h => exact padc_processPrecision sp v
  | digits ds hne hds h => simp only [set, Spec.digits, leadingZero, decide_eq_true_eq]

/-- The width that is set, if none has been set before. -/
theorem width_set (c : Written) {sp : Spec} (hsp : sp.width = -1#32) :
    (c.set sp).width.toInt = c.value ∨ (c.set sp).width = -1#32 ∧ c.value = 0 := by
  have hneg : sp.width.toInt < 0 := by
    rw [hsp]
    decide
  cases c with
  | absent => exact .inr ⟨hsp, rfl⟩
  | star v h =>
    left
    rw [set, Spec.processPrecision, if_pos hneg]
    exact (Int.toNat_of_nonneg h).symm
  | digits ds hne hds h =>
    simp only [set, Spec.digits, Spec.processPrecision, if_pos hneg]
    split_ifs with hzero
    · exact .inr ⟨hsp, hzero⟩
    · left
      show (BitVec.ofNat 32 (decimal ds)).toInt = (decimal ds : ℤ)
      rw [BitVec.toInt_ofNat', Int.bmod_eq_of_le] <;> omega

/-- The first number in an escape is no precision. -/
theorem precision_set (c : Written) {sp : Spec} (hsp : sp.width = -1#32)
    (hprec : sp.precision = -1#32) : (c.set sp).precision = -1#32 := by
  have hneg : sp.width.toInt < 0 := by
    rw [hsp]
    decide
  cases c with
  | absent => exact hprec
  | star v h => rw [set, Spec.processPrecision, if_pos hneg]
  | digits ds hne hds h =>
    simp only [set, Spec.digits, Spec.processPrecision, if_pos hneg]
    split_ifs
    · exact hprec
    · rfl

/-- Behind a width, a number is a precision, unless it is written as zero. -/
theorem set_of_nonneg (c : Written) {sp : Spec} (hsp : 0 ≤ sp.width.toInt) :
    (c.set sp).width = sp.width ∧ (c.set sp).precision =
      if c.writtenZero then sp.precision
      else c.value?.elim sp.precision (BitVec.ofNat 32 ·) := by
  have hnot : ¬ sp.width.toInt < 0 := not_lt.mpr hsp
  cases c with
  | absent => exact ⟨rfl, rfl⟩
  | star v h =>
    have hnat : v.toInt.toNat = v.toNat := by
      have hnat := BitVec.toInt_eq_toNat_cond v
      split_ifs at hnat <;> omega
    rw [set, Spec.processPrecision, if_neg hnot]
    refine ⟨rfl, ?_⟩
    simp only [writtenZero, value?, Option.elim, hnat, BitVec.ofNat_toNat, BitVec.setWidth_eq]
    rfl
  | digits ds hne hds h =>
    simp only [set, Spec.digits, Spec.processPrecision, if_neg hnot, writtenZero, value?,
      Option.elim, decide_eq_true_eq]
    split_ifs
    · exact ⟨rfl, rfl⟩
    · exact ⟨rfl, rfl⟩

end Written

/-- The modifiers of a number set the number. -/
theorem modifiers_written (c : Written) (hm : ∀ ch ∈ m.head?, isDigit ch = false) (sp : Spec)
    (ap : List Arg) :
    modifiers (c.source ++ m) none sp (c.args ++ ap) = modifiers m none (c.set sp) ap := by
  cases c with
  | absent => rfl
  | star v h => exact modifiers_none ..
  | digits ds hne hds h => exact modifiers_decimal hds hm sp ap

/-- A dot sets the width to zero if it is missing. -/
def Spec.dot (sp : Spec) : Spec :=
  { sp with width := if sp.width.toInt < 0 then 0#32 else sp.width }

/-- A dot and a number behind it. -/
theorem modifiers_dot (c : Written) (hm : ∀ ch ∈ m.head?, isDigit ch = false) (sp : Spec)
    (ap : List Arg) :
    modifiers (chr '.' :: (c.source ++ m)) none sp (c.args ++ ap) =
      modifiers m none (c.set sp.dot) ap := by
  have hmodify : modify (chr '.') sp (c.args ++ ap) = .ok (none, sp.dot, c.args ++ ap) := rfl
  rw [modifiers_none, hmodify, ok_bind]
  exact modifiers_written c hm sp.dot ap

/-- A dot ends a number in front of it. -/
theorem modifiers_append_dot (pre post : List (BitVec 8)) (num : Option Word) (sp : Spec)
    (ap : List Arg) :
    modifiers (pre ++ chr '.' :: post) num sp ap =
      (modifiers pre num sp ap >>= fun r => modifiers (chr '.' :: post) none r.1 r.2) := by
  induction pre generalizing num sp ap with
  | nil => exact modifiers_restart num (fun _ _ => by decide) post sp ap
  | cons ch pre ih =>
    rw [List.cons_append]
    by_cases hdigit : ∃ n, num = some n ∧ isDigit ch = true
    · obtain ⟨n, rfl, hdigit⟩ := hdigit
      rw [modifiers_digit hdigit, modifiers_digit hdigit, ih]
    · have hrestart : ∀ n ∈ num, isDigit ch = false := fun n hn =>
        Bool.eq_false_iff.mpr fun hd => hdigit ⟨n, hn, hd⟩
      rw [modifiers_restart num hrestart, modifiers_restart num hrestart, modifiers_none,
        modifiers_none]
      cases modify ch (sp.finish num) ap with
      | error e => rfl
      | ok r => exact ih ..

/-! ### Numbers and dots -/

/-- What in an escape decides about its width and its precision. -/
inductive Part
  | number (n : Word)
  | dot
  deriving DecidableEq, Repr

/-- The number that some digits write, as the machine adds it up. -/
def digitsWord (cs : List (BitVec 8)) : Word :=
  cs.foldl (fun n ch => n * 10#32 + ofChar ch - ofChar (chr '0')) 0#32

/-- The numbers and the dots in the text of an escape. A number is the argument of a star, or all
digits from one on that is not zero; the zeros in front of it are flags. -/
def parts : List (BitVec 8) → List Arg → List Part
  | [], _ => []
  | ch :: m, as =>
    if ch = chr '.' then .dot :: parts m as
    else if ch = chr '*' then
      match as with
      | .word v :: as => .number v :: parts m as
      | as => parts m as
    else if isDigit ch = true ∧ ch ≠ chr '0' then
      .number (digitsWord (ch :: m.takeWhile isDigit)) :: parts (m.dropWhile isDigit) as
    else parts m as
termination_by m => m.length
decreasing_by
  all_goals first
    | exact Nat.lt_succ_self _
    | exact Nat.lt_succ_of_le (List.length_dropWhile_le ..)

def Part.number? : Part → Option Word
  | number n => some n
  | dot => none

/-- All numbers. -/
def numbersOf (ps : List Part) : List Word := ps.filterMap Part.number?

theorem numbersOf_number (n : Word) (ps : List Part) :
    numbersOf (.number n :: ps) = n :: numbersOf ps := rfl

/-- The width: the first number that is not negative and has no dot in front of it, or zero. -/
def widthOf : List Part → ℕ
  | [] | .dot :: _ => 0
  | .number n :: ps => if n.toInt < 0 then widthOf ps else n.toInt.toNat

/-- What stands behind the width, or behind the dot in place of it. -/
def behindWidth : List Part → List Part
  | [] => []
  | .dot :: ps => ps
  | .number n :: ps => if n.toInt < 0 then behindWidth ps else ps

/-- The precision: the last number behind the width. -/
def precisionOf? (ps : List Part) : Option Word := (numbersOf (behindWidth ps)).getLast?

/-- What a part does to the width and the precision. -/
def Part.apply (q : Word × Word) : Part → Word × Word
  | number n => if q.1.toInt < 0 then (n, -1#32) else (q.1, n)
  | dot => (if q.1.toInt < 0 then 0#32 else q.1, q.2)

theorem apply_number (sp : Spec) (n : Word) :
    Part.apply (sp.width, sp.precision) (.number n) =
      ((sp.processPrecision n).width, (sp.processPrecision n).precision) := by
  rw [Part.apply, Spec.processPrecision]
  split_ifs <;> rfl

/-- The digits of a number, in the middle of it. -/
theorem modifiers_run {ds : List (BitVec 8)} (hds : ∀ ch ∈ ds, isDigit ch = true) (n : Word)
    (m : List (BitVec 8)) (sp : Spec) (ap : List Arg) :
    modifiers (ds ++ m) (some n) sp ap =
      modifiers m (some (ds.foldl (fun n ch => n * 10#32 + ofChar ch - ofChar (chr '0')) n)) sp
        ap := by
  induction ds generalizing n with
  | nil => rfl
  | cons ch ds ih =>
    obtain ⟨hch, hds'⟩ := List.forall_mem_cons.mp hds
    rw [List.cons_append, modifiers_digit hch, ih hds']
    rfl

theorem parts_dot (m : List (BitVec 8)) (as : List Arg) :
    parts (chr '.' :: m) as = .dot :: parts m as := by
  rw [parts.eq_def]
  exact if_pos rfl

theorem parts_star (m : List (BitVec 8)) (v : Word) (as : List Arg) :
    parts (chr '*' :: m) (.word v :: as) = .number v :: parts m as := by
  rw [parts.eq_def]
  rfl

theorem parts_digit {ch : BitVec 8} (hch : isDigit ch = true) (hzero : ch ≠ chr '0')
    (m : List (BitVec 8)) (as : List Arg) :
    parts (ch :: m) as =
      .number (digitsWord (ch :: m.takeWhile isDigit)) :: parts (m.dropWhile isDigit) as := by
  have hdot : ch ≠ chr '.' := by
    rintro rfl
    exact absurd hch (by decide)
  have hstar : ch ≠ chr '*' := by
    rintro rfl
    exact absurd hch (by decide)
  rw [parts.eq_def]
  dsimp only
  rw [if_neg hdot, if_neg hstar, if_pos ⟨hch, hzero⟩]

theorem parts_flag {ch : BitVec 8} (hdot : ch ≠ chr '.') (hstar : ch ≠ chr '*')
    (hdigit : ¬ (isDigit ch = true ∧ ch ≠ chr '0')) (m : List (BitVec 8)) (as : List Arg) :
    parts (ch :: m) as = parts m as := by
  rw [parts.eq_def]
  dsimp only
  rw [if_neg hdot, if_neg hstar, if_neg hdigit]

theorem modify_flag {ch : BitVec 8} (hdot : ch ≠ chr '.') (hstar : ch ≠ chr '*')
    (hdigit : ¬ (isDigit ch = true ∧ ch ≠ chr '0')) (sp : Spec) (ap : List Arg) :
    ∃ sp₁, modify ch sp ap = .ok (none, sp₁, ap) ∧ sp₁.width = sp.width ∧
      sp₁.precision = sp.precision := by
  have hmod : modifier ch ≠ some .dot ∧ modifier ch ≠ some .star ∧ modifier ch ≠ some .digit := by
    revert hdot hstar hdigit
    revert ch
    decide
  rw [modify]
  cases h : modifier ch with
  | none => exact ⟨sp, rfl, rfl, rfl⟩
  | some l =>
    rw [h] at hmod
    cases l with
    | minus | zero | alt | long => exact ⟨_, rfl, rfl, rfl⟩
    | dot => exact absurd rfl hmod.1
    | star => exact absurd rfl hmod.2.1
    | digit => exact absurd rfl hmod.2.2

theorem modify_digit {ch : BitVec 8} (hch : isDigit ch = true) (hzero : ch ≠ chr '0') (sp : Spec)
    (ap : List Arg) :
    modify ch sp ap = .ok (some (0#32 * 10#32 + ofChar ch - ofChar (chr '0')), sp, ap) := by
  have hmod : modifier ch = some .digit := by
    revert hch hzero
    revert ch
    decide
  rw [modify, hmod]

/-- **The width and the precision of an escape** are those of its numbers and dots. -/
theorem modifiers_parts (h : modifiers m none sp ap = .ok (sp', ap')) :
    (sp'.width, sp'.precision) = (parts m ap).foldl Part.apply (sp.width, sp.precision) := by
  induction hlen : m.length using Nat.strong_induction_on generalizing m sp ap with
  | _ n ih =>
    subst hlen
    cases m with
    | nil =>
      cases h
      rw [parts]
      rfl
    | cons ch m =>
      have hlt : m.length < (ch :: m).length := Nat.lt_succ_self _
      rw [modifiers_none] at h
      by_cases hdot : ch = chr '.'
      · subst hdot
        rw [parts_dot]
        exact ih _ hlt h rfl
      by_cases hstar : ch = chr '*'
      · subst hstar
        obtain ⟨⟨num, sp₁, ap₁⟩, hmodify, hrest⟩ := bind_eq_ok h
        obtain ⟨⟨v, ap₂⟩, hv, hnone⟩ := bind_eq_ok hmodify
        cases hnone
        rw [vaWord_eq_ok hv, parts_star, List.foldl_cons, apply_number]
        exact ih _ hlt hrest rfl
      by_cases hdigit : isDigit ch = true ∧ ch ≠ chr '0'
      · rw [modify_digit hdigit.1 hdigit.2, ok_bind] at h
        dsimp only at h
        -- the rest of the number, and what stands behind it
        have hhead : ∀ c ∈ (m.dropWhile isDigit).head?, isDigit c = false := by
          intro c hc
          have hnot := List.head?_dropWhile_not isDigit m
          rw [Option.mem_def.mp hc] at hnot
          exact hnot
        rw [← List.takeWhile_append_dropWhile (p := isDigit) (l := m),
          modifiers_run (fun c hc => List.mem_takeWhile_imp hc), modifiers_complete hhead] at h
        rw [parts_digit hdigit.1 hdigit.2, List.foldl_cons, apply_number]
        exact ih _ ((List.length_dropWhile_le ..).trans_lt hlt) h rfl
      · obtain ⟨sp₁, hmodify, hwidth, hprec⟩ := modify_flag hdot hstar hdigit sp ap
        rw [hmodify, ok_bind] at h
        rw [parts_flag hdot hstar hdigit, ← hwidth, ← hprec]
        exact ih _ hlt h rfl

/-- Behind the width every number is a precision, and the last one counts. -/
theorem foldl_apply_of_nonneg {w : Word} (hw : 0 ≤ w.toInt) (ps : List Part) (q : Word) :
    ps.foldl Part.apply (w, q) = (w, (numbersOf ps).getLast?.getD q) := by
  have hnot : ¬ w.toInt < 0 := not_lt.mpr hw
  induction ps generalizing q with
  | nil => rfl
  | cons x ps ih =>
    cases x with
    | dot =>
      rw [List.foldl_cons, Part.apply, if_neg hnot, ih]
      rfl
    | number n =>
      rw [List.foldl_cons, Part.apply, if_neg hnot, ih, numbersOf_number, List.getLast?_cons]
      rfl

/-- The width and the precision that are left by all parts. -/
theorem foldl_apply {w : Word} (hw : w.toInt < 0) (ps : List Part) :
    ((ps.foldl Part.apply (w, -1#32)).1.toInt ≤ 0 ↔ widthOf ps = 0) ∧
      (ps.foldl Part.apply (w, -1#32)).2 = (precisionOf? ps).getD (-1#32) := by
  induction ps generalizing w with
  | nil => exact ⟨iff_of_true hw.le rfl, rfl⟩
  | cons x ps ih =>
    cases x with
    | dot =>
      rw [List.foldl_cons, Part.apply, if_pos hw, foldl_apply_of_nonneg (by decide)]
      exact ⟨iff_of_true le_rfl rfl, rfl⟩
    | number n =>
      rw [List.foldl_cons, Part.apply, if_pos hw, widthOf, precisionOf?, behindWidth]
      by_cases hneg : n.toInt < 0
      · rw [if_pos hneg, if_pos hneg]
        exact ih hneg
      · rw [if_neg hneg, if_neg hneg, foldl_apply_of_nonneg (not_lt.mp hneg)]
        exact ⟨Int.toNat_eq_zero.symm, rfl⟩

end JosVmx.Kern
