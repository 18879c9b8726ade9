import JosVmx.Kern.FormatField

/-!
# Reading numbers

`strtol` of `lib/string.c`, and that it reads what `printnum` prints. A string is the bytes that
may be read from its pointer on; the end pointer is the bytes that are left.

Blanks in front of a number are skipped and zeros do not change it, so any field of either can be
read back. A number is not taken for a prefix of a base: there is no `x` in it, and a number in a
field without a width starts with zero only if it is zero.

## Main results

* `strtolDigits_numeral` — the digits of a numeral are read
* `strtol_printed` — `strtol` undoes `printnum` and `%d`
-/

namespace JosVmx.Kern

open Lib

/-! ### The function -/

/-- `while (*s == ' ' || *s == '\t') s++`. -/
def skipBlanks : List (BitVec 8) → Except FormatFault (List (BitVec 8))
  | [] => .error .str
  | c :: s => if c = chr ' ' ∨ c = chr '\t' then skipBlanks s else .ok (c :: s)

/-- The sign, and whether it is `-`. -/
def strtolSign : List (BitVec 8) → Except FormatFault (Bool × List (BitVec 8))
  | [] => .error .str
  | c :: s =>
    if c = chr '+' then .ok (false, s)
    else if c = chr '-' then .ok (true, s)
    else .ok (false, c :: s)

/-- `s[0] == '0' && s[1] == 'x'`. -/
def hexPrefix : List (BitVec 8) → Except FormatFault Bool
  | [] => .error .str
  | c :: s =>
    if c = chr '0' then
      match s with
      | [] => .error .str
      | d :: _ => .ok (d = chr 'x')
    else .ok false

/-- The base, and what is left behind its prefix. -/
def strtolBase (base : Word) (s : List (BitVec 8)) :
    Except FormatFault (Word × List (BitVec 8)) := do
  let hex ← if base = 0#32 ∨ base = 16#32 then hexPrefix s else .ok false
  if hex then .ok (16#32, s.drop 2)
  else if base = 0#32 then
    match s with
    | [] => .error .str
    | c :: s => if c = chr '0' then .ok (8#32, s) else .ok (10#32, c :: s)
  else .ok (base, s)

/-- The digit that a character stands for, in any base. -/
def digitValue (c : BitVec 8) : Option Word :=
  if chr '0' ≤ c ∧ c ≤ chr '9' then some (ofChar c - ofChar (chr '0'))
  else if chr 'a' ≤ c ∧ c ≤ chr 'z' then some (ofChar c - ofChar (chr 'a') + 10#32)
  else if chr 'A' ≤ c ∧ c ≤ chr 'Z' then some (ofChar c - ofChar (chr 'A') + 10#32)
  else none

/-- The loop over the digits, with the value so far. -/
def strtolDigits (base : Word) :
    Word → List (BitVec 8) → Except FormatFault (Word × List (BitVec 8))
  | _, [] => .error .str
  | val, c :: s =>
    match digitValue c with
    | none => .ok (val, c :: s)
    | some dig =>
      if base.toInt ≤ dig.toInt then .ok (val, c :: s) else strtolDigits base (val * base + dig) s

/-- `strtol`: the value, and the bytes at the end pointer. A `long` is an `int`. -/
def strtol (s : List (BitVec 8)) (base : Word) : Except FormatFault (Word × List (BitVec 8)) := do
  let s ← skipBlanks s
  let (neg, s) ← strtolSign s
  let (base, s) ← strtolBase base s
  let (val, s) ← strtolDigits base 0#32 s
  .ok (if neg then -val else val, s)

/-! ### Digits -/

/-- A digit in memory. -/
def hexByte (d : ℕ) : BitVec 8 := (bytes "0123456789abcdef").getD d 0#8

theorem lowByte_digitChar {d : ℕ} (h : d < 16) : lowByte (digitChar d) = hexByte d := by
  have hall : ∀ d < 16, lowByte (digitChar d) = hexByte d := by decide
  exact hall d h

theorem digitValue_hexByte {d : ℕ} (h : d < 16) :
    digitValue (hexByte d) = some (BitVec.ofNat 32 d) := by
  have hall : ∀ d < 16, digitValue (hexByte d) = some (BitVec.ofNat 32 d) := by decide
  exact hall d h

theorem hexByte_ne {d : ℕ} (h : d < 16) :
    hexByte d ≠ chr ' ' ∧ hexByte d ≠ chr '\t' ∧ hexByte d ≠ chr '+' ∧ hexByte d ≠ chr '-' ∧
      hexByte d ≠ chr 'x' ∧ (hexByte d = chr '0' → d = 0) := by
  have hall : ∀ d < 16, hexByte d ≠ chr ' ' ∧ hexByte d ≠ chr '\t' ∧ hexByte d ≠ chr '+' ∧
      hexByte d ≠ chr '-' ∧ hexByte d ≠ chr 'x' ∧ (hexByte d = chr '0' → d = 0) := by decide
  exact hall d h

/-- The bases of the conversions. -/
def IsBase (base : ℕ) : Prop := base = 8 ∨ base = 10 ∨ base = 16

theorem IsBase.toInt {base : ℕ} (h : IsBase base) : (BitVec.ofNat 32 base).toInt = base := by
  rcases h with rfl | rfl | rfl <;> rfl

theorem IsBase.bounds {base : ℕ} (h : IsBase base) : 1 < base ∧ base ≤ 16 := by
  rcases h with rfl | rfl | rfl <;> decide

/-- Digits are read up to the NUL. -/
theorem strtolDigits_digits {base : ℕ} (hb : IsBase base) {ds : List ℕ} (hds : ∀ d ∈ ds, d < base)
    (v : ℕ) (r : List (BitVec 8)) :
    strtolDigits (BitVec.ofNat 32 base) (BitVec.ofNat 32 v) (ds.map hexByte ++ 0#8 :: r) =
      .ok (BitVec.ofNat 32 (ds.foldl (fun v d => v * base + d) v), 0#8 :: r) := by
  induction ds generalizing v with
  | nil => rfl
  | cons d ds ih =>
    have hd : d < base := hds d (List.mem_cons_self ..)
    have h16 : d < 16 := hd.trans_le hb.bounds.2
    have hint : (BitVec.ofNat 32 d).toInt = d := by
      rw [BitVec.toInt_ofNat', Int.bmod_eq_of_le] <;> omega
    rw [List.map_cons, List.cons_append, strtolDigits, digitValue_hexByte h16]
    simp only [hb.toInt, hint]
    rw [if_neg (by omega), ← BitVec.ofNat_mul, ← BitVec.ofNat_add,
      ih fun d hd => hds d (List.mem_cons_of_mem _ hd), List.foldl_cons]

/-- Zeros in front of a numeral do not change it. -/
theorem value_zeros (base zeros : ℕ) :
    (List.replicate zeros 0).foldl (fun v d => v * base + d) 0 = 0 := by
  induction zeros with
  | zero => rfl
  | succ n ih => rw [List.replicate_succ, List.foldl_cons, Nat.zero_mul, Nat.add_zero, ih]

theorem lt_of_mem_zeros_numeral {base : ℕ} (hb : IsBase base) {zeros num d : ℕ}
    (hd : d ∈ List.replicate zeros 0 ++ numeral base num) : d < base := by
  rcases List.mem_append.mp hd with hz | hn
  · rw [List.eq_of_mem_replicate hz]
    exact Nat.zero_lt_of_lt hb.bounds.1
  · exact lt_of_mem_numeral hb.bounds.1 hn

/-- A numeral behind any number of zeros is read. -/
theorem strtolDigits_numeral {base : ℕ} (hb : IsBase base) (zeros num : ℕ) (r : List (BitVec 8)) :
    strtolDigits (BitVec.ofNat 32 base) 0#32
        ((List.replicate zeros 0 ++ numeral base num).map hexByte ++ 0#8 :: r) =
      .ok (BitVec.ofNat 32 num, 0#8 :: r) := by
  have hlt : ∀ d ∈ List.replicate zeros 0 ++ numeral base num, d < base := fun d hd =>
    lt_of_mem_zeros_numeral hb hd
  have hdigits := strtolDigits_digits hb hlt 0 r
  rw [List.foldl_append, value_zeros, value_numeral] at hdigits
  exact hdigits

/-! ### What stands in front of the digits -/

theorem skipBlanks_replicate (n : ℕ) (s : List (BitVec 8)) :
    skipBlanks (List.replicate n (chr ' ') ++ s) = skipBlanks s := by
  induction n with
  | zero => rfl
  | succ n ih => rw [List.replicate_succ, List.cons_append, skipBlanks, if_pos (.inl rfl), ih]

variable {d : ℕ} {ds : List ℕ}

theorem skipBlanks_digit (hd : d < 16) (s : List (BitVec 8)) :
    skipBlanks (hexByte d :: s) = .ok (hexByte d :: s) := by
  obtain ⟨hblank, htab, -⟩ := hexByte_ne hd
  rw [skipBlanks, if_neg (not_or.mpr ⟨hblank, htab⟩)]

theorem strtolSign_digit (hd : d < 16) (s : List (BitVec 8)) :
    strtolSign (hexByte d :: s) = .ok (false, hexByte d :: s) := by
  obtain ⟨-, -, hplus, hminus, -⟩ := hexByte_ne hd
  rw [strtolSign, if_neg hplus, if_neg hminus]

/-- Digits do not look like a prefix. -/
theorem hexPrefix_digits (hds : ∀ e ∈ d :: ds, e < 16) (r : List (BitVec 8)) :
    hexPrefix ((d :: ds).map hexByte ++ 0#8 :: r) = .ok false := by
  rw [List.map_cons, List.cons_append]
  unfold hexPrefix
  dsimp only
  split_ifs
  · cases ds with
    | nil => rfl
    | cons d' ds =>
      have hx : hexByte d' ≠ chr 'x' :=
        (hexByte_ne (hds d' (List.mem_cons_of_mem _ (List.mem_cons_self ..)))).2.2.2.2.1
      exact congrArg Except.ok (decide_eq_false hx)
  · rfl

theorem strtolBase_digits {base : ℕ} (hb : IsBase base) (hds : ∀ e ∈ d :: ds, e < 16)
    (r : List (BitVec 8)) :
    strtolBase (BitVec.ofNat 32 base) ((d :: ds).map hexByte ++ 0#8 :: r) =
      .ok (BitVec.ofNat 32 base, (d :: ds).map hexByte ++ 0#8 :: r) := by
  unfold strtolBase
  rw [hexPrefix_digits hds]
  rcases hb with rfl | rfl | rfl <;> rfl

/-- A number that does not start with zero is decimal. -/
theorem strtolBase_zero (hd : d ≠ 0) (hds : ∀ e ∈ d :: ds, e < 16) (r : List (BitVec 8)) :
    strtolBase 0#32 ((d :: ds).map hexByte ++ 0#8 :: r) =
      .ok (10#32, (d :: ds).map hexByte ++ 0#8 :: r) := by
  have hzero : hexByte d ≠ chr '0' := fun h =>
    hd ((hexByte_ne (hds d (List.mem_cons_self ..))).2.2.2.2.2 h)
  unfold strtolBase
  rw [hexPrefix_digits hds, List.map_cons, List.cons_append]
  simp only [true_or, if_true, ok_bind, Bool.false_eq_true, if_false, if_neg hzero]

/-! ### Numbers -/

/-- A numeral behind blanks and zeros is read. -/
theorem strtol_numeral {base : ℕ} (hb : IsBase base) (blanks zeros num : ℕ) (r : List (BitVec 8)) :
    strtol (List.replicate blanks (chr ' ') ++
        ((List.replicate zeros 0 ++ numeral base num).map hexByte ++ 0#8 :: r))
        (BitVec.ofNat 32 base) =
      .ok (BitVec.ofNat 32 num, 0#8 :: r) := by
  have hne : List.replicate zeros 0 ++ numeral base num ≠ [] :=
    List.append_ne_nil_of_right_ne_nil _ (numeral_ne_nil base num)
  obtain ⟨d, ds, hdigits⟩ := List.exists_cons_of_ne_nil hne
  have hds : ∀ e ∈ d :: ds, e < 16 := fun e he =>
    (lt_of_mem_zeros_numeral hb (hdigits ▸ he)).trans_le hb.bounds.2
  have hd : d < 16 := hds d (List.mem_cons_self ..)
  have hread := strtolDigits_numeral hb zeros num r
  rw [hdigits] at hread ⊢
  rw [strtol, skipBlanks_replicate, List.map_cons, List.cons_append, skipBlanks_digit hd, ok_bind,
    strtolSign_digit hd, ok_bind]
  have hb' := strtolBase_digits hb hds r
  rw [List.map_cons, List.cons_append] at hb' hread
  dsimp only
  rw [hb', ok_bind]
  dsimp only
  rw [hread]
  rfl

/-- A decimal number behind a sign is read, also when its base is found out. -/
theorem strtol_minus {num : ℕ} (hnum : num ≠ 0) {base : Word} (hbase : base = 10#32 ∨ base = 0#32)
    (r : List (BitVec 8)) :
    strtol (chr '-' :: ((numeral 10 num).map hexByte ++ 0#8 :: r)) base =
      .ok (-BitVec.ofNat 32 num, 0#8 :: r) := by
  have hten : IsBase 10 := .inr (.inl rfl)
  obtain ⟨d, ds, hdigits, hd⟩ := exists_numeral_cons 10 hnum
  have hds : ∀ e ∈ d :: ds, e < 16 := fun e he =>
    (lt_of_mem_numeral hten.bounds.1 (hdigits ▸ he)).trans_le hten.bounds.2
  have hread := strtolDigits_numeral hten 0 num r
  rw [List.replicate_zero, List.nil_append, hdigits] at hread
  have hb : strtolBase base ((d :: ds).map hexByte ++ 0#8 :: r) =
      .ok (10#32, (d :: ds).map hexByte ++ 0#8 :: r) := by
    rcases hbase with rfl | rfl
    · exact strtolBase_digits hten hds r
    · exact strtolBase_zero hd hds r
  have hsign : strtolSign (chr '-' :: ((d :: ds).map hexByte ++ 0#8 :: r)) =
      .ok (true, (d :: ds).map hexByte ++ 0#8 :: r) := rfl
  have hblanks : skipBlanks (chr '-' :: ((d :: ds).map hexByte ++ 0#8 :: r)) =
      .ok (chr '-' :: ((d :: ds).map hexByte ++ 0#8 :: r)) := rfl
  rw [hdigits, strtol, hblanks, ok_bind, hsign, ok_bind]
  dsimp only
  rw [hb, ok_bind]
  dsimp only
  rw [hread]
  rfl

/-! ### What is printed -/

theorem map_digitChar {base : ℕ} (hb : IsBase base) (num : ℕ) :
    ((numeral base num).map digitChar).map lowByte = (numeral base num).map hexByte := by
  rw [List.map_map]
  refine List.map_congr_left fun d hd => ?_
  exact lowByte_digitChar ((lt_of_mem_numeral hb.bounds.1 hd).trans_le hb.bounds.2)

/-- A field is read, whatever it is filled with. -/
theorem strtol_numberText {base : ℕ} (hb : IsBase base) {padc : BitVec 8}
    (hpadc : padc = chr ' ' ∨ padc = chr '0') (num : ℕ) (width : Word) (r : List (BitVec 8)) :
    strtol ((numberText base (ofChar padc) num width).map lowByte ++ 0#8 :: r)
        (BitVec.ofNat 32 base) =
      .ok (BitVec.ofNat 32 num, 0#8 :: r) := by
  rw [numberText, padText, List.map_append, List.map_replicate, map_digitChar hb, List.append_assoc]
  rcases hpadc with rfl | rfl
  · exact strtol_numeral hb _ 0 num r
  · -- the zeros that fill the field belong to the digits
    have hread := strtol_numeral hb 0
      (width - BitVec.ofNat 32 (numeral base num).length).toInt.toNat num r
    rw [List.map_append, List.map_replicate, List.append_assoc] at hread
    exact hread

theorem neg_ofNat_natAbs {v : Word} (h : v.toInt < 0) : -BitVec.ofNat 32 v.toInt.natAbs = v := by
  have hneg : v.toInt = -(v.toInt.natAbs : ℤ) := by omega
  have hv := BitVec.ofInt_toInt (x := v)
  rw [hneg, BitVec.ofInt_neg, BitVec.ofInt_natCast] at hv
  exact hv

/-- **Reading undoes printing.** -/
theorem strtol_printed (r : List (BitVec 8)) :
    (∀ (base num : ℕ) (padc : BitVec 8) (width : Word), IsBase base → num < 2 ^ 31 →
      padc = chr ' ' ∨ padc = chr '0' →
      ∃ t val, printnum (fun c t => t ++ [c]) (BitVec.ofNat 32 base) (ofChar padc) 64
          (BitVec.ofNat 64 num) width [] = .ok t ∧
        strtol (t.map lowByte ++ 0#8 :: r) (BitVec.ofNat 32 base) = .ok (val, 0#8 :: r) ∧
        val.toInt = num) ∧
    (∀ (v base : Word), -2 ^ 31 < v.toInt → v.toInt < 0 → base = 10#32 ∨ base = 0#32 →
      ∃ t, vprintfmt (fun c t => t ++ [c]) (bytes "%d" ++ [0#8]) [.word v] [] = .ok t ∧
        strtol (t.map lowByte ++ 0#8 :: r) base = .ok (v, 0#8 :: r)) := by
  refine ⟨?_, ?_⟩
  · intro base num padc width hb hnum hpadc
    have hbase : (BitVec.ofNat 32 base).toNat = base := by
      rcases hb with rfl | rfl | rfl <;> rfl
    have hlong : (BitVec.ofNat 64 num).toNat = num := by
      rw [BitVec.toNat_ofNat, Nat.mod_eq_of_lt]
      omega
    have hone : 1 < (BitVec.ofNat 32 base).toNat := hbase.symm ▸ hb.bounds.1
    have hprint : printnum (fun c t => t ++ [c]) (BitVec.ofNat 32 base) (ofChar padc) 64
        (BitVec.ofNat 64 num) width [] = .ok (numberText base (ofChar padc) num width) := by
      rw [printnum_eq hone _ (lt_base_pow hone _), hbase, hlong, emit_concat, List.nil_append]
    refine ⟨_, _, hprint, strtol_numberText hb hpadc num width r, ?_⟩
    rw [BitVec.toInt_ofNat', Int.bmod_eq_of_le] <;> omega
  · -- behind the sign the number has no zeros that look like a prefix
    intro v base _ hneg hbase
    have hprint := (prints_number_iff .plain .absent 0 .d (a := .word v) ⟨trivial, trivial⟩).mpr rfl
      (List Word) (fun c t => t ++ [c]) [] [] [] List.not_mem_nil
    rw [emit_concat] at hprint
    refine ⟨_, hprint, ?_⟩
    have htext : codeField .plain 0 v.toInt 10 =
        ofChar (chr '-') :: (numeral 10 v.toInt.natAbs).map digitChar := by
      rw [codeField, if_pos hneg, Nat.zero_sub, List.replicate_zero]
      rfl
    have hread := strtol_minus (show v.toInt.natAbs ≠ 0 by omega) hbase r
    rw [neg_ofNat_natAbs hneg] at hread
    rw [List.nil_append]
    refine Eq.trans ?_ hread
    rw [← map_digitChar (.inr (.inl rfl))]
    exact congrArg (fun t => strtol (t.map lowByte ++ 0#8 :: r) base) htext

theorem strtol_printed_minus_forty_two :
    (∃ t val, printnum (fun c t => t ++ [c]) 16#32 (ofChar (chr '0')) 64 42#64 8#32 [] = .ok t ∧
      strtol (t.map lowByte ++ [0#8]) 16#32 = .ok (val, [0#8]) ∧ val.toInt = 42) ∧
    ∃ t, vprintfmt (fun c t => t ++ [c]) (bytes "%d" ++ [0#8]) [.word (-42#32)] [] = .ok t ∧
      strtol (t.map lowByte ++ [0#8]) 0#32 = .ok (-42#32, [0#8]) :=
  ⟨(strtol_printed []).1 16 42 (chr '0') 8#32 (.inr (.inr rfl)) (by decide) (.inr rfl),
    (strtol_printed []).2 (-42#32) 0#32 (by decide) (by decide) (.inr rfl)⟩

end JosVmx.Kern
