import JosVmx.Kern.FormatText

/-!
# Formats as lists of items

What `vprintfmt` means, without positions in the format. A format is a list of items: an
ordinary character, an escape with its conversion, or an escape that is broken because it ends
in a character that is no conversion, or in the NUL. An item takes arguments and has a text.

## Main results

* `items_source` — a format consists of its items
* `vprintfmt_eq` — the function of the source sends the text of the items
-/

namespace JosVmx.Kern

open Lib

variable {σ : Type} {putch : Word → σ → σ} {f m : List (BitVec 8)} {ap : List Arg}

/-- A flag, or a part of a width or a precision. -/
def isModifier (ch : BitVec 8) : Bool := (modifier ch).isSome

/-- The letter of a conversion. -/
def Conv.char : Conv → BitVec 8
  | .c => chr 'c'
  | .e => chr 'e'
  | .s => chr 's'
  | .d => chr 'd'
  | .u => chr 'u'
  | .o => chr 'o'
  | .p => chr 'p'
  | .x => chr 'x'
  | .percent => chr '%'

@[simp] theorem conv_char (k : Conv) : conv k.char = some k := by cases k <;> rfl

theorem eq_char_of_conv {ch : BitVec 8} {k : Conv} (h : conv ch = some k) : ch = k.char := by
  unfold conv at h
  split_ifs at h <;> cases h <;> assumption

/-- An item of a format. A broken escape has the character that it ends in, if it is not the
NUL. -/
inductive Item
  | text (c : BitVec 8)
  | escape (m : List (BitVec 8)) (k : Conv)
  | broken (m : List (BitVec 8)) (c : Option (BitVec 8))
  deriving DecidableEq, Repr

/-- The characters of an item in the format. -/
def Item.source : Item → List (BitVec 8)
  | text c => [c]
  | escape m k => chr '%' :: (m ++ [k.char])
  | broken m c => chr '%' :: (m ++ c.toList)

/-- The items of the rest of a format, in the middle of an escape if modifiers have been read. -/
def scanItems : Option (List (BitVec 8)) → List (BitVec 8) → List Item
  | none, [] => []
  | some m, [] => [.broken m none]
  | none, ch :: f =>
    if ch = chr '%' then scanItems (some []) f else .text ch :: scanItems none f
  | some m, ch :: f =>
    if isModifier ch then scanItems (some (m ++ [ch])) f
    else
      match conv ch with
      | some k => .escape m k :: scanItems none f
      | none => .broken m (some ch) :: scanItems none f

/-- The items of a format. -/
def items (f : List (BitVec 8)) : List Item := scanItems none f

/-- A list of items that a format can have. Only the last one can be broken off. -/
def WellFormedItems : List Item → Prop
  | [] => True
  | .text c :: is => c ≠ chr '%' ∧ WellFormedItems is
  | .escape m _ :: is => (∀ ch ∈ m, isModifier ch) ∧ WellFormedItems is
  | .broken m (some c) :: is =>
    (∀ ch ∈ m, isModifier ch) ∧ isModifier c = false ∧ conv c = none ∧ WellFormedItems is
  | .broken m none :: is => (∀ ch ∈ m, isModifier ch) ∧ is = []

theorem scanItems_modifiers (m' : List (BitVec 8)) (hm : ∀ ch ∈ m, isModifier ch) (f) :
    scanItems (some m') (m ++ f) = scanItems (some (m' ++ m)) f := by
  induction m generalizing m' with
  | nil => rw [List.nil_append, List.append_nil]
  | cons ch m ih =>
    rw [List.cons_append, scanItems, if_pos (hm ch (List.mem_cons_self ..)),
      ih _ fun ch hch => hm ch (List.mem_cons_of_mem _ hch), List.append_assoc,
      List.singleton_append]

theorem modifier_char (k : Conv) : modifier k.char = none := by cases k <;> rfl

theorem isModifier_char (k : Conv) : isModifier k.char = false := by
  rw [isModifier, modifier_char]
  rfl

theorem items_text {c : BitVec 8} (hc : c ≠ chr '%') (f : List (BitVec 8)) :
    items (c :: f) = .text c :: items f := by
  rw [items, scanItems, if_neg hc]
  rfl

theorem items_percent (hm : ∀ ch ∈ m, isModifier ch) (f : List (BitVec 8)) :
    items (chr '%' :: (m ++ f)) = scanItems (some m) f := by
  rw [items, scanItems, if_pos rfl, scanItems_modifiers _ hm, List.nil_append]

theorem items_escape (hm : ∀ ch ∈ m, isModifier ch) (k : Conv) (f : List (BitVec 8)) :
    items (chr '%' :: (m ++ k.char :: f)) = .escape m k :: items f := by
  rw [items_percent hm, scanItems, isModifier_char, conv_char]
  rfl

/-- What a state of the scanner has read. -/
theorem flatMap_source_scanItems (num : Option (List (BitVec 8))) (f : List (BitVec 8)) :
    (scanItems num f).flatMap Item.source = (num.elim [] (chr '%' :: ·)) ++ f := by
  induction num, f using scanItems.induct with
  | case1 => rfl
  | case2 m =>
    rw [scanItems, List.flatMap_cons, List.flatMap_nil, List.append_nil, List.append_nil]
    exact congrArg _ (List.append_nil _)
  | case3 f ih =>
    rw [scanItems, if_pos rfl, ih]
    rfl
  | case4 ch f hch ih =>
    rw [scanItems, if_neg hch, List.flatMap_cons, ih]
    rfl
  | case5 m ch f hch ih =>
    rw [scanItems, if_pos hch, ih, Option.elim, Option.elim, List.cons_append, List.cons_append,
      List.append_assoc, List.singleton_append]
  | case6 m ch f hch k hk ih =>
    rw [scanItems, if_neg hch, hk]
    simp only [List.flatMap_cons, ih, Item.source, ← eq_char_of_conv hk]
    simp
  | case7 m ch f hch hk ih =>
    rw [scanItems, if_neg hch, hk]
    simp only [List.flatMap_cons, ih, Item.source]
    simp

/-- **A format consists of its items.** -/
theorem items_source (f : List (BitVec 8)) : (items f).flatMap Item.source = f :=
  flatMap_source_scanItems none f

theorem wellFormed_scanItems (num : Option (List (BitVec 8))) (f : List (BitVec 8))
    (hnum : ∀ m ∈ num, ∀ ch ∈ m, isModifier ch) : WellFormedItems (scanItems num f) := by
  induction num, f using scanItems.induct with
  | case1 => trivial
  | case2 m => exact ⟨hnum m rfl, rfl⟩
  | case3 f ih =>
    rw [scanItems, if_pos rfl]
    exact ih fun m hm ch hch => by cases hm; exact absurd hch List.not_mem_nil
  | case4 ch f hch ih =>
    rw [scanItems, if_neg hch]
    exact ⟨hch, ih fun m hm => absurd hm (Option.not_mem_none m)⟩
  | case5 m ch f hch ih =>
    rw [scanItems, if_pos hch]
    refine ih fun m' hm' ch' hch' => ?_
    obtain rfl := Option.some.inj hm'
    rcases List.mem_append.mp hch' with hmem | hmem
    · exact hnum m rfl ch' hmem
    · rwa [List.mem_singleton.mp hmem]
  | case6 m ch f hch k hk ih =>
    rw [scanItems, if_neg hch, hk]
    exact ⟨hnum m rfl, ih fun m hm => absurd hm (Option.not_mem_none m)⟩
  | case7 m ch f hch hk ih =>
    rw [scanItems, if_neg hch, hk]
    exact ⟨hnum m rfl, Bool.not_eq_true _ ▸ hch, hk,
      ih fun m hm => absurd hm (Option.not_mem_none m)⟩

theorem wellFormed_items (f : List (BitVec 8)) : WellFormedItems (items f) :=
  wellFormed_scanItems none f fun m hm => absurd hm (Option.not_mem_none m)

/-! ### What an escape has read -/

/-- A number is complete: a width, or a precision if there is a width already. -/
def Spec.finish (sp : Spec) : Option Word → Spec
  | none => sp
  | some n => sp.processPrecision n

/-- A modifier when no number is being read. -/
def modify (ch : BitVec 8) (sp : Spec) (ap : List Arg) :
    Except FormatFault (Option Word × Spec × List Arg) :=
  match modifier ch with
  | some .minus => .ok (none, { sp with padc := ofChar (chr '-') }, ap)
  | some .zero => .ok (none, { sp with padc := ofChar (chr '0') }, ap)
  | some .digit => .ok (some (0#32 * 10#32 + ofChar ch - ofChar (chr '0')), sp, ap)
  | some .star => do
    let (n, ap) ← vaWord ap
    .ok (none, sp.processPrecision n, ap)
  | some .dot => .ok (none, { sp with width := if sp.width.toInt < 0 then 0#32 else sp.width }, ap)
  | some .alt => .ok (none, { sp with altflag := true }, ap)
  | some .long => .ok (none, { sp with lflag := sp.lflag + 1#32 }, ap)
  | none => .ok (none, sp, ap)

/-- The modifiers of an escape, one after the other. While a number is read, its digits are not
in effect yet. -/
def modifiers :
    List (BitVec 8) → Option Word → Spec → List Arg → Except FormatFault (Spec × List Arg)
  | [], num, sp, ap => .ok (sp.finish num, ap)
  | ch :: m, num, sp, ap =>
    match num, isDigit ch with
    | some n, true => modifiers m (some (n * 10#32 + ofChar ch - ofChar (chr '0'))) sp ap
    | num, _ => do
      let (num, sp, ap) ← modify ch (sp.finish num) ap
      modifiers m num sp ap

theorem modifiers_none (ch : BitVec 8) (m : List (BitVec 8)) (sp : Spec) (ap : List Arg) :
    modifiers (ch :: m) none sp ap =
      (modify ch sp ap >>= fun r => modifiers m r.1 r.2.1 r.2.2) := by
  rw [modifiers]
  · rfl
  · exact fun _ h => absurd h (by simp)

theorem modifiers_digit {ch : BitVec 8} (hch : isDigit ch = true) (m : List (BitVec 8)) (n : Word)
    (sp : Spec) (ap : List Arg) :
    modifiers (ch :: m) (some n) sp ap =
      modifiers m (some (n * 10#32 + ofChar ch - ofChar (chr '0'))) sp ap := by
  rw [modifiers]
  exact hch

/-- A character that is no digit ends a number. -/
theorem modifiers_finish {ch : BitVec 8} (hch : isDigit ch = false) (m : List (BitVec 8)) (n : Word)
    (sp : Spec) (ap : List Arg) :
    modifiers (ch :: m) (some n) sp ap = modifiers (ch :: m) none (sp.processPrecision n) ap := by
  rw [modifiers_none, modifiers.eq_def]
  simp only [hch]
  rfl

theorem isDigit_of_modifier {ch : BitVec 8} (h : modifier ch = none) : isDigit ch = false := by
  unfold modifier at h
  split_ifs at h with _ _ hdigit
  exact Bool.eq_false_iff.mpr hdigit

/-! ### Positions in the format -/

theorem fmtByte_of_drop {i : ℕ} {b : BitVec 8} {r : List (BitVec 8)} (h : f.drop i = b :: r) :
    fmtByte f i = .ok b := by
  have hlt : i < f.length := by
    by_contra hge
    rw [List.drop_eq_nil_of_le (not_lt.mp hge)] at h
    exact absurd h (List.cons_ne_nil _ _).symm
  have hget : f.getD i 0#8 = b := by
    rw [List.drop_eq_getElem_cons hlt] at h
    rw [List.getD_eq_getElem _ _ hlt, (List.cons.inj h).1]
  rw [fmtByte, if_pos ⟨Int.natCast_nonneg i, Int.ofNat_lt.mpr hlt⟩, Int.toNat_natCast, hget]

theorem drop_succ_of_drop {i : ℕ} {b : BitVec 8} {r : List (BitVec 8)} (h : f.drop i = b :: r) :
    f.drop (i + 1) = r := by
  rw [← List.drop_drop, h, List.drop_one, List.tail_cons]

theorem drop_add_of_drop {i : ℕ} {t r : List (BitVec 8)} (h : f.drop i = t ++ r) :
    f.drop (i + t.length) = r := by
  rw [← List.drop_drop, h, List.drop_left]

/-- A round of the loop over the modifiers of an escape: it goes on behind the modifier, or
behind the number that starts with it. -/
theorem escapeRound_modifier {i : ℕ} {ch : BitVec 8} (hbyte : fmtByte f i = .ok ch)
    (hch : isModifier ch = true) (sp : Spec) (ap : List Arg) :
    escapeRound f ⟨sp, i, ap⟩ =
      (modify ch sp ap >>= fun r =>
        match r.1 with
        | none => .ok (some ⟨r.2.1, (i + 1 : ℕ), r.2.2⟩)
        | some n =>
          whileLoop .diverge (digitRound f) (f.length + 1) (n, ((i + 1 : ℕ) : ℤ)) >>= fun st =>
            .ok (some ⟨r.2.1.processPrecision st.1, st.2, r.2.2⟩)) := by
  obtain ⟨k, hmod⟩ := Option.isSome_iff_exists.mp hch
  cases k with
  | minus | zero | digit | dot | alt | long =>
    simp only [escapeRound, modify, hbyte, ok_bind, hmod, Nat.cast_succ]
  | star =>
    simp only [escapeRound, modify, hbyte, ok_bind, hmod, Nat.cast_succ]
    cases vaWord ap <;> rfl

/-- The loop over the modifiers of an escape, from position `i` on: it sets what they set, and
stops in front of the character `c` behind them. The second part is the same in the middle of a
number. -/
theorem escapeLoop {c : BitVec 8} (hc : modifier c = none) {post : List (BitVec 8)}
    (hm : ∀ ch ∈ m, isModifier ch) {i : ℕ} (hdrop : f.drop i = m ++ c :: post) (sp : Spec)
    (ap : List Arg) {fuel : ℕ} (hfuel : m.length < fuel) :
    whileLoop .diverge (escapeRound f) fuel ⟨sp, i, ap⟩ =
      (modifiers m none sp ap).map (fun r => ⟨r.1, (i + m.length : ℕ), r.2⟩) ∧
    ∀ n fuel', m.length < fuel' →
      (whileLoop .diverge (digitRound f) fuel' (n, (i : ℤ)) >>= fun st =>
        whileLoop .diverge (escapeRound f) fuel ⟨sp.processPrecision st.1, st.2, ap⟩) =
      (modifiers m (some n) sp ap).map (fun r => ⟨r.1, (i + m.length : ℕ), r.2⟩) := by
  induction m generalizing i sp ap fuel with
  | nil =>
    obtain ⟨fuel, rfl⟩ := Nat.exists_eq_succ_of_ne_zero hfuel.ne'
    have hbyte := fmtByte_of_drop hdrop
    have hstop : ∀ sp ap, escapeRound f ⟨sp, i, ap⟩ = .ok none := by
      intro sp ap
      simp only [escapeRound, hbyte, ok_bind, hc]
    refine ⟨whileLoop_of_stop (hstop sp ap), fun n fuel' hfuel' => ?_⟩
    obtain ⟨fuel', rfl⟩ := Nat.exists_eq_succ_of_ne_zero hfuel'.ne'
    have hdigit : digitRound f (n, (i : ℤ)) = .ok none := by
      simp only [digitRound, hbyte, ok_bind, isDigit_of_modifier hc]
      rfl
    rw [Nat.succ_eq_add_one, whileLoop_of_stop hdigit, ok_bind, whileLoop_of_stop (hstop _ ap)]
    rfl
  | cons ch m ih =>
    have hbyte := fmtByte_of_drop hdrop
    have hnext := drop_succ_of_drop hdrop
    have hm' : ∀ ch ∈ m, isModifier ch := fun ch hch => hm ch (List.mem_cons_of_mem _ hch)
    have hlen : m.length < f.length + 1 := by
      have hlen := congrArg List.length hdrop
      rw [List.length_drop, List.length_append, List.length_cons] at hlen
      omega
    have hpos : i + (m.length + 1) = i + 1 + m.length := by omega
    rw [List.length_cons, hpos]
    -- a modifier that is no digit, or the first digit of a number
    have hfirst : ∀ sp ap, whileLoop .diverge (escapeRound f) fuel ⟨sp, i, ap⟩ =
        (modifiers (ch :: m) none sp ap).map (fun r => ⟨r.1, (i + 1 + m.length : ℕ), r.2⟩) := by
      intro sp ap
      obtain ⟨fuel, rfl⟩ := Nat.exists_eq_succ_of_ne_zero (Nat.ne_zero_of_lt hfuel)
      have hrest := fun sp ap => ih hm' hnext sp ap (Nat.lt_of_succ_lt_succ hfuel)
      have hround := escapeRound_modifier hbyte (hm ch (List.mem_cons_self ..)) sp ap
      rw [modifiers_none]
      cases hmodify : modify ch sp ap with
      | error e =>
        rw [hmodify] at hround
        exact whileLoop_of_error hround
      | ok r =>
        obtain ⟨num, sp', ap'⟩ := r
        rw [hmodify, ok_bind] at hround
        rw [ok_bind]
        cases num with
        | none => exact (whileLoop_of_step hround).trans (hrest sp' ap').1
        | some n =>
          rw [← (hrest sp' ap').2 n (f.length + 1) hlen]
          dsimp only at hround
          cases hinner : whileLoop .diverge (digitRound f) (f.length + 1)
              (n, ((i + 1 : ℕ) : ℤ)) with
          | error e =>
            rw [hinner] at hround
            exact whileLoop_of_error hround
          | ok st =>
            rw [hinner] at hround
            exact whileLoop_of_step hround
    refine ⟨hfirst sp ap, fun n fuel' hfuel' => ?_⟩
    obtain ⟨fuel', rfl⟩ := Nat.exists_eq_succ_of_ne_zero (Nat.ne_zero_of_lt hfuel')
    -- a digit goes on with the number, anything else ends it and is looked at once more
    cases hdigit : isDigit ch with
    | true =>
      have hround : digitRound f (n, (i : ℤ)) =
          .ok (some (n * 10#32 + ofChar ch - ofChar (chr '0'), ((i + 1 : ℕ) : ℤ))) := by
        simp only [digitRound, hbyte, ok_bind, hdigit, Nat.cast_succ]
        rfl
      rw [Nat.succ_eq_add_one, whileLoop_of_step hround, modifiers_digit hdigit]
      exact (ih hm' hnext sp ap (Nat.lt_of_succ_lt hfuel)).2 _ _ (Nat.lt_of_succ_lt_succ hfuel')
    | false =>
      have hround : digitRound f (n, (i : ℤ)) = .ok none := by
        simp only [digitRound, hbyte, ok_bind, hdigit]
        rfl
      rw [Nat.succ_eq_add_one, whileLoop_of_stop hround, modifiers_finish hdigit, ok_bind,
        hfirst]

theorem ne_percent_of_isModifier {ch : BitVec 8} (h : isModifier ch = true) : ch ≠ chr '%' := by
  rintro rfl
  exact absurd h (by decide)

theorem ne_nul_of_isModifier {ch : BitVec 8} (h : isModifier ch = true) : ch ≠ 0#8 := by
  rintro rfl
  exact absurd h (by decide)

/-- The loop that moves back ends behind the `%` of the escape. -/
theorem rewindLoop (hm : ∀ ch ∈ m, isModifier ch) {i : ℕ} {r : List (BitVec 8)}
    (hdrop : f.drop i = chr '%' :: (m ++ r)) {k fuel : ℕ} (hk : k ≤ m.length) (hfuel : k < fuel) :
    whileLoop .diverge (rewindRound f) fuel ((i + 1 + k : ℕ) : ℤ) = .ok ((i + 1 : ℕ) : ℤ) := by
  obtain ⟨fuel, rfl⟩ := Nat.exists_eq_succ_of_ne_zero (Nat.ne_zero_of_lt hfuel)
  have hback : ((i + 1 + k : ℕ) : ℤ) - 1 = ((i + k : ℕ) : ℤ) := by omega
  induction k generalizing fuel with
  | zero =>
    refine whileLoop_of_stop ?_
    rw [rewindRound, hback, Nat.add_zero, fmtByte_of_drop hdrop]
    rfl
  | succ k ih =>
    have hget : f.drop (i + (k + 1)) = m[k] :: (m.drop (k + 1) ++ r) := by
      rw [← List.drop_drop, hdrop, List.drop_succ_cons, List.drop_append_of_le_length (by omega),
        List.drop_eq_getElem_cons hk, List.cons_append]
    have hround : rewindRound f ((i + 1 + (k + 1) : ℕ) : ℤ) =
        .ok (some ((i + 1 + k : ℕ) : ℤ)) := by
      rw [rewindRound, hback, fmtByte_of_drop hget, ok_bind,
        if_pos (ne_percent_of_isModifier (hm _ (List.getElem_mem hk))),
        show i + (k + 1) = i + 1 + k by omega]
    obtain ⟨fuel, rfl⟩ := Nat.exists_eq_succ_of_ne_zero
      (Nat.ne_zero_of_lt (Nat.lt_of_succ_lt_succ hfuel))
    rw [Nat.succ_eq_add_one, whileLoop_of_step hround]
    exact ih (by omega) fuel (by omega) (by omega)

/-! ### The texts of items -/

variable (nested : List (BitVec 8) → List Arg → Except FormatFault (List Word))

/-- The text of an item, and the arguments that it leaves. A broken escape still takes the
arguments of its stars. -/
def Item.perform : Item → List Arg → Except FormatFault (List Word × List Arg)
  | .text c, ap => .ok ([ofUchar c], ap)
  | .escape m k, ap => do
    let (sp, ap) ← modifiers m none .start ap
    k.text nested sp ap
  | .broken m c, ap => do
    let (_, ap) ← modifiers m none .start ap
    .ok ((Item.broken m c).source.map ofUchar, ap)

/-- The text of a list of items. -/
def perform : List Item → List Arg → Except FormatFault (List Word × List Arg)
  | [], ap => .ok ([], ap)
  | i :: is, ap => do
    let (t, ap) ← i.perform nested ap
    let (u, ap) ← perform is ap
    .ok (t ++ u, ap)

/-- The items of a text are sent as they are. -/
theorem perform_map_text (t : List (BitVec 8)) (is : List Item) (ap : List Arg) :
    perform nested (t.map Item.text ++ is) ap =
      (perform nested is ap).map fun r => (t.map ofUchar ++ r.1, r.2) := by
  induction t with
  | nil =>
    rw [List.map_nil, List.nil_append]
    cases perform nested is ap <;> rfl
  | cons c t ih =>
    rw [List.map_cons, List.cons_append, perform, Item.perform]
    simp only [ok_bind, ih]
    cases perform nested is ap <;> rfl

variable {nested} {printfmt : List (BitVec 8) → List Arg → σ → Except FormatFault σ}

variable (printfmt putch) in
/-- Characters that are no escape are sent as they are. -/
theorem textLoop {t : List (BitVec 8)} (ht : ∀ c ∈ t, c ≠ chr '%' ∧ c ≠ 0#8) {i : ℕ}
    {r : List (BitVec 8)} (hdrop : f.drop i = t ++ r) (ap : List Arg) (s : σ) (fuel : ℕ) :
    whileLoop .diverge (formatRound printfmt putch f) (fuel + t.length) ⟨i, ap, s⟩ =
      whileLoop .diverge (formatRound printfmt putch f) fuel
        ⟨(i + t.length : ℕ), ap, emit putch (t.map ofUchar) s⟩ := by
  induction t generalizing i s with
  | nil => rfl
  | cons c t ih =>
    obtain ⟨hpercent, hnul⟩ := ht c (List.mem_cons_self ..)
    have hround : formatRound printfmt putch f ⟨i, ap, s⟩ =
        .ok (some ⟨(i + 1 : ℕ), ap, putch (ofUchar c) s⟩) := by
      simp only [formatRound, fmtByte_of_drop hdrop, ok_bind, if_neg hpercent, if_neg hnul,
        Nat.cast_succ]
    rw [List.length_cons, ← Nat.add_assoc, whileLoop_of_step hround,
      ih (fun c hc => ht c (List.mem_cons_of_mem _ hc)) (drop_succ_of_drop hdrop), List.map_cons,
      emit_cons, Nat.add_assoc i, Nat.add_comm 1]

/-- An escape with its conversion is read, and its text is sent. -/
theorem formatRound_escape (hsends : Sends printfmt putch nested) (hm : ∀ ch ∈ m, isModifier ch)
    {k : Conv} {i : ℕ} {r : List (BitVec 8)} (hdrop : f.drop i = chr '%' :: (m ++ k.char :: r))
    (ap : List Arg) (s : σ) :
    formatRound printfmt putch f ⟨i, ap, s⟩ =
      ((Item.escape m k).perform nested ap).map fun q =>
        some ⟨(i + (m.length + 2) : ℕ), q.2, emit putch q.1 s⟩ := by
  have hnext := drop_succ_of_drop hdrop
  have hlen : m.length < f.length + 1 := by
    have hlen := congrArg List.length hnext
    rw [List.length_drop, List.length_append] at hlen
    omega
  have hbyte := fmtByte_of_drop (drop_add_of_drop hnext)
  simp only [formatRound, fmtByte_of_drop hdrop, ok_bind, if_true, Item.perform]
  rw [← Nat.cast_succ, (escapeLoop (modifier_char k) hm hnext .start ap hlen).1]
  cases modifiers m none .start ap with
  | error e => rfl
  | ok q =>
    simp only [Except.map, ok_bind, hbyte, conv_char, convert_eq hsends]
    cases k.text nested q.1 q.2 with
    | error e => rfl
    | ok q' =>
      have hpos : ((i + 1 + m.length : ℕ) : ℤ) + 1 = ((i + (m.length + 2) : ℕ) : ℤ) := by omega
      simp only [ok_bind, hpos]

/-- A broken escape is read, and the code returns to the character behind its `%`. -/
theorem formatRound_broken (hm : ∀ ch ∈ m, isModifier ch) {c : BitVec 8} (hc : modifier c = none)
    (hconv : conv c = none) {i : ℕ} {r : List (BitVec 8)}
    (hdrop : f.drop i = chr '%' :: (m ++ c :: r)) (ap : List Arg) (s : σ) :
    formatRound printfmt putch f ⟨i, ap, s⟩ =
      (modifiers m none .start ap).map fun q =>
        some ⟨(i + 1 : ℕ), q.2, putch (ofUchar (chr '%')) s⟩ := by
  have hnext := drop_succ_of_drop hdrop
  have hlen : m.length < f.length + 1 := by
    have hlen := congrArg List.length hnext
    rw [List.length_drop, List.length_append] at hlen
    omega
  have hbyte := fmtByte_of_drop (drop_add_of_drop hnext)
  simp only [formatRound, fmtByte_of_drop hdrop, ok_bind, if_true]
  rw [← Nat.cast_succ, (escapeLoop hc hm hnext .start ap hlen).1]
  cases modifiers m none .start ap with
  | error e => rfl
  | ok q =>
    simp only [Except.map, ok_bind, hbyte, hconv, Int.add_sub_cancel]
    rw [rewindLoop hm hdrop le_rfl hlen]
    rfl

variable (printfmt putch nested) in
/-- A broken escape is sent as it is. -/
theorem brokenLoop (hm : ∀ ch ∈ m, isModifier ch) {c : Option (BitVec 8)}
    (hc : ∀ ch ∈ c, isModifier ch = false ∧ conv ch = none ∧ ch ≠ 0#8) {i : ℕ}
    {r : List (BitVec 8)} (hdrop : f.drop i = (Item.broken m c).source ++ r)
    (hend : c = none → r = [0#8]) (ap : List Arg) (s : σ) (fuel : ℕ) :
    whileLoop .diverge (formatRound printfmt putch f) (fuel + (Item.broken m c).source.length)
        ⟨i, ap, s⟩ =
      ((Item.broken m c).perform nested ap >>= fun q =>
        whileLoop .diverge (formatRound printfmt putch f) fuel
          ⟨(i + (Item.broken m c).source.length : ℕ), q.2, emit putch q.1 s⟩) := by
  have hround : formatRound printfmt putch f ⟨i, ap, s⟩ =
      (modifiers m none .start ap).map fun q =>
        some ⟨(i + 1 : ℕ), q.2, putch (ofUchar (chr '%')) s⟩ := by
    rw [Item.source, List.cons_append, List.append_assoc] at hdrop
    cases c with
    | none =>
      rw [hend rfl] at hdrop
      exact formatRound_broken hm (by decide) (by decide) hdrop ap s
    | some ch =>
      obtain ⟨hmod, hconv, -⟩ := hc ch rfl
      have hnone := Option.isNone_iff_eq_none.mp (Option.isSome_eq_false_iff.mp hmod)
      exact formatRound_broken hm hnone hconv hdrop ap s
  -- from the character behind the `%` on, there is no other escape in it
  have htext : ∀ ch ∈ m ++ c.toList, ch ≠ chr '%' ∧ ch ≠ 0#8 := by
    intro ch hch
    rcases List.mem_append.mp hch with hmem | hmem
    · exact ⟨ne_percent_of_isModifier (hm ch hmem), ne_nul_of_isModifier (hm ch hmem)⟩
    · obtain ⟨-, hconv, hnul⟩ := hc ch (Option.mem_toList.mp hmem)
      exact ⟨fun h => by rw [h] at hconv; exact absurd hconv (by decide), hnul⟩
  have hnext : f.drop (i + 1) = (m ++ c.toList) ++ r := drop_succ_of_drop hdrop
  rw [Item.source, List.length_cons, ← Nat.add_assoc, Item.perform]
  cases hmods : modifiers m none .start ap with
  | error e =>
    rw [hmods] at hround
    exact whileLoop_of_error hround
  | ok q =>
    rw [hmods] at hround
    rw [whileLoop_of_step hround, textLoop putch printfmt htext hnext, ok_bind, ok_bind,
      Item.source, List.map_cons, emit_cons, Nat.add_assoc, Nat.add_comm 1]

theorem percent_ne_nul : chr '%' ≠ 0#8 := by decide

theorem WellFormedItems.tail {item : Item} {is : List Item} (h : WellFormedItems (item :: is)) :
    WellFormedItems is := by
  cases item with
  | text c => exact h.2
  | escape m k => exact h.2
  | broken m c =>
    cases c with
    | none =>
      obtain ⟨-, rfl⟩ := h
      trivial
    | some c => exact h.2.2.2

/-- An item is sent in some rounds, at most one for each of its characters. -/
theorem itemLoop (hsends : Sends printfmt putch nested) {item : Item} {is : List Item}
    (hwf : WellFormedItems (item :: is)) (hsource : ∀ c ∈ item.source, c ≠ 0#8) {i : ℕ}
    (hdrop : f.drop i = item.source ++ (is.flatMap Item.source ++ [0#8])) (ap : List Arg) (s : σ) :
    ∃ n ≤ item.source.length, ∀ fuel,
      whileLoop .diverge (formatRound printfmt putch f) (fuel + n) ⟨i, ap, s⟩ =
        (item.perform nested ap >>= fun q =>
          whileLoop .diverge (formatRound printfmt putch f) fuel
            ⟨(i + item.source.length : ℕ), q.2, emit putch q.1 s⟩) := by
  cases item with
  | text c =>
    have htext : ∀ c' ∈ [c], c' ≠ chr '%' ∧ c' ≠ 0#8 := by
      intro c' hc'
      rw [List.mem_singleton.mp hc']
      exact ⟨hwf.1, hsource c (List.mem_singleton_self c)⟩
    exact ⟨1, le_rfl, textLoop putch printfmt htext hdrop ap s⟩
  | escape m k =>
    have hlen : (Item.escape m k).source.length = m.length + 2 := by
      rw [Item.source, List.length_cons, List.length_append, List.length_singleton]
    refine ⟨1, by omega, fun fuel => ?_⟩
    rw [Item.source, List.cons_append, List.append_assoc, List.singleton_append] at hdrop
    have hround := formatRound_escape hsends hwf.1 hdrop ap s
    rw [hlen]
    cases hperform : (Item.escape m k).perform nested ap with
    | error e =>
      rw [hperform] at hround
      exact whileLoop_of_error hround
    | ok q =>
      rw [hperform] at hround
      exact whileLoop_of_step hround
  | broken m c =>
    -- the loop goes back to the percent sign and prints the escape character by character
    refine ⟨_, le_rfl, fun fuel => ?_⟩
    cases c with
    | none =>
      obtain ⟨hm, rfl⟩ := hwf
      exact brokenLoop putch nested printfmt hm
        (fun ch hch => absurd hch (Option.not_mem_none ch)) hdrop (fun _ => rfl) ap s fuel
    | some c =>
      have hc : ∀ ch ∈ some c, isModifier ch = false ∧ conv ch = none ∧ ch ≠ 0#8 := by
        intro ch hch
        obtain rfl := Option.some.inj hch
        exact ⟨hwf.2.1, hwf.2.2.1, hsource c (by simp [Item.source])⟩
      exact brokenLoop putch nested printfmt hwf.1 hc hdrop
        (fun h => absurd h (Option.some_ne_none c)) ap s fuel

/-- The loop over the format sends the texts of the items, one after the other. -/
theorem formatLoop (hsends : Sends printfmt putch nested) {is : List Item}
    (hwf : WellFormedItems is) (hnul : 0#8 ∉ is.flatMap Item.source) {i : ℕ}
    (hdrop : f.drop i = is.flatMap Item.source ++ [0#8]) (ap : List Arg) (s : σ) {fuel : ℕ}
    (hfuel : (is.flatMap Item.source).length < fuel) :
    (whileLoop .diverge (formatRound printfmt putch f) fuel ⟨i, ap, s⟩).map Printing.putdat =
      (perform nested is ap).map (emit putch ·.1 s) := by
  induction is generalizing i ap s fuel with
  | nil =>
    obtain ⟨fuel, rfl⟩ := Nat.exists_eq_succ_of_ne_zero hfuel.ne'
    have hround : formatRound printfmt putch f ⟨i, ap, s⟩ = .ok none := by
      simp only [formatRound, fmtByte_of_drop hdrop, ok_bind, if_neg percent_ne_nul.symm, if_true]
    rw [Nat.succ_eq_add_one, whileLoop_of_stop hround]
    rfl
  | cons item is ih =>
    rw [List.flatMap_cons] at hnul hdrop hfuel
    rw [List.append_assoc] at hdrop
    rw [List.length_append] at hfuel
    have hnul' : 0#8 ∉ is.flatMap Item.source := fun h => hnul (List.mem_append_right _ h)
    have hsource : ∀ c ∈ item.source, c ≠ 0#8 := fun c hc h =>
      hnul (List.mem_append_left _ (h ▸ hc))
    obtain ⟨n, hn, hloop⟩ := itemLoop hsends hwf hsource hdrop ap s
    -- there is fuel left for the other items
    obtain ⟨fuel, rfl⟩ := Nat.exists_eq_add_of_le' (show n ≤ fuel by omega)
    rw [hloop, perform]
    cases item.perform nested ap with
    | error e => rfl
    | ok q =>
      obtain ⟨t, ap⟩ := q
      simp only [ok_bind, ih hwf.tail hnul' (drop_add_of_drop hdrop) _ _
        (show (is.flatMap Item.source).length < fuel by omega)]
      cases perform nested is ap with
      | error e => rfl
      | ok u => simp only [ok_bind, Except.map, emit_append]

/-- The text of a format, when `nested` is the one of the formats of `%e`. -/
def formatTextWith (nested : List (BitVec 8) → List Arg → Except FormatFault (List Word))
    (f : List (BitVec 8)) (ap : List Arg) : Except FormatFault (List Word) :=
  (perform nested (items f) ap).map Prod.fst

theorem vprintfmtWith_sends (hsends : Sends printfmt putch nested) :
    Sends (vprintfmtWith printfmt putch) putch (formatTextWith nested) := by
  intro f ap s hf
  have hsource := items_source f
  have hloop := formatLoop (i := 0) (f := f ++ [0#8]) hsends (wellFormed_items f)
    (by rwa [hsource]) (by rw [hsource, List.drop_zero]) ap s
    (show _ < (f ++ [0#8]).length + 1 by rw [hsource, List.length_append]; omega)
  rw [vprintfmtWith, formatTextWith]
  rw [Nat.cast_zero] at hloop
  cases hrun : whileLoop .diverge (formatRound printfmt putch (f ++ [0#8]))
      ((f ++ [0#8]).length + 1) ⟨0, ap, s⟩ <;>
    cases htext : perform nested (items f) ap <;> rw [hrun, htext] at hloop <;> exact hloop

/-- The text of a format without `%e`. -/
def nestedText : List (BitVec 8) → List Arg → Except FormatFault (List Word) :=
  formatTextWith fun _ _ => .error .recursion

/-- The text of a format. -/
def formatText : List (BitVec 8) → List Arg → Except FormatFault (List Word) :=
  formatTextWith nestedText

theorem printfmt_sends : Sends (Kern.printfmt putch) putch nestedText :=
  vprintfmtWith_sends fun _ _ _ _ => rfl

/-- **`vprintfmt` sends the text of the format**, whatever the callback does with it. -/
theorem vprintfmt_eq (hf : 0#8 ∉ f) (ap : List Arg) (s : σ) :
    vprintfmt putch (f ++ [0#8]) ap s = (formatText f ap).map (emit putch · s) :=
  vprintfmtWith_sends printfmt_sends f ap s hf

end JosVmx.Kern
