import JosVmx.Kern.FormatTotal

/-!
# One escape in a format

An escape takes its arguments from the front, whatever stands behind it. So it prints one text in
front of any rest of a format.

## Main results

* `prints_iff` — what a single escape prints
-/

namespace JosVmx.Kern

open Lib

variable {f m : List (BitVec 8)} {k : Conv} {sp sp' : Spec} {ap ap' : List Arg} {t : List Word}

/-! ### Further arguments -/

theorem vaWord_eq_ok {v : Word} (h : vaWord ap = .ok (v, ap')) : ap = .word v :: ap' := by
  match ap, h with
  | .word _ :: _, h => cases h; rfl

theorem getuint_cons (a : Arg) (r : List Arg) (lflag : Word) :
    getuint (a :: r) lflag = (getuint [a] lflag).map fun q => (q.1, r) := by
  rw [getuint, getuint]
  split_ifs <;> cases a <;> rfl

theorem getint_cons (a : Arg) (r : List Arg) (lflag : Word) :
    getint (a :: r) lflag = (getint [a] lflag).map fun q => (q.1, r) := by
  rw [getint, getint]
  split_ifs <;> cases a <;> rfl

/-- A conversion takes its argument from the front, and leaves the others alone. -/
theorem text_cons (hk : k ≠ .percent) (sp : Spec) (a : Arg) (r : List Arg) :
    k.text nestedText sp (a :: r) = (k.text nestedText sp [a]).map fun q => (q.1, r) := by
  cases k with
  | c | p => cases a <;> rfl
  | e =>
    cases a with
    | word v => simp only [Conv.text, vaWord, ok_bind, errorTextWith_eq, Except.map]
    | dword v | str p => rfl
  | s =>
    cases a with
    | str p =>
      simp only [Conv.text, vaStr, ok_bind]
      cases stringText sp (p.getD (bytes "(null)" ++ [0#8])) <;> rfl
    | word v | dword v => rfl
  | d =>
    simp only [Conv.text]
    rw [getint_cons]
    cases getint [a] sp.lflag <;> rfl
  | u | o | x =>
    simp only [Conv.text]
    rw [getuint_cons]
    cases getuint [a] sp.lflag <;> rfl
  | percent => exact absurd rfl hk

theorem text_nil (hk : k ≠ .percent) (sp : Spec) : k.text nestedText sp [] = .error .arg := by
  cases k with
  | c | e | s | p => rfl
  | d =>
    simp only [Conv.text, getint]
    split_ifs <;> rfl
  | u | o | x =>
    simp only [Conv.text, getuint]
    split_ifs <;> rfl
  | percent => exact absurd rfl hk

theorem exists_cons_of_text (hk : k ≠ .percent) (h : k.text nestedText sp ap = .ok (t, ap')) :
    ∃ a, ap = a :: ap' ∧ k.text nestedText sp [a] = .ok (t, []) := by
  cases ap with
  | nil => exact absurd (text_nil hk sp ▸ h) (by simp)
  | cons a r =>
    rw [text_cons hk] at h
    cases htext : k.text nestedText sp [a] with
    | error e => exact absurd (htext ▸ h) (by simp [Except.map])
    | ok q =>
      rw [htext] at h
      cases h
      refine ⟨a, rfl, ?_⟩
      have hleft := text_cons hk sp a []
      rw [htext] at hleft
      exact htext.trans hleft

/-- A modifier takes its argument from the front, and leaves the others alone. -/
theorem modify_split {ch : BitVec 8} {num : Option Word}
    (h : modify ch sp ap = .ok (num, sp', ap')) :
    ∃ as, ap = as ++ ap' ∧ as.length = stars [ch] ∧
      ∀ r, modify ch sp (as ++ r) = .ok (num, sp', r) := by
  rw [stars_singleton]
  rw [modify] at h
  cases hmod : modifier ch with
  | none =>
    rw [hmod] at h
    cases h
    exact ⟨[], rfl, rfl, fun r => by simp only [modify, hmod]; rfl⟩
  | some l =>
    rw [hmod] at h
    cases l with
    | star =>
      obtain ⟨⟨v, ap₁⟩, hv, hrest⟩ := bind_eq_ok h
      cases hrest
      exact ⟨[.word v], vaWord_eq_ok hv, rfl, fun r => by simp only [modify, hmod]; rfl⟩
    | minus | zero | digit | dot | alt | long =>
      cases h
      exact ⟨[], rfl, rfl, fun r => by simp only [modify, hmod]; rfl⟩

/-- Modifiers take their arguments from the front, and leave the others alone. -/
theorem modifiers_split {num : Option Word} (h : modifiers m num sp ap = .ok (sp', ap')) :
    ∃ as, ap = as ++ ap' ∧ as.length = stars m ∧
      ∀ r, modifiers m num sp (as ++ r) = .ok (sp', r) := by
  induction m generalizing num sp ap with
  | nil =>
    cases h
    exact ⟨[], rfl, rfl, fun _ => rfl⟩
  | cons ch m ih =>
    rw [← List.singleton_append, stars_append, List.singleton_append]
    by_cases hdigit : ∃ n, num = some n ∧ isDigit ch = true
    · obtain ⟨n, rfl, hdigit⟩ := hdigit
      rw [stars_singleton, if_neg (modifier_of_isDigit hdigit).1, Nat.zero_add]
      rw [modifiers_digit hdigit] at h
      obtain ⟨as, hap, hlen, hrun⟩ := ih h
      exact ⟨as, hap, hlen, fun r => by rw [modifiers_digit hdigit, hrun]⟩
    · have hrestart : ∀ n ∈ num, isDigit ch = false := fun n hn =>
        Bool.eq_false_iff.mpr fun hd => hdigit ⟨n, hn, hd⟩
      rw [modifiers_restart num hrestart, modifiers_none] at h
      obtain ⟨⟨num', sp₁, ap₁⟩, hmodify, hrest⟩ := bind_eq_ok h
      obtain ⟨as₁, hap₁, hlen₁, hrun₁⟩ := modify_split hmodify
      obtain ⟨as₂, hap₂, hlen₂, hrun₂⟩ := ih hrest
      refine ⟨as₁ ++ as₂, ?_, ?_, fun r => ?_⟩
      · rw [hap₁, List.append_assoc]
        exact congrArg (as₁ ++ ·) hap₂
      · rw [List.length_append, hlen₁, hlen₂]
      · rw [modifiers_restart num hrestart, modifiers_none, List.append_assoc, hrun₁, ok_bind,
          hrun₂]

/-- An item leaves the arguments behind its own alone. -/
theorem escape_append (h : (Item.escape m k).perform nestedText ap = .ok (t, ap')) (r : List Arg) :
    (Item.escape m k).perform nestedText (ap ++ r) = .ok (t, ap' ++ r) := by
  obtain ⟨⟨sp, ap₁⟩, hmods, htext⟩ := bind_eq_ok h
  obtain ⟨as, rfl, -, hrun⟩ := modifiers_split hmods
  rw [Item.perform, List.append_assoc, hrun]
  by_cases hk : k = .percent
  · rw [hk] at htext ⊢
    cases htext
    rfl
  · obtain ⟨a, rfl, hone⟩ := exists_cons_of_text hk htext
    refine (text_cons hk sp a (ap' ++ r)).trans ?_
    rw [hone]
    rfl

/-! ### An escape on its own -/

/-- In front of any rest of a format, `f` prints `t` when it gets the arguments `args`. -/
def Prints (f : List (BitVec 8)) (args : List Arg) (t : List Word) : Prop :=
  ∀ (σ : Type) (putch : Word → σ → σ) (rest : List (BitVec 8)) (ap : List Arg) (s : σ),
    0#8 ∉ rest → vprintfmt putch (f ++ rest ++ [0#8]) (args ++ ap) s =
      vprintfmt putch (rest ++ [0#8]) ap (emit putch t s)

theorem Prints.append {f' : List (BitVec 8)} {args args' : List Arg} {t' : List Word}
    (h : Prints f args t) (h' : Prints f' args' t') (hf' : 0#8 ∉ f') :
    Prints (f ++ f') (args ++ args') (t ++ t') := by
  intro σ putch rest ap s hrest
  have hnul : 0#8 ∉ f' ++ rest := by
    rw [List.mem_append]
    exact not_or.mpr ⟨hf', hrest⟩
  rw [List.append_assoc f, List.append_assoc args, h σ putch _ _ s hnul, h' σ putch _ _ _ hrest,
    emit_append]

/-- An escape prints one text. -/
theorem prints_iff (hm : ∀ ch ∈ m, isModifier ch) {args : List Arg} {u : List Word}
    (h : (Item.escape m k).perform nestedText args = .ok (u, [])) :
    Prints (chr '%' :: (m ++ [k.char])) args t ↔ t = u := by
  have hnul : 0#8 ∉ chr '%' :: (m ++ [k.char]) := by
    intro hmem
    rcases List.mem_cons.mp hmem with hp | hmem
    · exact percent_ne_nul hp.symm
    · rcases List.mem_append.mp hmem with hmem | hmem
      · exact ne_nul_of_isModifier (hm _ hmem) rfl
      · cases k <;> exact absurd (List.mem_singleton.mp hmem) (by decide)
  have hrun : Prints (chr '%' :: (m ++ [k.char])) args u := by
    intro σ putch rest ap s hrest
    have hperform : (Item.escape m k).perform nestedText (args ++ ap) = .ok (u, ap) :=
      escape_append h ap
    rw [vprintfmt_eq (by rw [List.mem_append]; exact not_or.mpr ⟨hnul, hrest⟩), vprintfmt_eq hrest,
      formatText, formatTextWith, formatTextWith, List.cons_append, List.append_assoc,
      List.singleton_append, items_escape hm, perform, hperform]
    simp only [ok_bind]
    cases perform nestedText (items rest) ap with
    | error e => rfl
    | ok r => exact congrArg Except.ok (emit_append ..)
  refine ⟨fun ht => ?_, fun ht => ht ▸ hrun⟩
  -- collect the characters
  have hboth := (ht _ (fun c t => t ++ [c]) [] [] [] List.not_mem_nil).symm.trans
    (hrun _ (fun c t => t ++ [c]) [] [] [] List.not_mem_nil)
  rw [List.nil_append, emit_concat, emit_concat] at hboth
  exact Except.ok.inj hboth

end JosVmx.Kern
