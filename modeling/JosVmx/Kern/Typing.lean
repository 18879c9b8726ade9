import JosVmx.Kern.Keyboard

/-!
# What is typed

The way of a key to the reader of the console: `kbd_proc_data` makes characters of its codes,
`kbd_intr` puts them into the buffer, and `cons_getc` takes them out, in any interleaving of
interrupts and polls, which may come between the codes of one key.

What a key types is said without the flags: it depends on the keys that are held, and on how often
`CAPSLOCK` has been pressed.

## Main definitions

* `kbdResults` — what `kbd_proc_data` returns for some codes
* `keyText` — the text of some keys
* `strokes` — the keys that type a text

## Main results

* `Kern.keyboard_text` — what the keys type is what is read
* `Kern.strokes_typed` — every text of the printable characters can be typed
-/

namespace JosVmx.Kern

open Lib

/-! ### Codes -/

/-- What `kbd_proc_data` returns for each of some codes. -/
def kbdResults : List (BitVec 8) → Word → List KbdResult
  | [], _ => []
  | data :: codes, shift =>
    let r := kbdProcData kbsDib data shift
    r :: kbdResults codes r.shift

/-- The characters that it returns, with the zeros that `cons_intr` skips. -/
def kbdBytes (codes : List (BitVec 8)) (shift : Word) : List (BitVec 8) :=
  (kbdResults codes shift).map fun r => r.ret.getD 0#8

/-- Whether a code makes it reboot the machine. -/
def kbdReboots (codes : List (BitVec 8)) (shift : Word) : Bool :=
  (kbdResults codes shift).any KbdResult.reboot

variable {shift : Word} {k : Key}

theorem kbdResults_append (codes codes' : List (BitVec 8)) (shift : Word) :
    kbdResults (codes ++ codes') shift =
      kbdResults codes shift ++ kbdResults codes' (kbdCodes codes shift) := by
  induction codes generalizing shift with
  | nil => rfl
  | cons data codes ih =>
    rw [List.cons_append, kbdResults, kbdResults]
    exact congrArg (List.cons _) (ih _)

/-- The code of a key that is pressed is looked up with the new flags. -/
theorem kbdResults_press (k : Key) (h : shift &&& e0escBit = 0#32) :
    ∃ rs, kbdResults (KeyEvent.press k).codes shift = rs ++ [kbdPress k.index shift] ∧
      ∀ r ∈ rs, r.ret = some 0#8 ∧ r.reboot = false := by
  have htop : ¬ k.code &&& 0x80#8 ≠ 0#8 := not_not.mpr k.code_and_top
  have hdib : ¬ kbsDib &&& kbsDib = 0#8 := by decide
  rw [KeyEvent.codes, Key.escape, Key.index]
  split_ifs with he0
  · -- behind an escape, the code has its top bit set and the flag is cleared
    have hcode : kbdProcData kbsDib k.code (shift ||| e0escBit) =
        kbdPress (k.code ||| 0x80#8) shift := by
      rw [kbdProcData, if_neg hdib, if_neg k.code_ne.1, if_neg htop, if_pos (or_e0esc_ne shift),
        or_and_not h]
    refine ⟨[⟨some 0#8, shift ||| e0escBit, false⟩], ?_, ?_⟩
    · rw [← hcode]
      rfl
    · exact fun r hr => List.mem_singleton.mp hr ▸ ⟨rfl, rfl⟩
  · have hcode : kbdProcData kbsDib k.code shift = kbdPress k.code shift := by
      rw [kbdProcData, if_neg hdib, if_neg k.code_ne.1, if_neg htop, if_neg (not_not.mpr h)]
    refine ⟨[], ?_, fun r hr => absurd hr List.not_mem_nil⟩
    rw [← hcode]
    rfl

/-- A key that is released types nothing. -/
theorem kbdResults_release (k : Key) (shift : Word) :
    ∀ r ∈ kbdResults (KeyEvent.release k).codes shift, r.ret = some 0#8 ∧ r.reboot = false := by
  have htop := k.or_top_and.1
  have hdib : ¬ kbsDib &&& kbsDib = 0#8 := by decide
  have hcode (shift : Word) : (kbdProcData kbsDib (k.code ||| 0x80#8) shift).ret = some 0#8 ∧
      (kbdProcData kbsDib (k.code ||| 0x80#8) shift).reboot = false := by
    rw [kbdProcData, if_neg hdib, if_neg k.code_ne.2, if_pos htop]
    exact ⟨rfl, rfl⟩
  rw [KeyEvent.codes, Key.escape]
  split_ifs with he0
  · rintro r hr
    rcases List.mem_cons.mp hr with rfl | hr
    · exact ⟨rfl, rfl⟩
    · exact List.mem_singleton.mp hr ▸ hcode _
  · rintro r hr
    exact List.mem_singleton.mp hr ▸ hcode _

/-! ### Keys that are held -/

/-- No key is released while the other key of its flag is held. -/
def SingleModifiers (evs : List KeyEvent) : Prop :=
  ∀ pre k, pre ++ [.release k] <+: evs →
    ∀ (m : HeldFlag) (k' : Key), k ∈ m.keys → k' ∈ m.keys → k' ≠ k → k' ∉ held pre

/-- A key of the flag is held. -/
def HeldFlag.On (m : HeldFlag) (keys : Finset Key) : Prop := ∃ k ∈ m.keys, k ∈ keys

instance HeldFlag.instDecidableOn (m : HeldFlag) (keys : Finset Key) : Decidable (m.On keys) :=
  inferInstanceAs (Decidable (∃ k ∈ m.keys, k ∈ keys))

/-- The character of a key, while these keys are held. -/
def keyChar (keys : Finset Key) (caps : Bool) (k : Key) : BitVec 8 :=
  let map := if HeldFlag.ctl.On keys then ctlmap
    else if HeldFlag.shift.On keys then shiftmap else normalmap
  if caps then swapCase (map k.index) else map k.index

/-- A key that sends no escape. -/
def Key.plain (code : BitVec 8) (h : code < 0x80#8 ∧ code ≠ 0x60#8) : Key :=
  ⟨false, code, h.1, h.2⟩

/-- The key `Del` that is not on the keypad. -/
def Key.del : Key := ⟨true, 0x53#8, by decide, by decide⟩

/-- What is typed, with a zero for a key that has no character. -/
def keyText : Finset Key → Bool → List KeyEvent → List (BitVec 8)
  | _, _, [] => []
  | keys, caps, .press k :: evs =>
    let keys := insert k keys
    let caps := caps ^^ decide (k = .capslock)
    keyChar keys caps k :: keyText keys caps evs
  | keys, caps, .release k :: evs => keyText (keys.erase k) caps evs

/-- Whether `Del` is pressed while `Ctrl` and `Alt` are held. -/
def keyReboots : Finset Key → List KeyEvent → Bool
  | _, [] => false
  | keys, .press k :: evs =>
    let keys := insert k keys
    decide ((HeldFlag.ctl.On keys ∧ HeldFlag.alt.On keys) ∧ k = .del) || keyReboots keys evs
  | keys, .release k :: evs => keyReboots (keys.erase k) evs

variable {evs pre : List KeyEvent}

theorem SingleModifiers.of_append {post : List KeyEvent} (h : SingleModifiers (evs ++ post)) :
    SingleModifiers evs := fun pre k hpre => h pre k (hpre.trans (List.prefix_append ..))

theorem SingleModifiers.nil : SingleModifiers [] := by
  intro pre k hpre
  exact absurd (List.prefix_nil.mp hpre) (List.append_ne_nil_of_right_ne_nil pre (by simp))

/-- Only the last event is new. -/
theorem SingleModifiers.concat {ev : KeyEvent} (h : SingleModifiers evs)
    (hlast : ∀ k, ev = .release k →
      ∀ (m : HeldFlag) (k' : Key), k ∈ m.keys → k' ∈ m.keys → k' ≠ k → k' ∉ held evs) :
    SingleModifiers (evs ++ [ev]) := by
  intro pre k hpre
  rcases List.prefix_concat_iff.mp hpre with heq | hpre
  · obtain ⟨rfl, hev⟩ := List.append_inj' heq rfl
    exact hlast k (List.singleton_injective hev).symm
  · exact h pre k hpre

theorem SingleModifiers.press (h : SingleModifiers evs) (k : Key) :
    SingleModifiers (evs ++ [.press k]) :=
  h.concat fun _ hev => KeyEvent.noConfusion hev

/-- The flags say which keys are held. -/
theorem flagsAfter_on (h : SingleModifiers evs) (m : HeldFlag) :
    flagsAfter evs &&& m.bit ≠ 0#32 ↔ m.On (held evs) := by
  induction evs using List.reverseRecOn with
  | nil => exact iff_of_false (by cases m <;> decide) (by simp [HeldFlag.On, held])
  | append_singleton evs ev ih =>
    have ih := ih h.of_append
    cases ev with
    | press k => rw [flagsAfter_press, ih, HeldFlag.On, HeldFlag.On, held_press]
    | release k =>
      rw [flagsAfter_release, ih, HeldFlag.On, HeldFlag.On, held_release]
      constructor
      · rintro ⟨⟨k', hk', hheld⟩, hk⟩
        exact ⟨k', hk', fun heq => hk (heq ▸ hk'), hheld⟩
      · rintro ⟨k', hk', hne, hheld⟩
        exact ⟨⟨k', hk', hheld⟩, fun hk => h evs k List.prefix_rfl m k' hk hk' hne hheld⟩

/-! ### The character of a key -/

/-- A word has a bit of a flag or it does not. -/
theorem and_bit_cases (m : HeldFlag) (x : Word) : x &&& m.bit = 0#32 ∨ x &&& m.bit = m.bit := by
  have hbit : m.bit = BitVec.twoPow 32 m.pos := by cases m <;> rfl
  rw [hbit, BitVec.and_twoPow]
  split_ifs
  · exact .inr rfl
  · exact .inl rfl

theorem charcode_eq (x : Word) :
    charcode (x &&& (ctlBit ||| shiftBit)) =
      if x &&& ctlBit ≠ 0#32 then ctlmap else if x &&& shiftBit ≠ 0#32 then shiftmap
        else normalmap := by
  have hsplit : x &&& (ctlBit ||| shiftBit) = x &&& ctlBit ||| x &&& shiftBit :=
    BitVec.and_or_distrib_left ..
  have hctl : x &&& ctlBit = 0#32 ∨ x &&& ctlBit = ctlBit := and_bit_cases .ctl x
  have hshift : x &&& shiftBit = 0#32 ∨ x &&& shiftBit = shiftBit := and_bit_cases .shift x
  rw [hsplit]
  rcases hctl with hctl | hctl <;> rcases hshift with hshift | hshift <;> rw [hctl, hshift] <;> rfl

theorem not_and_eq_zero_iff (x : Word) :
    ~~~x &&& (ctlBit ||| altBit) = 0#32 ↔ x &&& ctlBit ≠ 0#32 ∧ x &&& altBit ≠ 0#32 := by
  have hsplit : ~~~x &&& (ctlBit ||| altBit) = ~~~x &&& ctlBit ||| ~~~x &&& altBit :=
    BitVec.and_or_distrib_left ..
  have hbit (m : HeldFlag) : ~~~x &&& m.bit = 0#32 ↔ x &&& m.bit ≠ 0#32 := by
    rw [← not_iff_not, not_not, ← ne_eq, m.and_bit_ne_zero, BitVec.getLsbD_not,
      decide_eq_true (m.pos_lt.trans (by decide)), Bool.true_and, Bool.not_eq_true',
      ← Bool.not_eq_true, ← m.and_bit_ne_zero, not_not]
  have hctl : ~~~x &&& ctlBit = 0#32 ↔ x &&& ctlBit ≠ 0#32 := hbit .ctl
  have halt : ~~~x &&& altBit = 0#32 ↔ x &&& altBit ≠ 0#32 := hbit .alt
  rw [hsplit, ← hctl, ← halt]
  exact BitVec.or_eq_zero_iff

/-- Only one entry of the tables is `KEY_DEL`. -/
theorem keyChar_eq_keyDel_iff (keys : Finset Key) (caps : Bool) (k : Key) :
    keyChar keys caps k = keyDel ↔ k = .del := by
  have hctl : ∀ i : BitVec 8, (ctlmap i = keyDel ↔ i = Key.del.index) ∧
      (swapCase (ctlmap i) = keyDel ↔ i = Key.del.index) := by decide +kernel
  have hshift : ∀ i : BitVec 8, (shiftmap i = keyDel ↔ i = Key.del.index) ∧
      (swapCase (shiftmap i) = keyDel ↔ i = Key.del.index) := by decide +kernel
  have hnormal : ∀ i : BitVec 8, (normalmap i = keyDel ↔ i = Key.del.index) ∧
      (swapCase (normalmap i) = keyDel ↔ i = Key.del.index) := by decide +kernel
  have hcase {map : BitVec 8 → BitVec 8} (hmap : (map k.index = keyDel ↔ k.index = Key.del.index) ∧
      (swapCase (map k.index) = keyDel ↔ k.index = Key.del.index)) :
      (if caps then swapCase (map k.index) else map k.index) = keyDel ↔
        k.index = Key.del.index := by
    split_ifs
    · exact hmap.2
    · exact hmap.1
  rw [← Key.index_injective.eq_iff, keyChar]
  apply hcase
  split_ifs
  · exact hctl k.index
  · exact hshift k.index
  · exact hnormal k.index

/-- How often `CAPSLOCK` has been pressed, modulo two. -/
def capsOf (evs : List KeyEvent) : Bool := decide (Odd (evs.count (.press .capslock)))

theorem capsOf_press (evs : List KeyEvent) (k : Key) :
    capsOf (evs ++ [.press k]) = (capsOf evs ^^ decide (k = .capslock)) := by
  rw [capsOf, capsOf, List.count_append]
  by_cases hk : k = .capslock
  · rw [hk, List.count_singleton_self, decide_eq_true rfl, Bool.xor_true, ← decide_not]
    exact decide_eq_decide.mpr Nat.odd_add_one
  · have hcount : List.count (KeyEvent.press .capslock) [.press k] = 0 := by
      rw [List.count_eq_zero, List.mem_singleton, KeyEvent.press.injEq]
      exact Ne.symm hk
    rw [hcount, Nat.add_zero, decide_eq_false hk, Bool.xor_false]

theorem capsOf_release (evs : List KeyEvent) (k : Key) :
    capsOf (evs ++ [.release k]) = capsOf evs := by
  have hcount : List.count (KeyEvent.press .capslock) [.release k] = 0 := by
    rw [List.count_eq_zero, List.mem_singleton]
    exact KeyEvent.noConfusion
  rw [capsOf, capsOf, List.count_append, hcount, Nat.add_zero]

/-- What a key that is pressed returns, after other keys. -/
theorem kbdPress_eq (k : Key) (h : SingleModifiers pre) :
    (kbdPress k.index (flagsAfter pre)).ret =
        some (keyChar (held (pre ++ [.press k])) (capsOf (pre ++ [.press k])) k) ∧
      ((kbdPress k.index (flagsAfter pre)).reboot = true ↔
        (HeldFlag.ctl.On (held (pre ++ [.press k])) ∧
          HeldFlag.alt.On (held (pre ++ [.press k]))) ∧ k = .del) := by
  have hsingle := h.press k
  have hflags : (flagsAfter pre ||| (shiftcode k.index).setWidth 32) ^^^
      (togglecode k.index).setWidth 32 = flagsAfter (pre ++ [.press k]) := by
    rw [flagsAfter_concat, kbdCodes_press k (flagsAfter_e0esc pre)]
  have hchar : (if flagsAfter (pre ++ [.press k]) &&& capslockBit ≠ 0#32 then
        swapCase (charcode (flagsAfter (pre ++ [.press k]) &&& (ctlBit ||| shiftBit)) k.index)
      else charcode (flagsAfter (pre ++ [.press k]) &&& (ctlBit ||| shiftBit)) k.index) =
      keyChar (held (pre ++ [.press k])) (capsOf (pre ++ [.press k])) k := by
    have hctl := flagsAfter_on hsingle .ctl
    have hshift := flagsAfter_on hsingle .shift
    have hcaps := flagsAfter_capslock (pre ++ [.press k])
    rw [charcode_eq, keyChar, capsOf]
    simp only [HeldFlag.bit] at hctl hshift
    simp only [hctl, hshift, hcaps, decide_eq_true_eq, ite_apply]
  rw [kbdPress]
  simp only [hflags, hchar, decide_eq_true_eq]
  refine ⟨trivial, ?_⟩
  rw [not_and_eq_zero_iff, keyChar_eq_keyDel_iff]
  exact and_congr_left' (and_congr (flagsAfter_on hsingle .ctl) (flagsAfter_on hsingle .alt))

/-! ### Runs of keys -/

theorem delivers_append (a b : List (BitVec 8)) : delivers (a ++ b) = delivers a ++ delivers b :=
  List.filter_append ..

/-- Results without a character type nothing and reboot nothing. -/
theorem delivers_silent {rs : List KbdResult} (h : ∀ r ∈ rs, r.ret = some 0#8 ∧ r.reboot = false) :
    delivers (rs.map fun r => r.ret.getD 0#8) = [] ∧ rs.any KbdResult.reboot = false := by
  constructor
  · rw [delivers, List.filter_eq_nil_iff]
    intro b hb
    obtain ⟨r, hr, rfl⟩ := List.mem_map.mp hb
    rw [(h r hr).1]
    decide
  · rw [List.any_eq_false]
    intro r hr
    rw [(h r hr).2]
    exact Bool.false_ne_true

/-- **The flags are not needed to say what keys type**, as long as they follow the keys. -/
theorem kbdResults_keys (h : SingleModifiers (pre ++ evs)) :
    delivers (kbdBytes (evs.flatMap KeyEvent.codes) (flagsAfter pre)) =
        delivers (keyText (held pre) (capsOf pre) evs) ∧
      kbdReboots (evs.flatMap KeyEvent.codes) (flagsAfter pre) = keyReboots (held pre) evs := by
  induction evs generalizing pre with
  | nil => exact ⟨rfl, rfl⟩
  | cons ev evs ih =>
    -- the flags and what is held after the first event are those that the rest starts with
    have hsplit : pre ++ ev :: evs = pre ++ [ev] ++ evs := by
      rw [List.append_assoc, List.singleton_append]
    obtain ⟨hbytes, hreboots⟩ := @ih (pre ++ [ev]) (hsplit ▸ h)
    rw [flagsAfter_concat] at hbytes hreboots
    rw [kbdBytes] at hbytes
    rw [kbdReboots] at hreboots
    rw [kbdBytes, kbdReboots, List.flatMap_cons, kbdResults_append, List.map_append,
      delivers_append, List.any_append, hbytes, hreboots]
    cases ev with
    | press k =>
      obtain ⟨rs, hrs, hsilent⟩ := kbdResults_press k (flagsAfter_e0esc pre)
      obtain ⟨htext, hreboot⟩ := delivers_silent hsilent
      obtain ⟨hchar, hdel⟩ := kbdPress_eq k h.of_append
      rw [hrs, List.map_append, delivers_append, htext, List.any_append, hreboot, keyText,
        keyReboots]
      rw [held_concat, KeyEvent.hold] at hchar hdel ⊢
      rw [capsOf_press] at hchar ⊢
      constructor
      · rw [List.map_singleton, hchar, List.nil_append, Option.getD_some]
        exact (delivers_append [_] _).symm
      · rw [Bool.false_or, List.any_cons, List.any_nil, Bool.or_false]
        exact congrArg (· || _) (Bool.eq_iff_iff.mpr (hdel.trans decide_eq_true_iff.symm))
    | release k =>
      obtain ⟨htext, hreboot⟩ := delivers_silent (kbdResults_release k (flagsAfter pre))
      rw [htext, hreboot, keyText, keyReboots, held_concat, KeyEvent.hold, capsOf_release]
      exact ⟨rfl, rfl⟩

/-! ### The console -/

/-- The keyboard is polled by its interrupt or by `cons_getc`, while these codes wait. -/
inductive KbdEvent
  | intr (codes : List (BitVec 8))
  | getc (codes : List (BitVec 8))

def KbdEvent.codes : KbdEvent → List (BitVec 8)
  | intr codes | getc codes => codes

/-- What the console gets, when the serial port has nothing. -/
def kbdEvents : List KbdEvent → Word → List ConsEvent
  | [], _ => []
  | .intr codes :: es, shift => .kbd (kbdBytes codes shift) :: kbdEvents es (kbdCodes codes shift)
  | .getc codes :: es, shift =>
    .getc [] (kbdBytes codes shift) :: kbdEvents es (kbdCodes codes shift)

/-- The codes may come in any pieces. -/
theorem delivered_kbdEvents (serialExists : Bool) (es : List KbdEvent) (shift : Word) :
    (kbdEvents es shift).flatMap (·.delivered serialExists) =
      delivers (kbdBytes (es.flatMap KbdEvent.codes) shift) := by
  induction es generalizing shift with
  | nil => rfl
  | cons e es ih =>
    have hserial : (if serialExists then delivers [] else []) = ([] : List (BitVec 8)) :=
      ite_self _
    rw [List.flatMap_cons, kbdBytes, kbdResults_append, List.map_append, delivers_append]
    cases e with
    | intr codes =>
      rw [kbdEvents, List.flatMap_cons, ih]
      rfl
    | getc codes =>
      rw [kbdEvents, List.flatMap_cons, ih, ConsEvent.delivered, hserial]
      rfl

/-- What is delivered can be read, unless the writer laps the reader. -/
theorem consRun_kbdEvents (serialExists : Bool) (buf : ℕ → BitVec 8) (es : List KbdEvent) :
    ∃ s g, consRun serialExists (kbdEvents es 0#32) ⟨buf, 0#32, 0#32⟩ .init = .ok (s, g) ∧
      g.written = delivers (kbdBytes (es.flatMap KbdEvent.codes) 0#32) ∧
      (g.peak ≤ 511 → g.read ++ s.readable = g.written) := by
  have hinit : Cons.Inv ⟨buf, 0#32, 0#32⟩ .init 0 [] :=
    ⟨.empty (by decide) buf, .init 512, fun b hb => absurd hb List.not_mem_nil⟩
  obtain ⟨s, g, k, pos, hrun, h, hwritten⟩ :=
    hinit.run serialExists (kbdEvents es 0#32)
  have hreadable : s.readable = g.written.drop k :=
    (Cons.readable_eq h.holds.rpos_lt h.holds.wpos_lt).trans h.holds.readable_eq
  refine ⟨s, g, hrun, hwritten.trans (delivered_kbdEvents serialExists es 0#32), fun hpeak => ?_⟩
  rw [hreadable, h.faithful.lossless (Nat.lt_succ_of_le hpeak), List.take_append_drop]

/-- **What the keys type is what is read.** From the start, with any interleaving of interrupts and
reads in which the codes of some keys arrive, in any pieces, the console has been given the text of
the keys. While never more than 511 characters wait, it has been read or can be read, in order and
completely. The machine is rebooted just by Ctrl-Alt-Del. -/
theorem keyboard_text (serialExists : Bool) (buf : ℕ → BitVec 8) (es : List KbdEvent)
    (evs : List KeyEvent) (hcodes : es.flatMap KbdEvent.codes = evs.flatMap KeyEvent.codes)
    (hsingle : SingleModifiers evs) :
    (∃ s g, consRun serialExists (kbdEvents es 0#32) ⟨buf, 0#32, 0#32⟩ .init = .ok (s, g) ∧
      g.written = delivers (keyText ∅ false evs) ∧
      (g.peak ≤ 511 → g.read ++ s.readable = delivers (keyText ∅ false evs))) ∧
    kbdReboots (es.flatMap KbdEvent.codes) 0#32 = keyReboots ∅ evs := by
  obtain ⟨htext, hreboots⟩ := kbdResults_keys (show SingleModifiers ([] ++ evs) from hsingle)
  obtain ⟨s, g, hrun, hwritten, hread⟩ := consRun_kbdEvents serialExists buf es
  have hkeys : g.written = delivers (keyText ∅ false evs) := by
    rw [hwritten, hcodes]
    exact htext
  refine ⟨⟨s, g, hrun, hkeys, fun hpeak => (hread hpeak).trans hkeys⟩, ?_⟩
  rw [hcodes]
  exact hreboots

/-- The left `Ctrl` key and `C`, with an interrupt between their codes. -/
def ctrlC : List KeyEvent :=
  let ctl : Key := .plain 0x1D#8 (by decide)
  let c : Key := .plain 0x2E#8 (by decide)
  [.press ctl, .press c, .release c, .release ctl]

theorem single_ctrlC : SingleModifiers ctrlC := by
  have hpress := (SingleModifiers.nil.press (.plain 0x1D#8 (by decide))).press
    (.plain 0x2E#8 (by decide))
  have hrelease : SingleModifiers (ctrlC.take 3) := by
    apply hpress.concat
    rintro _ ⟨⟩ m k' hk
    cases m <;> exact absurd hk (by decide)
  apply hrelease.concat
  rintro _ ⟨⟩ m k' - - hne hheld
  exact hne (Finset.mem_singleton.mp hheld)

theorem keyboard_text_ctrlC :
    (∃ s g, consRun true (kbdEvents [.intr [0x1D#8], .getc [0x2E#8], .intr [0xAE#8, 0x9D#8]] 0#32)
        ⟨fun _ => 0#8, 0#32, 0#32⟩ .init = .ok (s, g) ∧ g.written = [0x03#8] ∧
      (g.peak ≤ 511 → g.read ++ s.readable = [0x03#8])) ∧
    kbdReboots [0x1D#8, 0x2E#8, 0xAE#8, 0x9D#8] 0#32 = false :=
  keyboard_text true _ [.intr [0x1D#8], .getc [0x2E#8], .intr [0xAE#8, 0x9D#8]] ctrlC rfl
    single_ctrlC

/-! ### Keys for a text -/

/-- The left `Shift` key. -/
def Key.lshift : Key := .plain 0x2A#8 (by decide)

/-- The keys that send no escape. -/
def plainKeys : List Key :=
  (List.range 0x80).filterMap fun n =>
    if h : BitVec.ofNat 8 n < 0x80#8 ∧ BitVec.ofNat 8 n ≠ 0x60#8 then
      some (.plain (BitVec.ofNat 8 n) h)
    else none

/-- The key of a character, and whether it is one of those above. -/
def strokeOf (c : BitVec 8) : Option (Bool × Key) :=
  ((plainKeys.find? fun k => normalmap k.index = c).map (false, ·)).or
    ((plainKeys.find? fun k => shiftmap k.index = c).map (true, ·))

/-- A key is pressed and released, with `Shift` where it is needed. -/
def stroke (c : BitVec 8) : List KeyEvent :=
  match strokeOf c with
  | some (false, k) => [.press k, .release k]
  | some (true, k) => [.press .lshift, .press k, .release k, .release .lshift]
  | none => []

/-- The keys that type a text. -/
def strokes (text : List (BitVec 8)) : List KeyEvent := text.flatMap stroke

/-- The printable characters, and `Backspace`, `Tab`, `Enter` and `Esc`. -/
def Typeable (c : BitVec 8) : Prop :=
  (0x20#8 ≤ c ∧ c ≤ 0x7E#8) ∨ c ∈ [0x08#8, 0x09#8, 0x0A#8, 0x1B#8]

instance instDecidableTypeable (c : BitVec 8) : Decidable (Typeable c) :=
  inferInstanceAs (Decidable (_ ∨ _))

theorem Typeable.ne_zero {c : BitVec 8} (h : Typeable c) : c ≠ 0#8 := by
  rintro rfl
  exact absurd h (by decide)

theorem strokeOf_isSome : ∀ c, Typeable c → (strokeOf c).isSome := by decide +kernel

/-- A key that has a character sets no flag. -/
theorem shiftcode_of_map {k : Key} (h : normalmap k.index ≠ 0#8 ∨ shiftmap k.index ≠ 0#8) :
    shiftcode k.index = 0#8 ∧ togglecode k.index = 0#8 := by
  have hall : ∀ i : BitVec 8, normalmap i ≠ 0#8 ∨ shiftmap i ≠ 0#8 →
      shiftcode i = 0#8 ∧ togglecode i = 0#8 := by decide +kernel
  exact hall k.index h

/-- The key of a character, in one of the two maps. -/
inductive Strokes (c : BitVec 8) : List KeyEvent → Prop
  | plain (k : Key) (map : normalmap k.index = c) (shift : shiftcode k.index = 0#8)
      (toggle : togglecode k.index = 0#8) : Strokes c [.press k, .release k]
  | shifted (k : Key) (map : shiftmap k.index = c) (shift : shiftcode k.index = 0#8)
      (toggle : togglecode k.index = 0#8) :
      Strokes c [.press .lshift, .press k, .release k, .release .lshift]

theorem Typeable.strokes {c : BitVec 8} (h : Typeable c) : Strokes c (stroke c) := by
  obtain ⟨⟨shifted, k⟩, hk⟩ := Option.isSome_iff_exists.mp (strokeOf_isSome c h)
  rw [stroke, hk]
  rcases Option.or_eq_some_iff.mp hk with hfind | ⟨-, hfind⟩
  · obtain ⟨k', hk', heq⟩ := Option.map_eq_some_iff.mp hfind
    obtain ⟨rfl, rfl⟩ := Prod.mk.inj heq
    have hmap : normalmap k'.index = c := by simpa using List.find?_some hk'
    obtain ⟨hshift, htoggle⟩ := shiftcode_of_map (.inl (hmap ▸ h.ne_zero))
    exact .plain k' hmap hshift htoggle
  · obtain ⟨k', hk', heq⟩ := Option.map_eq_some_iff.mp hfind
    obtain ⟨rfl, rfl⟩ := Prod.mk.inj heq
    have hmap : shiftmap k'.index = c := by simpa using List.find?_some hk'
    obtain ⟨hshift, htoggle⟩ := shiftcode_of_map (.inr (hmap ▸ h.ne_zero))
    exact .shifted k' hmap hshift htoggle

theorem not_mem_keys_of_shiftcode {k : Key} (h : shiftcode k.index = 0#8) (m : HeldFlag) :
    k ∉ m.keys := by
  rw [← shiftcode_held, h]
  cases m <;> decide

theorem lshift_mem_keys (m : HeldFlag) : Key.lshift ∈ m.keys ↔ m = .shift := by
  cases m <;> decide

theorem ne_capslock_of_togglecode {k : Key} (h : togglecode k.index = 0#8) : k ≠ .capslock := by
  rw [ne_eq, ← togglecode_capslock, h]
  decide

theorem HeldFlag.not_on_empty (m : HeldFlag) : ¬ m.On ∅ := by
  rintro ⟨k, -, hheld⟩
  exact Finset.notMem_empty k hheld

theorem HeldFlag.on_insert_of_shiftcode {k : Key} (h : shiftcode k.index = 0#8) (m : HeldFlag)
    (keys : Finset Key) : m.On (insert k keys) ↔ m.On keys := by
  simp only [HeldFlag.On, Finset.mem_insert]
  constructor
  · rintro ⟨k', hk', rfl | hheld⟩
    · exact absurd hk' (not_mem_keys_of_shiftcode h m)
    · exact ⟨k', hk', hheld⟩
  · rintro ⟨k', hk', hheld⟩
    exact ⟨k', hk', .inr hheld⟩

theorem HeldFlag.on_lshift (m : HeldFlag) : m.On (insert .lshift ∅) ↔ m = .shift := by
  cases m <;> decide

theorem not_mem_lshift {k : Key} (h : shiftcode k.index = 0#8) :
    k ∉ (insert .lshift ∅ : Finset Key) := by
  intro hmem
  rcases Finset.mem_insert.mp hmem with rfl | hmem
  · exact not_mem_keys_of_shiftcode h .shift ((lshift_mem_keys .shift).mpr rfl)
  · exact Finset.notMem_empty k hmem

variable {c : BitVec 8} {keys : List KeyEvent}

/-- The keys of a character type it. -/
theorem Strokes.text (h : Strokes c keys) (hc : c ≠ 0#8) (evs : List KeyEvent) :
    delivers (keyText ∅ false (keys ++ evs)) = c :: delivers (keyText ∅ false evs) := by
  cases h with
  | plain k hmap hshift htoggle =>
    have hon := HeldFlag.on_insert_of_shiftcode hshift
    have hcaps : (false ^^ decide (k = .capslock)) = false := by
      rw [decide_eq_false (ne_capslock_of_togglecode htoggle), Bool.xor_false]
    have hchar : keyChar (insert k ∅) false k = c := by
      rw [keyChar, if_neg (mt (hon _ _).mp (HeldFlag.not_on_empty _)),
        if_neg (mt (hon _ _).mp (HeldFlag.not_on_empty _))]
      exact hmap
    simp only [List.cons_append, List.nil_append, keyText, hcaps, hchar,
      Finset.erase_insert (Finset.notMem_empty k)]
    exact List.filter_cons_of_pos (bne_iff_ne.mpr hc)
  | shifted k hmap hshift htoggle =>
    have hon := HeldFlag.on_insert_of_shiftcode hshift
    have hcaps : (false ^^ decide (k = .capslock)) = false := by
      rw [decide_eq_false (ne_capslock_of_togglecode htoggle), Bool.xor_false]
    have hcapsShift : (false ^^ decide (Key.lshift = .capslock)) = false := by decide
    -- `Shift` itself has no character
    have hcharShift : keyChar (insert .lshift ∅) false .lshift = 0#8 := by decide
    have hctl : ¬ HeldFlag.ctl.On (insert k (insert .lshift ∅)) := by
      rw [hon, HeldFlag.on_lshift]
      exact HeldFlag.noConfusion
    have hshiftOn : HeldFlag.shift.On (insert k (insert .lshift ∅)) := by
      rw [hon, HeldFlag.on_lshift]
    have hchar : keyChar (insert k (insert .lshift ∅)) false k = c := by
      rw [keyChar, if_neg hctl, if_pos hshiftOn]
      exact hmap
    simp only [List.cons_append, List.nil_append, keyText, hcaps, hcapsShift, hcharShift, hchar,
      Finset.erase_insert (not_mem_lshift hshift), Finset.erase_insert (Finset.notMem_empty _)]
    rw [delivers, List.filter_cons_of_neg (by decide)]
    exact List.filter_cons_of_pos (bne_iff_ne.mpr hc)

/-- `Ctrl` and `Alt` are not among them. -/
theorem Strokes.reboots (h : Strokes c keys) (evs : List KeyEvent) :
    keyReboots ∅ (keys ++ evs) = keyReboots ∅ evs := by
  cases h with
  | plain k hmap hshift htoggle =>
    have hon := HeldFlag.on_insert_of_shiftcode hshift
    simp only [List.cons_append, List.nil_append, keyReboots, hon, HeldFlag.not_on_empty,
      false_and, decide_false, Bool.false_or, Finset.erase_insert (Finset.notMem_empty k)]
  | shifted k hmap hshift htoggle =>
    have hon := HeldFlag.on_insert_of_shiftcode hshift
    simp only [List.cons_append, List.nil_append, keyReboots, hon, HeldFlag.on_lshift, reduceCtorEq,
      false_and, decide_false, Bool.false_or, Finset.erase_insert (not_mem_lshift hshift),
      Finset.erase_insert (Finset.notMem_empty _)]

/-- No key is held behind a character. -/
theorem Strokes.held (h : Strokes c keys) (hpre : held pre = ∅) : held (pre ++ keys) = ∅ := by
  rw [Kern.held, List.foldl_append, ← Kern.held, hpre]
  cases h with
  | plain k hmap hshift htoggle => exact Finset.erase_insert (Finset.notMem_empty k)
  | shifted k hmap hshift htoggle =>
    simp only [List.foldl_cons, List.foldl_nil, KeyEvent.hold,
      Finset.erase_insert (not_mem_lshift hshift), Finset.erase_insert (Finset.notMem_empty _)]

/-- The other `Shift` key is not held while the left one is released. -/
theorem Strokes.single (h : Strokes c keys) (hpre : SingleModifiers pre)
    (hheld : Kern.held pre = ∅) : SingleModifiers (pre ++ keys) := by
  cases h with
  | plain k hmap hshift htoggle =>
    have hkeys := not_mem_keys_of_shiftcode hshift
    rw [List.append_cons]
    apply (hpre.press k).concat
    rintro _ ⟨⟩ m k' hk
    exact absurd hk (hkeys m)
  | shifted k hmap hshift htoggle =>
    have hkeys := not_mem_keys_of_shiftcode hshift
    rw [List.append_cons, List.append_cons, List.append_cons]
    have hrelease : SingleModifiers (pre ++ [.press .lshift] ++ [.press k] ++ [.release k]) := by
      apply ((hpre.press .lshift).press k).concat
      rintro _ ⟨⟩ m k' hk
      exact absurd hk (hkeys m)
    apply hrelease.concat
    rintro _ ⟨⟩ m k' hk hk' hne
    rw [held_concat, held_concat, held_concat, hheld]
    simp only [KeyEvent.hold, Finset.erase_insert (not_mem_lshift hshift), Finset.mem_insert]
    rintro (rfl | hmem)
    · exact hne rfl
    · exact Finset.notMem_empty k' hmem

/-- No flag is left set. -/
theorem Strokes.flags (h : Strokes c keys) :
    kbdCodes (keys.flatMap KeyEvent.codes) 0#32 = 0#32 := by
  cases h with
  | plain k hmap hshift htoggle =>
    simp only [List.flatMap_cons, List.flatMap_nil, List.append_nil, kbdCodes_append]
    rw [kbdCodes_press k (by decide), hshift, htoggle, kbdCodes_release k (by decide), hshift]
    decide
  | shifted k hmap hshift htoggle =>
    have hdown : kbdCodes (KeyEvent.press .lshift).codes 0#32 = shiftBit := by decide
    have hup : kbdCodes (KeyEvent.release .lshift).codes shiftBit = 0#32 := by decide
    have hpress : kbdCodes (KeyEvent.press k).codes shiftBit = shiftBit := by
      rw [kbdCodes_press k (by decide), hshift, htoggle]
      decide
    have hrelease : kbdCodes (KeyEvent.release k).codes shiftBit = shiftBit := by
      rw [kbdCodes_release k (by decide), hshift]
      decide
    simp only [List.flatMap_cons, List.flatMap_nil, List.append_nil, kbdCodes_append, hdown, hpress,
      hrelease, hup]

/-! ### Texts -/

variable {text : List (BitVec 8)}

theorem delivers_strokes (h : ∀ c ∈ text, Typeable c) :
    delivers (keyText ∅ false (strokes text)) = text ∧ keyReboots ∅ (strokes text) = false := by
  induction text with
  | nil => exact ⟨rfl, rfl⟩
  | cons c text ih =>
    have hc := h c List.mem_cons_self
    obtain ⟨htext, hreboots⟩ := ih fun c hc => h c (List.mem_cons_of_mem _ hc)
    rw [strokes, List.flatMap_cons, hc.strokes.text hc.ne_zero, hc.strokes.reboots]
    exact ⟨congrArg (List.cons c) htext, hreboots⟩

theorem single_strokes (h : ∀ c ∈ text, Typeable c) (hpre : SingleModifiers pre)
    (hheld : held pre = ∅) :
    SingleModifiers (pre ++ strokes text) ∧ held (pre ++ strokes text) = ∅ := by
  induction text generalizing pre with
  | nil => exact (List.append_nil pre).symm ▸ ⟨hpre, hheld⟩
  | cons c text ih =>
    have hc := (h c List.mem_cons_self).strokes
    rw [strokes, List.flatMap_cons, ← List.append_assoc]
    exact ih (fun c hc => h c (List.mem_cons_of_mem _ hc)) (hc.single hpre hheld) (hc.held hheld)

theorem flags_strokes (h : ∀ c ∈ text, Typeable c) :
    kbdCodes ((strokes text).flatMap KeyEvent.codes) 0#32 = 0#32 := by
  induction text with
  | nil => rfl
  | cons c text ih =>
    rw [strokes, List.flatMap_cons, List.flatMap_append, kbdCodes_append,
      (h c List.mem_cons_self).strokes.flags]
    exact ih fun c hc => h c (List.mem_cons_of_mem _ hc)

/-- **Every text of the printable characters can be typed.** The keys of `strokes` send codes that
put just this text into the console, whenever they arrive, and leave no flag set. -/
theorem strokes_typed (serialExists : Bool) (buf : ℕ → BitVec 8) (es : List KbdEvent)
    (text : List (BitVec 8)) (htext : ∀ c ∈ text, Typeable c)
    (hcodes : es.flatMap KbdEvent.codes = (strokes text).flatMap KeyEvent.codes) :
    (∃ s g, consRun serialExists (kbdEvents es 0#32) ⟨buf, 0#32, 0#32⟩ .init = .ok (s, g) ∧
      g.written = text ∧ (g.peak ≤ 511 → g.read ++ s.readable = text)) ∧
    kbdReboots (es.flatMap KbdEvent.codes) 0#32 = false ∧
    kbdCodes (es.flatMap KbdEvent.codes) 0#32 = 0#32 := by
  obtain ⟨hsingle, -⟩ := single_strokes htext .nil rfl
  obtain ⟨hkeys, hreboots⟩ :=
    kbdResults_keys (show SingleModifiers ([] ++ strokes text) from hsingle)
  obtain ⟨hdelivers, hnever⟩ := delivers_strokes htext
  obtain ⟨s, g, hrun, hwritten, hread⟩ := consRun_kbdEvents serialExists buf es
  have hwrittenText : g.written = text := by
    rw [hwritten, hcodes]
    exact hkeys.trans hdelivers
  refine ⟨⟨s, g, hrun, hwrittenText, fun hpeak => (hread hpeak).trans hwrittenText⟩, ?_⟩
  rw [hcodes]
  exact ⟨hreboots.trans hnever, flags_strokes htext⟩

theorem strokes_typed_hi :
    (∃ s g, consRun true (kbdEvents ([0x2A, 0x23, 0xA3, 0xAA, 0x17, 0x97].map fun b => .getc [b])
        0#32) ⟨fun _ => 0#8, 0#32, 0#32⟩ .init = .ok (s, g) ∧ g.written = bytes "Hi" ∧
      (g.peak ≤ 511 → g.read ++ s.readable = bytes "Hi")) ∧
    kbdReboots [0x2A, 0x23, 0xA3, 0xAA, 0x17, 0x97] 0#32 = false ∧
    kbdCodes [0x2A, 0x23, 0xA3, 0xAA, 0x17, 0x97] 0#32 = 0#32 :=
  strokes_typed true _ ([0x2A, 0x23, 0xA3, 0xAA, 0x17, 0x97].map fun b => .getc [b]) (bytes "Hi")
    (by decide) (by decide +kernel)

end JosVmx.Kern
