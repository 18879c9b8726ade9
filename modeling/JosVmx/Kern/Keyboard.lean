import JosVmx.Kern.Console
import JosVmx.Kern.Printfmt
import Mathlib.Algebra.Group.Nat.Even
import Mathlib.Data.Finset.Basic

/-!
# The keyboard

`kbd_proc_data` of `kern/console.c`, and whether its flags say which modifier keys are held.

A key sends a code when it is pressed and the same code with the top bit when it is released,
some keys behind the byte `E0`. There are two keys for each of the flags `SHIFT`, `CTL` and `ALT`,
but only one bit, which the release of either key clears.

## Main results

* `kbdShift_press`, `kbdShift_release` — what a key does to the flags
* `modifiers_follow_iff` — the flags follow the keys unless a key is released while the other one
  of its flag is held
-/

namespace JosVmx.Kern

/-! ### Flags and tables -/

/-- `SHIFT`. -/
def shiftBit : Word := 1#32 <<< 0

/-- `CTL`. -/
def ctlBit : Word := 1#32 <<< 1

/-- `ALT`. -/
def altBit : Word := 1#32 <<< 2

/-- `CAPSLOCK`. -/
def capslockBit : Word := 1#32 <<< 3

/-- `NUMLOCK`. -/
def numlockBit : Word := 1#32 <<< 4

/-- `SCROLLLOCK`. -/
def scrolllockBit : Word := 1#32 <<< 5

/-- `E0ESC`. -/
def e0escBit : Word := 1#32 <<< 6

/-- A table of bytes that starts with a row and has some more entries. -/
def keyTable (row : List (BitVec 8)) (entries : List (BitVec 8 × BitVec 8)) (i : BitVec 8) :
    BitVec 8 :=
  (entries.lookup i).getD (row.getD i.toNat 0#8)

/-- `shiftcode`. -/
def shiftcode : BitVec 8 → BitVec 8 :=
  keyTable [] [(0x1D#8, ctlBit.setWidth 8), (0x2A#8, shiftBit.setWidth 8),
    (0x36#8, shiftBit.setWidth 8), (0x38#8, altBit.setWidth 8), (0x9D#8, ctlBit.setWidth 8),
    (0xB8#8, altBit.setWidth 8)]

/-- `togglecode`. -/
def togglecode : BitVec 8 → BitVec 8 :=
  keyTable [] [(0x3A#8, capslockBit.setWidth 8), (0x45#8, numlockBit.setWidth 8),
    (0x46#8, scrolllockBit.setWidth 8)]

/-- `KEY_DEL`. -/
def keyDel : BitVec 8 := 0xE9#8

/-- The special keys that all maps have: `KEY_HOME`, `KEY_UP` and so on. -/
def specialKeys : List (BitVec 8 × BitVec 8) :=
  [(0x97#8, 0xE0#8), (0xC8#8, 0xE2#8), (0xC9#8, 0xE6#8), (0xCB#8, 0xE4#8), (0xCD#8, 0xE5#8),
    (0xCF#8, 0xE1#8), (0xD0#8, 0xE3#8), (0xD1#8, 0xE7#8), (0xD2#8, 0xE8#8), (0xD3#8, keyDel)]

/-- What `normalmap` and `shiftmap` have from 0x37 to 0x53. -/
def keypadRow : List (BitVec 8) :=
  [chr '*', 0#8, chr ' '] ++ List.replicate 13 0#8 ++ bytes "789-456+1230."

/-- `normalmap`. -/
def normalmap : BitVec 8 → BitVec 8 :=
  keyTable
    ([0#8, 0x1B#8] ++ bytes "1234567890-=\x08\t" ++ bytes "qwertyuiop[]\n" ++ [0#8] ++
      bytes "asdfghjkl;" ++ [0x27#8, 0x60#8, 0#8] ++ bytes "\\zxcvbnm,./" ++ [0#8] ++ keypadRow)
    ((0x9C#8, chr '\n') :: (0xB5#8, chr '/') :: specialKeys)

/-- `shiftmap`. -/
def shiftmap : BitVec 8 → BitVec 8 :=
  keyTable
    ([0#8, 0x1B#8] ++ bytes "!@#$%^&*()_+\x08\t" ++ bytes "QWERTYUIOP\x7b\x7d\n" ++ [0#8] ++
      bytes "ASDFGHJKL:" ++ [0x22#8, chr '~', 0#8] ++ bytes "|ZXCVBNM<>?" ++ [0#8] ++ keypadRow)
    ((0x9C#8, chr '\n') :: (0xB5#8, chr '/') :: specialKeys)

/-- The macro `C`, in a byte. -/
def ctlChar (c : Char) : BitVec 8 := chr c - chr '@'

/-- `ctlmap`. -/
def ctlmap : BitVec 8 → BitVec 8 :=
  keyTable
    (List.replicate 16 0#8 ++ "QWERTYUIOP".toList.map ctlChar ++ [0#8, 0#8, chr '\r', 0#8] ++
      "ASDFGHJKL".toList.map ctlChar ++ List.replicate 4 0#8 ++ "\\ZXCVBNM".toList.map ctlChar ++
      [0#8, 0#8, ctlChar '/', 0#8, 0#8])
    ((0xB5#8, ctlChar '/') :: specialKeys)

/-- `charcode[i]`, for `i` below 4. -/
def charcode (i : Word) : BitVec 8 → BitVec 8 :=
  if i = 0#32 then normalmap else if i = 1#32 then shiftmap else ctlmap

/-! ### The function -/

/-- What `kbd_proc_data` returns (nothing if it returns -1), the flags that it leaves, and whether
it reboots the machine. -/
structure KbdResult where
  ret : Option (BitVec 8)
  shift : Word
  reboot : Bool
  deriving DecidableEq, Repr

/-- The letter `c` in the other case. -/
def swapCase (c : BitVec 8) : BitVec 8 :=
  if chr 'a' ≤ c ∧ c ≤ chr 'z' then c + (chr 'A' - chr 'a')
  else if chr 'A' ≤ c ∧ c ≤ chr 'Z' then c + (chr 'a' - chr 'A')
  else c

/-- The end of `kbd_proc_data`, for a key that was pressed. -/
def kbdPress (data : BitVec 8) (shift : Word) : KbdResult :=
  let shift := shift ||| (shiftcode data).setWidth 32
  let shift := shift ^^^ (togglecode data).setWidth 32
  let c := charcode (shift &&& (ctlBit ||| shiftBit)) data
  let c := if shift &&& capslockBit ≠ 0#32 then swapCase c else c
  ⟨some c, shift, ~~~shift &&& (ctlBit ||| altBit) = 0#32 ∧ c = keyDel⟩

/-- `KBS_DIB`. -/
def kbsDib : BitVec 8 := 0x01#8

/-- `kbd_proc_data`, when the ports give `kbstat` and `kbdata`. -/
def kbdProcData (kbstat kbdata : BitVec 8) (shift : Word) : KbdResult :=
  if kbstat &&& kbsDib = 0#8 then ⟨none, shift, false⟩
  else if kbdata = 0xE0#8 then ⟨some 0#8, shift ||| e0escBit, false⟩
  else if kbdata &&& 0x80#8 ≠ 0#8 then
    let data := if shift &&& e0escBit ≠ 0#32 then kbdata else kbdata &&& 0x7F#8
    ⟨some 0#8, shift &&& ~~~((shiftcode data).setWidth 32 ||| e0escBit), false⟩
  else if shift &&& e0escBit ≠ 0#32 then
    -- the last byte was an escape
    kbdPress (kbdata ||| 0x80#8) (shift &&& ~~~e0escBit)
  else kbdPress kbdata shift

/-- The flags after calls that read these values from the two ports. -/
def kbdShift (reads : List (BitVec 8 × BitVec 8)) (shift : Word) : Word :=
  reads.foldl (fun shift r => (kbdProcData r.1 r.2 shift).shift) shift

/-! ### Keys -/

/-- A key. The code that looks like an escape when it is released is not one of a key. -/
@[ext]
structure Key where
  e0 : Bool
  code : BitVec 8
  lt : code < 0x80#8
  ne : code ≠ 0x60#8
  deriving DecidableEq, Repr

/-- What stands in front of the code. -/
def Key.escape (k : Key) : List (BitVec 8) := if k.e0 then [0xE0#8] else []

/-- The index of the key in the tables. -/
def Key.index (k : Key) : BitVec 8 := if k.e0 then k.code ||| 0x80#8 else k.code

/-- A key goes down, also again while it is held, or up. -/
inductive KeyEvent
  | press (k : Key)
  | release (k : Key)
  deriving DecidableEq, Repr

namespace KeyEvent

/-- The make or break code. -/
def codes : KeyEvent → List (BitVec 8)
  | press k => k.escape ++ [k.code]
  | release k => k.escape ++ [k.code ||| 0x80#8]

/-- The keys that are held after the event. -/
def hold (keys : Finset Key) : KeyEvent → Finset Key
  | press k => insert k keys
  | release k => keys.erase k

end KeyEvent

/-- The keys that are held. -/
def held (evs : List KeyEvent) : Finset Key := evs.foldl KeyEvent.hold ∅

/-- The calls get the codes of the events, and between them any number of times no data. -/
def Feeds (reads : List (BitVec 8 × BitVec 8)) (evs : List KeyEvent) : Prop :=
  (reads.filter fun r => r.1 &&& kbsDib != 0#8).map Prod.snd = evs.flatMap KeyEvent.codes

/-- A flag that two keys set. -/
inductive HeldFlag
  | shift
  | ctl
  | alt
  deriving DecidableEq, Repr

namespace HeldFlag

def bit : HeldFlag → Word
  | shift => shiftBit
  | ctl => ctlBit
  | alt => altBit

/-- The number of the bit. -/
def pos : HeldFlag → ℕ
  | shift => 0
  | ctl => 1
  | alt => 2

theorem pos_lt (m : HeldFlag) : m.pos < 6 := by cases m <;> decide

/-- The two keys. -/
def keys : HeldFlag → List Key
  | shift => [⟨false, 0x2A#8, by decide, by decide⟩, ⟨false, 0x36#8, by decide, by decide⟩]
  | ctl => [⟨false, 0x1D#8, by decide, by decide⟩, ⟨true, 0x1D#8, by decide, by decide⟩]
  | alt => [⟨false, 0x38#8, by decide, by decide⟩, ⟨true, 0x38#8, by decide, by decide⟩]

end HeldFlag

/-- The key of `CAPSLOCK`. -/
def Key.capslock : Key := ⟨false, 0x3A#8, by decide, by decide⟩

/-- The flags say which keys are held, and how often `CAPSLOCK` was pressed. -/
structure ModifiersFollow (evs : List KeyEvent) (shift : Word) : Prop where
  modifier : ∀ m : HeldFlag, shift &&& m.bit ≠ 0#32 ↔ ∃ k ∈ m.keys, k ∈ held evs
  e0esc : shift &&& e0escBit = 0#32
  capslock : shift &&& capslockBit ≠ 0#32 ↔ Odd (evs.count (.press .capslock))

/-! ### What a key does -/

/-- The flags after some codes. -/
def kbdCodes (codes : List (BitVec 8)) (shift : Word) : Word :=
  codes.foldl (fun shift data => (kbdProcData kbsDib data shift).shift) shift

/-- Calls that get no data change nothing. -/
theorem kbdShift_eq (reads : List (BitVec 8 × BitVec 8)) (shift : Word) :
    kbdShift reads shift =
      kbdCodes ((reads.filter fun r => r.1 &&& kbsDib != 0#8).map Prod.snd) shift := by
  induction reads generalizing shift with
  | nil => rfl
  | cons r reads ih =>
    refine (ih (kbdProcData r.1 r.2 shift).shift).trans ?_
    by_cases h : r.1 &&& kbsDib = 0#8
    · rw [List.filter_cons_of_neg (by simpa using h), kbdProcData, if_pos h]
    · have hdata : kbdProcData r.1 r.2 shift = kbdProcData kbsDib r.2 shift := by
        rw [kbdProcData, kbdProcData, if_neg h,
          if_neg (show ¬ kbsDib &&& kbsDib = 0#8 by decide)]
      rw [List.filter_cons_of_pos (by simpa using h), hdata]
      rfl

theorem kbdCodes_append (codes codes' : List (BitVec 8)) (shift : Word) :
    kbdCodes (codes ++ codes') shift = kbdCodes codes' (kbdCodes codes shift) :=
  List.foldl_append

variable {shift : Word} {k : Key} {i : ℕ}

theorem Key.code_and_top (k : Key) : k.code &&& 0x80#8 = 0#8 := by
  have hall : ∀ code : BitVec 8, code < 0x80#8 → code &&& 0x80#8 = 0#8 := by decide
  exact hall k.code k.lt

theorem Key.or_top (k : Key) : k.code ||| 0x80#8 = k.code + 0x80#8 := by
  have hall : ∀ code : BitVec 8, code < 0x80#8 → code ||| 0x80#8 = code + 0x80#8 := by decide
  exact hall k.code k.lt

theorem Key.index_injective : Function.Injective Key.index := by
  intro k k' h
  have hlt := k.lt
  have hlt' := k'.lt
  rw [Key.index, Key.index, k.or_top, k'.or_top] at h
  ext1
  · by_contra hne
    split_ifs at h <;> simp_all <;> bv_omega
  · split_ifs at h <;> bv_omega

/-- The code of a key is no escape, neither when it is pressed nor when it is released. -/
theorem Key.code_ne (k : Key) : k.code ≠ 0xE0#8 ∧ k.code ||| 0x80#8 ≠ 0xE0#8 := by
  have hlt := k.lt
  have hne := k.ne
  rw [k.or_top]
  constructor <;> bv_omega

theorem Key.or_top_and (k : Key) :
    (k.code ||| 0x80#8) &&& 0x80#8 ≠ 0#8 ∧ (k.code ||| 0x80#8) &&& 0x7F#8 = k.code := by
  have hall : ∀ code : BitVec 8, code < 0x80#8 →
      (code ||| 0x80#8) &&& 0x80#8 ≠ 0#8 ∧ (code ||| 0x80#8) &&& 0x7F#8 = code := by decide
  exact hall k.code k.lt

/-- An escape sets its flag. -/
theorem kbdCodes_escape (codes : List (BitVec 8)) (shift : Word) :
    kbdCodes (0xE0#8 :: codes) shift = kbdCodes codes (shift ||| e0escBit) := rfl

theorem or_e0esc_ne (x : Word) : (x ||| e0escBit) &&& e0escBit ≠ 0#32 := by
  have hand : (x ||| e0escBit) &&& e0escBit = e0escBit := by
    ext i hi
    rw [BitVec.getElem_and, BitVec.getElem_or]
    cases x[i] <;> cases e0escBit[i] <;> rfl
  rw [hand]
  decide

/-- The byte that follows an escape clears its flag. -/
theorem or_and_not {x y : Word} (h : x &&& y = 0#32) : (x ||| y) &&& ~~~y = x := by
  ext i hi
  have hbit : (x[i] && y[i]) = false := by
    rw [← BitVec.getElem_and, h, BitVec.getElem_zero]
  rw [BitVec.getElem_and, BitVec.getElem_or, BitVec.getElem_not]
  cases hx : x[i] <;> cases hy : y[i] <;> simp_all

theorem or_and_not_or (x y z : Word) : (x ||| z) &&& ~~~(y ||| z) = x &&& ~~~(y ||| z) := by
  ext i hi
  simp only [BitVec.getElem_and, BitVec.getElem_or, BitVec.getElem_not]
  cases x[i] <;> cases y[i] <;> cases z[i] <;> rfl

/-- A key that is pressed sets its flag and turns its lock. -/
theorem kbdCodes_press (k : Key) (h : shift &&& e0escBit = 0#32) :
    kbdCodes (KeyEvent.press k).codes shift =
      (shift ||| (shiftcode k.index).setWidth 32) ^^^ (togglecode k.index).setWidth 32 := by
  have htop : ¬ k.code &&& 0x80#8 ≠ 0#8 := not_not.mpr k.code_and_top
  have hdib : ¬ kbsDib &&& kbsDib = 0#8 := by decide
  rw [KeyEvent.codes, Key.escape, Key.index]
  split_ifs with he0
  · rw [List.singleton_append, kbdCodes_escape, kbdCodes, List.foldl_cons, kbdProcData, if_neg hdib,
      if_neg k.code_ne.1, if_neg htop, if_pos (or_e0esc_ne shift), or_and_not h]
    rfl
  · rw [List.nil_append, kbdCodes, List.foldl_cons, kbdProcData, if_neg hdib, if_neg k.code_ne.1,
      if_neg htop, if_neg (not_not.mpr h)]
    rfl

/-- A key that is released clears its flag. -/
theorem kbdCodes_release (k : Key) (h : shift &&& e0escBit = 0#32) :
    kbdCodes (KeyEvent.release k).codes shift =
      shift &&& ~~~((shiftcode k.index).setWidth 32 ||| e0escBit) := by
  obtain ⟨htop, hcode⟩ := k.or_top_and
  have hdib : ¬ kbsDib &&& kbsDib = 0#8 := by decide
  rw [KeyEvent.codes, Key.escape, Key.index]
  split_ifs with he0
  · rw [List.singleton_append, kbdCodes_escape, kbdCodes, List.foldl_cons, kbdProcData, if_neg hdib,
      if_neg k.code_ne.2, if_pos htop, if_pos (or_e0esc_ne shift)]
    exact or_and_not_or ..
  · rw [List.nil_append, kbdCodes, List.foldl_cons, kbdProcData, if_neg hdib, if_neg k.code_ne.2,
      if_pos htop, if_neg (not_not.mpr h), hcode]
    rfl

/-! ### Single flags -/

theorem and_bit_ne_zero (x : Word) {i : ℕ} (hi : i < 32) :
    x &&& 1#32 <<< i ≠ 0#32 ↔ x.getLsbD i = true := by
  have hand : x &&& 1#32 <<< i = if x.getLsbD i then BitVec.twoPow 32 i else 0#32 :=
    BitVec.and_twoPow x i
  have hpow : BitVec.twoPow 32 i ≠ 0#32 := by
    intro h
    have hbit := congrArg (BitVec.getLsbD · i) h
    simp [hi] at hbit
  rw [hand]
  split_ifs with hx
  · exact iff_of_true hpow hx
  · exact iff_of_false (not_not.mpr rfl) hx

theorem HeldFlag.and_bit_ne_zero (m : HeldFlag) (x : Word) :
    x &&& m.bit ≠ 0#32 ↔ x.getLsbD m.pos = true := by
  have hbit : m.bit = 1#32 <<< m.pos := by cases m <;> rfl
  rw [hbit]
  exact Kern.and_bit_ne_zero x (m.pos_lt.trans (by decide))

/-- The two keys of a flag set it. -/
theorem shiftcode_held (m : HeldFlag) (k : Key) :
    (shiftcode k.index).getLsbD m.pos = true ↔ k ∈ m.keys := by
  have hall : ∀ i : BitVec 8, (shiftcode i).getLsbD m.pos = true ↔ i ∈ m.keys.map Key.index := by
    cases m <;> decide
  rw [hall, List.mem_map_of_injective Key.index_injective]

theorem togglecode_held (m : HeldFlag) (i : BitVec 8) : (togglecode i).getLsbD m.pos = false := by
  cases m <;> revert i <;> decide

theorem shiftcode_other (i : BitVec 8) :
    (shiftcode i).getLsbD 3 = false ∧ (shiftcode i).getLsbD 6 = false := by
  revert i
  decide

theorem togglecode_other (i : BitVec 8) : (togglecode i).getLsbD 6 = false := by
  revert i
  decide

theorem togglecode_capslock (k : Key) : (togglecode k.index).getLsbD 3 = true ↔ k = .capslock := by
  have hall : ∀ i : BitVec 8, (togglecode i).getLsbD 3 = true ↔ i = Key.capslock.index := by decide
  rw [hall, Key.index_injective.eq_iff]

theorem getLsbD_press (k : Key) (h : shift &&& e0escBit = 0#32) (hi : i < 32) :
    (kbdCodes (KeyEvent.press k).codes shift).getLsbD i =
      ((shift.getLsbD i || (shiftcode k.index).getLsbD i) ^^ (togglecode k.index).getLsbD i) := by
  rw [kbdCodes_press k h, BitVec.getLsbD_xor, BitVec.getLsbD_or, BitVec.getLsbD_setWidth,
    BitVec.getLsbD_setWidth, decide_eq_true hi, Bool.true_and, Bool.true_and]

theorem getLsbD_release (k : Key) (h : shift &&& e0escBit = 0#32) (hi : i < 32) :
    (kbdCodes (KeyEvent.release k).codes shift).getLsbD i =
      (shift.getLsbD i && !((shiftcode k.index).getLsbD i || e0escBit.getLsbD i)) := by
  rw [kbdCodes_release k h, BitVec.getLsbD_and, BitVec.getLsbD_not, BitVec.getLsbD_or,
    BitVec.getLsbD_setWidth, decide_eq_true hi, Bool.true_and, Bool.true_and]

/-! ### Runs -/

/-- The flags after some events. -/
def flagsAfter (evs : List KeyEvent) : Word := kbdCodes (evs.flatMap KeyEvent.codes) 0#32

theorem exists_feeds (evs : List KeyEvent) : ∃ reads, Feeds reads evs := by
  refine ⟨(evs.flatMap KeyEvent.codes).map fun data => (kbsDib, data), ?_⟩
  rw [Feeds, List.filter_eq_self.mpr, List.map_map]
  · exact List.map_id _
  · intro r hr
    obtain ⟨data, -, rfl⟩ := List.mem_map.mp hr
    have hdib : kbsDib &&& kbsDib ≠ 0#8 := by decide
    exact bne_iff_ne.mpr hdib

theorem kbdShift_of_feeds {reads : List (BitVec 8 × BitVec 8)} {evs : List KeyEvent}
    (h : Feeds reads evs) : kbdShift reads 0#32 = flagsAfter evs := by
  rw [Feeds] at h
  rw [kbdShift_eq, h, flagsAfter]

variable (evs : List KeyEvent)

theorem flagsAfter_concat (ev : KeyEvent) :
    flagsAfter (evs ++ [ev]) = kbdCodes ev.codes (flagsAfter evs) := by
  rw [flagsAfter, List.flatMap_append, List.flatMap_singleton, kbdCodes_append]
  rfl

theorem held_concat (ev : KeyEvent) : held (evs ++ [ev]) = ev.hold (held evs) := by
  rw [held, List.foldl_append]
  rfl

/-- No key leaves an escape behind. -/
theorem flagsAfter_e0esc : flagsAfter evs &&& e0escBit = 0#32 := by
  induction evs using List.reverseRecOn with
  | nil => rfl
  | append_singleton evs ev ih =>
    have hbit : (flagsAfter evs).getLsbD 6 = false := by
      rw [← Bool.not_eq_true, ← and_bit_ne_zero _ (by decide), not_not]
      exact ih
    rw [← not_not (a := _ = _)]
    refine fun hne => Bool.false_ne_true (Eq.trans ?_ ((and_bit_ne_zero _ (by decide)).mp hne))
    rw [flagsAfter_concat]
    cases ev with
    | press k =>
      rw [getLsbD_press k ih (by decide), hbit, (shiftcode_other _).2, togglecode_other]
      rfl
    | release k =>
      rw [getLsbD_release k ih (by decide), hbit, Bool.false_and]

/-- `CAPSLOCK` is turned with every make code of its key. -/
theorem flagsAfter_capslock :
    flagsAfter evs &&& capslockBit ≠ 0#32 ↔ Odd (evs.count (.press .capslock)) := by
  refine (and_bit_ne_zero _ (by decide)).trans ?_
  induction evs using List.reverseRecOn with
  | nil => decide
  | append_singleton evs ev ih =>
    have hesc := flagsAfter_e0esc evs
    rw [flagsAfter_concat, List.count_append]
    cases ev with
    | press k =>
      rw [getLsbD_press k hesc (by decide), (shiftcode_other _).1, Bool.or_false]
      by_cases hk : k = .capslock
      · rw [(togglecode_capslock k).mpr hk, hk, List.count_singleton_self, Nat.odd_add_one, ← ih,
          Bool.xor_true, Bool.not_eq_true', Bool.not_eq_true]
      · have htoggle : (togglecode k.index).getLsbD 3 = false := by
          rw [← Bool.not_eq_true, togglecode_capslock]
          exact hk
        have hcount : List.count (KeyEvent.press .capslock) [.press k] = 0 := by
          rw [List.count_eq_zero, List.mem_singleton, KeyEvent.press.injEq]
          exact Ne.symm hk
        rw [htoggle, Bool.xor_false, ih, hcount, Nat.add_zero]
    | release k =>
      have hcount : List.count (KeyEvent.press .capslock) [.release k] = 0 := by
        rw [List.count_eq_zero, List.mem_singleton]
        exact KeyEvent.noConfusion
      have hother : e0escBit.getLsbD 3 = false := by decide
      rw [getLsbD_release k hesc (by decide), (shiftcode_other _).1, hother, Bool.or_false,
        Bool.not_false, Bool.and_true, ih, hcount, Nat.add_zero]

variable (m : HeldFlag) (k : Key)

theorem flagsAfter_press :
    flagsAfter (evs ++ [.press k]) &&& m.bit ≠ 0#32 ↔
      flagsAfter evs &&& m.bit ≠ 0#32 ∨ k ∈ m.keys := by
  rw [m.and_bit_ne_zero, m.and_bit_ne_zero, flagsAfter_concat,
    getLsbD_press k (flagsAfter_e0esc evs) (m.pos_lt.trans (by decide)), togglecode_held,
    Bool.xor_false, Bool.or_eq_true, shiftcode_held]

/-- One of the two keys clears the flag. -/
theorem flagsAfter_release :
    flagsAfter (evs ++ [.release k]) &&& m.bit ≠ 0#32 ↔
      flagsAfter evs &&& m.bit ≠ 0#32 ∧ k ∉ m.keys := by
  have hother : e0escBit.getLsbD m.pos = false := by cases m <;> decide
  rw [m.and_bit_ne_zero, m.and_bit_ne_zero, flagsAfter_concat,
    getLsbD_release k (flagsAfter_e0esc evs) (m.pos_lt.trans (by decide)), hother, Bool.or_false,
    Bool.and_eq_true, Bool.not_eq_true', ← Bool.not_eq_true, shiftcode_held]

theorem held_press :
    (∃ k' ∈ m.keys, k' ∈ held (evs ++ [.press k])) ↔
      (∃ k' ∈ m.keys, k' ∈ held evs) ∨ k ∈ m.keys := by
  simp only [held_concat, KeyEvent.hold, Finset.mem_insert]
  constructor
  · rintro ⟨k', hk', rfl | hheld⟩
    · exact .inr hk'
    · exact .inl ⟨k', hk', hheld⟩
  · rintro (⟨k', hk', hheld⟩ | hk)
    · exact ⟨k', hk', .inr hheld⟩
    · exact ⟨k, hk, .inl rfl⟩

theorem held_release :
    (∃ k' ∈ m.keys, k' ∈ held (evs ++ [.release k])) ↔
      ∃ k' ∈ m.keys, k' ≠ k ∧ k' ∈ held evs := by
  simp only [held_concat, KeyEvent.hold, Finset.mem_erase]

/-- **When the flags follow the keys.** At the end of every event of a run, just when no key is
released while the other one of its flag is held. -/
theorem modifiers_follow_iff :
    (∀ pre, pre <+: evs → ∀ reads, Feeds reads pre → ModifiersFollow pre (kbdShift reads 0#32)) ↔
      ∀ pre k, pre ++ [.release k] <+: evs →
        ∀ (m : HeldFlag) (k' : Key), k ∈ m.keys → k' ∈ m.keys → k' ≠ k → k' ∉ held pre := by
  constructor
  · intro h pre k hpre m k' hk hk' hne hheld
    obtain ⟨reads, hfeeds⟩ := exists_feeds (pre ++ [.release k])
    have hfollow := h _ hpre _ hfeeds
    rw [kbdShift_of_feeds hfeeds] at hfollow
    -- the other key is still held, but the flag is cleared
    have hset := (hfollow.modifier m).mpr ((held_release pre m k).mpr ⟨k', hk', hne, hheld⟩)
    exact ((flagsAfter_release pre m k).mp hset).2 hk
  · intro h pre hpre reads hfeeds
    rw [kbdShift_of_feeds hfeeds]
    refine ⟨fun m => ?_, flagsAfter_e0esc pre, flagsAfter_capslock pre⟩
    clear hfeeds
    induction pre using List.reverseRecOn with
    | nil => exact iff_of_false (by cases m <;> decide) (by simp [held])
    | append_singleton pre ev ih =>
      have ih := ih ((List.prefix_append ..).trans hpre)
      cases ev with
      | press k => rw [flagsAfter_press, ih, held_press]
      | release k =>
        rw [flagsAfter_release, ih, held_release]
        constructor
        · rintro ⟨⟨k', hk', hheld⟩, hk⟩
          exact ⟨k', hk', fun heq => hk (heq ▸ hk'), hheld⟩
        · rintro ⟨k', hk', hne, hheld⟩
          exact ⟨⟨k', hk', hheld⟩, fun hk => h pre k hpre m k' hk hk' hne hheld⟩

/-- Both shift keys go down, and one of them up. -/
theorem not_modifiers_follow :
    ∃ reads, Feeds reads [.press ⟨false, 0x2A#8, by decide, by decide⟩,
        .press ⟨false, 0x36#8, by decide, by decide⟩,
        .release ⟨false, 0x36#8, by decide, by decide⟩] ∧
      ¬ ModifiersFollow [.press ⟨false, 0x2A#8, by decide, by decide⟩,
        .press ⟨false, 0x36#8, by decide, by decide⟩,
        .release ⟨false, 0x36#8, by decide, by decide⟩] (kbdShift reads 0#32) := by
  refine ⟨[(kbsDib, 0x2A#8), (kbsDib, 0x36#8), (kbsDib, 0xB6#8)], rfl, fun h => ?_⟩
  have hset := (h.modifier .shift).mpr
    ⟨⟨false, 0x2A#8, by decide, by decide⟩, List.mem_cons_self .., by decide⟩
  exact hset (by decide)

end JosVmx.Kern
