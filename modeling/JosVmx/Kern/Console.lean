import JosVmx.Inc.Mmu
import JosVmx.Lib.Loop
import JosVmx.Lib.RingBuffer

/-!
# The console input buffer

The buffer of `kern/console.c` between the interrupt routines of the serial port and the
keyboard, which deliver characters, and `cons_getc`, which polls both and then takes a
character. A device routine is given by the bytes that it returns before it returns -1.

The buffer is a ring with two positions and no count. A run of the console is a list of
events in any order, with the history of what was delivered and what was read.

## Main results

* `Kern.cons_fifo` — the buffer is a queue as long as it does not overflow, and when it
  does, it loses whole rounds of characters but puts none out of order
* `Kern.cons_getc_zero_iff` — 0 means that nothing waits, unless whole rounds of characters do
-/

namespace JosVmx.Kern

open Lib

/-- What goes wrong in the console. -/
inductive ConsoleFault
  /-- a character outside `cons.buf` -/
  | cons (i : ℕ)
  /-- a cell outside the video memory -/
  | crt (i : ℕ)
  /-- a character outside the line buffer -/
  | line (i : ℤ)
  /-- a call that calls itself again -/
  | recursion
  deriving DecidableEq, Repr

/-! ### The functions of the source -/

/-- `CONSBUFSIZE`. -/
def consbufsize : Word := 512#32

/-- `cons`. -/
structure Cons where
  buf : ℕ → BitVec 8
  rpos : Word
  wpos : Word

/-- The position after `pos++`, which is 0 at the end of the buffer. -/
def consNext (pos : Word) : Word := if pos + 1#32 = consbufsize then 0#32 else pos + 1#32

/-- `cons.buf[cons.wpos++] = c`. -/
def consPut (c : BitVec 8) (s : Cons) : Except ConsoleFault Cons :=
  if s.wpos < consbufsize then
    .ok { s with buf := Function.update s.buf s.wpos.toNat c, wpos := consNext s.wpos }
  else .error (.cons s.wpos.toNat)

/-- `cons_intr`. -/
def consIntr : List (BitVec 8) → Cons → Except ConsoleFault Cons
  | [], s => .ok s
  | c :: proc, s =>
    if c = 0#8 then consIntr proc s
    else do
      let s ← consPut c s
      consIntr proc s

/-- `serial_intr`. -/
def serialIntr (serialExists : Bool) (proc : List (BitVec 8)) (s : Cons) :
    Except ConsoleFault Cons :=
  if serialExists then consIntr proc s else .ok s

/-- `kbd_intr`. -/
def kbdIntr (proc : List (BitVec 8)) (s : Cons) : Except ConsoleFault Cons := consIntr proc s

/-- `cons_getc` after it has polled the devices. -/
def consTake (s : Cons) : Except ConsoleFault (BitVec 8 × Cons) :=
  if s.rpos ≠ s.wpos then
    if s.rpos < consbufsize then .ok (s.buf s.rpos.toNat, { s with rpos := consNext s.rpos })
    else .error (.cons s.rpos.toNat)
  else .ok (0#8, s)

/-- `cons_getc`, when the devices return the bytes `serial` and `kbd`. The `int` that it returns
has the value of a byte. -/
def consGetc (serialExists : Bool) (serial kbd : List (BitVec 8)) (s : Cons) :
    Except ConsoleFault (BitVec 8 × Cons) := do
  let s ← serialIntr serialExists serial s
  let s ← kbdIntr kbd s
  consTake s

/-! ### Runs -/

/-- An interrupt, or a call of `cons_getc`, with what the devices return. -/
inductive ConsEvent
  | serial (proc : List (BitVec 8))
  | kbd (proc : List (BitVec 8))
  | getc (fromSerial fromKbd : List (BitVec 8))

/-- The nonzero bytes that a device routine returns. -/
def delivers (proc : List (BitVec 8)) : List (BitVec 8) := proc.filter (· != 0#8)

/-- The bytes that an event delivers. -/
def ConsEvent.delivered (serialExists : Bool) : ConsEvent → List (BitVec 8)
  | serial proc => if serialExists then delivers proc else []
  | kbd proc => delivers proc
  | getc fromSerial fromKbd =>
    (if serialExists then delivers fromSerial else []) ++ delivers fromKbd

/-- An event, with its history. -/
def ConsEvent.run (serialExists : Bool) (ev : ConsEvent) (s : Cons) (g : History (BitVec 8)) :
    Except ConsoleFault (Cons × History (BitVec 8)) :=
  let g := (ev.delivered serialExists).foldl .push g
  match ev with
  | serial proc => do
    let s ← serialIntr serialExists proc s
    .ok (s, g)
  | kbd proc => do
    let s ← kbdIntr proc s
    .ok (s, g)
  | getc fromSerial fromKbd => do
    let (c, s) ← consGetc serialExists fromSerial fromKbd s
    .ok (s, if c = 0#8 then g else g.pop c)

/-- A run of the console. -/
def consRun (serialExists : Bool) :
    List ConsEvent → Cons → History (BitVec 8) → Except ConsoleFault (Cons × History (BitVec 8))
  | [], s, g => .ok (s, g)
  | ev :: evs, s, g => do
    let (s, g) ← ev.run serialExists s g
    consRun serialExists evs s g

namespace Cons

/-- `(wpos - rpos) mod CONSBUFSIZE`. -/
def unread (s : Cons) : ℕ := (s.wpos - s.rpos).toNat % 512

/-- The bytes from the one to read next up to the position to write. -/
def readable (s : Cons) : List (BitVec 8) :=
  (List.range s.unread).map fun i => s.buf ((s.rpos.toNat + i) % 512)

/-! ### The buffer as a ring -/

def ring (s : Cons) : RingBuf (BitVec 8) := ⟨s.buf, s.rpos.toNat, s.wpos.toNat⟩

variable {s s' : Cons} {g : History (BitVec 8)} {k : ℕ} {pos : List ℕ} {c : BitVec 8}

theorem toNat_consNext {pos : Word} (h : pos.toNat < 512) :
    (consNext pos).toNat = RingBuf.next 512 pos.toNat := by
  rw [consNext, RingBuf.next, consbufsize]
  split <;> split <;> bv_omega

theorem lt_consbufsize {pos : Word} : pos < consbufsize ↔ pos.toNat < 512 := Iff.rfl

theorem put_ok (h : s.wpos.toNat < 512) (c : BitVec 8) :
    ∃ s', consPut c s = .ok s' ∧ s'.ring = s.ring.push 512 c :=
  ⟨_, if_pos (lt_consbufsize.mpr h), by simp [ring, RingBuf.push, toNat_consNext h]⟩

/-- The ring and its history fit. -/
structure Inv (s : Cons) (g : History (BitVec 8)) (k : ℕ) (pos : List ℕ) : Prop where
  holds : s.ring.Holds 512 g.written k
  faithful : g.Faithful 512 k pos
  nonzero : ∀ b ∈ g.written, b ≠ 0#8

theorem Inv.put (h : Inv s g k pos) (hc : c ≠ 0#8) :
    ∃ s' k', consPut c s = .ok s' ∧ Inv s' (g.push c) k' pos := by
  obtain ⟨s', hput, hring⟩ := put_ok h.holds.wpos_lt c
  refine ⟨s', _, hput, hring ▸ h.holds.push c, h.faithful.push h.holds.le c, fun b hb => ?_⟩
  rcases List.mem_append.mp hb with hb | hb
  · exact h.nonzero b hb
  · exact List.mem_singleton.mp hb ▸ hc

/-- An interrupt routine delivers the nonzero bytes of its device. -/
theorem Inv.intr (h : Inv s g k pos) (proc : List (BitVec 8)) :
    ∃ s' k', consIntr proc s = .ok s' ∧ Inv s' ((delivers proc).foldl .push g) k' pos := by
  induction proc generalizing s g k with
  | nil => exact ⟨s, k, rfl, h⟩
  | cons c proc ih =>
    by_cases hc : c = 0#8
    · subst hc
      obtain ⟨s', k', hintr, h'⟩ := ih h
      exact ⟨s', k', by rw [consIntr, if_pos rfl, hintr], h'⟩
    · obtain ⟨s₁, k₁, hput, h₁⟩ := h.put hc
      obtain ⟨s', k', hintr, h'⟩ := ih h₁
      refine ⟨s', k', by rw [consIntr, if_neg hc, hput, ok_bind, hintr], ?_⟩
      rw [delivers, List.filter_cons_of_pos (by simpa using hc)]
      exact h'

theorem Inv.serial (h : Inv s g k pos) (serialExists : Bool) (proc : List (BitVec 8)) :
    ∃ s' k', serialIntr serialExists proc s = .ok s' ∧
      Inv s' ((if serialExists then delivers proc else []).foldl .push g) k' pos := by
  cases serialExists with
  | true => exact h.intr proc
  | false => exact ⟨s, k, rfl, h⟩

/-- Either the two positions are the same, or a character is taken at that of the reader. -/
theorem Inv.take_cases (h : Inv s g k pos) :
    s.rpos = s.wpos ∧ consTake s = .ok (0#8, s) ∨
      ∃ (hk : k < g.written.length) (s' : Cons), s.rpos ≠ s.wpos ∧ g.written[k] ≠ 0#8 ∧
        consTake s = .ok (g.written[k], s') ∧ s'.ring = s.ring.pop 512 := by
  by_cases hpos : s.rpos = s.wpos
  · exact .inl ⟨hpos, if_neg (not_not.mpr hpos)⟩
  · have hk : k < g.written.length := by
      refine Nat.lt_of_le_of_ne h.holds.le fun hlast => hpos ?_
      exact BitVec.eq_of_toNat_eq (h.holds.rpos_eq_wpos_iff.mpr hlast)
    have hlt : s.rpos.toNat < 512 := h.holds.rpos_lt
    have hread : s.buf s.rpos.toNat = g.written[k] := h.holds.buf_rpos hk
    refine .inr ⟨hk, { s with rpos := consNext s.rpos }, hpos,
      h.nonzero _ (List.getElem_mem hk), ?_, ?_⟩
    · rw [consTake, if_pos hpos, if_pos (lt_consbufsize.mpr hlt), hread]
    · simp [ring, RingBuf.pop, toNat_consNext hlt]

/-- A character is taken at the position of the reader, and 0 is returned only if there is
none. -/
theorem Inv.take (h : Inv s g k pos) :
    ∃ c s' k' pos', consTake s = .ok (c, s') ∧
      Inv s' (if c = 0#8 then g else g.pop c) k' pos' := by
  rcases h.take_cases with ⟨-, htake⟩ | ⟨hk, s', -, hne, htake, hring⟩
  · exact ⟨0#8, s, k, pos, htake, h⟩
  · refine ⟨_, s', k + 1, pos ++ [k], htake, ?_⟩
    rw [if_neg hne]
    exact ⟨hring ▸ h.holds.pop hk, h.faithful.pop hk, h.nonzero⟩

theorem written_pushAll (l : List (BitVec 8)) (g : History (BitVec 8)) :
    (l.foldl History.push g).written = g.written ++ l := by
  induction l generalizing g with
  | nil => exact (List.append_nil _).symm
  | cons c l ih => rw [List.foldl_cons, ih, History.push, List.append_assoc, List.singleton_append]

theorem Inv.event (h : Inv s g k pos) (serialExists : Bool) (ev : ConsEvent) :
    ∃ s' g' k' pos', ev.run serialExists s g = .ok (s', g') ∧ Inv s' g' k' pos' ∧
      g'.written = g.written ++ ev.delivered serialExists := by
  cases ev with
  | serial proc =>
    obtain ⟨s', k', hintr, h'⟩ := h.serial serialExists proc
    refine ⟨s', _, k', pos, ?_, h', written_pushAll _ _⟩
    rw [ConsEvent.run, hintr]
    rfl
  | kbd proc =>
    obtain ⟨s', k', hintr, h'⟩ := h.intr proc
    refine ⟨s', _, k', pos, ?_, h', written_pushAll _ _⟩
    rw [ConsEvent.run, kbdIntr, hintr]
    rfl
  -- reading a character first collects what both devices hold
  | getc fromSerial fromKbd =>
    obtain ⟨s₁, k₁, hserial, h₁⟩ := h.serial serialExists fromSerial
    obtain ⟨s₂, k₂, hkbd, h₂⟩ := h₁.intr fromKbd
    obtain ⟨c, s', k', pos', htake, h'⟩ := h₂.take
    rw [← List.foldl_append] at h'
    refine ⟨s', _, k', pos', ?_, h', ?_⟩
    · rw [ConsEvent.run, consGetc, hserial, ok_bind, kbdIntr, hkbd, ok_bind, htake]
      rfl
    · rw [apply_ite History.written]
      exact (ite_self _).trans (written_pushAll _ _)

/-- Every run keeps the invariant. -/
theorem Inv.run (h : Inv s g k pos) (serialExists : Bool) (evs : List ConsEvent) :
    ∃ s' g' k' pos', consRun serialExists evs s g = .ok (s', g') ∧ Inv s' g' k' pos' ∧
      g'.written = g.written ++ evs.flatMap (·.delivered serialExists) := by
  induction evs generalizing s g k pos with
  | nil => exact ⟨s, g, k, pos, rfl, h, (List.append_nil _).symm⟩
  | cons ev evs ih =>
    obtain ⟨s₁, g₁, k₁, pos₁, hrun, h₁, hwritten⟩ := h.event serialExists ev
    obtain ⟨s', g', k', pos', hruns, h', hwritten'⟩ := ih h₁
    refine ⟨s', g', k', pos', by rw [consRun, hrun]; exact hruns, h', ?_⟩
    rw [hwritten', hwritten, List.append_assoc, List.flatMap_cons]

theorem unread_eq (hr : s.rpos.toNat < 512) (hw : s.wpos.toNat < 512) :
    s.unread = s.ring.count 512 := by
  simp only [unread, RingBuf.count, ring, BitVec.toNat_sub]
  omega

theorem readable_eq (hr : s.rpos.toNat < 512) (hw : s.wpos.toNat < 512) :
    s.readable = s.ring.readable 512 := by
  rw [readable, unread_eq hr hw]
  rfl

end Cons

/-- **The console buffer is a queue.** In every run from the empty buffer the positions stay in
the buffer; what is read are delivered bytes at increasing positions; what can be read are the
last bytes delivered; and if there are never more than 511 bytes waiting, none is lost. -/
theorem cons_fifo (serialExists : Bool) (buf : ℕ → BitVec 8) (evs : List ConsEvent) :
    ∃ s g, consRun serialExists evs ⟨buf, 0#32, 0#32⟩ .init = .ok (s, g) ∧
      g.written = evs.flatMap (·.delivered serialExists) ∧
      s.rpos < consbufsize ∧ s.wpos < consbufsize ∧
      (∃ pos : List ℕ, pos.Pairwise (· < ·) ∧ g.read.map some = pos.map (g.written[·]?)) ∧
      s.unread ≤ g.written.length ∧
      s.readable = g.written.drop (g.written.length - s.unread) ∧
      (g.peak ≤ 511 → g.read ++ s.readable = g.written) := by
  have hinit : Cons.Inv ⟨buf, 0#32, 0#32⟩ .init 0 [] :=
    ⟨.empty (by decide) buf, .init 512, fun b hb => absurd hb List.not_mem_nil⟩
  obtain ⟨s, g, k, pos, hrun, h, hwritten⟩ := hinit.run serialExists evs
  have hr := h.holds.rpos_lt
  have hw := h.holds.wpos_lt
  have hle := h.holds.le
  have hunread : s.unread = g.written.length - k :=
    (Cons.unread_eq hr hw).trans h.holds.count_eq
  have hreadable : s.readable = g.written.drop k :=
    (Cons.readable_eq hr hw).trans h.holds.readable_eq
  refine ⟨s, g, hrun, hwritten, hr, hw, ⟨pos, h.faithful.sorted, h.faithful.read⟩, by omega, ?_,
    fun hpeak => ?_⟩
  · rw [hreadable, hunread, Nat.sub_sub_self hle]
  · -- at most 511 unread at any time: the writer never lapped the reader
    rw [hreadable, h.faithful.lossless (Nat.lt_succ_of_le hpeak), List.take_append_drop]

/-! ### How much waits -/

/-- An event, with the number of bytes that wait: those delivered since a read last emptied the
buffer, less those read since. A byte that was lost waits until then. -/
def ConsEvent.await (serialExists : Bool) (ev : ConsEvent) (s : Cons) (n : ℕ) :
    Except ConsoleFault (Cons × ℕ) :=
  let n := n + (ev.delivered serialExists).length
  match ev with
  | serial proc => do
    let s ← serialIntr serialExists proc s
    .ok (s, n)
  | kbd proc => do
    let s ← kbdIntr proc s
    .ok (s, n)
  | getc fromSerial fromKbd => do
    let (c, s) ← consGetc serialExists fromSerial fromKbd s
    .ok (s, if c = 0#8 then n else if s.rpos = s.wpos then 0 else n - 1)

/-- A run of the console, with the number of bytes that wait. -/
def consAwait (serialExists : Bool) :
    List ConsEvent → Cons → ℕ → Except ConsoleFault (Cons × ℕ)
  | [], s, n => .ok (s, n)
  | ev :: evs, s, n => do
    let (s, n) ← ev.await serialExists s n
    consAwait serialExists evs s n

namespace Cons

variable {s s' : Cons} {g : History (BitVec 8)} {k n : ℕ} {pos : List ℕ} {c : BitVec 8}
  {proc : List (BitVec 8)} {serialExists : Bool}

/-- A round of the buffer looks like nothing. -/
theorem Inv.count_intr (h : Inv s g k pos) (hintr : consIntr proc s = .ok s') :
    s'.ring.count 512 = (s.ring.count 512 + (delivers proc).length) % 512 := by
  induction proc generalizing s g k with
  | nil =>
    obtain rfl : s = s' := Except.ok.inj hintr
    exact (Nat.mod_eq_of_lt (Nat.mod_lt _ (by decide))).symm
  | cons b proc ih =>
    rw [consIntr] at hintr
    split_ifs at hintr with hb
    · rw [hb]
      exact ih h hintr
    · obtain ⟨s₁, hput, hrest⟩ := bind_eq_ok hintr
      obtain ⟨s₁', k₁, hput', h₁⟩ := h.put hb
      obtain rfl : s₁' = s₁ := Except.ok.inj (hput'.symm.trans hput)
      obtain ⟨s₁'', hput'', hring⟩ := put_ok h.holds.wpos_lt b
      obtain rfl : s₁'' = s₁' := Except.ok.inj (hput''.symm.trans hput')
      have hdelivers : delivers (b :: proc) = b :: delivers proc :=
        List.filter_cons_of_pos (by simpa using hb)
      rw [ih h₁ hrest, hring, h.holds.count_push, Nat.mod_add_mod, hdelivers, List.length_cons,
        Nat.add_assoc, Nat.add_comm 1]

theorem Inv.count_serial (h : Inv s g k pos) (hintr : serialIntr serialExists proc s = .ok s') :
    s'.ring.count 512 =
      (s.ring.count 512 + (if serialExists then delivers proc else []).length) % 512 := by
  cases serialExists with
  | true => exact h.count_intr hintr
  | false =>
    obtain rfl : s = s' := Except.ok.inj hintr
    exact (Nat.mod_eq_of_lt (Nat.mod_lt _ (by decide))).symm

theorem rpos_eq_wpos_iff (h : Inv s g k pos) : s.rpos = s.wpos ↔ s.ring.count 512 = 0 := by
  rw [h.holds.count_eq_zero_iff, ← BitVec.toNat_inj]
  rfl

/-- 0 is returned if there seems to be nothing to read. -/
theorem Inv.count_take (h : Inv s g k pos) (htake : consTake s = .ok (c, s')) :
    (c = 0#8 ↔ s.ring.count 512 = 0) ∧ s'.ring.count 512 = s.ring.count 512 - 1 := by
  rcases h.take_cases with ⟨hpos, htake'⟩ | ⟨hk, s'', hpos, hne, htake', hring⟩
  · obtain ⟨rfl, rfl⟩ := Prod.mk.inj (Except.ok.inj (htake'.symm.trans htake))
    have hzero := (rpos_eq_wpos_iff h).mp hpos
    exact ⟨iff_of_true rfl hzero, by rw [hzero]⟩
  · obtain ⟨rfl, rfl⟩ := Prod.mk.inj (Except.ok.inj (htake'.symm.trans htake))
    exact ⟨iff_of_false hne (mt (rpos_eq_wpos_iff h).mpr hpos), by rw [hring, h.holds.count_pop hk]⟩

/-- `n` bytes wait, of which the buffer knows the number modulo its size. -/
def Awaits (s : Cons) (n : ℕ) : Prop :=
  ∃ g k pos, Inv s g k pos ∧ s.ring.count 512 = n % 512

theorem Awaits.serial (h : Awaits s n) (serialExists : Bool) (proc : List (BitVec 8)) :
    ∃ s', serialIntr serialExists proc s = .ok s' ∧
      Awaits s' (n + (if serialExists then delivers proc else []).length) := by
  obtain ⟨g, k, pos, hinv, hcount⟩ := h
  obtain ⟨s', k', hintr, h'⟩ := hinv.serial serialExists proc
  refine ⟨s', hintr, _, k', pos, h', ?_⟩
  rw [hinv.count_serial hintr, hcount, Nat.mod_add_mod]

theorem Awaits.kbd (h : Awaits s n) (proc : List (BitVec 8)) :
    ∃ s', kbdIntr proc s = .ok s' ∧ Awaits s' (n + (delivers proc).length) :=
  h.serial true proc

/-- `cons_getc` returns 0 if the bytes that wait make whole rounds of the buffer. -/
theorem Awaits.getc (h : Awaits s n) (serialExists : Bool) (fromSerial fromKbd : List (BitVec 8))
    {m : ℕ} (hm : m = n + ((ConsEvent.getc fromSerial fromKbd).delivered serialExists).length) :
    ∃ c s', consGetc serialExists fromSerial fromKbd s = .ok (c, s') ∧ (c = 0#8 ↔ 512 ∣ m) ∧
      Awaits s' (if c = 0#8 then m else if s'.rpos = s'.wpos then 0 else m - 1) := by
  obtain ⟨s₁, hserial, h₁⟩ := h.serial serialExists fromSerial
  obtain ⟨s₂, hkbd, h₂⟩ := h₁.kbd fromKbd
  rw [ConsEvent.delivered, List.length_append, ← Nat.add_assoc] at hm
  rw [← hm] at h₂
  obtain ⟨g, k, pos, hinv, hcount⟩ := h₂
  obtain ⟨c, s', k', pos', htake, hinv'⟩ := hinv.take
  obtain ⟨hzero, hcount'⟩ := hinv.count_take htake
  rw [hcount] at hzero hcount'
  refine ⟨c, s', ?_, hzero.trans (Nat.dvd_iff_mod_eq_zero ..).symm, _, k', pos', hinv', ?_⟩
  · rw [consGetc, hserial, ok_bind, hkbd, ok_bind, htake]
  simp only [rpos_eq_wpos_iff hinv', hcount']
  split_ifs with hc hempty
  · rw [hzero.mp hc]
  · exact hempty
  · have hne : m % 512 ≠ 0 := fun h => hc (hzero.mpr h)
    omega

theorem Awaits.event (h : Awaits s n) (serialExists : Bool) (ev : ConsEvent) :
    ∃ s' n', ev.await serialExists s n = .ok (s', n') ∧ Awaits s' n' := by
  cases ev with
  | serial proc =>
    obtain ⟨s', hintr, h'⟩ := h.serial serialExists proc
    exact ⟨s', _, by rw [ConsEvent.await, hintr]; rfl, h'⟩
  | kbd proc =>
    obtain ⟨s', hintr, h'⟩ := h.kbd proc
    exact ⟨s', _, by rw [ConsEvent.await, hintr]; rfl, h'⟩
  | getc fromSerial fromKbd =>
    obtain ⟨c, s', hgetc, -, h'⟩ := h.getc serialExists fromSerial fromKbd rfl
    exact ⟨s', _, by rw [ConsEvent.await, hgetc]; rfl, h'⟩

theorem Awaits.run (h : Awaits s n) (serialExists : Bool) (evs : List ConsEvent) :
    ∃ s' n', consAwait serialExists evs s n = .ok (s', n') ∧ Awaits s' n' := by
  induction evs generalizing s n with
  | nil => exact ⟨s, n, rfl, h⟩
  | cons ev evs ih =>
    obtain ⟨s₁, n₁, hev, h₁⟩ := h.event serialExists ev
    obtain ⟨s', n', hrun, h'⟩ := ih h₁
    exact ⟨s', n', by rw [consAwait, hev]; exact hrun, h'⟩

theorem Awaits.init (buf : ℕ → BitVec 8) : Awaits ⟨buf, 0#32, 0#32⟩ 0 := by
  have hempty : RingBuf.Holds 512 ⟨buf, 0, 0⟩ [] 0 := .empty (by decide) buf
  refine ⟨.init, 0, [], ⟨hempty, .init 512, fun b hb => absurd hb List.not_mem_nil⟩, ?_⟩
  exact hempty.count_eq

end Cons

/-- **When `cons_getc` tells the truth.** After any run, it returns 0 only if no byte waits, just
when the number of bytes that wait after it has polled the devices is not a positive multiple of
the size of the buffer. -/
theorem cons_getc_zero_iff (serialExists : Bool) (buf : ℕ → BitVec 8) (evs : List ConsEvent)
    (fromSerial fromKbd : List (BitVec 8)) :
    ∃ s n c s' m, consAwait serialExists evs ⟨buf, 0#32, 0#32⟩ 0 = .ok (s, n) ∧
      consGetc serialExists fromSerial fromKbd s = .ok (c, s') ∧
      m = n + ((ConsEvent.getc fromSerial fromKbd).delivered serialExists).length ∧
      ((c = 0#8 → m = 0) ↔ ¬ (0 < m ∧ 512 ∣ m)) := by
  obtain ⟨s, n, hrun, h⟩ := (Cons.Awaits.init buf).run serialExists evs
  obtain ⟨c, s', hgetc, hzero, -⟩ := h.getc serialExists fromSerial fromKbd rfl
  refine ⟨s, n, c, s', _, hrun, hgetc, rfl, ?_⟩
  rw [hzero, Nat.pos_iff_ne_zero]
  tauto

/-- A burst of 512 bytes makes the buffer look empty. -/
theorem not_cons_getc_zero :
    ∃ s c s', consAwait false [.kbd (List.replicate 512 0x61#8)] ⟨fun _ => 0#8, 0#32, 0#32⟩ 0 =
        .ok (s, 512) ∧
      consGetc false [] [] s = .ok (c, s') ∧ c = 0#8 := by
  obtain ⟨s, hintr, h⟩ := (Cons.Awaits.init fun _ => 0#8).kbd (List.replicate 512 0x61#8)
  have hburst : (delivers (List.replicate 512 0x61#8)).length = 512 := by
    rw [delivers, List.filter_replicate_of_pos (by decide), List.length_replicate]
  obtain ⟨c, s', hgetc, hzero, -⟩ := h.getc false [] [] rfl
  refine ⟨s, c, s', ?_, hgetc, hzero.mpr ?_⟩
  · rw [consAwait, ConsEvent.await, hintr]
    simp only [ConsEvent.delivered, hburst]
    rfl
  · rw [hburst]
    exact Dvd.intro 1 rfl

end JosVmx.Kern
