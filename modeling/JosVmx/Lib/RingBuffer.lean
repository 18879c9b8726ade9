import Mathlib.Data.Int.ModEq
import Mathlib.Data.List.Basic

/-!
# Ring buffers

A ring of `n` cells with a position to write and a position to read, both of which wrap
around, and no count of what is in it. What has been written so far is a stream, and the
reader has a position in it, which the ring knows only modulo `n`. A writer that laps the
reader moves it ahead in the stream, past all that is in the ring.

## Main definitions

* `RingBuf` — the cells and the positions
* `RingBuf.Holds` — the ring holds the end of a stream, of which a part has been read
* `History.Faithful` — what has been read of a stream is a part of it, in its order

## Main results

* `RingBuf.Holds.push`, `RingBuf.Holds.pop` — writing and reading
* `RingBuf.Holds.readable_eq` — what can be read is the end of the stream
* `RingBuf.Holds.count_push` — how much can be read is known modulo `n`
* `History.Faithful.push`, `History.Faithful.pop` — the history of a ring
-/

namespace JosVmx.Lib

variable {α : Type*}

/-- Cells, the position of the next to read and that of the next to write. -/
structure RingBuf (α : Type*) where
  buf : ℕ → α
  rpos : ℕ
  wpos : ℕ

namespace RingBuf

/-- The position after `i` in a ring of `n` cells. -/
def next (n i : ℕ) : ℕ := if i + 1 = n then 0 else i + 1

def push (n : ℕ) (q : RingBuf α) (a : α) : RingBuf α :=
  ⟨Function.update q.buf q.wpos a, q.rpos, next n q.wpos⟩

def pop (n : ℕ) (q : RingBuf α) : RingBuf α := ⟨q.buf, next n q.rpos, q.wpos⟩

/-- The number of cells from the one to read up to the one to write. -/
def count (n : ℕ) (q : RingBuf α) : ℕ := (q.wpos + n - q.rpos) % n

/-- What is in these cells. -/
def readable (n : ℕ) (q : RingBuf α) : List α :=
  (List.range (q.count n)).map fun i => q.buf ((q.rpos + i) % n)

/-- The ring holds the end of the stream `d`, of which the first `k` have been read or lost. -/
structure Holds (n : ℕ) (q : RingBuf α) (d : List α) (k : ℕ) : Prop where
  le : k ≤ d.length
  lt : d.length < k + n
  rpos : q.rpos = k % n
  wpos : q.wpos = d.length % n
  cell : ∀ i (h : i < d.length), d.length ≤ i + n → q.buf (i % n) = d[i]

variable {n k : ℕ} {q : RingBuf α} {d : List α} {a : α}

theorem next_mod (hn : 0 < n) (i : ℕ) : next n (i % n) = (i + 1) % n := by
  have hlt := Nat.mod_lt i hn
  rw [next, ← Nat.mod_add_mod]
  split
  · next hlast => rw [hlast, Nat.mod_self]
  · next hne => exact (Nat.mod_eq_of_lt (by omega)).symm

/-- Two positions less than a round apart are in different cells. -/
theorem mod_ne_mod {i j : ℕ} (hij : i < j) (hj : j < i + n) : i % n ≠ j % n := by
  intro heq
  have hdvd := (Nat.modEq_iff_dvd' hij.le).mp heq
  exact absurd (Nat.le_of_dvd (Nat.sub_pos_of_lt hij) hdvd) (by omega)

theorem Holds.pos (h : q.Holds n d k) : 0 < n := by
  have hle := h.le
  have hlt := h.lt
  omega

theorem Holds.rpos_lt (h : q.Holds n d k) : q.rpos < n := h.rpos ▸ Nat.mod_lt _ h.pos

theorem Holds.wpos_lt (h : q.Holds n d k) : q.wpos < n := h.wpos ▸ Nat.mod_lt _ h.pos

theorem Holds.empty (hn : 0 < n) (buf : ℕ → α) : Holds n ⟨buf, 0, 0⟩ [] 0 where
  le := le_rfl
  lt := by simpa using hn
  rpos := (Nat.zero_mod n).symm
  wpos := (Nat.zero_mod n).symm
  cell i h := absurd h (Nat.not_lt_zero i)

/-- The position of the reader after a write to a ring with the stream `d`. -/
def lapped (n : ℕ) (d : List α) (k : ℕ) : ℕ :=
  if d.length + 1 < k + n then k else d.length + 1

theorem lapped_of_lt (h : d.length + 1 < k + n) : lapped n d k = k := if_pos h

/-- A write adds to the stream, and takes the reader along when it fills the ring. -/
theorem Holds.push (h : q.Holds n d k) (a : α) :
    (q.push n a).Holds n (d ++ [a]) (lapped n d k) := by
  have hn := h.pos
  have hle := h.le
  have hlt := h.lt
  have hlen : (d ++ [a]).length = d.length + 1 := by simp
  refine ⟨?_, ?_, ?_, ?_, fun i hi hge => ?_⟩
  · rw [hlen, lapped]
    split <;> omega
  · rw [hlen, lapped]
    split <;> omega
  · rw [lapped]
    split
    · exact h.rpos
    · -- the ring is full: the reader is a whole round behind
      have hfull : d.length + 1 = k + n := by omega
      rw [hfull, Nat.add_mod_right]
      exact h.rpos
  · rw [hlen, ← next_mod hn, ← h.wpos]
    rfl
  · rw [hlen] at hi hge
    rw [RingBuf.push, h.wpos]
    rcases Nat.lt_succ_iff_lt_or_eq.mp hi with hlt' | rfl
    · -- cells that still count lie less than a round apart
      have hne : i % n ≠ d.length % n := mod_ne_mod hlt' (by omega)
      simp only [Function.update_of_ne hne, List.getElem_append_left hlt']
      exact h.cell i hlt' (by omega)
    · simp

theorem Holds.rpos_eq_wpos_iff (h : q.Holds n d k) : q.rpos = q.wpos ↔ k = d.length := by
  have hlt := h.lt
  rw [h.rpos, h.wpos]
  refine ⟨fun heq => ?_, fun heq => by rw [heq]⟩
  rcases Nat.lt_or_eq_of_le h.le with hk | hk
  · exact absurd heq (mod_ne_mod hk h.lt)
  · exact hk

theorem Holds.buf_rpos (h : q.Holds n d k) (hk : k < d.length) : q.buf q.rpos = d[k] :=
  h.rpos ▸ h.cell k hk h.lt.le

/-- A read moves the reader. -/
theorem Holds.pop (h : q.Holds n d k) (hk : k < d.length) : (q.pop n).Holds n d (k + 1) where
  le := hk
  lt := by
    have hlt := h.lt
    omega
  rpos := by
    rw [← next_mod h.pos, ← h.rpos]
    rfl
  wpos := h.wpos
  cell := h.cell

theorem Holds.count_eq (h : q.Holds n d k) : q.count n = d.length - k := by
  have hn := h.pos
  have hle := h.le
  have hlt := h.lt
  have hmod := Nat.mod_lt k hn
  rw [count, h.rpos, h.wpos]
  -- both sides are the same number modulo `n`, and below it
  obtain ⟨m, hm⟩ : ∃ m, d.length = k + m := ⟨d.length - k, by omega⟩
  rw [hm, Nat.add_sub_cancel_left]
  have hsplit : (k + m) % n + n - k % n = (k + m) % n + (n - k % n) := by omega
  have hround : k + m + (n - k % n) = m + n * (k / n + 1) := by
    have hdiv := Nat.div_add_mod k n
    rw [Nat.mul_add, Nat.mul_one]
    omega
  rw [hsplit, Nat.mod_add_mod, hround, Nat.add_mul_mod_self_left]
  exact Nat.mod_eq_of_lt (by omega)

/-- The write that fills the ring leaves nothing to read. -/
theorem Holds.count_push (h : q.Holds n d k) (a : α) :
    (q.push n a).count n = (q.count n + 1) % n := by
  have hle := h.le
  have hlt := h.lt
  rw [(h.push a).count_eq, h.count_eq, List.length_append, List.length_singleton, lapped]
  split
  · rw [Nat.mod_eq_of_lt (by omega)]
    omega
  · have hfull : d.length - k + 1 = n := by omega
    rw [hfull, Nat.mod_self, Nat.sub_self]

theorem Holds.count_pop (h : q.Holds n d k) (hk : k < d.length) :
    (q.pop n).count n = q.count n - 1 := by
  rw [(h.pop hk).count_eq, h.count_eq, Nat.sub_sub]

theorem Holds.count_eq_zero_iff (h : q.Holds n d k) : q.count n = 0 ↔ q.rpos = q.wpos := by
  have hle := h.le
  rw [h.count_eq, h.rpos_eq_wpos_iff]
  omega

/-- What can be read is what has been written last. -/
theorem Holds.readable_eq (h : q.Holds n d k) : q.readable n = d.drop k := by
  have hlt := h.lt
  apply List.ext_getElem
  · simp [readable, h.count_eq]
  · intro i hi hi'
    rw [List.length_drop] at hi'
    have hki : k + i < d.length := by omega
    simp only [readable, List.getElem_map, List.getElem_range, List.getElem_drop, h.rpos,
      Nat.mod_add_mod]
    exact h.cell (k + i) hki (by omega)

end RingBuf

/-! ### Histories -/

/-- What has been written to a ring, what has been read from it, and the largest number of
elements that were waiting to be read. -/
structure History (α : Type*) where
  written : List α
  read : List α
  peak : ℕ

namespace History

def init : History α := ⟨[], [], 0⟩

def push (g : History α) (a : α) : History α :=
  ⟨g.written ++ [a], g.read, max g.peak (g.written.length + 1 - g.read.length)⟩

def pop (g : History α) (a : α) : History α := ⟨g.written, g.read ++ [a], g.peak⟩

/-- The elements read are those at the positions `pos` of what was written, in this order. If
there were never `n` elements waiting, none has been left out. -/
structure Faithful (n : ℕ) (g : History α) (k : ℕ) (pos : List ℕ) : Prop where
  read : g.read.map some = pos.map (g.written[·]?)
  sorted : pos.Pairwise (· < ·)
  lt : ∀ i ∈ pos, i < k
  lossless : g.peak < n → g.read = g.written.take k

variable {n k : ℕ} {g : History α} {pos : List ℕ} {q : RingBuf α}

theorem Faithful.init (n : ℕ) : Faithful n (init : History α) 0 [] :=
  ⟨rfl, .nil, fun _ h => absurd h List.not_mem_nil, fun _ => rfl⟩

theorem Faithful.push (h : g.Faithful n k pos) (hle : k ≤ g.written.length) (a : α) :
    (g.push a).Faithful n (RingBuf.lapped n g.written k) pos := by
  have hlapped : k ≤ RingBuf.lapped n g.written k := by
    rw [RingBuf.lapped]
    split <;> omega
  refine ⟨?_, h.sorted, fun i hi => (h.lt i hi).trans_le hlapped, fun hpeak => ?_⟩
  · refine h.read.trans (List.map_congr_left fun i hi => ?_)
    exact (List.getElem?_append_left ((h.lt i hi).trans_le hle)).symm
  · have hread := h.lossless (lt_of_le_of_lt (le_max_left _ _) hpeak)
    have hlen : g.read.length = k := by
      rw [hread, List.length_take]
      exact min_eq_left hle
    have hwaiting := lt_of_le_of_lt (le_max_right _ _) hpeak
    rw [RingBuf.lapped_of_lt (by omega)]
    exact hread.trans (List.take_append_of_le_length hle).symm

theorem Faithful.pop (h : g.Faithful n k pos) (hk : k < g.written.length) :
    (g.pop g.written[k]).Faithful n (k + 1) (pos ++ [k]) where
  read := by
    rw [History.pop, List.map_append, List.map_append, h.read]
    simp [hk]
  sorted := by
    refine List.pairwise_append.mpr ⟨h.sorted, List.pairwise_singleton _ _, fun i hi j hj => ?_⟩
    rw [List.mem_singleton.mp hj]
    exact h.lt i hi
  lt i hi := by
    rcases List.mem_append.mp hi with hi | hi
    · exact (h.lt i hi).trans (Nat.lt_succ_self k)
    · exact List.mem_singleton.mp hi ▸ Nat.lt_succ_self k
  lossless hpeak := by
    rw [History.pop, h.lossless hpeak]
    exact List.take_append_getElem hk

end History

end JosVmx.Lib
