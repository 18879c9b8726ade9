import Mathlib.Logic.Function.Basic
import Mathlib.Order.Basic
import Mathlib.Algebra.Order.Ring.Nat

/-!
# A terminal on unbounded paper

A terminal writes on paper with columns from 0 to `cols - 1` and rows without end. It shows a
window of `rows` rows, which moves down with the cursor and never up again. A screen shows the
window when it holds its cells row by row, and the linear position of the cursor.

The screen only follows the window by one row at a time, so the relation `Shows` allows for a
cursor one row below the window, before the screen has been scrolled.

## Main results

* `Paper.Shows.write`, `advance`, `down`, `ret`, `back` — a screen follows the paper
* `Paper.Shows.scroll` — a screen that has been moved up by a row shows the next window
-/

namespace JosVmx.Lib

/-- Cells, the cursor and the first row of the window. -/
structure Paper (α : Type*) where
  cell : ℕ → ℕ → α
  row : ℕ
  col : ℕ
  top : ℕ

namespace Paper

variable {α : Type*} {rows cols pos : ℕ} {blank : α} {buf buf' : ℕ → α} {p : Paper α}

def write (p : Paper α) (a : α) : Paper α :=
  { p with cell := Function.update p.cell p.row (Function.update (p.cell p.row) p.col a) }

/-- To the next cell of the paper. -/
def advance (cols : ℕ) (p : Paper α) : Paper α :=
  if p.col + 1 = cols then { p with row := p.row + 1, col := 0 } else { p with col := p.col + 1 }

def down (p : Paper α) : Paper α := { p with row := p.row + 1 }

def ret (p : Paper α) : Paper α := { p with col := 0 }

/-- To the cell before. -/
def back (cols : ℕ) (p : Paper α) : Paper α :=
  if p.col = 0 then { p with row := p.row - 1, col := cols - 1 } else { p with col := p.col - 1 }

/-- Whether the cursor is at the first cell of the window. -/
def AtHome (p : Paper α) : Prop := p.row = p.top ∧ p.col = 0

instance (p : Paper α) : Decidable p.AtHome := inferInstanceAs (Decidable (_ ∧ _))

/-- The window moves down to the row of the cursor. -/
def settle (rows : ℕ) (p : Paper α) : Paper α := { p with top := max p.top (p.row + 1 - rows) }

/-- A screen with the cells `buf` and the cursor at `pos` shows the window, and no row below the
window has been written. -/
structure Shows (rows cols : ℕ) (blank : α) (buf : ℕ → α) (pos : ℕ) (p : Paper α) : Prop where
  col_lt : p.col < cols
  top_le : p.top ≤ p.row
  pos_eq : pos = (p.row - p.top) * cols + p.col
  cell : ∀ i < rows * cols, buf i = p.cell (p.top + i / cols) (i % cols)
  below : ∀ r, p.top + rows ≤ r → ∀ c, p.cell r c = blank

theorem Shows.cols_pos (h : Shows rows cols blank buf pos p) : 0 < cols :=
  Nat.zero_lt_of_lt h.col_lt

theorem Shows.pos_div (h : Shows rows cols blank buf pos p) : pos / cols = p.row - p.top := by
  rw [h.pos_eq, Nat.mul_comm, Nat.mul_add_div h.cols_pos, Nat.div_eq_of_lt h.col_lt, Nat.add_zero]

theorem Shows.pos_mod (h : Shows rows cols blank buf pos p) : pos % cols = p.col := by
  rw [h.pos_eq, Nat.mul_comm, Nat.mul_add_mod, Nat.mod_eq_of_lt h.col_lt]

/-- The cursor is in the window when its position is on the screen. -/
theorem Shows.pos_lt_iff (h : Shows rows cols blank buf pos p) :
    pos < rows * cols ↔ p.row < p.top + rows := by
  rw [← Nat.div_lt_iff_lt_mul h.cols_pos, h.pos_div]
  have hle := h.top_le
  omega

/-- The cell of a position is that of the cursor only at the cursor. -/
theorem Shows.index_iff (h : Shows rows cols blank buf pos p) (i : ℕ) :
    p.top + i / cols = p.row ∧ i % cols = p.col ↔ i = pos := by
  have hle := h.top_le
  constructor
  · rintro ⟨hrow, hcol⟩
    have hdiv : i / cols = pos / cols := by
      rw [h.pos_div]
      omega
    rw [← Nat.div_add_mod i cols, ← Nat.div_add_mod pos cols, hdiv, hcol, h.pos_mod]
  · rintro rfl
    rw [h.pos_div, h.pos_mod]
    exact ⟨Nat.add_sub_cancel' hle, rfl⟩

theorem Shows.write (h : Shows rows cols blank buf pos p) (hpos : pos < rows * cols) (a : α) :
    Shows rows cols blank (Function.update buf pos a) pos (p.write a) := by
  refine ⟨h.col_lt, h.top_le, h.pos_eq, fun i hi => ?_, fun r hr c => ?_⟩
  · simp only [Paper.write, Function.update_apply]
    have hindex := h.index_iff i
    by_cases heq : i = pos
    · obtain ⟨hrow, hcol⟩ := hindex.mpr heq
      rw [if_pos heq, if_pos hrow, Function.update_apply, if_pos hcol]
    · rw [if_neg heq, h.cell i hi]
      by_cases hrow : p.top + i / cols = p.row
      · rw [if_pos hrow, Function.update_apply, if_neg fun hcol => heq (hindex.mp ⟨hrow, hcol⟩),
          hrow]
      · rw [if_neg hrow]
  · have hrow := h.pos_lt_iff.mp hpos
    have hr' : p.top + rows ≤ r := hr
    have hne : r ≠ p.row := by omega
    simp only [Paper.write, Function.update_of_ne hne]
    exact h.below r hr' c

theorem Shows.advance (h : Shows rows cols blank buf pos p) :
    Shows rows cols blank buf (pos + 1) (p.advance cols) := by
  have hcol := h.col_lt
  have htop := h.top_le
  have hpos := h.pos_eq
  rw [Paper.advance]
  by_cases hlast : p.col + 1 = cols
  · rw [if_pos hlast]
    refine ⟨h.cols_pos, htop.trans (Nat.le_succ _), ?_, h.cell, h.below⟩
    simp only
    rw [Nat.sub_add_comm htop, Nat.succ_mul]
    omega
  · rw [if_neg hlast]
    exact ⟨by simp only; omega, htop, by simp only; omega, h.cell, h.below⟩

theorem Shows.down (h : Shows rows cols blank buf pos p) :
    Shows rows cols blank buf (pos + cols) p.down := by
  refine ⟨h.col_lt, h.top_le.trans (Nat.le_succ _), ?_, h.cell, h.below⟩
  have hpos := h.pos_eq
  simp only [Paper.down]
  rw [Nat.sub_add_comm h.top_le, Nat.succ_mul]
  omega

theorem Shows.ret (h : Shows rows cols blank buf pos p) :
    Shows rows cols blank buf (pos - pos % cols) p.ret := by
  refine ⟨h.cols_pos, h.top_le, ?_, h.cell, h.below⟩
  have hpos := h.pos_eq
  rw [h.pos_mod]
  simp only [Paper.ret]
  omega

theorem Shows.atHome_iff (h : Shows rows cols blank buf pos p) : p.AtHome ↔ pos = 0 := by
  have hindex := h.index_iff 0
  rw [Nat.zero_div, Nat.zero_mod] at hindex
  rw [eq_comm (a := pos), ← hindex]
  exact ⟨fun hhome => ⟨hhome.1.symm, hhome.2.symm⟩, fun hhome => ⟨hhome.1.symm, hhome.2.symm⟩⟩

theorem Shows.back (h : Shows rows cols blank buf pos p) (hpos : 0 < pos) :
    Shows rows cols blank buf (pos - 1) (p.back cols) := by
  have hcols := h.cols_pos
  have hcol := h.col_lt
  have htop := h.top_le
  have heq := h.pos_eq
  rw [Paper.back]
  by_cases hzero : p.col = 0
  · have hlt : p.top < p.row := by
      refine lt_of_le_of_ne htop fun hrow => ?_
      exact hpos.ne' (h.atHome_iff.mp ⟨hrow.symm, hzero⟩)
    have hsplit : (p.row - p.top) * cols = (p.row - 1 - p.top) * cols + cols := by
      rw [← Nat.succ_mul]
      congr 1
      omega
    rw [if_pos hzero]
    exact ⟨by simp only; omega, by simp only; omega, by simp only; omega, h.cell, h.below⟩
  · rw [if_neg hzero]
    exact ⟨by simp only; omega, htop, by simp only; omega, h.cell, h.below⟩

theorem Shows.settle (h : Shows rows cols blank buf pos p) (hpos : pos < rows * cols) :
    p.settle rows = p := by
  have hrow := h.pos_lt_iff.mp hpos
  rw [Paper.settle, max_eq_left (by omega)]

/-- A screen that has been moved up by a row, with a blank row at its end. -/
theorem Shows.scroll (h : Shows rows cols blank buf pos p) (hrows : 0 < rows)
    (hrow : p.row = p.top + rows) (hbuf : ∀ i < rows * cols,
      buf' i = if i + cols < rows * cols then buf (i + cols) else blank) :
    Shows rows cols blank buf' (pos - cols) (p.settle rows) := by
  have hcols := h.cols_pos
  have htop : max p.top (p.row + 1 - rows) = p.top + 1 := by omega
  have hpos : pos = rows * cols + p.col := by
    rw [h.pos_eq, hrow, Nat.add_sub_cancel_left]
  have hsplit : rows * cols = (rows - 1) * cols + cols := by
    rw [← Nat.succ_mul]
    congr 1
    omega
  rw [Paper.settle, htop]
  refine ⟨h.col_lt, by simp only; omega, ?_, fun i hi => ?_, fun r hr => h.below r ?_⟩
  · have hheight : p.row - (p.top + 1) = rows - 1 := by omega
    simp only [hheight]
    omega
  · have hdiv : (i + cols) / cols = i / cols + 1 := Nat.add_div_right i hcols
    rw [hbuf i hi]
    split
    · next hlt =>
      rw [h.cell _ hlt, hdiv, Nat.add_mod_right, Nat.add_assoc, Nat.add_comm 1]
    · next hge =>
      -- the last line was not written yet, so the paper is blank there
      have hlast : rows ≤ i / cols + 1 := by
        rw [← hdiv, Nat.le_div_iff_mul_le hcols]
        exact Nat.not_lt.mp hge
      refine (h.below _ ?_ _).symm
      simp only
      omega
  · simp only at hr
    omega

end Paper

end JosVmx.Lib
