import JosVmx.Kern.Screen
import JosVmx.Lib.ByteCopy

/-!
# Copying memory

`memcpy` and `memmove` of `lib/string.c`. `memcpy` copies from the first byte to the last;
`memmove` copies from the last byte to the first if the destination starts inside the source.
The console moves the screen up with `memcpy`, on ranges that overlap.

## Main results

* `memmove_copies` — `memmove` is right for ranges that do not wrap around, and when `memcpy` is
* `memcpy_cells` — the move of the screen, in cells
-/

namespace JosVmx.Kern

open Lib

/-! ### The functions of the source -/

/-- `memcpy`: the pointer that it returns, and the memory. -/
def memcpy (dst src n : Word) (mem : ByteMem 32) : Word × ByteMem 32 :=
  -- `while (n-- > 0) *d++ = *s++`
  (dst, ByteMem.copyUp dst src n.toNat mem)

/-- `memmove`. -/
def memmove (dst src n : Word) (mem : ByteMem 32) : Word × ByteMem 32 :=
  if src < dst ∧ dst < src + n then
    -- `while (n-- > 0) *--d = *--s`, behind the ends of the ranges
    (dst, ByteMem.copyDown (dst + n) (src + n) n.toNat mem)
  else (dst, ByteMem.copyUp dst src n.toNat mem)

/-- The video memory at `crt_buf` as an array of `uint16_t`. -/
def crtCells (mem : ByteMem 32) (crtBuf : Word) (i : ℕ) : BitVec 16 :=
  mem (crtBuf + BitVec.ofNat 32 (2 * i + 1)) ++ mem (crtBuf + BitVec.ofNat 32 (2 * i))

/-- The `memcpy` of `cga_putc`: `(CRT_SIZE - CRT_COLS) * sizeof(uint16_t)` bytes from
`crt_buf + CRT_COLS` to `crt_buf`. -/
def cgaMemcpy (crtBuf : Word) (mem : ByteMem 32) : ByteMem 32 :=
  (memcpy crtBuf (crtBuf + BitVec.ofNat 32 (2 * crtCols))
    (BitVec.ofNat 32 ((crtSize - crtCols) * 2)) mem).2

/-! ### Which bytes are overwritten before they are read -/

variable {dst src n : Word} {mem : ByteMem 32} {crtBuf : Word}

/-- The destination does not start inside the source. -/
def UpSafe (dst src n : Word) : Prop := dst = src ∨ n.toNat ≤ (dst - src).toNat

theorem upSafe_of_le (hsrc : src.toNat + n.toNat ≤ 2 ^ 32) (h : dst ≤ src) : UpSafe dst src n := by
  by_cases heq : dst = src
  · exact .inl heq
  · right
    bv_omega

theorem upSafe_of_apart (hsrc : src.toNat + n.toNat ≤ 2 ^ 32)
    (h : src.toNat + n.toNat ≤ dst.toNat ∨ dst.toNat + n.toNat ≤ src.toNat) :
    UpSafe dst src n := by
  right
  bv_omega

theorem memcpy_eq (h : UpSafe dst src n) :
    memcpy dst src n mem = (dst, ByteMem.copied dst src n.toNat mem) := by
  rw [memcpy, ByteMem.copyUp_eq h n.isLt.le]

/-- The branch that `memmove` takes is one in which no byte is overwritten before it is read. -/
theorem memmove_eq (hdst : dst.toNat + n.toNat ≤ 2 ^ 32) (hsrc : src.toNat + n.toNat ≤ 2 ^ 32) :
    memmove dst src n mem = (dst, ByteMem.copied dst src n.toNat mem) := by
  rw [memmove]
  split
  case isTrue hinside =>
    have hdown : n.toNat ≤ (src - dst).toNat := by
      have hlt := hinside.1
      bv_omega
    have hcopy := ByteMem.copyDown_eq (m := mem) (.inr hdown) n.isLt.le
    rw [BitVec.ofNat_toNat, BitVec.setWidth_eq] at hcopy
    rw [hcopy]
  case isFalse hinside =>
    have hup : UpSafe dst src n := by
      by_cases hle : dst ≤ src
      · exact upSafe_of_le hsrc hle
      · have hlt : src < dst := BitVec.not_le.mp hle
        have hout : ¬ dst < src + n := fun h => hinside ⟨hlt, h⟩
        refine upSafe_of_apart hsrc (.inl ?_)
        bv_omega
    rw [ByteMem.copyUp_eq hup n.isLt.le]

/-! ### Moving the screen up -/

theorem cgaMemcpy_eq (hbuf : crtBuf.toNat + 2 * crtSize ≤ 2 ^ 32) :
    cgaMemcpy crtBuf mem = ByteMem.copied crtBuf (crtBuf + 160#32) 3840 mem := by
  have hsafe : UpSafe crtBuf (crtBuf + 160#32) 3840#32 := by
    rw [crtSize_eq] at hbuf
    exact upSafe_of_le (by bv_omega) (by bv_omega)
  exact congrArg Prod.snd (memcpy_eq hsafe)

/-- The `j`-th byte of the video memory after the copy. -/
theorem cgaMemcpy_apply (hbuf : crtBuf.toNat + 2 * crtSize ≤ 2 ^ 32) {j : ℕ} (hj : j < 4000) :
    cgaMemcpy crtBuf mem (crtBuf + BitVec.ofNat 32 j) =
      if j < 3840 then mem (crtBuf + BitVec.ofNat 32 (160 + j))
      else mem (crtBuf + BitVec.ofNat 32 j) := by
  rw [cgaMemcpy_eq hbuf]
  by_cases hin : j < 3840
  · rw [if_pos hin, ByteMem.copied_get hin (by decide), BitVec.add_assoc, ← BitVec.ofNat_add]
  · rw [if_neg hin, ByteMem.copied_of_le]
    rw [ByteMem.toNat_add_ofNat_sub (by omega)]
    omega

/-- The bytes of the video memory move as the cells of the screen do. -/
theorem memcpy_cells (hbuf : crtBuf.toNat + 2 * crtSize ≤ 2 ^ 32) {i : ℕ} (hi : i < crtSize) :
    crtCells (cgaMemcpy crtBuf mem) crtBuf i =
      copyCells (crtCells mem crtBuf) 0 crtCols (crtSize - crtCols) i := by
  have hlt : i < 2000 := hi
  rw [copyCells_eq _ (by decide)]
  simp only [crtCells]
  rw [cgaMemcpy_apply hbuf (by omega), cgaMemcpy_apply hbuf (by omega)]
  simp only [crtSize_eq, show crtCols = 80 from rfl]
  by_cases hin : i < 1920
  · have hnext : 2 * (i + (80 - 0)) = 160 + 2 * i := by omega
    rw [if_pos (by omega), if_pos (by omega), if_pos (by omega), hnext, add_assoc]
  · rw [if_neg (by omega), if_neg (by omega), if_neg (by omega)]

/-! ### Overlapping ranges -/

/-- **Copies of overlapping ranges.** `memmove` copies any range, and `memcpy` does the same if the
destination is not above the source or the ranges are disjoint, as in the move of the screen. -/
theorem memmove_copies (mem : ByteMem 32) (hdst : dst.toNat + n.toNat ≤ 2 ^ 32)
    (hsrc : src.toNat + n.toNat ≤ 2 ^ 32) :
    (memmove dst src n mem).1 = dst ∧
      (∀ k < n.toNat, (memmove dst src n mem).2 (dst + BitVec.ofNat 32 k) =
        mem (src + BitVec.ofNat 32 k)) ∧
      (∀ a : Word, a.toNat < dst.toNat ∨ dst.toNat + n.toNat ≤ a.toNat →
        (memmove dst src n mem).2 a = mem a) ∧
      (dst ≤ src ∨ src.toNat + n.toNat ≤ dst.toNat ∨ dst.toNat + n.toNat ≤ src.toNat →
        memcpy dst src n mem = memmove dst src n mem) ∧
      (∀ crtBuf : Word, crtBuf.toNat + 2 * crtSize ≤ 2 ^ 32 → ∀ i < crtSize,
        crtCells (cgaMemcpy crtBuf mem) crtBuf i =
          if i + crtCols < crtSize then crtCells mem crtBuf (i + crtCols)
          else crtCells mem crtBuf i) := by
  rw [memmove_eq hdst hsrc]
  refine ⟨rfl, fun k hk => ByteMem.copied_get hk n.isLt.le, fun a ha => ?_, fun h => ?_,
    fun crtBuf hbuf i hi => ?_⟩
  · apply ByteMem.copied_of_le
    bv_omega
  · have hsafe : UpSafe dst src n := h.elim (upSafe_of_le hsrc) (upSafe_of_apart hsrc)
    exact memcpy_eq hsafe
  · rw [memcpy_cells hbuf hi, copyCells_eq _ (by decide)]
    rw [crtSize_eq] at hi
    simp only [crtSize_eq, show crtCols = 80 from rfl]
    by_cases hin : i + 80 < 2000
    · rw [if_pos (by omega), if_pos hin]
    · rw [if_neg (by omega), if_neg hin]

/-- Six bytes move up by two. -/
theorem memmove_copies_overlap :
    (memmove 0x1002#32 0x1000#32 6#32 fun a => a.setWidth 8).2 0x1007#32 = 0x05#8 ∧
      (memmove 0x1002#32 0x1000#32 6#32 fun a => a.setWidth 8).2 0x1008#32 = 0x08#8 := by
  have h := @memmove_copies 0x1002#32 0x1000#32 6#32 (fun a => a.setWidth 8) (by decide)
    (by decide)
  exact ⟨h.2.1 5 (by decide), h.2.2.1 0x1008#32 (.inr (by decide))⟩

end JosVmx.Kern
