import JosVmx.Lib.ByteMem

/-!
# Straight-line assembly

The instructions that the assembly files of the kernel use, on a machine with registers
`R` and words of `w` bits: `pushl` and `popl` of 32-bit code and `push` and `pop` of 64-bit
code are one instruction here.

What an arithmetic instruction does to the flags is a parameter `alu` of the machine. The
upper half of a pushed segment register is not defined by the architecture; it is part of
the instruction.

## Main definitions

* `Machine`, `Instr`, `Machine.exec`, `Machine.run` — states, instructions and their effect
* `Machine.Stack` — the words on the stack

## Main results

* `Machine.Stack.pushWord`, `Machine.Stack.pop` — the rules of the stack
-/

namespace JosVmx.X86

open Lib

/-- The segment registers that the code handles. -/
inductive Seg
  | cs
  | ds
  | es
  deriving DecidableEq, Repr

/-- Register sets with a stack pointer. -/
class StackReg (R : Type) where
  sp : R

export StackReg (sp)

/-- The state of the processor and its memory. -/
structure Machine (R : Type) (w : ℕ) where
  reg : R → BitVec w
  mem : ByteMem w
  cr2 : BitVec w
  seg : Seg → BitVec 16
  flags : BitVec w
  ip : BitVec w
  /-- the fields of the current virtual machine control structure -/
  vmcs : BitVec w → BitVec w

/-- The instructions, with operands in the order of the assembler: sources first. -/
inductive Instr (R : Type) (w : ℕ)
  | push (r : R)
  | pushImm (v : BitVec w)
  | pushSeg (g : Seg) (upper : BitVec w)
  /-- `pusha`, with the registers in the order in which they are pushed -/
  | pushAll (rs : List R)
  | pop (r : R)
  | popSeg (g : Seg)
  /-- `pop disp(%base)` -/
  | popMem (disp : BitVec w) (base : R)
  /-- `popa`, with the registers in the order in which they are popped, `none` for the
  stack pointer, whose value is thrown away -/
  | popAll (rs : List (Option R))
  | mov (src dst : R)
  | movImm (v : BitVec w) (dst : R)
  /-- `mov disp(%base),%dst` -/
  | load (disp : BitVec w) (base dst : R)
  /-- `mov %src,disp(%base)` -/
  | store (src : R) (disp : BitVec w) (base : R)
  /-- `xchg (%sp),%r` -/
  | xchgTop (r : R)
  | movToSeg (src : R) (g : Seg)
  | movToCr2 (src : R)
  | movFromCr2 (dst : R)
  | vmwrite (src field : R)
  | xor (src dst : R)
  | dec (dst : R)
  | addImm (v : BitVec w) (dst : R)
  | ret
  | iret
  deriving DecidableEq

variable {R : Type} {w : ℕ} [DecidableEq R] [StackReg R]

namespace Machine

def setReg (s : Machine R w) (r : R) (v : BitVec w) : Machine R w :=
  { s with reg := Function.update s.reg r v }

/-- Push a word. -/
def pushWord (s : Machine R w) (v : BitVec w) : Machine R w :=
  { s with
    reg := Function.update s.reg sp (s.reg sp - wordSize w)
    mem := s.mem.store (s.reg sp - wordSize w) v }

/-- The word on top of the stack. -/
def top (s : Machine R w) : BitVec w := s.mem.load (s.reg sp)

/-- Drop the word on top of the stack. -/
def dropWord (s : Machine R w) : Machine R w := s.setReg sp (s.reg sp + wordSize w)

/-- The word that a push of a segment register leaves. -/
def segWord (s : Machine R w) (g : Seg) (upper : BitVec w) : BitVec w :=
  (upper &&& ~~~0xFFFF#w) ||| (s.seg g).zeroExtend w

def setSeg (s : Machine R w) (g : Seg) (v : BitVec 16) : Machine R w :=
  { s with seg := Function.update s.seg g v }

/-- Put the result of an arithmetic instruction in a register. -/
def setResult (alu : BitVec w → BitVec w → BitVec w) (s : Machine R w) (r : R) (v : BitVec w) :
    Machine R w :=
  { s.setReg r v with flags := alu s.flags v }

/-- Pop the registers of `popa`. -/
def popRegs (s : Machine R w) (rs : List (Option R)) : Machine R w :=
  rs.foldl (fun s r => match r with
    | some r => s.dropWord.setReg r s.top
    | none => s.dropWord) s

/-- The effect of an instruction. -/
def exec (alu : BitVec w → BitVec w → BitVec w) (s : Machine R w) : Instr R w → Machine R w
  | .push r => s.pushWord (s.reg r)
  | .pushImm v => s.pushWord v
  | .pushSeg g upper => s.pushWord (s.segWord g upper)
  | .pushAll rs => (rs.map s.reg).foldl pushWord s
  | .pop r => s.dropWord.setReg r s.top
  | .popSeg g => s.dropWord.setSeg g (s.top.truncate 16)
  | .popMem disp base =>
    { s.dropWord with mem := s.mem.store (s.dropWord.reg base + disp) s.top }
  | .popAll rs => s.popRegs rs
  | .mov src dst => s.setReg dst (s.reg src)
  | .movImm v dst => s.setReg dst v
  | .load disp base dst => s.setReg dst (s.mem.load (s.reg base + disp))
  | .store src disp base => { s with mem := s.mem.store (s.reg base + disp) (s.reg src) }
  | .xchgTop r => { s.setReg r s.top with mem := s.mem.store (s.reg sp) (s.reg r) }
  | .movToSeg src g => s.setSeg g ((s.reg src).truncate 16)
  | .movToCr2 src => { s with cr2 := s.reg src }
  | .movFromCr2 dst => s.setReg dst s.cr2
  | .vmwrite src field =>
    { s with
      vmcs := Function.update s.vmcs (s.reg field) (s.reg src)
      flags := alu s.flags 0#w }
  | .xor src dst => s.setResult alu dst (s.reg dst ^^^ s.reg src)
  | .dec dst => s.setResult alu dst (s.reg dst - 1#w)
  | .addImm v dst => s.setResult alu dst (s.reg dst + v)
  | .ret => { s.dropWord with ip := s.top }
  | .iret =>
    { s.dropWord.dropWord.dropWord with
      ip := s.top
      seg := Function.update s.seg .cs (s.dropWord.top.truncate 16)
      flags := s.dropWord.dropWord.top }

/-- Run a piece of straight-line code. -/
def run (alu : BitVec w → BitVec w → BitVec w) (is : List (Instr R w)) (s : Machine R w) :
    Machine R w :=
  is.foldl (exec alu) s

variable {alu : BitVec w → BitVec w → BitVec w} {s : Machine R w} {i : Instr R w}
  {is js : List (Instr R w)} {r : R} {v : BitVec w} {vs : List (BitVec w)}

@[simp] theorem run_nil : run alu [] s = s := rfl

@[simp] theorem run_cons : run alu (i :: is) s = run alu is (s.exec alu i) := rfl

theorem run_append : run alu (is ++ js) s = run alu js (run alu is s) := List.foldl_append ..

/-! ### Fields after an update -/

section Fields

variable (s : Machine R w) (q r : R) (v : BitVec w)

section SetReg

omit [StackReg R]

theorem reg_setReg : (s.setReg r v).reg q = if q = r then v else s.reg q :=
  Function.update_apply ..

@[simp] theorem mem_setReg : (s.setReg r v).mem = s.mem := rfl

@[simp] theorem seg_setReg : (s.setReg r v).seg = s.seg := rfl

@[simp] theorem flags_setReg : (s.setReg r v).flags = s.flags := rfl

end SetReg

theorem reg_pushWord :
    (s.pushWord v).reg q = if q = sp then s.reg sp - wordSize w else s.reg q :=
  Function.update_apply ..

theorem reg_dropWord : s.dropWord.reg q = if q = sp then s.reg sp + wordSize w else s.reg q :=
  Function.update_apply ..

@[simp] theorem mem_dropWord : s.dropWord.mem = s.mem := rfl

@[simp] theorem mem_pushWord : (s.pushWord v).mem = s.mem.store (s.reg sp - wordSize w) v := rfl

@[simp] theorem seg_dropWord : s.dropWord.seg = s.seg := rfl

@[simp] theorem seg_pushWord : (s.pushWord v).seg = s.seg := rfl

/-- Pushes leave the other registers alone. -/
theorem reg_pushWords (s : Machine R w) {q : R} (hq : q ≠ sp) (us : List (BitVec w)) :
    (us.foldl pushWord s).reg q = s.reg q := by
  induction us generalizing s with
  | nil => rfl
  | cons u us ih => exact (ih (s.pushWord u)).trans ((s.reg_pushWord q u).trans (if_neg hq))

/-- Registers pushed one after the other. -/
theorem run_pushes (alu : BitVec w → BitVec w → BitVec w) (s : Machine R w) {rs : List R}
    (hrs : sp ∉ rs) : run alu (rs.map .push) s = (rs.map s.reg).foldl pushWord s := by
  induction rs generalizing s with
  | nil => rfl
  | cons r rs ih =>
    rw [List.mem_cons, not_or] at hrs
    have hkeep : rs.map (s.pushWord (s.reg r)).reg = rs.map s.reg :=
      List.map_congr_left fun q hq =>
        (s.reg_pushWord q (s.reg r)).trans (if_neg fun h : q = sp => hrs.2 (h ▸ hq))
    rw [List.map_cons, run_cons, exec, ih _ hrs.2, hkeep]
    rfl

theorem sp_pushWords (s : Machine R w) (us : List (BitVec w)) :
    (us.foldl pushWord s).reg sp = s.reg sp - BitVec.ofNat w (w / 8 * us.length) := by
  induction us generalizing s with
  | nil => exact (BitVec.sub_zero _).symm
  | cons u us ih =>
    have hsp : (s.pushWord u).reg sp = s.reg sp - wordSize w := by rw [reg_pushWord, if_pos rfl]
    rw [List.foldl_cons, ih, hsp, List.length_cons, Nat.mul_succ, BitVec.ofNat_add, wordSize,
      BitVec.add_comm, BitVec.sub_sub]

end Fields

/-! ### The stack -/

/-- The words on the stack, from its top on. -/
def Stack (s : Machine R w) (vs : List (BitVec w)) : Prop := s.mem.Holds (s.reg sp) vs

omit [DecidableEq R] in
theorem Stack.top (h : s.Stack (v :: vs)) : s.top = v := h.1

theorem Stack.dropWord (h : s.Stack (v :: vs)) : s.dropWord.Stack vs := by
  rw [Stack, reg_dropWord, if_pos rfl]
  exact h.2

theorem Stack.pushWord (h8 : 8 ∣ w) (hpos : 0 < w) (h : s.Stack vs)
    (hlen : w / 8 * (vs.length + 1) ≤ 2 ^ w) : (s.pushWord v).Stack (v :: vs) := by
  rw [Stack, reg_pushWord, if_pos rfl]
  exact h.push h8 hpos hlen

/-- Registers other than the stack pointer may change. -/
theorem Stack.setReg (h : s.Stack vs) (hr : r ≠ sp) : (s.setReg r v).Stack vs := by
  rw [Stack, reg_setReg, if_neg hr.symm]
  exact h

/-- A pop of a register. -/
theorem Stack.pop (alu : BitVec w → BitVec w → BitVec w) (h : s.Stack (v :: vs)) (hr : r ≠ sp) :
    s.exec alu (.pop r) = s.dropWord.setReg r v ∧ (s.exec alu (.pop r)).Stack vs := by
  have hexec : s.exec alu (.pop r) = s.dropWord.setReg r v := by rw [exec, h.top]
  rw [hexec]
  exact ⟨rfl, h.dropWord.setReg hr⟩

/-- Words pushed one after the other come off in the opposite order. -/
theorem Stack.pushWords (h8 : 8 ∣ w) (hpos : 0 < w) (us : List (BitVec w)) (h : s.Stack vs)
    (hlen : w / 8 * (us.length + vs.length) ≤ 2 ^ w) :
    (us.foldl Machine.pushWord s).Stack (us.reverse ++ vs) := by
  induction us generalizing s vs with
  | nil => exact h
  | cons u us ih =>
    have hsum : (u :: us).length + vs.length = us.length + (vs.length + 1) := by
      rw [List.length_cons]
      omega
    rw [hsum] at hlen
    have hle : w / 8 * (vs.length + 1) ≤ w / 8 * (us.length + (vs.length + 1)) :=
      Nat.mul_le_mul_left _ (Nat.le_add_left ..)
    rw [List.reverse_cons, List.append_assoc, List.singleton_append]
    exact ih (h.pushWord h8 hpos (hle.trans hlen)) hlen

/-- Words in memory that are apart from the pushed words stay. -/
theorem holds_pushWords (hpos : 0 < w / 8) (us : List (BitVec w)) {a : BitVec w}
    (h : s.mem.Holds a vs) (hlen : w / 8 * vs.length ≤ 2 ^ w)
    (hapart : Apart (s.reg sp - BitVec.ofNat w (w / 8 * us.length)) (w / 8 * us.length) a
      (w / 8 * vs.length)) :
    (us.foldl pushWord s).mem.Holds a vs := by
  induction us generalizing s with
  | nil => exact h
  | cons u us ih =>
    have hsp : (s.pushWord u).reg sp = s.reg sp - wordSize w := by rw [reg_pushWord, if_pos rfl]
    obtain ⟨b, hb⟩ : ∃ b, s.reg sp - BitVec.ofNat w (w / 8 * (u :: us).length) = b := ⟨_, rfl⟩
    have hlower : s.reg sp - wordSize w - BitVec.ofNat w (w / 8 * us.length) = b := by
      rw [← hb, List.length_cons, Nat.mul_succ, BitVec.ofNat_add, wordSize, BitVec.add_comm,
        BitVec.sub_sub]
    -- the first word is pushed at the upper end of the range
    have hfirst : s.reg sp - wordSize w = b + BitVec.ofNat w (w / 8 * us.length) := by
      rw [← hlower, BitVec.sub_add_cancel]
    rw [hb, List.length_cons, Nat.mul_succ] at hapart
    refine ih (s := s.pushWord u) ?_ ?_
    · rw [mem_pushWord, hfirst]
      exact h.store_of_apart hlen (hapart.within le_rfl hpos)
    · rw [hsp, hlower]
      exact hapart.mono (Nat.le_add_right ..) le_rfl

end Machine

/-! ### 32-bit code -/

/-- The general registers of 32-bit code. -/
inductive Reg32
  | eax
  | ecx
  | edx
  | ebx
  | esp
  | ebp
  | esi
  | edi
  deriving DecidableEq, Repr

instance : StackReg Reg32 := ⟨.esp⟩

@[simp] theorem sp_reg32 : (sp : Reg32) = .esp := rfl

@[simp] theorem wordSize_32 : wordSize 32 = 4#32 := rfl

/-- The state of a machine with 32-bit code. -/
abbrev Machine32 := Machine Reg32 32

/-- A piece of 32-bit code. -/
abbrev Code32 := List (Instr Reg32 32)

/-! ### 64-bit code -/

/-- The general registers of 64-bit code. -/
inductive Reg64
  | rax
  | rcx
  | rdx
  | rbx
  | rsp
  | rbp
  | rsi
  | rdi
  | r8
  | r9
  | r10
  | r11
  | r12
  | r13
  | r14
  | r15
  deriving DecidableEq, Repr

instance : StackReg Reg64 := ⟨.rsp⟩

@[simp] theorem sp_reg64 : (sp : Reg64) = .rsp := rfl

@[simp] theorem wordSize_64 : wordSize 64 = 8#64 := rfl

/-- The state of a machine with 64-bit code. -/
abbrev Machine64 := Machine Reg64 64

/-- A piece of 64-bit code. -/
abbrev Code64 := List (Instr Reg64 64)

end JosVmx.X86
