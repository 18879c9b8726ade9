import JosVmx.Inc.Mmu
import JosVmx.X86.Machine
import Mathlib.Logic.Embedding.Basic

/-!
# Trap entry

The handlers of `kern/trapentry.S`, the gates that `idt_init` installs for them and
`struct Trapframe`. A trap passes through three parties that agree on the frame: the
processor, which pushes three words and an error code for some vectors, the handler, which
makes up for the error code, and `_alltraps`, which pushes the rest.

## Main results

* `Kern.trapTransparent_iff` — a trap is transparent to the code that it interrupts except for
  vectors 15 and 17, whose handlers take the wrong side on the error code
-/

namespace JosVmx.Kern

open Lib X86 Machine

/-! ### The handlers -/

/-- `TRAPHANDLER(name, num)`, up to its jump to `_alltraps`. -/
def traphandler (num : Word) : Code32 := [.pushImm num]

/-- `TRAPHANDLER_NOEC(name, num)`, which pushes a 0 in place of the error code. -/
def traphandlerNoec (num : Word) : Code32 := [.pushImm 0#32, .pushImm num]

/-- The symbols that the file defines. -/
inductive Handler
  | handler0
  | handler1
  | handler2
  | handler3
  | handler4
  | handler5
  | handler6
  | handler7
  | handler8
  | handler9
  | handler10
  | handler11
  | handler12
  | handler13
  | handler14
  | handler15
  | handler16
  | handler17
  | handler18
  | handler19
  | handler48
  deriving DecidableEq, Repr

def tSyscall : Word := 48#32

/-- The code of a handler. -/
def Handler.code : Handler → Code32
  | .handler0 => traphandlerNoec 0#32
  | .handler1 => traphandlerNoec 1#32
  | .handler2 => traphandlerNoec 2#32
  | .handler3 => traphandlerNoec 3#32
  | .handler4 => traphandlerNoec 4#32
  | .handler5 => traphandlerNoec 5#32
  | .handler6 => traphandlerNoec 6#32
  | .handler7 => traphandlerNoec 7#32
  | .handler8 => traphandler 8#32
  | .handler9 => traphandlerNoec 9#32
  | .handler10 => traphandler 10#32
  | .handler11 => traphandler 11#32
  | .handler12 => traphandler 12#32
  | .handler13 => traphandler 13#32
  | .handler14 => traphandler 14#32
  | .handler15 => traphandler 15#32
  | .handler16 => traphandlerNoec 16#32
  | .handler17 => traphandlerNoec 17#32
  | .handler18 => traphandlerNoec 18#32
  | .handler19 => traphandlerNoec 19#32
  | .handler48 => traphandlerNoec tSyscall

/-! ### The gates -/

def gdKt : BitVec 16 := 0x08#16

def gdKd : Word := 0x10#32

def stsIg32 : BitVec 4 := 0xE#4

def stsTg32 : BitVec 4 := 0xF#4

/-- `struct Gatedesc`. -/
structure Gatedesc where
  gdOff150 : BitVec 16
  gdSs : BitVec 16
  gdArgs : BitVec 5
  gdRsv1 : BitVec 3
  gdType : BitVec 4
  gdS : BitVec 1
  gdDpl : BitVec 2
  gdP : BitVec 1
  gdOff3116 : BitVec 16

/-- `SETGATE(gate, istrap, sel, off, dpl)`. -/
def setgate (istrap : Bool) (sel : BitVec 16) (off : Word) (dpl : BitVec 2) : Gatedesc where
  gdOff150 := (off &&& 0xffff#32).truncate 16
  gdSs := sel
  gdArgs := 0#5
  gdRsv1 := 0#3
  gdType := if istrap then stsTg32 else stsIg32
  gdS := 0#1
  gdDpl := dpl
  gdP := 1#1
  gdOff3116 := (off >>> 16).truncate 16

/-- The address at which the processor continues. -/
def Gatedesc.off (g : Gatedesc) : Word := g.gdOff3116 ++ g.gdOff150

/-- The interrupt descriptor table before `idt_init`. -/
def idt : Fin 256 → Gatedesc := fun _ => ⟨0#16, 0#16, 0#5, 0#3, 0#4, 0#1, 0#2, 0#1, 0#16⟩

/-- The uses of `SETGATE` in `idt_init`: the vector, `istrap`, the handler and `dpl`. -/
def gates : List (Fin 256 × Bool × Handler × BitVec 2) :=
  [(1, true, .handler1, 0), (2, true, .handler2, 0), (3, true, .handler3, 3),
    (4, true, .handler4, 0), (5, true, .handler5, 0), (6, true, .handler6, 0),
    (7, true, .handler7, 0), (8, true, .handler8, 0), (9, true, .handler9, 0),
    (10, true, .handler10, 0), (11, true, .handler11, 0), (12, true, .handler12, 0),
    (13, true, .handler13, 0), (14, true, .handler14, 0), (15, true, .handler15, 0),
    (16, true, .handler16, 0), (17, true, .handler17, 0), (18, true, .handler18, 0),
    (19, true, .handler19, 0), (48, false, .handler48, 3)]

/-- One of these uses, with the handlers at `addr`. -/
def install (addr : Handler → Word) (idt : Fin 256 → Gatedesc) :
    Fin 256 × Bool × Handler × BitVec 2 → Fin 256 → Gatedesc
  | (v, istrap, h, dpl) => Function.update idt v (setgate istrap gdKt (addr h) dpl)

/-- The interrupt descriptor table after `idt_init`. -/
def idtInit (addr : Handler → Word) : Fin 256 → Gatedesc := gates.foldl (install addr) idt

/-- The halves of an address fit together again. -/
theorem off_setgate (istrap : Bool) (sel : BitVec 16) (off : Word) (dpl : BitVec 2) :
    (setgate istrap sel off dpl).off = off := by
  ext i hi
  rw [Gatedesc.off, setgate, BitVec.getElem_append]
  split
  · have hmask : (65535#16)[i] = true := BitVec.getElem_allOnes i ‹_›
    simp [hmask, BitVec.getLsbD_eq_getElem hi]
  · have hsum : 16 + (i - 16) = i := by omega
    simp [hsum, BitVec.getLsbD_eq_getElem hi]

theorem foldl_install (addr : Handler → Word) (l : List (Fin 256 × Bool × Handler × BitVec 2))
    (tbl : Fin 256 → Gatedesc) (v : Fin 256) :
    l.foldl (install addr) tbl v = tbl v ∨ ∃ istrap h dpl, (v, istrap, h, dpl) ∈ l ∧
      l.foldl (install addr) tbl v = setgate istrap gdKt (addr h) dpl := by
  induction l generalizing tbl with
  | nil => exact .inl rfl
  | cons row l ih =>
    obtain ⟨u, istrap, h, dpl⟩ := row
    rcases ih (install addr tbl (u, istrap, h, dpl)) with heq | ⟨istrap', h', dpl', hmem, heq⟩
    · by_cases hu : v = u
      · subst hu
        exact .inr ⟨istrap, h, dpl, List.mem_cons_self, heq.trans (Function.update_self ..)⟩
      · exact .inl (heq.trans (Function.update_of_ne hu ..))
    · exact .inr ⟨istrap', h', dpl', List.mem_cons_of_mem _ hmem, heq⟩

/-- A gate that is present is one that `idt_init` has set. -/
theorem exists_gate {addr : Handler → Word} {v : Fin 256} (h : (idtInit addr v).gdP = 1#1) :
    ∃ istrap h dpl, (v, istrap, h, dpl) ∈ gates ∧
      idtInit addr v = setgate istrap gdKt (addr h) dpl := by
  rcases foldl_install addr gates idt v with heq | hgate
  · rw [idtInit, heq] at h
    exact absurd h (by simp [idt])
  · exact hgate

/-! ### The frame -/

/-- `struct Registers`. -/
structure Registers where
  regEdi : Word
  regEsi : Word
  regEbp : Word
  /-- useless -/
  regOesp : Word
  regEbx : Word
  regEdx : Word
  regEcx : Word
  regEax : Word

/-- `struct Trapframe`, up to the two words that are only there when crossing rings. -/
structure Trapframe where
  tfRegs : Registers
  tfEs : BitVec 16
  tfPadding1 : BitVec 16
  tfDs : BitVec 16
  tfPadding2 : BitVec 16
  tfTrapno : Word
  tfErr : Word
  tfEip : Word
  tfCs : BitVec 16
  tfPadding3 : BitVec 16
  tfEflags : Word

/-- The structure at `p`. -/
def Registers.read (m : ByteMem 32) (p : Word) : Registers where
  regEdi := m.load p
  regEsi := m.load (p + 4#32)
  regEbp := m.load (p + 8#32)
  regOesp := m.load (p + 12#32)
  regEbx := m.load (p + 16#32)
  regEdx := m.load (p + 20#32)
  regEcx := m.load (p + 24#32)
  regEax := m.load (p + 28#32)

/-- The structure at `p`. -/
def Trapframe.read (m : ByteMem 32) (p : Word) : Trapframe where
  tfRegs := Registers.read m p
  tfEs := (m.load (p + 32#32)).truncate 16
  tfPadding1 := (m.load (p + 32#32)).extractLsb' 16 16
  tfDs := (m.load (p + 36#32)).truncate 16
  tfPadding2 := (m.load (p + 36#32)).extractLsb' 16 16
  tfTrapno := m.load (p + 40#32)
  tfErr := m.load (p + 44#32)
  tfEip := m.load (p + 48#32)
  tfCs := (m.load (p + 52#32)).truncate 16
  tfPadding3 := (m.load (p + 52#32)).extractLsb' 16 16
  tfEflags := m.load (p + 56#32)

/-- The field of a register. -/
def Registers.get (rs : Registers) : Reg32 → Word
  | .eax => rs.regEax
  | .ecx => rs.regEcx
  | .edx => rs.regEdx
  | .ebx => rs.regEbx
  | .esp => rs.regOesp
  | .ebp => rs.regEbp
  | .esi => rs.regEsi
  | .edi => rs.regEdi

/-! ### The processor and `_alltraps` -/

/-- What the processor adds to a trap: the error code, the flags it continues with and the
upper halves of the words that it pushes for segment registers. -/
structure Delivery where
  err : Word
  flags : Word
  cs : Word
  ds : Word
  es : Word

/-- The vectors for which the processor pushes an error code. -/
def PushesErr (v : Fin 256) : Prop := v = 8 ∨ 10 ≤ v ∧ v ≤ 14 ∨ v = 17

instance (v : Fin 256) : Decidable (PushesErr v) := inferInstanceAs (Decidable (_ ∨ _))

/-- The words that the processor pushes. -/
def delivered (d : Delivery) (v : Fin 256) (s : Machine32) : List Word :=
  [s.flags, s.segWord .cs d.cs, s.ip] ++ if PushesErr v then [d.err] else []

/-- The processor delivers exception `v` through the gate `g`. -/
def deliver (d : Delivery) (g : Gatedesc) (v : Fin 256) (s : Machine32) : Machine32 :=
  { (delivered d v s).foldl pushWord s with
    ip := g.off
    seg := Function.update s.seg .cs g.gdSs
    flags := d.flags }

/-- The code of `_alltraps` up to the call of `trap`, whose argument is on the stack. -/
def alltraps (d : Delivery) : Code32 :=
  [.pushSeg .ds d.ds, .pushSeg .es d.es,
    .pushAll [.eax, .ecx, .edx, .ebx, .esp, .ebp, .esi, .edi],
    .movImm gdKd .eax, .movToSeg .eax .ds, .movToSeg .eax .es,
    .push .esp]

/-- The code of `_alltraps` after the call of `trap`. -/
def alltrapsReturn : Code32 :=
  [.pop .esp,
    .popAll [some .edi, some .esi, some .ebp, none, some .ebx, some .edx, some .ecx, some .eax],
    .popSeg .es, .popSeg .ds, .addImm 8#32 .esp, .iret]

variable {s s' : Machine32} {alu : Word → Word → Word} {d : Delivery} {g : Gatedesc}
  {v : Fin 256} {ws : List Word} {num : Word}

/-- The words of a frame. -/
theorem holds_frame (m : ByteMem 32) (p : Word) :
    m.Holds p [m.load p, m.load (p + 4#32), m.load (p + 8#32), m.load (p + 12#32),
      m.load (p + 16#32), m.load (p + 20#32), m.load (p + 24#32), m.load (p + 28#32),
      m.load (p + 32#32), m.load (p + 36#32), m.load (p + 40#32), m.load (p + 44#32),
      m.load (p + 48#32), m.load (p + 52#32), m.load (p + 56#32)] := by
  simp [ByteMem.Holds, BitVec.add_assoc]

/-- The return path takes everything from the frame that is on the stack. -/
theorem run_alltrapsReturn (alu : Word → Word → Word) {tf : Trapframe}
    (htf : Trapframe.read s.mem s.top = tf) :
    (∀ r ≠ .esp, (run alu alltrapsReturn s).reg r = tf.tfRegs.get r) ∧
      (run alu alltrapsReturn s).reg .esp = s.top + 60#32 ∧
      (run alu alltrapsReturn s).seg .es = tf.tfEs ∧
      (run alu alltrapsReturn s).seg .ds = tf.tfDs ∧
      (run alu alltrapsReturn s).seg .cs = tf.tfCs ∧
      (run alu alltrapsReturn s).ip = tf.tfEip ∧
      (run alu alltrapsReturn s).flags = tf.tfEflags := by
  subst htf
  obtain ⟨hedi, hesi, hebp, -, hebx, hedx, hecx, heax, hes, hds, -, -, heip, hcs, hflags, -⟩ :=
    holds_frame s.mem s.top
  obtain ⟨q, hq⟩ : ∃ q, q = s.top + 4#32 + 4#32 + 4#32 + 4#32 + 4#32 + 4#32 + 4#32 + 4#32 + 4#32 +
    4#32 := ⟨_, rfl⟩
  -- the vector and the error code are skipped by an addition
  have hskip : q + 8#32 = q + 4#32 + 4#32 := by bv_omega
  refine ⟨fun r hr => ?_, ?_, congrArg (BitVec.truncate 16) hes,
    congrArg (BitVec.truncate 16) hds, ?_, ?_, ?_⟩
  · cases r with
    | eax => exact heax
    | ecx => exact hecx
    | edx => exact hedx
    | ebx => exact hebx
    | esp => exact absurd rfl hr
    | ebp => exact hebp
    | esi => exact hesi
    | edi => exact hedi
  · change s.top + 4#32 + 4#32 + 4#32 + 4#32 + 4#32 + 4#32 + 4#32 + 4#32 + 4#32 + 4#32 + 8#32 +
      4#32 + 4#32 + 4#32 = _
    simp [BitVec.add_assoc]
  · change (s.mem.load (s.top + 4#32 + 4#32 + 4#32 + 4#32 + 4#32 + 4#32 + 4#32 + 4#32 + 4#32 +
      4#32 + 8#32 + 4#32)).truncate 16 = _
    rw [← hq, hskip, hq]
    exact congrArg _ hcs
  · change s.mem.load (s.top + 4#32 + 4#32 + 4#32 + 4#32 + 4#32 + 4#32 + 4#32 + 4#32 + 4#32 +
      4#32 + 8#32) = _
    rw [← hq, hskip, hq]
    exact heip
  · change s.mem.load (s.top + 4#32 + 4#32 + 4#32 + 4#32 + 4#32 + 4#32 + 4#32 + 4#32 + 4#32 +
      4#32 + 8#32 + 4#32 + 4#32) = _
    rw [← hq, hskip, hq]
    exact hflags

/-- A frame that is the content of the stack. -/
theorem read_of_holds {m : ByteMem 32} {p edi esi ebp oesp ebx edx ecx eax es ds no err eip cs
    eflags : Word}
    (h : m.Holds p [edi, esi, ebp, oesp, ebx, edx, ecx, eax, es, ds, no, err, eip, cs, eflags]) :
    Trapframe.read m p =
      { tfRegs := ⟨edi, esi, ebp, oesp, ebx, edx, ecx, eax⟩
        tfEs := es.truncate 16
        tfPadding1 := es.extractLsb' 16 16
        tfDs := ds.truncate 16
        tfPadding2 := ds.extractLsb' 16 16
        tfTrapno := no
        tfErr := err
        tfEip := eip
        tfCs := cs.truncate 16
        tfPadding3 := cs.extractLsb' 16 16
        tfEflags := eflags } := by
  simp only [ByteMem.Holds, wordSize_32, BitVec.add_assoc, BitVec.reduceAdd] at h
  obtain ⟨h₀, h₁, h₂, h₃, h₄, h₅, h₆, h₇, h₈, h₉, h₁₀, h₁₁, h₁₂, h₁₃, h₁₄, -⟩ := h
  rw [Trapframe.read, Registers.read, h₀, h₁, h₂, h₃, h₄, h₅, h₆, h₇, h₈, h₉, h₁₀, h₁₁, h₁₂, h₁₃,
    h₁₄]

/-! ### The way in -/

/-- The half that matters of the word that is pushed for a segment register. -/
theorem truncate_segWord (s : Machine32) (g : Seg) (upper : Word) :
    (s.segWord g upper).truncate 16 = s.seg g := by
  ext i hi
  simp [segWord]

/-- The argument and the lower part of the frame when `_alltraps` calls `trap`. -/
theorem run_alltraps (alu : Word → Word → Word) (d : Delivery) (h : s.Stack ws)
    (hlen : ws.length ≤ 6) :
    (run alu (alltraps d) s).top = s.reg .esp - 40#32 ∧
      (run alu (alltraps d) s).mem.Holds (s.reg .esp - 40#32)
        ([s.reg .edi, s.reg .esi, s.reg .ebp, s.reg .esp - 4#32 - 4#32, s.reg .ebx, s.reg .edx,
          s.reg .ecx, s.reg .eax, s.segWord .es d.es, s.segWord .ds d.ds] ++ ws) := by
  obtain ⟨regs, hregs⟩ : ∃ regs, regs = [s.reg .eax, s.reg .ecx, s.reg .edx, s.reg .ebx,
    s.reg .esp - 4#32 - 4#32, s.reg .ebp, s.reg .esi, s.reg .edi] := ⟨_, rfl⟩
  have hregs' : [Reg32.eax, .ecx, .edx, .ebx, .esp, .ebp, .esi, .edi].map
      ((s.pushWord (s.segWord .ds d.ds)).pushWord (s.segWord .es d.es)).reg = regs := by
    rw [hregs]
    rfl
  have hlen' : regs.length = 8 := by
    rw [hregs]
    rfl
  obtain ⟨u, hu⟩ : ∃ u, u = regs.foldl pushWord
    ((s.pushWord (s.segWord .ds d.ds)).pushWord (s.segWord .es d.es)) := ⟨_, rfl⟩
  -- PUSHA follows the two segments, the first register deepest
  have hstack : u.Stack (regs.reverse ++ s.segWord .es d.es :: s.segWord .ds d.ds :: ws) := by
    have hpush := h.pushWords (by decide) (by decide)
      (s.segWord .ds d.ds :: s.segWord .es d.es :: regs) (by simp only [List.length_cons]; omega)
    simp only [List.reverse_cons, List.append_assoc, List.singleton_append] at hpush
    rw [hu]
    exact hpush
  have hesp : u.reg .esp = s.reg .esp - 40#32 := by
    rw [hu, hregs]
    change s.reg .esp - 4#32 - 4#32 - 4#32 - 4#32 - 4#32 - 4#32 - 4#32 - 4#32 - 4#32 - 4#32 = _
    bv_omega
  have hrun : run alu (alltraps d) s = (((u.setReg .eax gdKd).setSeg .ds
      (gdKd.truncate 16)).setSeg .es (gdKd.truncate 16)).pushWord (u.reg .esp) := by
    have hpushed : (s.pushWord (s.segWord .ds d.ds)).segWord .es d.es = s.segWord .es d.es := rfl
    rw [alltraps, run_cons, run_cons, run_cons, exec, exec, exec, hpushed, hregs', ← hu]
    rfl
  have hlen'' : (regs.reverse ++ s.segWord .es d.es :: s.segWord .ds d.ds :: ws).length ≤ 16 := by
    rw [List.length_append, List.length_reverse, List.length_cons, List.length_cons]
    omega
  have hcall := (hstack.setReg (r := .eax) (v := gdKd) (by decide)).pushWord (v := u.reg .esp)
    (by decide) (by decide) (by omega)
  have hframe := hcall.2
  -- the call pushes the address of the frame, which lies right above it
  have hesp' : ((u.setReg .eax gdKd).pushWord (u.reg .esp)).reg .esp + wordSize 32 =
      s.reg .esp - 40#32 := by
    rw [← hesp]
    exact BitVec.sub_add_cancel ..
  rw [sp_reg32, hesp', hregs] at hframe
  rw [hrun]
  exact ⟨hcall.top.trans hesp, hframe⟩

/-- The stack with which the processor continues. -/
theorem stack_deliver : (deliver d g v s).Stack (delivered d v s).reverse := by
  have hlen : (delivered d v s).length ≤ 4 := by
    rw [delivered]
    split <;> simp
  have hnil : s.Stack [] := trivial
  have hpush := hnil.pushWords (by decide) (by decide) (delivered d v s)
    (by rw [List.length_nil]; omega)
  rw [List.append_nil] at hpush
  exact hpush

/-! ### Transparency -/

/-- The state in which `trap` is called after a trap to handler `h` through gate `g`. -/
def called (alu : Word → Word → Word) (d : Delivery) (h : Handler) (g : Gatedesc) (v : Fin 256)
    (s : Machine32) : Machine32 :=
  run alu (h.code ++ alltraps d) (deliver d g v s)

/-- The frame has the vector and the interrupted state. -/
structure Describes (tf : Trapframe) (v : Fin 256) (s : Machine32) : Prop where
  trapno : tf.tfTrapno = BitVec.ofNat 32 v
  eip : tf.tfEip = s.ip
  cs : tf.tfCs = s.seg .cs
  eflags : tf.tfEflags = s.flags
  regs : ∀ r ≠ .esp, tf.tfRegs.get r = s.reg r
  es : tf.tfEs = s.seg .es
  ds : tf.tfDs = s.seg .ds

/-- `trap`, called in state `s`, returns in state `s'` and leaves its argument and the frame
as they were. -/
structure TrapReturns (s s' : Machine32) : Prop where
  esp : s'.reg .esp = s.reg .esp
  arg : s'.top = s.top
  frame : Trapframe.read s'.mem s.top = Trapframe.read s.mem s.top

/-- The interrupted code goes on as if nothing had happened. -/
structure Resumes (s s' : Machine32) : Prop where
  regs : s'.reg = s.reg
  seg : s'.seg = s.seg
  ip : s'.ip = s.ip
  flags : s'.flags = s.flags

/-- A trap by vector `v` is transparent to the code that it interrupts in state `s`. -/
def TrapTransparent (alu : Word → Word → Word) (addr : Handler ↪ Word) (d : Delivery) (v : Fin 256)
    (s : Machine32) : Prop :=
  ∃ h, addr h = (deliver d (idtInit addr v) v s).ip ∧
    Describes (Trapframe.read (called alu d h (idtInit addr v) v s).mem
      (called alu d h (idtInit addr v) v s).top) v s ∧
    ∀ s', TrapReturns (called alu d h (idtInit addr v) v s) s' →
      Resumes s (run alu alltrapsReturn s')

/-- The handler of a gate is on the right side on the error code except for two vectors. -/
theorem code_of_mem_gates : ∀ row ∈ gates, row.1 ≠ 15 → row.1 ≠ 17 →
    row.2.2.1.code = if PushesErr row.1 then traphandler (BitVec.ofNat 32 row.1)
      else traphandlerNoec (BitVec.ofNat 32 row.1) := by
  decide

theorem handler_of_mem_gates : ∀ row ∈ gates, (row.1 = 15 → row.2.2.1 = .handler15) ∧
    (row.1 = 17 → row.2.2.1 = .handler17) := by
  decide

variable {h : Handler} {addr : Handler ↪ Word}

/-- What a handler leaves to `_alltraps`. -/
theorem handler_frame (alu : Word → Word → Word) (d : Delivery) (g : Gatedesc) (s : Machine32)
    (hh : h.code = if PushesErr v then traphandler num else traphandlerNoec num) :
    ∃ err, (run alu h.code (deliver d g v s)).Stack
        [num, err, s.ip, s.segWord .cs d.cs, s.flags] ∧
      (run alu h.code (deliver d g v s)).reg .esp = s.reg .esp - 20#32 ∧
      (∀ r ≠ .esp, (run alu h.code (deliver d g v s)).reg r = s.reg r) ∧
      (run alu h.code (deliver d g v s)).seg .es = s.seg .es ∧
      (run alu h.code (deliver d g v s)).seg .ds = s.seg .ds := by
  have hstack := stack_deliver (d := d) (g := g) (v := v) (s := s)
  have hesp : (deliver d g v s).reg .esp =
      s.reg .esp - BitVec.ofNat 32 (32 / 8 * (delivered d v s).length) := sp_pushWords ..
  have hregs {r : Reg32} (hr : r ≠ .esp) : (deliver d g v s).reg r = s.reg r :=
    reg_pushWords s hr _
  have hseg (k : Seg) (hk : k ≠ .cs) : (deliver d g v s).seg k = s.seg k :=
    Function.update_of_ne hk ..
  have hpush (t : Machine32) {r : Reg32} (num : Word) (hr : r ≠ .esp) :
      (t.pushWord num).reg r = t.reg r := (reg_pushWord ..).trans (if_neg hr)
  -- the processor pushes the error code, or the entry pushes a zero in its place
  by_cases hv : PushesErr v
  · have hdelivered : delivered d v s = [s.flags, s.segWord .cs d.cs, s.ip, d.err] := by
      rw [delivered, if_pos hv]
      rfl
    rw [hdelivered] at hstack hesp
    rw [hh, if_pos hv]
    refine ⟨d.err, hstack.pushWord (by decide) (by decide) (by simp), ?_,
      fun r hr => (hpush _ num hr).trans (hregs hr), hseg .es (by decide), hseg .ds (by decide)⟩
    change (deliver d g v s).reg .esp - 4#32 = _
    rw [hesp]
    change s.reg .esp - 16#32 - 4#32 = _
    bv_omega
  · have hdelivered : delivered d v s = [s.flags, s.segWord .cs d.cs, s.ip] := by
      rw [delivered, if_neg hv]
      rfl
    rw [hdelivered] at hstack hesp
    rw [hh, if_neg hv]
    refine ⟨0#32, (hstack.pushWord (by decide) (by decide) (by simp)).pushWord (by decide)
      (by decide) (by simp), ?_,
      fun r hr => (hpush _ num hr).trans ((hpush _ 0#32 hr).trans (hregs hr)),
      hseg .es (by decide), hseg .ds (by decide)⟩
    change (deliver d g v s).reg .esp - 4#32 - 4#32 = _
    rw [hesp]
    change s.reg .esp - 12#32 - 4#32 - 4#32 = _
    bv_omega

/-- The stack pointer after a trap whose frame is left alone. -/
theorem esp_return (alu : Word → Word → Word) (d : Delivery) (h : Handler) (g : Gatedesc)
    (v : Fin 256) (s : Machine32) :
    (run alu alltrapsReturn (called alu d h g v s)).reg .esp =
      (run alu h.code (deliver d g v s)).reg .esp + 20#32 := by
  have hnil : (run alu h.code (deliver d g v s)).Stack [] := trivial
  have htop := (run_alltraps alu d hnil (Nat.zero_le _)).1
  rw [(run_alltrapsReturn alu rfl).2.1, called, run_append, htop]
  bv_omega

/-- A trap is transparent only if its frame has five words above those of `_alltraps`. -/
theorem TrapTransparent.esp_eq (ht : TrapTransparent alu addr d v s) :
    ∃ h, addr h = (idtInit addr v).off ∧
      (run alu h.code (deliver d (idtInit addr v) v s)).reg .esp = s.reg .esp - 20#32 := by
  obtain ⟨h, haddr, -, hreturn⟩ := ht
  have hregs := (hreturn _ ⟨rfl, rfl, rfl⟩).regs
  have hesp := esp_return alu d h (idtInit addr v) v s
  rw [hregs] at hesp
  exact ⟨h, haddr, by rw [hesp, BitVec.add_sub_cancel]⟩

theorem trapTransparent_of_code {istrap : Bool} {dpl : BitVec 2}
    (hgate : idtInit addr v = setgate istrap gdKt (addr h) dpl)
    (hh : h.code = if PushesErr v then traphandler (BitVec.ofNat 32 v)
      else traphandlerNoec (BitVec.ofNat 32 v)) : TrapTransparent alu addr d v s := by
  obtain ⟨err, hstack, hesp, hregs, hes, hds⟩ :=
    handler_frame alu d (idtInit addr v) s hh
  obtain ⟨t, ht⟩ : ∃ t, t = run alu h.code (deliver d (idtInit addr v) v s) := ⟨_, rfl⟩
  have hcalled : called alu d h (idtInit addr v) v s = run alu (alltraps d) t := by
    rw [called, run_append, ht]
  rw [← ht] at hstack hesp hregs hes hds
  obtain ⟨htop, hframe⟩ := run_alltraps alu d hstack (by simp)
  -- the words on the stack read as the fields of the frame
  have hread := read_of_holds hframe
  refine ⟨h, ?_, ?_, fun s' hs' => ?_⟩
  · change addr h = (idtInit addr v).off
    rw [hgate, off_setgate]
  · rw [hcalled, htop, hread]
    refine ⟨rfl, rfl, truncate_segWord .., rfl, fun r hr => ?_, ?_, ?_⟩
    · rw [← hregs r hr]
      cases r with
      | esp => exact absurd rfl hr
      | _ => rfl
    · exact (truncate_segWord ..).trans hes
    · exact (truncate_segWord ..).trans hds
  · rw [hcalled] at hs'
    -- the trap returns with the frame it was given
    have htop' : s'.top = t.reg .esp - 40#32 := hs'.arg.trans htop
    have hframe' : Trapframe.read s'.mem s'.top = Trapframe.read (run alu (alltraps d) t).mem
        (t.reg .esp - 40#32) := by
      rw [hs'.arg, hs'.frame, htop]
    obtain ⟨hregs', hesp', hes', hds', hcs', hip', hflags'⟩ :=
      run_alltrapsReturn alu (hframe'.trans hread)
    refine ⟨funext fun r => ?_, funext fun g => ?_, hip', hflags'⟩
    · by_cases hr : r = .esp
      · rw [hr, hesp', htop', hesp]
        bv_omega
      · rw [hregs' r hr, ← hregs r hr]
        cases r with
        | esp => exact absurd rfl hr
        | _ => rfl
    · cases g with
      | cs => exact hcs'.trans (truncate_segWord ..)
      | ds => exact (hds'.trans (truncate_segWord ..)).trans hds
      | es => exact (hes'.trans (truncate_segWord ..)).trans hes

/-- The handler of vector 15 leaves no room for an error code. -/
theorem esp_handler15 : (run alu Handler.handler15.code (deliver d g 15 s)).reg .esp =
    s.reg .esp - 16#32 := by
  change s.reg .esp - 4#32 - 4#32 - 4#32 - 4#32 = _
  bv_omega

/-- The handler of vector 17 leaves room for two error codes. -/
theorem esp_handler17 : (run alu Handler.handler17.code (deliver d g 17 s)).reg .esp =
    s.reg .esp - 24#32 := by
  change s.reg .esp - 4#32 - 4#32 - 4#32 - 4#32 - 4#32 - 4#32 = _
  bv_omega

theorem handler_eq {istrap : Bool} {dpl : BitVec 2} {h' : Handler}
    (hgate : idtInit addr v = setgate istrap gdKt (addr h) dpl)
    (haddr : addr h' = (idtInit addr v).off) : h' = h := by
  rw [hgate, off_setgate] at haddr
  exact addr.injective haddr

theorem not_trapTransparent_of_handler15 (istrap : Bool) (dpl : BitVec 2)
    (hgate : idtInit addr 15 = setgate istrap gdKt (addr .handler15) dpl) :
    ¬ TrapTransparent alu addr d 15 s := by
  intro ht
  obtain ⟨h, haddr, hesp⟩ := ht.esp_eq
  rw [handler_eq hgate haddr, esp_handler15] at hesp
  bv_omega

theorem not_trapTransparent_of_handler17 (istrap : Bool) (dpl : BitVec 2)
    (hgate : idtInit addr 17 = setgate istrap gdKt (addr .handler17) dpl) :
    ¬ TrapTransparent alu addr d 17 s := by
  intro ht
  obtain ⟨h, haddr, hesp⟩ := ht.esp_eq
  rw [handler_eq hgate haddr, esp_handler17] at hesp
  bv_omega

/-- **Traps are transparent** to the interrupted code, except those by vectors 15 and 17. -/
theorem trapTransparent_iff (alu : Word → Word → Word) (addr : Handler ↪ Word) (d : Delivery)
    (v : Fin 256) (hgate : (idtInit addr v).gdP = 1#1) (s : Machine32) :
    TrapTransparent alu addr d v s ↔ v ≠ 15 ∧ v ≠ 17 := by
  obtain ⟨istrap, h, dpl, hmem, heq⟩ := exists_gate hgate
  obtain ⟨h₁₅, h₁₇⟩ := handler_of_mem_gates _ hmem
  constructor
  · intro ht
    refine ⟨fun hv => ?_, fun hv => ?_⟩
    · subst hv
      have hh : h = .handler15 := h₁₅ rfl
      exact not_trapTransparent_of_handler15 istrap dpl (hh ▸ heq) ht
    · subst hv
      have hh : h = .handler17 := h₁₇ rfl
      exact not_trapTransparent_of_handler17 istrap dpl (hh ▸ heq) ht
  · rintro ⟨hne₁₅, hne₁₇⟩
    exact trapTransparent_of_code heq (code_of_mem_gates _ hmem hne₁₅ hne₁₇)

/-- Handlers at multiples of 16 from `0xF0103000` on. -/
def handlerAddr : Handler ↪ Word where
  toFun h := 0xF0103000#32 + BitVec.ofNat 32 (16 * h.ctorIdx)
  inj' a b hab := by
    cases a <;> cases b <;> first | rfl | exact absurd hab (by decide)

/-- Kernel code interrupted at `0xF0100040`. -/
def interrupted : Machine32 where
  reg r := if r = .esp then 0xF010FF00#32 else 0#32
  mem _ := 0#8
  cr2 := 0#32
  seg g := if g = .cs then gdKt else 0x10#16
  flags := 2#32
  ip := 0xF0100040#32
  vmcs _ := 0#32

/-- A page fault. -/
theorem trapTransparent_iff_interrupted :
    TrapTransparent (fun f _ => f) handlerAddr ⟨0#32, 2#32, 0#32, 0#32, 0#32⟩ 14 interrupted ↔
      (14 : Fin 256) ≠ 15 ∧ (14 : Fin 256) ≠ 17 :=
  trapTransparent_iff _ _ _ 14 (by rfl) _

theorem not_trapTransparent_interrupted :
    ((idtInit handlerAddr 15).gdP = 1#1 ∧
      ¬ TrapTransparent (fun f _ => f) handlerAddr ⟨0#32, 2#32, 0#32, 0#32, 0#32⟩ 15 interrupted) ∧
    (idtInit handlerAddr 17).gdP = 1#1 ∧
      ¬ TrapTransparent (fun f _ => f) handlerAddr ⟨0#32, 2#32, 0#32, 0#32, 0#32⟩ 17 interrupted :=
  ⟨⟨rfl, not_trapTransparent_of_handler15 true 0 rfl⟩, rfl,
    not_trapTransparent_of_handler17 true 0 rfl⟩

end JosVmx.Kern
