import JosVmx.Kern.Cprintf
import JosVmx.Kern.FormatLine
import JosVmx.Kern.TrapEntry
import JosVmx.Lib.Lines

/-!
# Printing a trap frame

`print_trapframe` of `kern/trap.c` and what it calls. It consists of calls of `cprintf`, which are
given here as a list.

Every line has a label and one number, in a field that is wide enough for it, and the line of the
vector has the name of the trap behind it. So the lines can be read back.

## Main results

* `Kern.trapframe_dump` — what is typed on the terminal, and that it determines the frame
-/

namespace JosVmx.Kern

open Lib

/-! ### The functions of the source -/

/-- `excnames`. -/
def excnames : List (List (BitVec 8)) :=
  [bytes "Divide error", bytes "Debug", bytes "Non-Maskable Interrupt", bytes "Breakpoint",
    bytes "Overflow", bytes "BOUND Range Exceeded", bytes "Invalid Opcode",
    bytes "Device Not Available", bytes "Double Falt", bytes "Coprocessor Segment Overrun",
    bytes "Invalid TSS", bytes "Segment Not Present", bytes "Stack Fault",
    bytes "General Protection", bytes "Page Fault", bytes "(unknown trap)",
    bytes "x87 FPU Floating-Point Error", bytes "Alignment Check", bytes "Machine-Check",
    bytes "SIMD Floating-Point Exception"]

/-- `trapname`. The comparison with a `sizeof` is one of unsigned numbers. -/
def trapname (trapno : Word) : List (BitVec 8) :=
  if h : trapno.toNat < excnames.length then excnames.get ⟨trapno.toNat, h⟩
  else if trapno = tSyscall then bytes "System call"
  else bytes "(unknown trap)"

/-- The calls in `print_regs`. -/
def printRegs (regs : Registers) : List Call :=
  [⟨bytes "  edi  0x%08x\n", [.word regs.regEdi]⟩,
    ⟨bytes "  esi  0x%08x\n", [.word regs.regEsi]⟩,
    ⟨bytes "  ebp  0x%08x\n", [.word regs.regEbp]⟩,
    ⟨bytes "  oesp 0x%08x\n", [.word regs.regOesp]⟩,
    ⟨bytes "  ebx  0x%08x\n", [.word regs.regEbx]⟩,
    ⟨bytes "  edx  0x%08x\n", [.word regs.regEdx]⟩,
    ⟨bytes "  ecx  0x%08x\n", [.word regs.regEcx]⟩,
    ⟨bytes "  eax  0x%08x\n", [.word regs.regEax]⟩]

/-- The calls in `print_trapframe`, with the fields `tf_esp` and `tf_ss`, which it prints whether or
not the processor has pushed them. -/
def printTrapframe (p : Word) (tf : Trapframe) (tfEsp : Word) (tfSs : BitVec 16) : List Call :=
  ⟨bytes "TRAP frame at %p\n", [.word p]⟩ :: printRegs tf.tfRegs ++
  [⟨bytes "  es   0x----%04x\n", [.word (tf.tfEs.setWidth 32)]⟩,
    ⟨bytes "  ds   0x----%04x\n", [.word (tf.tfDs.setWidth 32)]⟩,
    ⟨bytes "  trap 0x%08x %s\n",
      [.word tf.tfTrapno, .str (some (trapname tf.tfTrapno ++ [0#8]))]⟩,
    ⟨bytes "  err  0x%08x\n", [.word tf.tfErr]⟩,
    ⟨bytes "  eip  0x%08x\n", [.word tf.tfEip]⟩,
    ⟨bytes "  cs   0x----%04x\n", [.word (tf.tfCs.setWidth 32)]⟩,
    ⟨bytes "  flag 0x%08x\n", [.word tf.tfEflags]⟩,
    ⟨bytes "  esp  0x%08x\n", [.word tfEsp]⟩,
    ⟨bytes "  ss   0x----%04x\n", [.word (tfSs.setWidth 32)]⟩]

/-! ### The lines -/

/-- A line feed. -/
def newline : Word := ofUchar (chr '\n')

/-- The lines for registers. -/
def regLines (regs : Registers) : List (List Word) :=
  [lit "  edi  0x" ++ hexField 8 regs.regEdi.toNat, lit "  esi  0x" ++ hexField 8 regs.regEsi.toNat,
    lit "  ebp  0x" ++ hexField 8 regs.regEbp.toNat,
    lit "  oesp 0x" ++ hexField 8 regs.regOesp.toNat,
    lit "  ebx  0x" ++ hexField 8 regs.regEbx.toNat,
    lit "  edx  0x" ++ hexField 8 regs.regEdx.toNat,
    lit "  ecx  0x" ++ hexField 8 regs.regEcx.toNat,
    lit "  eax  0x" ++ hexField 8 regs.regEax.toNat]

/-- The lines for a frame. -/
def trapLines (p : Word) (tf : Trapframe) (tfEsp : Word) (tfSs : BitVec 16) : List (List Word) :=
  (lit "TRAP frame at " ++ ptrText p) :: regLines tf.tfRegs ++
  [lit "  es   0x----" ++ hexField 4 tf.tfEs.toNat, lit "  ds   0x----" ++ hexField 4 tf.tfDs.toNat,
    lit "  trap 0x" ++ (hexField 8 tf.tfTrapno.toNat ++
      (lit " " ++ (trapname tf.tfTrapno).map ofChar)),
    lit "  err  0x" ++ hexField 8 tf.tfErr.toNat, lit "  eip  0x" ++ hexField 8 tf.tfEip.toNat,
    lit "  cs   0x----" ++ hexField 4 tf.tfCs.toNat,
    lit "  flag 0x" ++ hexField 8 tf.tfEflags.toNat, lit "  esp  0x" ++ hexField 8 tfEsp.toNat,
    lit "  ss   0x----" ++ hexField 4 tfSs.toNat]

/-- What is printed for a frame. -/
def trapDump (p : Word) (tf : Trapframe) (tfEsp : Word) (tfSs : BitVec 16) : List Word :=
  unlines newline (trapLines p tf tfEsp tfSs)

/-- The format of a line with a label and a number. -/
def hexFormat (label : String) (w : ℕ) : List (BitVec 8) :=
  bytes label ++ ([chr '%', chr '0', digitByte w, chr 'x'] ++ bytes "\n")

/-- A label and a number. -/
theorem call_hexLine {fmt : List (BitVec 8)} {label : String} {w : ℕ}
    (hfmt : fmt = hexFormat label w) (hl : Plain (bytes label)) (hw : w < 10) {v : Word} {n : ℕ}
    (hn : v.toNat = n) :
    Call.Prints ⟨fmt, [.word v]⟩ (lit label ++ hexField w n ++ [newline]) := by
  have hend : Prints (bytes "\n") [] [newline] := prints_lit "\n" (by decide)
  have hdigit : ∀ d < 10, 0#8 ∉ [chr '%', chr '0', digitByte d, chr 'x'] ++ bytes "\n" := by decide
  have hnumber := (prints_hex hw v).append hend (by decide)
  have hline := (prints_lit label hl).append hnumber (hdigit w hw)
  rw [List.nil_append, List.append_nil, ← List.append_assoc (lit label), hn] at hline
  rw [hfmt]
  refine ⟨?_, hline.isText⟩
  rw [hexFormat, List.mem_append, not_or]
  exact ⟨hl.2, hdigit w hw⟩

theorem toNat_half (v : BitVec 16) : (v.setWidth 32).toNat = v.toNat :=
  BitVec.toNat_setWidth_of_le (by decide)

theorem trapname_mem (trapno : Word) :
    trapname trapno ∈ excnames ++ [bytes "System call", bytes "(unknown trap)"] := by
  rw [trapname]
  split_ifs
  · exact List.mem_append_left _ (List.get_mem ..)
  · exact List.mem_append_right _ List.mem_cons_self
  · exact List.mem_append_right _ (List.mem_cons_of_mem _ List.mem_cons_self)

/-- The names are strings on one line. -/
theorem trapname_ok (trapno : Word) : 0#8 ∉ trapname trapno ∧
    (trapname trapno).length < 2 ^ 31 - 1 ∧ newline ∉ (trapname trapno).map ofChar := by
  have hall : ∀ name ∈ excnames ++ [bytes "System call", bytes "(unknown trap)"],
      0#8 ∉ name ∧ name.length < 100 ∧ newline ∉ name.map ofChar := by decide +kernel
  obtain ⟨hnul, hlen, hline⟩ := hall _ (trapname_mem trapno)
  exact ⟨hnul, hlen.trans (by decide), hline⟩

/-- The call for the vector. -/
theorem call_trap (trapno : Word) :
    Call.Prints ⟨bytes "  trap 0x%08x %s\n", [.word trapno, .str (some (trapname trapno ++ [0#8]))]⟩
      (lit "  trap 0x" ++ (hexField 8 trapno.toNat ++
        (lit " " ++ (trapname trapno).map ofChar)) ++ [newline]) := by
  obtain ⟨hnul, hlen, -⟩ := trapname_ok trapno
  have hend : Prints (bytes "\n") [] [newline] := prints_lit "\n" (by decide)
  have hname := (prints_str hnul hlen).append hend (by decide)
  have hblank := (prints_lit " " (by decide)).append hname (by decide)
  have hnumber := (prints_hex (w := 8) (by decide) trapno).append hblank (by decide)
  have hline := (prints_lit "  trap 0x" (by decide)).append hnumber (by decide)
  have hfmt : bytes "  trap 0x%08x %s\n" = bytes "  trap 0x" ++
      ([chr '%', chr '0', digitByte 8, chr 'x'] ++ (bytes " " ++ (bytes "%s" ++ bytes "\n"))) := by
    decide
  have hnone : 0#8 ∉ bytes "  trap 0x%08x %s\n" := by decide
  refine ⟨hnone, ?_⟩
  simp only [List.nil_append, List.append_nil, List.append_assoc] at hline ⊢
  rw [hfmt]
  exact hline.isText

/-- The call for the address. -/
theorem call_frame (p : Word) :
    Call.Prints ⟨bytes "TRAP frame at %p\n", [.word p]⟩
      (lit "TRAP frame at " ++ ptrText p ++ [newline]) := by
  have hend : Prints (bytes "\n") [] [newline] := prints_lit "\n" (by decide)
  have hptr := (prints_ptr p).append hend (by decide)
  have hline := (prints_lit "TRAP frame at " (by decide)).append hptr (by decide)
  have hfmt : bytes "TRAP frame at %p\n" =
      bytes "TRAP frame at " ++ (bytes "%p" ++ bytes "\n") := by decide
  have hnone : 0#8 ∉ bytes "TRAP frame at %p\n" := by decide
  refine ⟨hnone, ?_⟩
  rw [List.append_assoc, hfmt]
  exact hline.isText

/-- Every call in `print_regs` prints a line. -/
theorem printRegs_prints (regs : Registers) :
    List.Forall₂ Call.Prints (printRegs regs) ((regLines regs).map (· ++ [newline])) := by
  have hline {fmt : List (BitVec 8)} (label : String) (hfmt : fmt = hexFormat label 8)
      (hl : Plain (bytes label)) (v : Word) :
      Call.Prints ⟨fmt, [.word v]⟩ (lit label ++ hexField 8 v.toNat ++ [newline]) :=
    call_hexLine hfmt hl (by decide) rfl
  exact .cons (hline "  edi  0x" (by decide) (by decide) _) <|
    .cons (hline "  esi  0x" (by decide) (by decide) _) <|
    .cons (hline "  ebp  0x" (by decide) (by decide) _) <|
    .cons (hline "  oesp 0x" (by decide) (by decide) _) <|
    .cons (hline "  ebx  0x" (by decide) (by decide) _) <|
    .cons (hline "  edx  0x" (by decide) (by decide) _) <|
    .cons (hline "  ecx  0x" (by decide) (by decide) _) <|
    .cons (hline "  eax  0x" (by decide) (by decide) _) .nil

/-- Every call in `print_trapframe` prints a line. -/
theorem printTrapframe_prints (p : Word) (tf : Trapframe) (tfEsp : Word) (tfSs : BitVec 16) :
    List.Forall₂ Call.Prints (printTrapframe p tf tfEsp tfSs)
      ((trapLines p tf tfEsp tfSs).map (· ++ [newline])) := by
  have hword {fmt : List (BitVec 8)} (label : String) (hfmt : fmt = hexFormat label 8)
      (hl : Plain (bytes label)) (v : Word) :
      Call.Prints ⟨fmt, [.word v]⟩ (lit label ++ hexField 8 v.toNat ++ [newline]) :=
    call_hexLine hfmt hl (by decide) rfl
  have hhalf {fmt : List (BitVec 8)} (label : String) (hfmt : fmt = hexFormat label 4)
      (hl : Plain (bytes label)) (v : BitVec 16) :
      Call.Prints ⟨fmt, [.word (v.setWidth 32)]⟩ (lit label ++ hexField 4 v.toNat ++ [newline]) :=
    call_hexLine hfmt hl (by decide) (toNat_half v)
  rw [trapLines, List.map_append, List.map_cons]
  refine List.rel_append (.cons (call_frame p) (printRegs_prints tf.tfRegs)) ?_
  exact .cons (hhalf "  es   0x----" (by decide) (by decide) _) <|
    .cons (hhalf "  ds   0x----" (by decide) (by decide) _) <|
    .cons (call_trap _) <|
    .cons (hword "  err  0x" (by decide) (by decide) _) <|
    .cons (hword "  eip  0x" (by decide) (by decide) _) <|
    .cons (hhalf "  cs   0x----" (by decide) (by decide) _) <|
    .cons (hword "  flag 0x" (by decide) (by decide) _) <|
    .cons (hword "  esp  0x" (by decide) (by decide) _) <|
    .cons (hhalf "  ss   0x----" (by decide) (by decide) _) .nil

/-! ### Reading the lines -/

theorem newline_notMem_hexField (w v : ℕ) : newline ∉ hexField w v := by
  have hall : ∀ d < 16, digitChar d ≠ newline := by decide
  rw [hexField_eq]
  intro h
  obtain ⟨d, hd, heq⟩ := List.mem_map.mp h
  exact hall d (lt_of_mem_zeros_numeral (.inr (.inr rfl)) hd) heq

theorem newline_notMem_ptrText (p : Word) : newline ∉ ptrText p := by
  have hzero : newline ∉ lit "0x" := by decide
  have hdigits := newline_notMem_hexField 0 p.toNat
  rw [hexField_zero] at hdigits
  rw [ptrText, List.mem_append]
  exact not_or.mpr ⟨hzero, hdigits⟩

theorem newline_notMem_line {label : String} (hl : newline ∉ lit label) (w v : ℕ) :
    newline ∉ lit label ++ hexField w v := by
  rw [List.mem_append]
  exact not_or.mpr ⟨hl, newline_notMem_hexField w v⟩

theorem newline_notMem_regLines (regs : Registers) : ∀ l ∈ regLines regs, newline ∉ l := by
  have hlabels : ∀ label ∈ ["  edi  0x", "  esi  0x", "  ebp  0x", "  oesp 0x", "  ebx  0x",
      "  edx  0x", "  ecx  0x", "  eax  0x"], newline ∉ lit label := by decide +kernel
  simp only [List.forall_mem_cons] at hlabels
  obtain ⟨h₁, h₂, h₃, h₄, h₅, h₆, h₇, h₈, -⟩ := hlabels
  simp only [regLines, List.forall_mem_cons]
  exact ⟨newline_notMem_line h₁ _ _, newline_notMem_line h₂ _ _, newline_notMem_line h₃ _ _,
    newline_notMem_line h₄ _ _, newline_notMem_line h₅ _ _, newline_notMem_line h₆ _ _,
    newline_notMem_line h₇ _ _, newline_notMem_line h₈ _ _,
    fun l hl => absurd hl List.not_mem_nil⟩

theorem newline_notMem_trapLines (p : Word) (tf : Trapframe) (tfEsp : Word) (tfSs : BitVec 16) :
    ∀ l ∈ trapLines p tf tfEsp tfSs, newline ∉ l := by
  have hlabels : ∀ label ∈ ["TRAP frame at ", "  es   0x----", "  ds   0x----", "  trap 0x", " ",
      "  err  0x", "  eip  0x", "  cs   0x----", "  flag 0x", "  esp  0x", "  ss   0x----"],
      newline ∉ lit label := by decide +kernel
  simp only [List.forall_mem_cons] at hlabels
  obtain ⟨h₀, h₁, h₂, h₃, hblank, h₄, h₅, h₆, h₇, h₈, h₉, -⟩ := hlabels
  have htrap : newline ∉ lit "  trap 0x" ++ (hexField 8 tf.tfTrapno.toNat ++
      (lit " " ++ (trapname tf.tfTrapno).map ofChar)) := by
    simp only [List.mem_append, not_or]
    exact ⟨h₃, newline_notMem_hexField _ _, hblank, (trapname_ok tf.tfTrapno).2.2⟩
  have hframe : newline ∉ lit "TRAP frame at " ++ ptrText p := by
    rw [List.mem_append]
    exact not_or.mpr ⟨h₀, newline_notMem_ptrText p⟩
  rw [trapLines, List.forall_mem_append, List.forall_mem_cons]
  refine ⟨⟨hframe, newline_notMem_regLines tf.tfRegs⟩, ?_⟩
  simp only [List.forall_mem_cons]
  exact ⟨newline_notMem_line h₁ _ _, newline_notMem_line h₂ _ _, htrap,
    newline_notMem_line h₄ _ _, newline_notMem_line h₅ _ _, newline_notMem_line h₆ _ _,
    newline_notMem_line h₇ _ _, newline_notMem_line h₈ _ _, newline_notMem_line h₉ _ _,
    fun l hl => absurd hl List.not_mem_nil⟩

/-- A line determines its number. -/
theorem hexLine_inj {label : List Word} {w n : ℕ} {v v' : BitVec n}
    (h : label ++ hexField w v.toNat = label ++ hexField w v'.toNat) : v = v' :=
  BitVec.eq_of_toNat_eq (hexField_inj (List.append_cancel_left h))

theorem regLines_inj {regs regs' : Registers} (h : regLines regs = regLines regs') :
    regs = regs' := by
  simp only [regLines, List.cons.injEq] at h
  obtain ⟨hedi, hesi, hebp, hoesp, hebx, hedx, hecx, heax, -⟩ := h
  cases regs
  cases regs'
  rw [Registers.mk.injEq]
  exact ⟨hexLine_inj hedi, hexLine_inj hesi, hexLine_inj hebp, hexLine_inj hoesp, hexLine_inj hebx,
    hexLine_inj hedx, hexLine_inj hecx, hexLine_inj heax⟩

/-- Two frames agree in all that is printed: in everything but the padding. -/
structure SameFrame (tf tf' : Trapframe) : Prop where
  regs : tf.tfRegs = tf'.tfRegs
  es : tf.tfEs = tf'.tfEs
  ds : tf.tfDs = tf'.tfDs
  trapno : tf.tfTrapno = tf'.tfTrapno
  err : tf.tfErr = tf'.tfErr
  eip : tf.tfEip = tf'.tfEip
  cs : tf.tfCs = tf'.tfCs
  eflags : tf.tfEflags = tf'.tfEflags

theorem ptrText_inj {p p' : Word} (h : ptrText p = ptrText p') : p = p' :=
  BitVec.eq_of_toNat_eq (hexText_inj (List.append_cancel_left h))

variable {p p' tfEsp tfEsp' : Word} {tf tf' : Trapframe} {tfSs tfSs' : BitVec 16}

/-- What is printed can be read back. -/
theorem trapDump_inj (h : trapDump p tf tfEsp tfSs = trapDump p' tf' tfEsp' tfSs') :
    p = p' ∧ SameFrame tf tf' ∧ tfEsp = tfEsp' ∧ tfSs = tfSs' := by
  have hlines := unlines_inj (newline_notMem_trapLines p tf tfEsp tfSs)
    (newline_notMem_trapLines p' tf' tfEsp' tfSs') h
  have hlen : ((lit "TRAP frame at " ++ ptrText p) :: regLines tf.tfRegs).length =
      ((lit "TRAP frame at " ++ ptrText p') :: regLines tf'.tfRegs).length := rfl
  obtain ⟨hfirst, hrest⟩ := List.append_inj hlines hlen
  obtain ⟨hframe, hregs⟩ := List.cons.inj hfirst
  simp only [List.cons.injEq] at hrest
  obtain ⟨hes, hds, htrap, herr, heip, hcs, hflags, hesp, hss, -⟩ := hrest
  -- the name stands behind a field of eight digits
  have hfield (v : Word) : (hexField 8 v.toNat).length = 8 := length_hexField (by decide) v.isLt
  have htrapno := List.append_inj (List.append_cancel_left htrap) ((hfield _).trans (hfield _).symm)
  exact ⟨ptrText_inj (List.append_cancel_left hframe),
    ⟨regLines_inj hregs, hexLine_inj hes, hexLine_inj hds,
      BitVec.eq_of_toNat_eq (hexField_inj htrapno.1), hexLine_inj herr, hexLine_inj heip,
      hexLine_inj hcs, hexLine_inj hflags⟩,
    hexLine_inj hesp, hexLine_inj hss⟩

theorem flatten_map_append (lines : List (List Word)) :
    (lines.map (· ++ [newline])).flatten = unlines newline lines := by
  rw [unlines, List.flatMap_def]

/-- **A frame is shown as it is.** On every screen with its cursor on it the function types the
lines of the frame, whatever it contains, and frames for which the same is typed are the same. -/
theorem trapframe_dump (s : Screen) (hpos : s.crtPos.toNat < crtSize) (p : Word) (tf : Trapframe)
    (tfEsp : Word) (tfSs : BitVec 16) :
    (∃ s', cprintfs (printTrapframe p tf tfEsp tfSs) s = .ok s' ∧
      Shown s s' ((trapDump p tf tfEsp tfSs).foldl (fun p c => typeChar c p) s.paper)) ∧
    ∀ p' tf' tfEsp' tfSs', trapDump p tf tfEsp tfSs = trapDump p' tf' tfEsp' tfSs' →
      p = p' ∧ SameFrame tf tf' ∧ tfEsp = tfEsp' ∧ tfSs = tfSs' := by
  refine ⟨?_, fun _ _ _ _ => trapDump_inj⟩
  have hshown := (Screen.shown_paper hpos).cprintfs (printTrapframe_prints p tf tfEsp tfSs)
  rw [flatten_map_append] at hshown
  exact hshown

/-- The frame of a breakpoint in the kernel. -/
def breakpointFrame : Trapframe where
  tfRegs := ⟨1#32, 2#32, 0xF010FFB8#32, 0xF010FFA0#32, 5#32, 6#32, 7#32, 8#32⟩
  tfEs := 0x10#16
  tfPadding1 := 0#16
  tfDs := 0x10#16
  tfPadding2 := 0#16
  tfTrapno := 3#32
  tfErr := 0#32
  tfEip := 0xF0100080#32
  tfCs := 0x08#16
  tfPadding3 := 0#16
  tfEflags := 2#32

theorem trapframe_dump_breakpoint :
    (∃ s', cprintfs (printTrapframe 0xF010FF80#32 breakpointFrame 0#32 0#16)
        ⟨fun _ => blankCell, 1999#16, 0#8, 0#8⟩ = .ok s' ∧
      Shown ⟨fun _ => blankCell, 1999#16, 0#8, 0#8⟩ s'
        ((trapDump 0xF010FF80#32 breakpointFrame 0#32 0#16).foldl (fun p c => typeChar c p)
          (Screen.paper ⟨fun _ => blankCell, 1999#16, 0#8, 0#8⟩))) ∧
    ∀ p' tf' tfEsp' tfSs',
      trapDump 0xF010FF80#32 breakpointFrame 0#32 0#16 = trapDump p' tf' tfEsp' tfSs' →
      0xF010FF80#32 = p' ∧ SameFrame breakpointFrame tf' ∧ 0#32 = tfEsp' ∧ 0#16 = tfSs' :=
  trapframe_dump ⟨fun _ => blankCell, 1999#16, 0#8, 0#8⟩ (by decide) 0xF010FF80#32 breakpointFrame
    0#32 0#16

end JosVmx.Kern
