import JosVmx.Kern.StabSearch

/-!
# Where an instruction comes from

`debuginfo_eip` of `kern/kdebug.c`: three searches of the debug tables, for the source file of
an address, for the function in that file and for the line in that function, then a scan
back for the name of the file and one forward that counts the arguments.

The region that a search returns is where the next one looks. A search can return a region
that starts right before the one it was given, so a region can start before the table.

## Main definitions

* `Kern.debuginfoEip` — the function of the source
* `Misread` — the tables and addresses for which an entry before the table is read

## Main results

* `Kern.debuginfoEip_iff` — the function stays in the tables unless `Misread` holds
-/

namespace JosVmx.Kern

open Lib

/-! ### The functions of the source -/

/-- `N_FUN`. -/
def nFun : ℤ := 0x24

/-- `N_SLINE`. -/
def nSline : ℤ := 0x44

/-- `N_SO`. -/
def nSo : ℤ := 0x64

/-- `N_SOL`. -/
def nSol : ℤ := 0x84

/-- `N_PSYM`. -/
def nPsym : ℤ := 0xA0

/-- The tables between `__STAB_BEGIN__` and `__STAB_END__` and between `__STABSTR_BEGIN__` and
`__STABSTR_END__`. -/
structure DebugTables where
  stabs : List Stab
  stabstr : List (BitVec 8)

/-- A string of the kernel. -/
inductive CString
  /-- `"<unknown>"` -/
  | unknown
  /-- what starts at `stabstr + i` -/
  | table (i : ℕ)
  deriving DecidableEq, Repr

/-- The bytes from the start of a string on. -/
def CString.bytes (stabstr : List (BitVec 8)) : CString → List (BitVec 8)
  | unknown => [0x3C#8, 0x75#8, 0x6E#8, 0x6B#8, 0x6E#8, 0x6F#8, 0x77#8, 0x6E#8, 0x3E#8, 0#8]
  | table i => stabstr.drop i

/-- `struct Eipdebuginfo`. -/
structure Eipdebuginfo where
  eipFile : CString
  eipLine : ℤ
  eipFnName : CString
  eipFnNamelen : ℤ
  eipFnAddr : Word
  eipFnNarg : ℤ
  deriving DecidableEq, Repr

/-- `strfind`, as the distance from the start of the string. -/
def strfind : List (BitVec 8) → BitVec 8 → Except DebugFault ℕ
  | [], _ => .error (.string 0)
  | b :: s, c => if b = 0#8 ∨ b = c then .ok 0 else (strfind s c).map (· + 1)

/-- What `*info` is initialized to. -/
def Eipdebuginfo.init (addr : Word) : Eipdebuginfo := ⟨.unknown, 0, .unknown, 9, addr, 0⟩

/-- The string of an entry, if it starts in the string table. -/
def stabName (t : DebugTables) (e : Stab) (default : CString) : CString :=
  if e.nStrx.toNat < t.stabstr.length then .table e.nStrx.toNat else default

/-- The branch on `lfun <= rfun`, with the new values of `addr`, `lline` and `rline`. -/
def functionInfo (t : DebugTables) (info : Eipdebuginfo) (lfile rfile lfun rfun : ℤ)
    (addr : Word) : Except DebugFault (Eipdebuginfo × Word × ℤ × ℤ) :=
  if lfun ≤ rfun then do
    let e ← stabTable t.stabs lfun
    let info := { info with eipFnName := stabName t e info.eipFnName, eipFnAddr := e.nValue }
    .ok (info, addr - e.nValue, lfun, rfun)
  else .ok ({ info with eipFnAddr := addr }, addr, lfile, rfile)

/-- Whether the entry names a file. -/
def namesFile (e : Stab) : Bool := hasType nSol e || hasType nSo e && e.nValue != 0#32

/-- The search backwards for the file name. -/
def fileInfo (t : DebugTables) (info : Eipdebuginfo) (lfile lline : ℤ) :
    Except DebugFault Eipdebuginfo := do
  let lline ← scanDown (stabTable t.stabs) namesFile lfile lline
  if lfile ≤ lline then do
    let e ← stabTable t.stabs lline
    .ok { info with eipFile := stabName t e info.eipFile }
  else .ok info

/-- A round of `while (stabs[lfun+info->eip_fn_narg+1].n_type == N_PSYM)`. -/
def argsRound (t : DebugTables) (lfun narg : ℤ) : Except DebugFault (Option ℤ) := do
  let e ← stabTable t.stabs (lfun + narg + 1)
  if hasType nPsym e then .ok (some (narg + 1)) else .ok none

/-- The loop that counts the arguments. -/
def countArgs (t : DebugTables) (info : Eipdebuginfo) (lfun : ℤ) :
    Except DebugFault Eipdebuginfo := do
  let narg ← whileLoop .diverge (argsRound t lfun) ((t.stabs.length - lfun).toNat + 1)
    info.eipFnNarg
  .ok { info with eipFnNarg := narg }

/-- The search for the line, and what follows it. -/
def lineInfo (t : DebugTables) (info : Eipdebuginfo) (lfile lfun lline rline : ℤ) (addr : Word) :
    Except DebugFault (ℤ × Eipdebuginfo) := do
  let (lline, rline) ← stabBinsearch (stabTable t.stabs) lline rline nSline addr
  if lline ≤ rline then do
    let e ← stabTable t.stabs lline
    let info ← fileInfo t { info with eipLine := e.nDesc.toNat } lfile lline
    let info ← countArgs t info lfun
    .ok (0, info)
  else .ok (-1, info)

/-- `debuginfo_eip`, with what it stores in `*info`. -/
def debuginfoEip (t : DebugTables) (addr : Word) : Except DebugFault (ℤ × Eipdebuginfo) := do
  let info := Eipdebuginfo.init addr
  if addr < ulim then .error (.panic "User address")
  else if t.stabstr.getLast? ≠ some 0#8 then .ok (-1, info)
  else do
    let (lfile, rfile) ← stabBinsearch (stabTable t.stabs) 0 (t.stabs.length - 1) nSo addr
    if lfile = 0 then .ok (-1, info)
    else do
      let (lfun, rfun) ← stabBinsearch (stabTable t.stabs) lfile rfile nFun addr
      let (info, addr, lline, rline) ← functionInfo t info lfile rfile lfun rfun addr
      let namelen ← strfind (info.eipFnName.bytes t.stabstr) 0x3A#8
      lineInfo t { info with eipFnNamelen := namelen } lfile lfun lline rline addr

/-! ### Names -/

/-- A string that is not in the string table, or starts in it. -/
def CString.Inside (len : ℕ) : CString → Prop
  | unknown => True
  | table i => i < len

/-- The names in `*info` start in the string table, and that of the function ends in it. -/
structure InfoOk (stabstr : List (BitVec 8)) (info : Eipdebuginfo) : Prop where
  file : info.eipFile.Inside stabstr.length
  fnName : info.eipFnName.Inside stabstr.length
  namelen_nonneg : 0 ≤ info.eipFnNamelen
  namelen_lt : info.eipFnNamelen < (info.eipFnName.bytes stabstr).length

variable {t : DebugTables} {info : Eipdebuginfo} {addr : Word}

/-- A search in a string that ends in NUL ends in the string. -/
theorem strfind_ok {s : List (BitVec 8)} (hs : s.getLast? = some 0#8) (c : BitVec 8) :
    ∃ n, strfind s c = .ok n ∧ n < s.length := by
  induction s with
  | nil => exact absurd hs (by simp)
  | cons b s ih =>
    rw [strfind]
    by_cases hb : b = 0#8 ∨ b = c
    · exact ⟨0, if_pos hb, Nat.succ_pos _⟩
    · have hne : s ≠ [] := by
        rintro rfl
        exact hb (.inl (by simpa using hs))
      rw [List.getLast?_cons_of_ne_nil hne] at hs
      obtain ⟨n, hn, hlt⟩ := ih hs
      exact ⟨n + 1, by rw [if_neg hb, hn]; rfl, Nat.succ_lt_succ hlt⟩

theorem CString.getLast?_bytes {stabstr : List (BitVec 8)} (hstr : stabstr.getLast? = some 0#8)
    {c : CString} (hc : c.Inside stabstr.length) : (c.bytes stabstr).getLast? = some 0#8 := by
  cases c with
  | unknown => rfl
  | table i =>
    rw [CString.bytes, List.getLast?_drop, if_neg (Nat.not_le.mpr hc)]
    exact hstr

theorem inside_stabName {e : Stab} {default : CString} (h : default.Inside t.stabstr.length) :
    (stabName t e default).Inside t.stabstr.length := by
  rw [stabName]
  split
  · assumption
  · exact h

theorem InfoOk.init (stabstr : List (BitVec 8)) (addr : Word) :
    InfoOk stabstr (.init addr) :=
  ⟨trivial, trivial, Int.zero_le_ofNat 9, Int.lt_add_one_of_le (le_refl 9)⟩

/-! ### The parts of the function -/

/-- The branch on `lfun <= rfun` changes the name only to one in the table. -/
theorem functionInfo_ok (addr : Word) (lfile rfile : ℤ) {lfun rfun : ℤ}
    (hinfo : InfoOk t.stabstr info) (hlfun : 0 ≤ lfun) (hrfun : rfun < t.stabs.length) :
    ∃ info', functionInfo t info lfile rfile lfun rfun addr = .ok (if lfun ≤ rfun then
        (info', addr - (entry t.stabs lfun).nValue, lfun, rfun)
      else (info', addr, lfile, rfile)) ∧
      info'.eipFile = info.eipFile ∧ info'.eipFnName.Inside t.stabstr.length ∧
      info'.eipFnNarg = info.eipFnNarg := by
  by_cases hle : lfun ≤ rfun
  · simp only [functionInfo, if_pos hle, stabTable_ok hlfun (Int.lt_of_le_of_lt hle hrfun), ok_bind]
    exact ⟨_, rfl, rfl, inside_stabName hinfo.fnName, rfl⟩
  · simp only [functionInfo, if_neg hle]
    exact ⟨_, rfl, rfl, hinfo.fnName, rfl⟩

theorem fileInfo_ok {lfile lline : ℤ} (hinfo : InfoOk t.stabstr info) (hlfile : 0 ≤ lfile)
    (hlline : lline < t.stabs.length) :
    ∃ info', fileInfo t info lfile lline = .ok info' ∧ InfoOk t.stabstr info' ∧
      info'.eipFnNarg = info.eipFnNarg := by
  obtain ⟨k, hscan, hk⟩ : ∃ k, scanDown (stabTable t.stabs) namesFile lfile lline = .ok k ∧
      k ≤ lline := by
    by_cases hlt : lline < lfile
    · exact ⟨lline, scanDown_of_lt hlt, le_rfl⟩
    · obtain ⟨k, hscan, -, hk, -⟩ := scanDown_ok namesFile
        (fun i hi hi' => stabTable_ok (hlfile.trans hi) (Int.lt_of_le_of_lt hi' hlline))
        (show lfile ≤ lline + 1 by omega)
      exact ⟨k, hscan, hk⟩
  rw [fileInfo, hscan, ok_bind]
  by_cases hle : lfile ≤ k
  · rw [if_pos hle, stabTable_ok (hlfile.trans hle) (Int.lt_of_le_of_lt hk hlline), ok_bind]
    exact ⟨_, rfl,
      ⟨inside_stabName hinfo.file, hinfo.fnName, hinfo.namelen_nonneg, hinfo.namelen_lt⟩, rfl⟩
  · rw [if_neg hle]
    exact ⟨_, rfl, hinfo, rfl⟩

/-- The count ends at the latest at an entry that is no argument. -/
theorem countArgs_ok {lfun j : ℤ} (hinfo : InfoOk t.stabstr info) (hnarg : info.eipFnNarg = 0)
    (hlfun : -1 ≤ lfun) (hj : lfun < j) (hjn : j < t.stabs.length)
    (hstop : ¬ Matches (entry t.stabs) nPsym j) :
    ∃ info', countArgs t info lfun = .ok info' ∧ InfoOk t.stabstr info' := by
  have hloop : ∃ narg, whileLoop .diverge (argsRound t lfun)
      ((t.stabs.length - lfun).toNat + 1) info.eipFnNarg = .ok narg ∧
      (0 ≤ narg ∧ lfun + narg < j) ∧ argsRound t lfun narg = .ok none := by
    -- the count stays below the entry `j` and rises every round
    refine whileLoop_ok _ (fun narg => (j - lfun - narg).toNat) ?_ (by omega) (by omega)
    rintro narg ⟨hge, hlt⟩
    rw [argsRound, stabTable_ok (by omega) (by omega), ok_bind]
    by_cases hpsym : hasType nPsym (entry t.stabs (lfun + narg + 1)) = true
    · have hne : lfun + narg + 1 ≠ j := by
        rintro rfl
        exact hstop hpsym
      exact .inr ⟨narg + 1, if_pos hpsym, by omega, by omega⟩
    · exact .inl (if_neg hpsym)
  obtain ⟨narg, hloop, -⟩ := hloop
  rw [countArgs, hloop, ok_bind]
  exact ⟨_, rfl, hinfo.file, hinfo.fnName, hinfo.namelen_nonneg, hinfo.namelen_lt⟩

/-! ### The searches -/

variable {e : ℤ → Stab} {type type' n i lfile rfile lfun rfun : ℤ} {s₁ s₂ : Search}

theorem Matches.unique (h : Matches e type i) (h' : Matches e type' i) : type = type' :=
  (of_decide_eq_true h).symm.trans (of_decide_eq_true h')

theorem Matches.not (h : Matches e type i) (hne : type ≠ type') : ¬ Matches e type' i :=
  fun h' => hne (h.unique h')

/-- The last address there is, in a table that starts with a line in its upper half, a function
at that address, and a file at that address which the search loses. -/
structure WrapsToLine (e : ℤ → Stab) (n : ℤ) (addr : Word) : Prop where
  file : Loses e nSo addr 0 (n - 1) 2
  fn : Matches e nFun 1
  fnValue : (e 1).nValue = 0xFFFFFFFF#32
  line : Matches e nSline 0
  lineValue : 0x80000000#32 ≤ (e 0).nValue

/-- What makes the function read an entry before the table: a search that starts at the first
entry leaves its region on the left. -/
def Misread (e : ℤ → Stab) (n : ℤ) (addr : Word) : Prop :=
  (Matches e nSo 0 ∧ AllAbove e nSo addr 0 (n - 1) ∨ WrapsAt e nSo addr 0 (n - 1)) ∨
    WrapsToLine e n addr

/-- After a line of the function there is an entry that is no argument. -/
theorem exists_stop (hn : 0 < n) (h₁ : Searched e nSo 0 (n - 1) addr s₁ lfile rfile)
    (hlfile : 0 < lfile) (hle₁ : lfile ≤ rfile)
    (h₂ : Searched e nFun lfile rfile addr s₂ lfun rfun) (hcase : lfun ≤ rfun ∨ lfun = lfile)
    (hi : lfun ≤ i) (hi' : i < n) (hmatch : Matches e nSline i) :
    ∃ j, lfun < j ∧ j < n ∧ ¬ Matches e nPsym j := by
  have hrfile := h₁.bounds.2
  rcases eq_or_lt_of_le hi with rfl | hlt
  · -- the function starts at a line, so the search for it ended before an entry of its type
    have hfile (heq : lfun = lfile) : ∃ j, lfun < j ∧ j < n ∧ ¬ Matches e nPsym j := by
      rcases h₁.left_cases (by omega) hle₁ (heq ▸ hmatch.not (by decide)) with
        hzero | ⟨hlt, hso, -⟩
      · omega
      · exact ⟨lfile + 1, by omega, by omega, hso.not (by decide)⟩
    rcases hcase with hle₂ | heq
    · rcases h₂.left_cases hle₁ hle₂ (hmatch.not (by decide)) with heq | ⟨hlt, hfun, -⟩
      · exact hfile heq
      · exact ⟨lfun + 1, by omega, by omega, hfun.not (by decide)⟩
    · exact hfile heq
  · exact ⟨i, hlt, hi', hmatch.not (by decide)⟩

theorem Searched.left_of_absent {L R left right : ℤ} {s : Search}
    (h : Searched e type L R addr s left right) (hLR : L ≤ R + 1) (hlt : right < left) :
    left = L := by
  cases h.outcome with
  | absent hany => exact ((h.flagged hLR).unseen hany).1
  | below => omega
  | found => omega

/-- The search for the line leaves a region at the first entry only on the last address. -/
theorem wrapsToLine_of_searched {lline rline : ℤ} {s₃ : Search}
    (h₁ : Searched e nSo 0 (n - 1) addr s₁ lfile rfile) (hn : 0 < n) (hlfile : 0 < lfile)
    (hle₁ : lfile ≤ rfile) (h₂ : Searched e nFun lfile rfile addr s₂ lfun rfun)
    (hle₂ : lfun ≤ rfun) (hlfun : lfun = 0)
    (h₃ : Searched e nSline lfun rfun (addr - (e lfun).nValue) s₃ lline rline)
    (hlline : lline = -1) : WrapsToLine e n addr := by
  subst hlfun
  have hlfun := h₂.bounds.1
  obtain rfl : lfile = 1 := by omega
  have hfun := (h₂.left_eq_iff hle₁).mp rfl
  have hline := (h₃.left_eq_iff hle₂).mp hlline
  have hfun₁ : Matches e nFun 1 := hfun.elim (·.1) (·.probe.hit)
  have hline₀ : Matches e nSline 0 := hline.elim (·.1) (·.probe.hit)
  -- entry 1 is a function, so the file search ended on it by its increment
  obtain ⟨-, hright, hleft⟩ : 1 < n - 1 ∧ rfile = 1 ∧ s₁.regionLeft = 2 := by
    rcases h₁.left_cases (by omega) hle₁ (hfun₁.not (by decide)) with hzero | ⟨hlt, -, h⟩
    · exact absurd hzero (by decide)
    · exact ⟨hlt, h⟩
  have hlost : Loses e nSo addr 0 (n - 1) 2 := by
    refine h₁.loses (by decide) (fun i hi hi' => ?_) hright hright hleft
    obtain rfl | rfl : i = 0 ∨ i = 1 := by omega
    · exact hline₀.not (by decide)
    · exact hfun₁.not (by decide)
  have haddr := hlost.addr
  subst haddr
  have hvalue : (e 1).nValue = 0xFFFFFFFF#32 := by
    rcases hfun with ⟨-, habove⟩ | hwrap
    · have hself := habove 1 (looks_self hfun₁ _ hle₁)
      bv_omega
    · exact hwrap.value
  refine ⟨hlost, hfun₁, hvalue, hline₀, ?_⟩
  rcases hline with ⟨-, habove⟩ | hwrap
  · have hself := habove 0 (looks_self hline₀ _ hle₂)
    bv_omega
  · have haddr := hwrap.addr
    rw [hwrap.value] at haddr
    exact absurd haddr (by decide)

/-! ### The whole function -/

/-- The search for the line, and what follows it, if the search stays in the tables. -/
theorem lineInfo_ok {left right lline rline : ℤ} (hinfo : InfoOk t.stabstr info)
    (hnarg : info.eipFnNarg = 0) (hlfile : 0 ≤ lfile) (hlfun : -1 ≤ lfun)
    (hsearch : stabBinsearch (stabTable t.stabs) left right nSline addr = .ok (lline, rline))
    (hlline : 0 ≤ lline) (hrline : rline < t.stabs.length)
    (hstop : lline ≤ rline → ∃ j, lfun < j ∧ j < t.stabs.length ∧
      ¬ Matches (entry t.stabs) nPsym j) :
    ∃ ret info', lineInfo t info lfile lfun left right addr = .ok (ret, info') ∧
      InfoOk t.stabstr info' := by
  rw [lineInfo, hsearch, ok_bind]
  by_cases hle : lline ≤ rline
  · obtain ⟨j, hj, hjn, hpsym⟩ := hstop hle
    have hlline' : lline < t.stabs.length := Int.lt_of_le_of_lt hle hrline
    have hlined : InfoOk t.stabstr { info with eipLine := (entry t.stabs lline).nDesc.toNat } :=
      ⟨hinfo.file, hinfo.fnName, hinfo.namelen_nonneg, hinfo.namelen_lt⟩
    obtain ⟨info₁, hfile, hinfo₁, hnarg₁⟩ := fileInfo_ok hlined hlfile hlline'
    obtain ⟨info₂, hcount, hinfo₂⟩ := countArgs_ok hinfo₁ (hnarg₁.trans hnarg) hlfun hj hjn hpsym
    simp only [if_pos hle, stabTable_ok hlline hlline', ok_bind, hfile, hcount]
    exact ⟨0, info₂, rfl, hinfo₂⟩
  · exact ⟨-1, info, if_neg hle, hinfo⟩

theorem not_lt_ulim (haddr : ulim ≤ addr) : ¬ addr < ulim := BitVec.not_lt.mpr haddr

/-- The function after its first search. -/
theorem debuginfoEip_eq (hstr : t.stabstr.getLast? = some 0#8) (haddr : ulim ≤ addr)
    (h : stabBinsearch (stabTable t.stabs) 0 (t.stabs.length - 1) nSo addr = .ok (lfile, rfile)) :
    debuginfoEip t addr = if lfile = 0 then .ok (-1, .init addr) else (do
      let (lfun, rfun) ← stabBinsearch (stabTable t.stabs) lfile rfile nFun addr
      let (info, addr, lline, rline) ←
        functionInfo t (.init addr) lfile rfile lfun rfun addr
      let namelen ← strfind (info.eipFnName.bytes t.stabstr) 0x3A#8
      lineInfo t { info with eipFnNamelen := namelen } lfile lfun lline rline addr) := by
  rw [debuginfoEip, if_neg (not_lt_ulim haddr), if_neg (not_not.mpr hstr), h, ok_bind]

/-- The part of the function after its second search. -/
theorem afterFunction_ok (addr : Word) (lfile rfile : ℤ) (hstr : t.stabstr.getLast? = some 0#8)
    (hlfun : 0 ≤ lfun) (hrfun : rfun < t.stabs.length) :
    ∃ info, (do
      let (info, addr, lline, rline) ←
        functionInfo t (.init addr) lfile rfile lfun rfun addr
      let namelen ← strfind (info.eipFnName.bytes t.stabstr) 0x3A#8
      lineInfo t { info with eipFnNamelen := namelen } lfile lfun lline rline addr) =
      (if lfun ≤ rfun then
        lineInfo t info lfile lfun lfun rfun (addr - (entry t.stabs lfun).nValue)
      else lineInfo t info lfile lfun lfile rfile addr) ∧
      InfoOk t.stabstr info ∧ info.eipFnNarg = 0 := by
  obtain ⟨info, hinfo, hfile, hname, hnarg⟩ :=
    functionInfo_ok addr lfile rfile (.init t.stabstr addr) hlfun hrfun
  obtain ⟨namelen, hfind, hlen⟩ := strfind_ok (CString.getLast?_bytes hstr hname) 0x3A#8
  refine ⟨{ info with eipFnNamelen := namelen }, ?_, ⟨?_, hname, ?_, ?_⟩, hnarg⟩
  · rw [hinfo]
    by_cases hle : lfun ≤ rfun
    · simp only [if_pos hle, ok_bind, hfind]
    · simp only [if_neg hle, ok_bind, hfind]
  · exact hfile ▸ (trivial : CString.Inside _ .unknown)
  · exact Int.natCast_nonneg _
  · exact Int.ofNat_lt.mpr hlen

/-- The function stays in the tables and returns names in them. -/
theorem debuginfoEip_ok (hn : t.stabs ≠ []) (hstr : t.stabstr.getLast? = some 0#8)
    (haddr : ulim ≤ addr) (hread : ¬ Misread (entry t.stabs) t.stabs.length addr) :
    ∃ ret info, debuginfoEip t addr = .ok (ret, info) ∧ InfoOk t.stabstr info := by
  have hpos : 0 < (t.stabs.length : ℤ) := Int.natCast_pos.mpr (List.length_pos_iff.mpr hn)
  obtain ⟨s₁, lfile, rfile, hsearch₁, h₁⟩ := exists_searched_table t.stabs nSo addr le_rfl
    (show (0 : ℤ) ≤ (t.stabs.length - 1 : ℤ) + 1 by omega) (by omega)
  rw [debuginfoEip_eq hstr haddr hsearch₁]
  have hbounds₁ := h₁.bounds
  by_cases hzero : lfile = 0
  · exact ⟨-1, .init addr, if_pos hzero, .init t.stabstr addr⟩
  have hlfile : 0 < lfile := by
    have hneg : lfile ≠ 0 - 1 := fun h => hread (.inl ((h₁.left_eq_iff (by omega)).mp h))
    omega
  have hle₁ : lfile ≤ rfile := by
    by_contra hlt
    exact hzero (h₁.left_of_absent (by omega) (by omega))
  obtain ⟨s₂, lfun, rfun, hsearch₂, h₂⟩ := exists_searched_table t.stabs nFun addr hlfile.le
    (by omega : lfile ≤ rfile + 1) (by omega)
  have hbounds₂ := h₂.bounds
  obtain ⟨info, hafter, hinfo, hnarg⟩ := afterFunction_ok addr lfile rfile hstr
    (by omega : 0 ≤ lfun) (by omega : rfun < t.stabs.length)
  rw [if_neg hzero, hsearch₂, ok_bind]
  dsimp only
  rw [hafter]
  -- with a function the line is searched in it, without one in the file
  by_cases hle₂ : lfun ≤ rfun
  · rw [if_pos hle₂]
    obtain ⟨s₃, lline, rline, hsearch₃, h₃⟩ := exists_searched_table t.stabs nSline
      (addr - (entry t.stabs lfun).nValue) (by omega : 0 ≤ lfun) (by omega : lfun ≤ rfun + 1)
      (by omega)
    have hbounds₃ := h₃.bounds
    have hlline : 0 ≤ lline := by
      by_contra hneg
      exact hread (.inr (wrapsToLine_of_searched h₁ hpos hlfile hle₁ h₂ hle₂ (by omega) h₃
        (by omega)))
    refine lineInfo_ok hinfo hnarg hlfile.le (by omega) hsearch₃ hlline (by omega) fun hle₃ => ?_
    have hsome := mt (h₃.absent_iff (by omega)).mpr (by omega)
    push Not at hsome
    obtain ⟨i, hi, hi', hmatch⟩ := hsome
    exact exists_stop hpos h₁ hlfile hle₁ h₂ (.inl hle₂) hi (by omega) hmatch
  · rw [if_neg hle₂]
    have heq := h₂.left_of_absent (by omega) (by omega)
    obtain ⟨s₃, lline, rline, hsearch₃, h₃⟩ := exists_searched_table t.stabs nSline addr
      hlfile.le (by omega : lfile ≤ rfile + 1) (by omega)
    have hbounds₃ := h₃.bounds
    refine lineInfo_ok hinfo hnarg hlfile.le (by omega) hsearch₃ (by omega) (by omega)
      fun hle₃ => ?_
    have hsome := mt (h₃.absent_iff (by omega)).mpr (by omega)
    push Not at hsome
    obtain ⟨i, hi, hi', hmatch⟩ := hsome
    exact exists_stop hpos h₁ hlfile hle₁ h₂ (.inr heq) (heq ▸ hi) (by omega) hmatch

/-- A search of the region right before the table reads there. -/
theorem stabBinsearch_before (stabs : List Stab) (type : ℤ) (addr : Word) :
    stabBinsearch (stabTable stabs) (-1) (-1) type addr = .error (.stab (-1)) := by
  have hread : stabTable stabs (-1) = .error (.stab (-1)) := if_neg fun h => absurd h.1 (by decide)
  have hscan : scanDown (stabTable stabs) (hasType type) (-1) (-1) = .error (.stab (-1)) := by
    have hround : scanRound (stabTable stabs) (hasType type) (-1) (-1) = .error (.stab (-1)) := by
      rw [scanRound, if_neg (by decide), hread, error_bind]
    exact whileLoop_of_error hround
  have hround : searchRound (stabTable stabs) type ⟨-1, -1, false, -1, -1, addr⟩ =
      .error (.stab (-1)) := by
    rw [searchRound]
    dsimp only
    rw [if_neg (lt_irrefl (-1))]
    exact congrArg (· >>= _) hscan
  have hloop (fuel : ℕ) : whileLoop .diverge (searchRound (stabTable stabs) type) (fuel + 1)
      ⟨-1, -1, false, -1, -1, addr⟩ = .error (.stab (-1)) := whileLoop_of_error hround
  rw [stabBinsearch, hloop, error_bind]

/-- In the cases of `Misread` the entry before the table is read. -/
theorem debuginfoEip_of_misread (hn : t.stabs ≠ []) (hstr : t.stabstr.getLast? = some 0#8)
    (haddr : ulim ≤ addr) (hread : Misread (entry t.stabs) t.stabs.length addr) :
    debuginfoEip t addr = .error (.stab (-1)) := by
  have hpos : 0 < (t.stabs.length : ℤ) := Int.natCast_pos.mpr (List.length_pos_iff.mpr hn)
  obtain ⟨s₁, lfile, rfile, hsearch₁, h₁⟩ := exists_searched_table t.stabs nSo addr le_rfl
    (show (0 : ℤ) ≤ (t.stabs.length - 1 : ℤ) + 1 by omega) (by omega)
  rw [debuginfoEip_eq hstr haddr hsearch₁]
  rcases hread with hoff | hwraps
  · have hleft := (h₁.left_eq_iff (by omega)).mpr hoff
    have hright := h₁.right_eq hleft
    obtain ⟨rfl, rfl⟩ : lfile = -1 ∧ rfile = -1 := ⟨hleft, hright⟩
    rw [if_neg (by decide), stabBinsearch_before, error_bind]
  · obtain ⟨hlost, hfun, hfunValue, hline, hlineValue⟩ := hwraps
    have hle := hlost.le
    have hmax := hlost.addr
    subst hmax
    obtain ⟨rfl, rfl⟩ : lfile = 1 ∧ rfile = 1 := hlost.searched h₁ (by decide)
    obtain ⟨s₂, lfun, rfun, hsearch₂, h₂⟩ := exists_searched_table t.stabs nFun 0xFFFFFFFF#32
      (by decide : (0 : ℤ) ≤ 1) (by decide : (1 : ℤ) ≤ 1 + 1) (by omega)
    have hprobe : Probe (entry t.stabs) nFun 1 1 1 :=
      ⟨le_rfl, by decide, hfun, fun i hi hi' => by omega⟩
    -- the function search steps back from 1 to 0, still in the table
    have hlfun := (h₂.left_eq_iff le_rfl).mpr (.inr ⟨rfl, hfunValue, hprobe⟩)
    have hrfun := h₂.right_eq hlfun
    obtain ⟨rfl, rfl⟩ : lfun = 0 ∧ rfun = 0 := ⟨hlfun, hrfun⟩
    obtain ⟨info, hafter, -⟩ := afterFunction_ok 0xFFFFFFFF#32 1 1 hstr le_rfl hpos
    rw [if_neg (by decide), hsearch₂, ok_bind]
    dsimp only
    rw [hafter, if_pos le_rfl]
    obtain ⟨s₃, lline, rline, hsearch₃, h₃⟩ := exists_searched_table t.stabs nSline
      (0xFFFFFFFF#32 - (entry t.stabs 0).nValue) (le_refl (0 : ℤ)) (by decide : (0 : ℤ) ≤ 0 + 1)
      hpos
    have habove :
        AllAbove (entry t.stabs) nSline (0xFFFFFFFF#32 - (entry t.stabs 0).nValue) 0 0 := by
      have hprobe : Probe (entry t.stabs) nSline 0 0 0 :=
        ⟨le_rfl, by decide, hline, fun i hi hi' => by omega⟩
      exact .of_greater hprobe (by bv_omega) fun hlt => absurd hlt (by decide)
    have hlline := (h₃.left_eq_iff le_rfl).mpr (.inl ⟨hline, habove⟩)
    have hrline := h₃.right_eq hlline
    obtain ⟨rfl, rfl⟩ : lline = -1 ∧ rline = -1 := ⟨hlline, hrline⟩
    have hbefore : stabTable t.stabs (-1) = .error (.stab (-1)) :=
      if_neg fun h => absurd h.1 (by decide)
    rw [lineInfo, hsearch₃, ok_bind]
    dsimp only
    rw [if_pos le_rfl, hbefore, error_bind]

/-- **The function stays in the debug tables**, and returns names in them, unless a search that
starts at the first entry leaves its region on the left. -/
theorem debuginfoEip_iff (t : DebugTables) (addr : Word) (hn : t.stabs ≠ [])
    (hstr : t.stabstr.getLast? = some 0#8) (haddr : ulim ≤ addr) :
    (∃ ret info, debuginfoEip t addr = .ok (ret, info) ∧ InfoOk t.stabstr info) ↔
      ¬ Misread (entry t.stabs) t.stabs.length addr := by
  refine ⟨?_, debuginfoEip_ok hn hstr haddr⟩
  rintro ⟨ret, info, hok, -⟩ hread
  rw [debuginfoEip_of_misread hn hstr haddr hread] at hok
  exact absurd hok (by simp)

/-- A table with the file `a.c` from `0xF0100000` to `0xF0100100`, and in it a function `f` with one
argument and two lines. -/
def oneFunction : DebugTables where
  stabs :=
    [⟨0#32, 0#8, 7#16, 0#32⟩, ⟨1#32, 0x64#8, 0#16, 0xF0100000#32⟩,
      ⟨5#32, 0x24#8, 0#16, 0xF0100000#32⟩, ⟨10#32, 0xA0#8, 0#16, 8#32⟩,
      ⟨0#32, 0x44#8, 7#16, 0#32⟩, ⟨0#32, 0x44#8, 9#16, 0x10#32⟩,
      ⟨0#32, 0x64#8, 0#16, 0xF0100100#32⟩]
  stabstr := [0#8] ++ [0x61#8, 0x2E#8, 0x63#8, 0#8] ++ [0x66#8, 0x3A#8, 0x46#8, 0x31#8, 0#8] ++
    [0x78#8, 0x3A#8, 0x70#8, 0x31#8, 0#8]

/-- An address behind the second line is looked up in the file, in the function and in its lines,
and the argument is counted. -/
theorem debuginfoEip_iff_oneFunction :
    debuginfoEip oneFunction 0xF0100014#32 =
        .ok (0, ⟨.table 1, 9, .table 5, 1, 0xF0100000#32, 1⟩) ∧
      ((∃ ret info, debuginfoEip oneFunction 0xF0100014#32 = .ok (ret, info) ∧
        InfoOk oneFunction.stabstr info) ↔
      ¬ Misread (entry oneFunction.stabs) oneFunction.stabs.length 0xF0100014#32) :=
  ⟨by rfl, debuginfoEip_iff oneFunction 0xF0100014#32 (by decide) (by decide) (by decide)⟩

/-- A table with one file, at `0xF0100000`. -/
def oneFile : DebugTables := ⟨[⟨1#32, 0x64#8, 0#16, 0xF0100000#32⟩], [0#8, 0x61#8, 0#8]⟩

/-- An address of the kernel below the file reads the entry before the table. -/
theorem not_debuginfoEip_oneFile :
    ulim ≤ 0xF0000000#32 ∧ oneFile.stabs ≠ [] ∧ oneFile.stabstr.getLast? = some 0#8 ∧
      debuginfoEip oneFile 0xF0000000#32 = .error (.stab (-1)) :=
  ⟨by decide, by decide, by decide, by rfl⟩

end JosVmx.Kern
