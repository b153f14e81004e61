/-
  Subject: The builtin `getopts` of `src/shell.c`, and which characters of its arguments it looks
           at.

  The place in the arguments is kept in two shell variables between the calls. The index inside an
  argument is believed wherever OPTIND is what the last call left.
-/
import Arksh.Exec.Assignments
import Arksh.Expand.AssignDefault
import Arksh.Lib.Decimal

namespace Arksh

open CText List Nat

/-! ## 1. The state between the calls -/

def optindName : Text := "OPTIND".toList
def optargName : Text := "OPTARG".toList
def subindexName : Text := "__ARKSH_GETOPTS_SUBINDEX".toList
def lastOptindName : Text := "__ARKSH_GETOPTS_LAST_OPTIND".toList

/-- `getopts_current_optind`, and the like for the other two: a number of at least one. -/
def getoptsCurrent (sh : VarStore) (name : Text) : Nat :=
  match arkshShellGetVar sh name with
  | none | some [] => 1
  | some text => if atoiSigned text < 1 then 1 else (atoiSigned text).toNat

def getoptsStoreState (sh : VarStore) (optind subindex : Nat) : VarStore :=
  let first := arkshShellSetVar sh optindName (CText.decimal optind) false
  if first.1 ≠ 0 then first.2
  else
    let second := arkshShellSetVar first.2 subindexName (CText.decimal subindex) false
    if second.1 ≠ 0 then second.2
    else (arkshShellSetVar second.2 lastOptindName (CText.decimal optind) false).2

/-! ## 2. The loop -/

/-- What a call does: the variables it sets (OPTARG in front of the name where `argFirst`), its
    state, status and message. `examined` are the characters of arguments it looks at. -/
structure GetoptsStep where
  name : Text
  optarg : Text
  argFirst : Bool
  optind : Nat
  subindex : Nat
  status : Nat
  out : Text
  examined : List (Text × Nat)

/-- The memory that `arg` points to: its characters, the NUL, and what stands behind it. -/
def argCells (behind : Text → Text) (arg : Text) : Text := arg ++ '\x00' :: behind arg

def argChar (behind : Text → Text) (arg : Text) (i : Nat) : Char :=
  (argCells behind arg).getD i '\x00'

def argFrom (behind : Text → Text) (arg : Text) (i : Nat) : Text :=
  ((argCells behind arg).drop i).takeWhile (· ≠ '\x00')

/-- The indices at which a copy of the string at `arg + i` looks. -/
def copied (behind : Text → Text) (arg : Text) (i : Nat) : List (Text × Nat) :=
  (List.range ((argFrom behind arg i).length + 1)).map fun k => (arg, i + k)

/-- The indices at which the tests for `--` and for an option look. -/
def frontExamined (arg : Text) : List (Text × Nat) :=
  match arg with
  | '-' :: '-' :: _ => [(arg, 0), (arg, 1), (arg, 2)]
  | '-' :: _ => [(arg, 0), (arg, 1)]
  | _ => [(arg, 0)]

def getoptsEnd (optind : Nat) (examined : List (Text × Nat)) : GetoptsStep :=
  ⟨"?".toList, [], false, optind, 1, 1, [], examined⟩

section Step

variable (behind : Text → Text) (silent : Bool) (scan : Text)

/-- The body of the loop behind the test for the end of the argument: the option `ch` at `subindex`
    of `arg`. -/
def getoptsOption (optind subindex : Nat) (arg : Text) (more : List Text) (ch : Char) :
    GetoptsStep :=
  let found := scan.dropWhile (· ≠ ch)
  let last := argChar behind arg (subindex + 1) = '\x00'
  let looked := [(arg, subindex), (arg, subindex + 1)]
  if found = [] ∨ ch = ':' then
    ⟨"?".toList, if silent then [ch] else [], false,
      if last then optind + 1 else optind, if last then 1 else subindex + 1, 0,
      if silent then [] else "getopts: illegal option -- ".toList ++ [ch], looked⟩
  else if found.tail.head? = some ':' then
    if ¬ last then
      ⟨[ch], argFrom behind arg (subindex + 1), true, optind + 1, 1, 0, [],
        looked ++ copied behind arg (subindex + 1)⟩
    else
      match more with
      | next :: _ => ⟨[ch], argFrom behind next 0, true, optind + 2, 1, 0, [],
          looked ++ copied behind next 0⟩
      | [] =>
        if silent then ⟨":".toList, [ch], false, optind + 1, 1, 0, [], looked⟩
        else ⟨"?".toList, [], false, optind + 1, 1, 0,
          "getopts: option requires an argument -- ".toList ++ [ch], looked⟩
  else ⟨[ch], [], true, if last then optind + 1 else optind, if last then 1 else subindex + 1, 0, [],
    looked⟩

/-- The loop over the arguments from the one with the number `optind` on. -/
def getoptsScan (optind subindex : Nat) (examined : List (Text × Nat)) : List Text → GetoptsStep
  | [] => getoptsEnd optind examined
  | arg :: more =>
    let front := if subindex ≤ 1 then frontExamined arg else []
    if subindex ≤ 1 ∧ arg = "--".toList then getoptsEnd (optind + 1) (examined ++ front)
    else if subindex ≤ 1 ∧ (argChar behind arg 0 ≠ '-' ∨ argChar behind arg 1 = '\x00') then
      getoptsEnd optind (examined ++ front)
    else
      let subindex := max 1 subindex
      let ch := argChar behind arg subindex
      if ch = '\x00' then
        getoptsScan (optind + 1) 1 (examined ++ front ++ [(arg, subindex)]) more
      else
        let step := getoptsOption behind silent scan optind subindex arg more ch
        { step with examined := examined ++ front ++ step.examined }

end Step

def startSubindex (sh : VarStore) : Nat :=
  if getoptsCurrent sh optindName ≠ getoptsCurrent sh lastOptindName then 1
  else getoptsCurrent sh subindexName

/-- The arguments that are scanned. -/
def getoptsParams (sh : VarStore) (params : List Text) : List Text :=
  if params = [] then sh.positionalParams else params

/-- What a call of `getopts` does in a shell. -/
def getoptsStep (behind : Text → Text) (sh : VarStore) (optstring : Text) (params : List Text) :
    GetoptsStep :=
  let silent := optstring.head? = some ':'
  getoptsScan behind silent (if silent then optstring.tail else optstring)
    (getoptsCurrent sh optindName) (startSubindex sh) []
    ((getoptsParams sh params).drop (getoptsCurrent sh optindName - 1))

/-- The calls of `arksh_shell_set_var` for the name and OPTARG. -/
def GetoptsStep.assigned (step : GetoptsStep) (varname : Text) : List (Text × Text) :=
  if step.argFirst then [(optargName, step.optarg), (varname, step.name)]
  else [(varname, step.name), (optargName, step.optarg)]

/-- `command_getopts`: the status, the message, and the shell behind the call. -/
def commandGetopts (behind : Text → Text) (sh : VarStore) : List Text → Nat × Text × VarStore
  | optstring :: varname :: params =>
    let step := getoptsStep behind sh optstring params
    (step.status, step.out,
      getoptsStoreState (assignAll sh (step.assigned varname)) step.optind step.subindex)
  | _ => (1, "getopts: usage: getopts optstring name [args]".toList, sh)

/-! ## 3. The indices -/

/-- Every index is at most the length of its argument. -/
def LooksInside (examined : List (Text × Nat)) : Prop := ∀ look ∈ examined, look.2 ≤ look.1.length

variable {optind subindex : Nat} {examined : List (Text × Nat)}

section Bounds

variable {behind : Text → Text} {silent : Bool} {scan arg : Text} {i : Nat}

theorem looksInside_append {s t : List (Text × Nat)} : LooksInside (s ++ t) ↔ LooksInside s ∧ LooksInside t :=
  forall_mem_append

theorem argChar_length (behind : Text → Text) (arg : Text) :
    argChar behind arg arg.length = '\x00' := by
  rw [argChar, argCells, getD_eq_getElem?_getD, getElem?_append_right (Nat.le_refl _), Nat.sub_self]
  rfl

theorem lt_of_argChar (hi : i ≤ arg.length) (h : argChar behind arg i ≠ '\x00') :
    i < arg.length := by
  refine lt_of_le_of_ne hi fun heq => h ?_
  rw [heq]
  exact argChar_length behind arg

theorem length_argFrom (hi : i ≤ arg.length) : i + (argFrom behind arg i).length ≤ arg.length := by
  have hcells : (argCells behind arg).drop i = arg.drop i ++ '\x00' :: behind arg := by
    rw [argCells, drop_append_of_le_length hi]
  have hprefix : ∀ t : Text, ((t ++ '\x00' :: behind arg).takeWhile (· ≠ '\x00')).length ≤
      t.length := by
    intro t
    induction t with
    | nil => exact Nat.le_refl 0
    | cons c t ih =>
      rw [cons_append, takeWhile_cons]
      split
      · exact succ_le_succ ih
      · exact zero_le _
  have hlength := hprefix (arg.drop i)
  rw [length_drop] at hlength
  rw [argFrom, hcells]
  omega

theorem looksInside_copied (hi : i ≤ arg.length) : LooksInside (copied behind arg i) := by
  intro look hlook
  obtain ⟨k, hk, rfl⟩ := mem_map.mp hlook
  have hlength := @length_argFrom behind _ _ hi
  rw [mem_range] at hk
  show i + k ≤ arg.length
  omega

theorem looksInside_front (arg : Text) : LooksInside (frontExamined arg) := by
  unfold frontExamined
  split
  next rest =>
    rw [LooksInside, forall_mem_cons, forall_mem_cons, forall_mem_singleton]
    refine ⟨zero_le _, succ_le_succ (zero_le _), ?_⟩
    exact succ_le_succ (succ_le_succ (zero_le _))
  next rest _ =>
    rw [LooksInside, forall_mem_cons, forall_mem_singleton]
    exact ⟨zero_le _, succ_le_succ (zero_le _)⟩
  · rw [LooksInside, forall_mem_singleton]; exact zero_le _

theorem getoptsOption_looksInside {more : List Text} {ch : Char} (hi : i < arg.length) :
    LooksInside (getoptsOption behind silent scan optind i arg more ch).examined := by
  have hlooked : LooksInside [(arg, i), (arg, i + 1)] := by
    rw [LooksInside, forall_mem_cons, forall_mem_singleton]
    exact ⟨le_of_lt hi, hi⟩
  unfold getoptsOption
  dsimp only
  split
  · exact hlooked
  · split
    · split
      · exact looksInside_append.mpr ⟨hlooked, looksInside_copied hi⟩
      · split
        next next _ => exact looksInside_append.mpr ⟨hlooked, looksInside_copied (zero_le _)⟩
        · split
          · exact hlooked
          · exact hlooked
    · exact hlooked

theorem getoptsScan_first (args : List Text) (hsub : subindex ≤ 1)
    (hexamined : LooksInside examined) :
    LooksInside (getoptsScan behind silent scan optind subindex examined args).examined := by
  induction args generalizing optind subindex examined with
  | nil => exact hexamined
  | cons arg more ih =>
    have hfront := looksInside_append.mpr ⟨hexamined, looksInside_front arg⟩
    have hmax : max 1 subindex = 1 := by omega
    unfold getoptsScan
    dsimp only
    rw [if_pos hsub, hmax]
    split
    · exact hfront
    · split
      · exact hfront
      next hopt =>
        -- the argument starts with a dash, and something stands behind it
        have hone : 1 ≤ arg.length := by
          cases arg with
          | nil =>
            refine absurd ⟨hsub, .inl ?_⟩ hopt
            rw [show argChar behind [] 0 = '\x00' from rfl]
            decide
          | cons c arg => exact succ_le_succ (zero_le _)
        split
        · refine ih (Nat.le_refl 1) (looksInside_append.mpr ⟨hfront, ?_⟩)
          rw [LooksInside, forall_mem_singleton]
          exact hone
        next hch =>
          exact looksInside_append.mpr ⟨hfront, getoptsOption_looksInside (lt_of_argChar hone hch)⟩

theorem mem_getoptsScan {args : List Text} {look : Text × Nat} (h : look ∈ examined) :
    look ∈ (getoptsScan behind silent scan optind subindex examined args).examined := by
  induction args generalizing optind subindex examined with
  | nil => exact h
  | cons arg more ih =>
    unfold getoptsScan
    dsimp only
    split
    · exact mem_append_left _ h
    · split
      · exact mem_append_left _ h
      · split
        · exact ih (mem_append_left _ (mem_append_left _ h))
        · exact mem_append_left _ (mem_append_left _ h)

theorem mem_getoptsOption (optind subindex : Nat) (more : List Text) (ch : Char) :
    (arg, subindex) ∈ (getoptsOption behind silent scan optind subindex arg more ch).examined := by
  unfold getoptsOption
  dsimp only
  split
  · exact mem_cons_self
  · split
    · split
      · exact mem_cons_self
      · split
        · exact mem_cons_self
        · split
          · exact mem_cons_self
          · exact mem_cons_self
    · exact mem_cons_self

/-- **The loop looks behind an argument exactly if it starts behind it.** -/
theorem getoptsScan_bounds (args : List Text) :
    LooksInside (getoptsScan behind silent scan optind subindex [] args).examined ↔
      ∀ arg ∈ args.head?, subindex ≤ 1 ∨ subindex ≤ arg.length := by
  by_cases hsub : subindex ≤ 1
  · exact iff_of_true (getoptsScan_first args hsub nofun) fun _ _ => .inl hsub
  · cases args with
    | nil => exact iff_of_true nofun nofun
    | cons arg more =>
      have hmax : max 1 subindex = subindex := by omega
      unfold getoptsScan
      dsimp only
      rw [if_neg hsub, if_neg fun h => hsub h.1, if_neg fun h => hsub h.1, hmax]
      constructor
      · intro h a ha
        obtain rfl := Option.mem_some_iff.mp ha
        refine .inr (h (arg, subindex) ?_)
        split
        · exact mem_getoptsScan mem_cons_self
        · exact mem_getoptsOption optind subindex more _
      · intro h
        have hle : subindex ≤ arg.length := (h arg rfl).resolve_left hsub
        split
        · refine getoptsScan_first more (Nat.le_refl 1) ?_
          rw [LooksInside, append_nil, nil_append, forall_mem_singleton]
          exact hle
        next hch => exact getoptsOption_looksInside (lt_of_argChar hle hch)

end Bounds

/-! ## 4. Runs -/

/-- What happens in a shell: a call of `getopts`, or anything else that may change the variables,
    the frames and the parameters. -/
inductive ShellEvent where
  | getopts (optstring varname : Text) (params : List Text)
  | other (change : VarStore → VarStore)

def ShellEvent.run (behind : Text → Text) (sh : VarStore) : ShellEvent → VarStore
  | .getopts optstring varname params =>
    (commandGetopts behind sh (optstring :: varname :: params)).2.2
  | .other change => change sh

structure GetoptsCall where
  sh : VarStore
  optstring : Text
  params : List Text

def getoptsCalls (behind : Text → Text) (sh : VarStore) : List ShellEvent → List GetoptsCall
  | [] => []
  | event :: events =>
    let calls := getoptsCalls behind (event.run behind sh) events
    match event with
    | .getopts optstring _ params => ⟨sh, optstring, params⟩ :: calls
    | .other _ => calls

/-- OPTIND is beyond the arguments or not what the last call left, or the index that this left is
    inside of the argument that OPTIND stands for. -/
def GetoptsCall.StartsInside (call : GetoptsCall) : Prop :=
  ∀ arg ∈ (getoptsParams call.sh call.params)[getoptsCurrent call.sh optindName - 1]?,
    getoptsCurrent call.sh optindName = getoptsCurrent call.sh lastOptindName →
      getoptsCurrent call.sh subindexName ≤ 1 ∨
        getoptsCurrent call.sh subindexName ≤ arg.length

theorem GetoptsCall.looksInside_iff (behind : Text → Text) (call : GetoptsCall) :
    LooksInside (getoptsStep behind call.sh call.optstring call.params).examined ↔
      call.StartsInside := by
  rw [getoptsStep, getoptsScan_bounds, head?_drop, startSubindex]
  refine forall_congr' fun arg => forall_congr' fun _ => ?_
  by_cases h : getoptsCurrent call.sh optindName = getoptsCurrent call.sh lastOptindName
  · rw [if_neg (not_not.mpr h), imp_iff_right h]
  · rw [if_pos h]; exact iff_of_true (.inl (Nat.le_refl 1)) fun heq => absurd heq h

/-- **A run stays inside of the arguments exactly if each call starts inside.** -/
theorem getoptsBounds_iff (behind : Text → Text) (sh : VarStore) (events : List ShellEvent) :
    (∀ call ∈ getoptsCalls behind sh events,
      LooksInside (getoptsStep behind call.sh call.optstring call.params).examined) ↔
    ∀ call ∈ getoptsCalls behind sh events, call.StartsInside :=
  forall_congr' fun call => forall_congr' fun _ => call.looksInside_iff behind

def shorterArgument : List ShellEvent :=
  [.getopts "ab".toList "o".toList ["-ab".toList], .getopts "ab".toList "o".toList ["-".toList]]

/-- The second call looks at the third character of an argument of one. -/
theorem not_getoptsBounds : ¬ ∀ (behind : Text → Text) (sh : VarStore) (events : List ShellEvent),
    ∀ call ∈ getoptsCalls behind sh events,
      LooksInside (getoptsStep behind call.sh call.optstring call.params).examined := by
  intro h
  have hlast := h (fun _ => []) (startStore "/".toList noEnv) shorterArgument _
    (mem_cons_of_mem _ mem_cons_self) ("-".toList, 2) (by decide)
  exact absurd hlast (by decide)

end Arksh
