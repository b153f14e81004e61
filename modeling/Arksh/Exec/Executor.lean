/-
  Subject: The executor: `arksh_shell_execute_line`, the compound commands of `src/executor.c`
           that call it again on the texts of their parts, `arksh_shell_source_file`, and the
           traps.

  Every part of a compound command is a text that is executed as a line of its own. The executors
  take the execution of a line as an argument, and `executeLine` ties the knot, at most `n` calls
  deep. What the shell is besides its control state is a type `σ`.

  A `World` stands for what is not here: the parser behind its own trimmed copy, and the commands
  that are no compound commands. Such a command is a `Task`: a chain of changes to the rest of the
  shell in which it may end the shell, run lines, call functions and read files.

  A run reports events; nothing in the source corresponds to them, nor to the context, which says
  what encloses the line. What the executors do depends on neither.
-/
import Arksh.Lib.Trace
import Arksh.Shell.Line

namespace Arksh

open CText Traces Traces.Trace

/-! ## 1. The control state of the shell -/

inductive ArkshControlSignalKind where
  | none | breakSignal | continueSignal | returnSignal
  deriving DecidableEq

inductive ArkshTrapKind where
  | exit | err | hup | int | quit | ill | abrt | fpe | segv | pipe | alrm | term | usr1 | usr2
  | chld | tstp | ttin | ttou
  deriving DecidableEq

/-- In the order of the enumeration. -/
def ArkshTrapKind.all : List ArkshTrapKind :=
  [.exit, .err, .hup, .int, .quit, .ill, .abrt, .fpe, .segv, .pipe, .alrm, .term, .usr1, .usr2,
    .chld, .tstp, .ttin, .ttou]

structure ArkshTrapEntry where
  command : Text
  active : Bool
  ignored : Bool
  deriving DecidableEq

def ArkshTrapKind.isSignal (kind : ArkshTrapKind) : Prop := kind ≠ .exit ∧ kind ≠ .err

/-- `s_pending_traps` -/
structure PendingTraps where
  pending : ArkshTrapKind → Bool
  isSignal : ∀ kind, pending kind = true → kind.isSignal

namespace PendingTraps

def none : PendingTraps := ⟨fun _ => false, fun _ h => absurd h (by decide)⟩

def mark (p : PendingTraps) (kind : ArkshTrapKind) (h : kind.isSignal) : PendingTraps where
  pending := Function.update p.pending kind true
  isSignal := by
    intro k hk
    by_cases he : k = kind
    · exact he ▸ h
    · rw [Function.update_of_ne he] at hk; exact p.isSignal k hk

def clear (p : PendingTraps) (kind : ArkshTrapKind) : PendingTraps where
  pending := Function.update p.pending kind false
  isSignal := by
    intro k hk
    by_cases he : k = kind
    · rw [he, Function.update_self] at hk; cases hk
    · rw [Function.update_of_ne he] at hk; exact p.isSignal k hk

end PendingTraps

/-- What `set` and `trap` change. -/
structure ShellSettings where
  traps : ArkshTrapKind → ArkshTrapEntry
  optErrexit : Bool

/-- The fields of an `ArkshShell` that the executor works with. `pending` is `s_pending_traps`,
    `rest` the other fields, and `memory` says which allocations to come succeed. -/
structure ArkshShell (σ : Type) where
  running : Bool
  lastStatus : Int
  controlSignal : ArkshControlSignalKind
  controlLevels : Nat
  loopDepth : Nat
  functionDepth : Nat
  /-- `metadata->function_name_depth` -/
  functionNameDepth : Nat
  inCondition : Nat
  errexitSuppressed : Nat
  runningExitTrap : Bool
  settings : ShellSettings
  pending : PendingTraps
  rest : σ
  memory : Nat → Bool

/-! ## 2. The trees -/

inductive ArkshListCondition where
  | always | onSuccess | onFailure
  deriving DecidableEq

structure ArkshCommandListEntry where
  text : Text
  condition : ArkshListCondition
  runInBackground : Bool
  deriving DecidableEq

/-- A tree of the parser. The nodes of the commands that are no compound commands are of a type
    `N`. -/
inductive ArkshAst (N : Type) where
  | empty
  | plain (kind : ArkshAstKind) (node : N)
  | commandList (entries : List ArkshCommandListEntry)
  | groupCommand (node : N) (body : Text)
  | ifCommand (condition thenBranch : Text) (elseBranch : Option Text)
  | whileCommand (condition body : Text)
  | untilCommand (condition body : Text)
  | forCommand (name source body : Text)
  | caseCommand (node : N)
  | switchCommand (node : N)
  | withSudoCommand (body : Text)

def ArkshAst.kind {N : Type} : ArkshAst N → ArkshAstKind
  | .empty => .empty
  | .plain kind _ => kind
  | .commandList _ => .commandList
  | .groupCommand _ _ => .groupCommand
  | .ifCommand _ _ _ => .ifCommand
  | .whileCommand _ _ => .whileCommand
  | .untilCommand _ _ => .untilCommand
  | .forCommand _ _ _ => .forCommand
  | .caseCommand _ => .caseCommand
  | .switchCommand _ => .switchCommand
  | .withSudoCommand _ => .withSudoCommand

/-! ## 3. Commands that are no compound commands -/

/-- A call of a shell function: what `bind_function_parameters` does in the new scope (on an error
    the scope is left again), the body, and what leaving the scope does. -/
structure FunctionCall (σ : Type) where
  bind : σ → Except Text σ × σ
  body : Text
  leave : σ → σ

/-- A command of a file: what stands in front of its errors, the current source line, and the
    command; or why the file ends here. -/
structure SourceCommand (σ : Type) where
  place : Text
  enter : σ → σ
  command : Except Text Text

/-- A command, seen from the executor: what it does to the rest of the shell, and what it has the
    executor do. -/
inductive Task (σ α : Type) where
  | done (a : α)
  | act (f : σ → σ) (next : σ → Task σ α)
  /-- `set` and `trap` -/
  | set (f : ShellSettings → ShellSettings) (next : Task σ α)
  /-- A signal arrives. -/
  | signal (kind : ArkshTrapKind) (h : kind.isSignal) (next : Task σ α)
  /-- `exit` and `exec` -/
  | exit (next : Task σ α)
  /-- `arksh_shell_execute_line` -/
  | line (text : Text) (next : Int → Text → σ → Task σ α)
  /-- `execute_shell_function` -/
  | call (function : FunctionCall σ) (next : Int → Text → σ → Task σ α)
  /-- `arksh_shell_source_file` on the commands of the file; one that is refused or not complete
      ends it. -/
  | source (commands : List (SourceCommand σ)) (next : Int → Text → σ → Task σ α)

/-- What a `for` loop iterates over. -/
inductive ForIterable (I : Type) where
  | list (items : List I)
  | single (item : I)
  | empty

structure World (σ N I : Type) where
  lineShell : σ → LineShell
  parse : Text → Except String (ArkshAst N)
  perform : ArkshAstKind → N → σ → Task σ (Int × Text)
  letLine : Text → σ → Task σ (Int × Text)
  extendLine : Text → σ → Task σ (Int × Text)
  /-- The rendered value of the argument of `return`, or the error. -/
  returnValue : Text → σ → Task σ (Except Text Text)
  /-- The text of a condition as a value expression: its truth, if it is one. -/
  conditionValue : Text → σ → Task σ (Option Bool)
  /-- `evaluate_for_source` -/
  forSource : Text → σ → Task σ (Except Text (ForIterable I))
  /-- `arksh_value_set_from_item` succeeds. -/
  setFromItem : I → Bool
  /-- `assign_for_loop_variable` -/
  assignForLoopVariable : Text → I → σ → Option Text × σ
  /-- The branch of a `case` or `switch` command that is to be run, if there is one. -/
  selectBranch : ArkshAstKind → N → σ → Task σ (Except Text (Option Text))
  startBackgroundJob : Text → σ → (Int × Text) × σ
  /-- The body of a group gets its redirected input. -/
  enterCompound : N → σ → σ
  leaveCompound : N → σ → σ → σ
  /-- `apply_compound_command_redirections`: the output, or the error. -/
  redirectCompound : N → Int → Text → σ → Except Text Text × σ
  enterSudo : σ → σ
  leaveSudo : σ → σ
  refreshJobs : σ → σ

/-! ## 4. Events and the context -/

inductive Event where
  /-- A line, or a line in the background, starts with no control transfer under way or with
      one. -/
  | line (ready : Bool)
  | ended
  /-- A command of a file, a further line or function of a command, a condition that is no value
      expression, or a `for` loop, starts while a transfer is under way, by a control signal or
      not. -/
  | late (signalled : Bool)
  /-- The action of a trap. -/
  | trap (kind : ArkshTrapKind) (events : List Event)
  /-- The action of a trap starts, or a `return` takes effect, while a control signal is under
      way. -/
  | interrupted
  /-- A list, an `if` or a loop does not go on because of a control signal. -/
  | skipped
  | exit
  | background (text : Text)
  | loopStart
  /-- A loop turns to its condition or to its next item. -/
  | turn
  | loopEnd
  | functionStart
  | functionEnd
  /-- `break` or `continue`, with its count -/
  | loopControl (kind : ArkshControlSignalKind) (count : Nat)
  | returns
  /-- `break` or `continue` takes effect with a count above the loops of the current function whose
      bodies enclose it. -/
  | misplaced
  /-- A loop gives up on its output with a `break` or `continue` under way, or a function fails
      with a `return` under way. -/
  | abandoned
  /-- The output of a condition does not fit behind the output of the loop. -/
  | conditionOverflow
  /-- An item of a `for` loop cannot be turned into a value. -/
  | itemFailure
  /-- A function is called with the stack of function names full. -/
  | nameStackFull
  /-- A compound command ends with a status of its own. -/
  | gaveUp
  /-- A line fails outside of conditions: whether the status is its own, or that of a line within
      it; and whether the ERR trap has an action. -/
  | failed (own err : Bool)
  /-- The same line, behind the ERR trap: whether `set -e` is on in a running shell. -/
  | settled (own errexit : Bool)
  /-- `set -e` ends the shell. -/
  | stopped
  /-- A line handled without the parser fails outside of conditions, with an ERR action or with `set
      -e` on in a running shell. -/
  | unhandled

/-- What encloses a line: the number of loops of the current function whose bodies it is in; and
    whether a failure there is no failure. -/
structure Context where
  loops : Nat
  suppressed : Bool

namespace Context

def body (c : Context) : Context := { c with loops := c.loops + 1 }

def loopCondition (_ : Context) : Context := ⟨0, true⟩

def condition (c : Context) : Context := { c with suppressed := true }

def function (c : Context) : Context := { c with loops := 0 }

end Context

abbrev Exec (σ α : Type) := Trace Context Event (ArkshShell σ) α

variable {σ N I α : Type}

/-- No control transfer is under way. -/
def ArkshShell.ready (sh : ArkshShell σ) : Bool := sh.running && sh.controlSignal = .none

/-! ## 5. Control signals -/

/-- `arksh_shell_clear_control_signal` -/
def clearControlSignal (sh : ArkshShell σ) : ArkshShell σ :=
  { sh with controlSignal := .none, controlLevels := 0 }

def raiseControlSignal (kind : ArkshControlSignalKind) (levels : Nat) (sh : ArkshShell σ) :
    ArkshShell σ :=
  { sh with controlSignal := kind, controlLevels := levels }

inductive ArkshLoopControlAction where
  | none | breakLoop | continueLoop | propagate
  deriving DecidableEq

def resolveLoopControl (sh : ArkshShell σ) : ArkshLoopControlAction × ArkshShell σ :=
  match sh.controlSignal with
  | .none => (.none, sh)
  | .returnSignal => (.propagate, sh)
  | kind =>
    let levels := if sh.controlLevels > 0 then sh.controlLevels - 1 else sh.controlLevels
    if levels = 0 then
      (if kind = .breakSignal then .breakLoop else .continueLoop, clearControlSignal sh)
    else (.propagate, { sh with controlLevels := levels })

def decimalValue (digits : Text) : Nat := digits.foldl (fun v c => 10 * v + (c.toNat - '0'.toNat)) 0

def parsePositiveControlCount (text : Text) : Option Nat :=
  if text = [] then some 1
  else
    let unsigned := text.dropWhile isspace
    let digits := if unsigned.head? = some '+' then unsigned.drop 1 else unsigned
    if digits ≠ [] ∧ digits.all isdigit ∧ 0 < decimalValue digits ∧ decimalValue digits ≤ 1024 then
      some (decimalValue digits)
    else none

def controlLineArgument (keyword line : Text) : Text :=
  ((trimCopy arkshMaxLine line).drop keyword.length).dropWhile isspace

/-- The event of a `break` or `continue` line with its count, if that is one. -/
def reportLoopControl (kind : ArkshControlSignalKind) (count : Option Nat) : Exec σ Unit :=
  match count with
  | some count => tell (.loopControl kind count)
  | none => pure ()

def handleLoopControlLine (keyword : String) (kind : ArkshControlSignalKind) (line : Text) :
    Exec σ (Int × Text) := do
  let parsed := parsePositiveControlCount (controlLineArgument keyword.toList line)
  reportLoopControl kind parsed
  let sh ← getState
  if sh.loopDepth = 0 then return (1, (keyword ++ " is only valid inside loops").toList)
  else
    match parsed with
    | none => return (1, ("usage: " ++ keyword ++ " [positive-count]").toList)
    | some count => do
      let c ← getContext
      tellIf (c.loops < count) .misplaced
      modifyState (raiseControlSignal kind count)
      return (0, [])

/-! ## 6. The executors -/

def allocate : Exec σ Bool := do
  let sh ← getState
  modifyState fun sh => { sh with memory := fun n => sh.memory (n + 1) }
  return sh.memory 0

def outputTooLarge : Text := "combined command output too large".toList

/-- `append_output_segment`, into a buffer of `ARKSH_MAX_OUTPUT` bytes; `append_output_line` does
    the same. -/
def appendOutputSegment (out segment : Text) : Option Text :=
  if segment = [] then some out
  else if out = [] then
    if segment.length ≥ arkshMaxOutput then none else some segment
  else if out.length + 1 ≥ arkshMaxOutput ∨ out.length + 1 + segment.length ≥ arkshMaxOutput then
    none
  else some (out ++ '\n' :: segment)

/-- A compound command ends with a status of its own. -/
def giveUp (status : Int) (out : Text) : Exec σ (Int × Text) := do
  tell .gaveUp
  return (status, out)

def startLine : Exec σ Unit := do
  let sh ← getState
  tell (.line sh.ready)

def reportLate : Exec σ Unit := do
  let sh ← getState
  tellIf (¬ sh.ready) (.late (sh.controlSignal ≠ .none))

def reportInterrupted : Exec σ Unit := do
  let sh ← getState
  tellIf (sh.controlSignal ≠ .none) .interrupted

def reportSkipped : Exec σ Unit := do
  let sh ← getState
  tellIf (sh.controlSignal ≠ .none) .skipped

section Executors

variable (W : World σ N I) (exec : Text → Exec σ (Int × Text))

/-- A line that is run by something else than a list, a loop or a branch. -/
def executeFurther (text : Text) : Exec σ (Int × Text) := do
  reportLate
  exec text

def enterFunction : Exec σ Unit := do
  modifyState fun sh => { sh with functionDepth := sh.functionDepth + 1 }
  tell .functionStart
  let sh ← getState
  if sh.functionNameDepth < 32 then
    modifyState fun sh => { sh with functionNameDepth := sh.functionNameDepth + 1 }
  else tell .nameStackFull

/-- A `return` is over where the function succeeded. -/
def consumeReturn (status : Int) : Exec σ Unit := do
  let sh ← getState
  tellIf (status ≠ 0 ∧ sh.controlSignal = .returnSignal) .abandoned
  if status = 0 ∧ sh.controlSignal = .returnSignal then modifyState clearControlSignal
  else pure ()

def leaveFunction (status : Int) : Exec σ Unit := do
  modifyState fun sh => { sh with
    functionNameDepth :=
      if sh.functionNameDepth > 0 then sh.functionNameDepth - 1 else sh.functionNameDepth
    functionDepth := sh.functionDepth - 1 }
  consumeReturn status
  tell .functionEnd

def executeFunctionBody (body : Text) : Exec σ (Int × Text) := do
  enterFunction
  let result ← within Context.function (exec body)
  leaveFunction result.1
  return result

def executeShellFunction (function : FunctionCall σ) : Exec σ (Int × Text) := do
  reportLate
  let sh ← getState
  match function.bind sh.rest with
  | (.error message, rest) => do
    modifyState fun sh => { sh with rest := rest }
    return (1, message)
  | (.ok rest, _) => do
    modifyState fun sh => { sh with rest := rest }
    let result ← executeFunctionBody exec function.body
    modifyState fun sh => { sh with rest := function.leave sh.rest }
    return result

/-- The loop of `arksh_shell_source_file` over the commands of the file. -/
def executeSource : List (SourceCommand σ) → Text → Exec σ (Int × Text)
  | [], out => return (0, out)
  | c :: commands, out =>
    match c.command with
    | .error message => return (1, c.place ++ message)
    | .ok command => do
      modifyState fun sh => { sh with rest := c.enter sh.rest }
      let (status, lineOut) ← executeFurther exec command
      if status ≠ 0 then
        return (1, c.place ++ if lineOut = [] then "command failed".toList else lineOut)
      else
        match appendOutputSegment out lineOut with
        | none => return (1, c.place ++ "sourced output too large".toList)
        | some out => executeSource commands out

def runTask : Task σ α → Exec σ α
  | .done a => return a
  | .act f next => do
    modifyState fun sh => { sh with rest := f sh.rest }
    let sh ← getState
    runTask (next sh.rest)
  | .set f next => do
    modifyState fun sh => { sh with settings := f sh.settings }
    runTask next
  | .signal kind h next => do
    modifyState fun sh => { sh with pending := sh.pending.mark kind h }
    runTask next
  | .exit next => do
    tell .exit
    modifyState fun sh => { sh with running := false }
    runTask next
  | .line text next => do
    let (status, out) ← executeFurther exec text
    let sh ← getState
    runTask (next status out sh.rest)
  | .call function next => do
    let (status, out) ← executeShellFunction exec function
    let sh ← getState
    runTask (next status out sh.rest)
  | .source commands next => do
    let (status, out) ← executeSource exec commands []
    let sh ← getState
    runTask (next status out sh.rest)

def shouldRunListEntry (condition : ArkshListCondition) (previousStatus : Int) : Bool :=
  match condition with
  | .onSuccess => previousStatus = 0
  | .onFailure => previousStatus ≠ 0
  | .always => true

def isTested (rest : List ArkshCommandListEntry) : Bool :=
  match rest with
  | [] => false
  | next :: _ => next.condition ≠ .always

def executeEntry (entry : ArkshCommandListEntry) : Exec σ (Int × Text) :=
  if entry.runInBackground then do
    startLine
    tell (.background entry.text)
    let sh ← getState
    let (result, rest) := W.startBackgroundJob entry.text sh.rest
    modifyState fun sh => { sh with rest := rest }
    return result
  else exec entry.text

/-- A part whose status is tested, with `errexit_suppressed` raised. -/
def suppressErrexit (x : Exec σ α) : Exec σ α := do
  modifyState fun sh => { sh with errexitSuppressed := sh.errexitSuppressed + 1 }
  let result ← within Context.condition x
  modifyState fun sh => { sh with
    errexitSuppressed :=
      if sh.errexitSuppressed > 0 then sh.errexitSuppressed - 1 else sh.errexitSuppressed }
  return result

def executeTested (tested : Bool) (entry : ArkshCommandListEntry) : Exec σ (Int × Text) :=
  if tested then suppressErrexit (executeEntry W exec entry) else executeEntry W exec entry

def executeCommandList : List ArkshCommandListEntry → Int → Text → Exec σ (Int × Text)
  | [], previousStatus, out => return (previousStatus, out)
  | entry :: rest, previousStatus, out =>
    if ¬ shouldRunListEntry entry.condition previousStatus then
      executeCommandList rest previousStatus out
    else do
      let (status, segment) ← executeTested W exec (isTested rest) entry
      match appendOutputSegment out segment with
      | none => giveUp 1 outputTooLarge
      | some out => do
        let sh ← getState
        if sh.ready then executeCommandList rest status out
        else do
          reportSkipped
          return (status, out)

def evaluateConditionStatus (text : Text) : Exec σ (Option (Int × Text)) := do
  if ← allocate then
    let sh ← getState
    match ← runTask exec (W.conditionValue text sh.rest) with
    | some truth => return some (if truth then 0 else 1, [])
    | none => do
      let result ← executeFurther exec text
      return some result
  else return none

def enclosedCondition (g : Context → Context) (x : Exec σ α) : Exec σ α := do
  modifyState fun sh => { sh with inCondition := sh.inCondition + 1 }
  let result ← within g x
  modifyState fun sh => { sh with inCondition := sh.inCondition - 1 }
  return result

def executeBranch (out body : Text) : Exec σ (Int × Text) := do
  let (status, segment) ← exec body
  match appendOutputSegment out segment with
  | none => giveUp 1 outputTooLarge
  | some out => return (status, out)

def executeIfCommand (condition thenBranch : Text) (elseBranch : Option Text) :
    Exec σ (Int × Text) := do
  match ← enclosedCondition Context.condition (evaluateConditionStatus W exec condition) with
  | none => giveUp 1 []
  | some (conditionStatus, segment) =>
    match appendOutputSegment [] segment with
    | none => giveUp 1 outputTooLarge
    | some out => do
      let sh ← getState
      if sh.ready then
        if conditionStatus = 0 then executeBranch exec out thenBranch
        else
          match elseBranch with
          | some elseBranch => executeBranch exec out elseBranch
          | none => return (0, out)
      else do
        reportSkipped
        giveUp conditionStatus out

def enterLoop : Exec σ Unit := do
  modifyState fun sh => { sh with loopDepth := sh.loopDepth + 1 }
  tell .loopStart

def leaveLoop : Exec σ Unit := do
  modifyState fun sh => { sh with loopDepth := sh.loopDepth - 1 }
  tell .loopEnd

/-- The body of a loop, and what is left of a signal after it; `none` where its output does not
    fit. -/
def executeBody (out body : Text) :
    Exec σ (Option (ArkshLoopControlAction × Int × Text)) := do
  let (status, segment) ← within Context.body (exec body)
  reportSkipped
  let sh ← getState
  match appendOutputSegment out segment with
  | none => do
    tellIf (sh.controlSignal = .breakSignal ∨ sh.controlSignal = .continueSignal) .abandoned
    return none
  | some out => do
    modifyState fun sh => (resolveLoopControl sh).2
    return some ((resolveLoopControl sh).1, status, out)

/-- The loop of `execute_while_command`, and with `stopsOn = true` that of
    `execute_until_command`. -/
def executeLoop (stopsOn : Bool) (condition body : Text) : Nat → Int → Text → Exec σ (Int × Text)
  | 0, _, _ => cut
  | turns + 1, lastBodyStatus, out => do
    tell .turn
    let sh ← getState
    if ¬ sh.running then do
      leaveLoop
      return (lastBodyStatus, out)
    else
      match ← enclosedCondition Context.loopCondition
          (evaluateConditionStatus W exec condition) with
      | none => do
        leaveLoop
        giveUp 1 out
      | some (conditionStatus, segment) =>
        match appendOutputSegment out segment with
        | none => do
          -- here the source returns without lowering `loop_depth`
          tell .conditionOverflow
          tell .loopEnd
          giveUp 1 outputTooLarge
        | some out => do
          let sh ← getState
          if ¬ sh.ready then do
            reportSkipped
            leaveLoop
            giveUp conditionStatus out
          else if decide (conditionStatus = 0) = stopsOn then do
            leaveLoop
            return (lastBodyStatus, out)
          else
            match ← executeBody exec out body with
            | none => do
              leaveLoop
              giveUp 1 outputTooLarge
            | some (.breakLoop, _, out) => do
              leaveLoop
              return (0, out)
            | some (.continueLoop, _, out) => executeLoop stopsOn condition body turns 0 out
            | some (.propagate, status, out) => do
              leaveLoop
              return (status, out)
            | some (.none, status, out) => executeLoop stopsOn condition body turns status out

def executeWhileCommand (condition body : Text) (turns : Nat) : Exec σ (Int × Text) := do
  enterLoop
  executeLoop W exec false condition body turns 0 []

def executeUntilCommand (condition body : Text) (turns : Nat) : Exec σ (Int × Text) := do
  enterLoop
  executeLoop W exec true condition body turns 0 []

def executeForItems (name body : Text) : List I → Int → Text → Exec σ (Int × Text)
  | [], lastBodyStatus, out => do
    tell .turn
    leaveLoop
    return (lastBodyStatus, out)
  | item :: items, lastBodyStatus, out => do
    tell .turn
    let sh ← getState
    if ¬ sh.running then do
      leaveLoop
      return (lastBodyStatus, out)
    else if ¬ (← allocate) then do
      leaveLoop
      giveUp 1 "unable to allocate for-loop current value".toList
    else if ¬ W.setFromItem item then do
      -- here the source returns without lowering `loop_depth`
      tell .itemFailure
      tell .loopEnd
      giveUp 1 "unable to prepare for-loop item".toList
    else
      match W.assignForLoopVariable name item sh.rest with
      | (some message, rest) => do
        modifyState fun sh => { sh with rest := rest }
        leaveLoop
        giveUp 1 message
      | (none, rest) => do
        modifyState fun sh => { sh with rest := rest }
        match ← executeBody exec out body with
        | none => do
          leaveLoop
          giveUp 1 outputTooLarge
        | some (.breakLoop, _, out) => do
          leaveLoop
          return (0, out)
        | some (.continueLoop, _, out) => executeForItems name body items 0 out
        | some (.propagate, status, out) => do
          leaveLoop
          return (status, out)
        | some (.none, status, out) => executeForItems name body items status out

/-- The part of `execute_for_command` for a value that is no list. -/
def executeForSingle (name body : Text) (item : I) : Exec σ (Int × Text) := do
  tell .turn
  let sh ← getState
  match W.assignForLoopVariable name item sh.rest with
  | (some message, rest) => do
    modifyState fun sh => { sh with rest := rest }
    leaveLoop
    giveUp 1 message
  | (none, rest) => do
    modifyState fun sh => { sh with rest := rest }
    match ← executeBody exec [] body with
    | none => do
      leaveLoop
      giveUp 1 outputTooLarge
    | some (.breakLoop, _, out) => do
      leaveLoop
      return (0, out)
    | some (.continueLoop, _, out) => do
      tell .turn
      leaveLoop
      return (0, out)
    | some (.propagate, status, out) => do
      leaveLoop
      return (status, out)
    | some (.none, status, out) => do
      tell .turn
      leaveLoop
      return (status, out)

/-- The part of `execute_for_command` behind its source. -/
def executeForIterable (name body : Text) : ForIterable I → Exec σ (Int × Text)
  | .list items => executeForItems W exec name body items 0 []
  | .empty => do
    leaveLoop
    return (0, [])
  | .single item => executeForSingle W exec name body item

def executeForCommand (name source body : Text) : Exec σ (Int × Text) := do
  if ← allocate then
    let sh ← getState
    match ← runTask exec (W.forSource source sh.rest) with
    | .error message => giveUp 1 message
    | .ok iterable => do
      reportLate
      enterLoop
      executeForIterable W exec name body iterable
  else giveUp 1 "unable to allocate for-loop iterable".toList

def executeSelected (kind : ArkshAstKind) (node : N) : Exec σ (Int × Text) := do
  let sh ← getState
  match ← runTask exec (W.selectBranch kind node sh.rest) with
  | .error message => giveUp 1 message
  | .ok none => return (0, [])
  | .ok (some body) => executeFurther exec body

def executeGroupCommand (node : N) (body : Text) : Exec σ (Int × Text) := do
  let before ← getState
  modifyState fun sh => { sh with rest := W.enterCompound node sh.rest }
  let (status, commandOutput) ← exec body
  modifyState fun sh => { sh with rest := W.leaveCompound node before.rest sh.rest }
  let sh ← getState
  match W.redirectCompound node status commandOutput sh.rest with
  | (.error message, rest) => do
    modifyState fun sh => { sh with rest := rest }
    giveUp 1 message
  | (.ok out, rest) => do
    modifyState fun sh => { sh with rest := rest }
    return (status, out)

def executeWithSudoCommand (body : Text) : Exec σ (Int × Text) := do
  modifyState fun sh => { sh with rest := W.enterSudo sh.rest }
  let result ← exec body
  modifyState fun sh => { sh with rest := W.leaveSudo sh.rest }
  return result

def arkshExecuteAst (turns : Nat) (ast : ArkshAst N) : Exec σ (Int × Text) :=
  match ast with
  | .empty => return (0, [])
  | .plain kind node => do
    let sh ← getState
    runTask exec (W.perform kind node sh.rest)
  | .commandList entries => executeCommandList W exec entries 0 []
  | .groupCommand node body => executeGroupCommand W exec node body
  | .ifCommand condition thenBranch elseBranch =>
    executeIfCommand W exec condition thenBranch elseBranch
  | .whileCommand condition body => executeWhileCommand W exec condition body turns
  | .untilCommand condition body => executeUntilCommand W exec condition body turns
  | .forCommand name source body => executeForCommand W exec name source body
  | .caseCommand node => executeSelected W exec .caseCommand node
  | .switchCommand node => executeSelected W exec .switchCommand node
  | .withSudoCommand body => executeWithSudoCommand W exec body

end Executors

/-! ## 7. A line -/

def ArkshTrapEntry.action (entry : ArkshTrapEntry) : Option Text :=
  if entry.active ∧ entry.command ≠ [] then some entry.command else none

def ArkshShell.hasErrAction (sh : ArkshShell σ) : Bool := (sh.settings.traps .err).action.isSome

/-- `set -e` is on in a running shell. -/
def ArkshShell.stopsOnError (sh : ArkshShell σ) : Bool := sh.settings.optErrexit && sh.running

/-- A branch of `arksh_shell_execute_line` that sets the status and returns. -/
def finishDirect (x : Exec σ (Int × Text)) : Exec σ (Int × Text) := do
  let (status, out) ← x
  modifyState fun sh => { sh with lastStatus := status }
  let c ← getContext
  let sh ← getState
  tellIf (status ≠ 0 ∧ ¬ c.suppressed ∧ (sh.hasErrAction ∨ sh.stopsOnError)) .unhandled
  tell .ended
  return (status, out)

section Line

variable (W : World σ N I) (exec : Text → Exec σ (Int × Text))

def handleReturnLine (line : Text) : Exec σ (Int × Text) := do
  let sh ← getState
  let argument := controlLineArgument "return".toList line
  if sh.functionDepth = 0 then do
    tell .returns
    return (1, "return is only valid inside shell functions".toList)
  else if argument = [] then do
    tell .returns
    modifyState (raiseControlSignal .returnSignal 1)
    return (0, [])
  else
    match ← runTask exec (W.returnValue argument sh.rest) with
    | .error message => return (1, message)
    | .ok out => do
      reportInterrupted
      tell .returns
      modifyState (raiseControlSignal .returnSignal 1)
      return (0, out)

def executeTrap (kind : ArkshTrapKind) (command : Text) : Exec σ Unit := do
  reportInterrupted
  let _ ← enclose (Event.trap kind) (exec command)

/-- The body of the loop of `fire_pending_traps`, for a signal that has arrived. -/
def firePendingTrap (kind : ArkshTrapKind) : Exec σ Unit := do
  modifyState fun sh => { sh with
    pending := sh.pending.clear kind
    rest := if kind = .chld then W.refreshJobs sh.rest else sh.rest }
  let sh ← getState
  match (if (sh.settings.traps kind).ignored then none else (sh.settings.traps kind).action) with
  | some command => executeTrap exec kind command
  | none => pure ()

def firePendingTraps : List ArkshTrapKind → Exec σ Unit
  | [] => pure ()
  | kind :: kinds => do
    let sh ← getState
    if sh.pending.pending kind then do
      firePendingTrap W exec kind
      firePendingTraps kinds
    else firePendingTraps kinds

def setErrTrap (active : Bool) (sh : ArkshShell σ) : ArkshShell σ :=
  { sh with settings := { sh.settings with
      traps := Function.update sh.settings.traps .err
        { sh.settings.traps .err with active := active } } }

def reportFailure (event : Event) : Exec σ Unit := do
  let c ← getContext
  if c.suppressed then pure () else tell event

def executeErrTrap : Exec σ Unit := do
  let sh ← getState
  match (sh.settings.traps .err).action with
  | some command => do
    modifyState (setErrTrap false)
    executeTrap exec .err command
    modifyState (setErrTrap true)
  | none => pure ()

/-- `set -e` -/
def stopOnError (own : Bool) : Exec σ Unit := do
  let sh ← getState
  reportFailure (.settled own sh.stopsOnError)
  tellIf sh.stopsOnError .stopped
  if sh.settings.optErrexit then modifyState fun sh => { sh with running := false }
  else pure ()

def failLine (status : Int) (own : Bool) : Exec σ Unit := do
  if status = 0 then pure ()
  else do
    let sh ← getState
    reportFailure (.failed own sh.hasErrAction)
    if sh.inCondition = 0 ∧ sh.errexitSuppressed = 0 ∧ ¬ sh.runningExitTrap then do
      executeErrTrap exec
      stopOnError own
    else reportFailure (.settled own sh.stopsOnError)

/-- The last thing that happened is that a compound command gave up or that a job was started. -/
def endsItself (events : List Event) : Bool :=
  match events.getLast? with
  | some .gaveUp => true
  | some (.background _) => true
  | _ => false

def finishLine (plain : Bool) (x : Exec σ (Int × Text)) : Exec σ (Int × Text) := do
  let ((status, out), events) ← listen x
  modifyState fun sh => { sh with lastStatus := status }
  firePendingTraps W exec ArkshTrapKind.all
  failLine exec status (plain || endsItself events)
  tell .ended
  return (status, out)

def ArkshAst.isPlain : ArkshAst N → Bool
  | .plain _ _ => true
  | _ => false

def World.parserBody : ParserBody (ArkshAst N) := ⟨W.parse, ArkshAst.kind, .empty, rfl⟩

def runAction (turns : Nat) (action : Action (ArkshAst N)) : Exec σ (Int × Text) := do
  let sh ← getState
  match action with
  | .letLine line => finishDirect (runTask exec (W.letLine line sh.rest))
  | .extendLine line => finishDirect (runTask exec (W.extendLine line sh.rest))
  | .breakLine line => finishDirect (handleLoopControlLine "break" .breakSignal line)
  | .continueLine line => finishDirect (handleLoopControlLine "continue" .continueSignal line)
  | .returnLine line => finishDirect (handleReturnLine W exec line)
  | .program ast => finishLine W exec ast.isPlain (arkshExecuteAst W exec turns ast)

def refuseLine (message : Text) : Exec σ (Int × Text) := do
  modifyState fun sh => { sh with lastStatus := 1 }
  return (1, message)

/-- The tree of a program is allocated. Where it cannot be and the parser refuses the line too, only
    the message differs; that case is not followed. -/
def allocateTree (action : Action (ArkshAst N)) : Exec σ Bool :=
  match action with
  | .program _ => allocate
  | _ => return true

def executeLineStep (turns : Nat) (line : Text) : Exec σ (Int × Text) := do
  let sh ← getState
  match arkshShellExecuteLine (W.lineShell sh.rest) W.parserBody line with
  | .blank => do
    modifyState fun sh => { sh with lastStatus := 0 }
    return (0, [])
  | .refused message => refuseLine message.toList
  | .runs action => do
    if ← allocateTree action then
      startLine
      runAction W exec turns action
    else refuseLine "unable to allocate parser state".toList

end Line

/-- `arksh_shell_execute_line`, followed for at most `n` lines within lines and `n` turns of a
    loop. -/
def executeLine (W : World σ N I) : Nat → Text → Exec σ (Int × Text)
  | 0 => fun _ => cut
  | n + 1 => executeLineStep W (executeLine W n) n

/-- The loop of `arksh_shell_run_repl` over its commands; `historyAdd` is what the history does to
    the rest. -/
def runRepl (exec : Text → Exec σ (Int × Text)) (historyAdd : Text → σ → σ) :
    List Text → Exec σ Unit
  | [] => return ()
  | command :: commands => do
    let sh ← getState
    if sh.running then do
      modifyState fun sh => { sh with rest := historyAdd command sh.rest }
      let _ ← exec command
      runRepl exec historyAdd commands
    else return ()

/-! ## 8. A shell that has just started, and a world given by tables -/

def freshShell (rest : σ) : ArkshShell σ where
  running := true
  lastStatus := 0
  controlSignal := .none
  controlLevels := 0
  loopDepth := 0
  functionDepth := 0
  functionNameDepth := 0
  inCondition := 0
  errexitSuppressed := 0
  runningExitTrap := false
  settings := ⟨fun _ => ⟨[], false, false⟩, false⟩
  pending := .none
  rest := rest
  memory := fun _ => true

/-- Outside of everything. -/
def Context.top : Context := ⟨0, false⟩

def tableWorld (trees : List (String × ArkshAst String))
    (commands : List (String × Task Unit (Int × Text))) : World Unit String Unit where
  lineShell _ := ⟨fun _ => none, false⟩
  parse text :=
    match trees.find? fun (line, _) => line.toList = text with
    | some (_, ast) => .ok ast
    | none => .error "parse error"
  perform _ node _ :=
    match commands.find? fun (name, _) => name = node with
    | some (_, task) => task
    | none => .done (1, "command not found".toList)
  letLine _ _ := .done (1, [])
  extendLine _ _ := .done (1, [])
  returnValue text _ := .done (.ok text)
  conditionValue _ _ := .done none
  forSource source _ := .done (.ok (.list ((source.splitOn ' ').map fun _ => ())))
  setFromItem _ := true
  assignForLoopVariable _ _ _ := (none, ())
  selectBranch _ _ _ := .done (.ok none)
  startBackgroundJob _ _ := ((0, []), ())
  enterCompound _ _ := ()
  leaveCompound _ _ _ := ()
  redirectCompound _ _ out _ := (.ok out, ())
  enterSudo _ := ()
  leaveSudo _ := ()
  refreshJobs _ := ()

/-- A function without parameters, in a world of few lines. -/
def tableCall (body : String) : Task Unit (Int × Text) :=
  .call ⟨fun _ => (.ok (), ()), body.toList, fun _ => ()⟩ fun status out _ => .done (status, out)

end Arksh
