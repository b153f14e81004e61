/-
  Subject: The builtins that change a shell, as calls of the setters of `src/shell.c`.

  A builtin reads its arguments and the shell, and then calls setters until one of them fails. So
  it is the list of its calls, and what a run of builtins can do is what the setters can do.

  The texts that a builtin prints are left out, and so are its listings. Allocations, `setenv` and
  `sigaction` are taken to succeed.
-/
import Arksh.Exec.Executor
import Arksh.Expand.Parameter
import Arksh.Platform.ResolvePath
import Arksh.Shell.Vars

namespace Arksh

open CText Tables

/-! ## 1. The shell and its process -/

def arkshMaxFunctions : Nat := 32
def arkshMaxAliases : Nat := 32
def arkshMaxClasses : Nat := 32
def arkshMaxAliasValue : Nat := 1024
def arkshMaxPositionalParams : Nat := 64

instance : NeZero arkshMaxName := ⟨by decide⟩

inductive ArkshSignalPolicy where
  | default | ignore | handle | restoreAndDefault
  deriving DecidableEq

/-- What the process holds beside its environment. -/
structure Process where
  cwd : Text
  umask : Nat
  signals : ArkshTrapKind → ArkshSignalPolicy

/-- What the system answers: where `chdir` of a path ends, the text of `getcwd`, and whether the
    line editor is interactive. -/
structure System where
  chdir : Text → Text → Option Text
  getcwd : Text → Option Text
  interactive : Bool

inductive ShellOption where
  | errexit | nounset | xtrace | pipefail
  deriving DecidableEq

structure ArkshShellFunction where
  params : List Text
  body : Text
  source : Text

/-- The fields of an `ArkshShell` that the builtins here change; `C` is the definition of a class,
    `spare` the cells of the root array of positional parameters behind `positional_count`. -/
structure ShellTables (C : Type) where
  store : VarStore
  spare : List Text
  functions : NameTable arkshMaxName arkshMaxFunctions ArkshShellFunction
  classes : NameTable arkshMaxName arkshMaxClasses C
  aliases : NameTable arkshMaxVarName arkshMaxAliases Text
  options : ShellOption → Bool
  traps : ArkshTrapKind → ArkshTrapEntry
  cwd : Text
  process : Process

variable {C : Type}

/-! ## 2. Bindings and names that refer to others -/

def lookupVisibleBinding (sh : VarStore) (name : Text) : Option ArkshValue :=
  match sh.frames.findSome? (·.bindings.find name) with
  | some entry => if entry.deleted then none else some entry.value
  | none => sh.bindings.find name

def namerefTarget (value : Text) : Option Text :=
  if arkshNamerefPrefix.isPrefixOf value then
    some (copyString arkshMaxVarName (value.drop arkshNamerefPrefix.length))
  else none

def followNameref (sh : VarStore) : Nat → Text → Option Text
  | 0, _ => none
  | hops + 1, current =>
    match (arkshShellGetVar sh current).bind namerefTarget with
    | some target => followNameref sh hops target
    | none => some current

def arkshShellResolveNameref (sh : VarStore) (name : Text) : Option Text :=
  ((arkshShellGetVar sh name).bind namerefTarget).bind (followNameref sh 32)

def arkshShellGetBinding (sh : VarStore) (name : Text) : Option ArkshValue :=
  if name = [] then none
  else
    (lookupVisibleBinding sh name).or
      ((arkshShellResolveNameref sh name).bind (lookupVisibleBinding sh))

def arkshShellSetBinding (sh : VarStore) (name : Text) (value : ArkshValue) : Nat × VarStore :=
  if ¬ isValidIdentifier name then (1, sh)
  else
    match sh.frames with
    | frame :: previous =>
      match frame.bindings.store name fun _ => ⟨arkshValueCopy value, false⟩ with
      | none => (1, sh)
      | some bindings => (0, { sh with frames := { frame with bindings } :: previous })
    | [] =>
      match sh.bindings.store name fun _ => arkshValueCopy value with
      | none => (1, sh)
      | some bindings => (0, { sh with bindings })

def arkshShellUnsetBinding (sh : VarStore) (name : Text) : Nat × VarStore :=
  if ¬ isValidIdentifier name then (1, sh)
  else
    match sh.frames with
    | frame :: previous =>
      match frame.bindings.store name fun _ => ⟨arkshValueInit, true⟩ with
      | none => (1, sh)
      | some bindings => (0, { sh with frames := { frame with bindings } :: previous })
    | [] =>
      match sh.bindings.find name with
      | none => (1, sh)
      | some _ => (0, { sh with bindings := sh.bindings.remove name })

/-! ## 3. The setters -/

def shiftFrames (count : Nat) : List ArkshScopeFrame → Option (Nat × List ArkshScopeFrame)
  | [] => none
  | frame :: previous =>
    match frame.positional with
    | some params =>
      if params.length < count then some (1, frame :: previous)
      else some (0, { frame with positional := some (params.drop count) } :: previous)
    | none => (shiftFrames count previous).map fun r => (r.1, frame :: r.2)

/-- `arksh_shell_shift_positional`. In the root array the cells move down, those left are
    emptied. -/
def arkshShellShiftPositional (sh : ShellTables C) (count : Int) : Nat × ShellTables C :=
  if count < 0 then (1, sh)
  else
    match shiftFrames count.toNat sh.store.frames with
    | some (status, frames) => (status, { sh with store := { sh.store with frames } })
    | none =>
      if sh.store.positional.length < count.toNat then (1, sh)
      else
        (0, { sh with
          store := { sh.store with positional := sh.store.positional.drop count.toNat }
          spare := List.replicate count.toNat [] ++ sh.spare })

def arkshShellSetPositionalArgv (sh : ShellTables C) (values : List Text) :
    Nat × ShellTables C :=
  if arkshMaxPositionalParams < values.length then (1, sh)
  else
    let stored := values.map (copyString arkshMaxVarValue)
    match sh.store.frames with
    | frame :: previous =>
      let frames := { frame with positional := some stored } :: previous
      (0, { sh with store := { sh.store with frames } })
    | [] =>
      let old := sh.store.positional.length
      (0, { sh with
        store := { sh.store with positional := stored }
        spare := List.replicate (old - stored.length) [] ++ sh.spare.drop (stored.length - old) })

def trapKindIsInteractiveIgnored : ArkshTrapKind → Bool
  | .int | .quit | .tstp | .ttin | .ttou => true
  | _ => false

def trapKindShouldRestoreOnTerminate : ArkshTrapKind → Bool
  | .hup | .quit | .ill | .abrt | .fpe | .segv | .pipe | .alrm | .term | .usr1 | .usr2 => true
  | _ => false

def signalPolicyForTrap (sys : System) (traps : ArkshTrapKind → ArkshTrapEntry)
    (kind : ArkshTrapKind) : ArkshSignalPolicy :=
  if (traps kind).active then if (traps kind).ignored then .ignore else .handle
  else if sys.interactive && trapKindIsInteractiveIgnored kind then .ignore
  else if sys.interactive && decide (kind = .chld) then .handle
  else if trapKindShouldRestoreOnTerminate kind then .restoreAndDefault
  else .default

def setTrap (sys : System) (sh : ShellTables C) (kind : ArkshTrapKind) (entry : ArkshTrapEntry) :
    ShellTables C :=
  let traps := Function.update sh.traps kind entry
  if kind = .exit ∨ kind = .err then { sh with traps }
  else
    let signals := Function.update sh.process.signals kind (signalPolicyForTrap sys traps kind)
    { sh with traps, process := { sh.process with signals } }

inductive ShellCall (C : Type) where
  /-- `arksh_shell_set_var` -/
  | setVar (name value : Text) (exported : Bool)
  /-- The same on what the name refers to. -/
  | assign (name value : Text)
  /-- `arksh_shell_unset_var` and `arksh_shell_unset_binding`, of what the name refers to unless
      `namerefOnly`. -/
  | unsetName (namerefOnly : Bool) (name : Text)
  | setBinding (name : Text) (value : ArkshValue)
  /-- `remove_assoc_binding_key` -/
  | removeKey (name key : Text)
  | setPositional (values : List Text)
  | shiftPositional (count : Int)
  /-- `arksh_shell_set_function` -/
  | setFunction (name : Text) (function : ArkshShellFunction)
  /-- The end of `arksh_shell_set_class`. -/
  | setClass (name : Text) (definition : C)
  /-- `arksh_shell_set_alias` -/
  | setAlias (name value : Text)
  | setOption (option : ShellOption) (enable : Bool)
  | setTrap (kind : ArkshTrapKind) (entry : ArkshTrapEntry)
  /-- `chdir`, behind which the process is in `directory`, and what `getcwd` reports. -/
  | chdir (directory : Text) (cwd : Option Text)
  | umask (mask : Nat)
  /-- The builtin fails. -/
  | fail

def isValidAliasName (name : Text) : Bool :=
  name ≠ [] && name.all fun c => !isspace c && !"|<>()=,".toList.contains c

def withoutKey (binding : ArkshValue) (key : Text) : Option ArkshValue :=
  (binding.map.filter fun entry => entry.key.1 ≠ key).foldlM
    (fun value entry => arkshValueMapSet value entry.key.1 (arkshValueSetFromItem entry.value))
    arkshValueSetDict

def updateTable {size cap : Nat} [NeZero size] {E : Type} (sh : ShellTables C)
    (table : NameTable size cap E) (name : Text) (entry : E)
    (withTable : NameTable size cap E → ShellTables C) : Nat × ShellTables C :=
  match table.store name fun _ => entry with
  | none => (1, sh)
  | some table => (0, withTable table)

def ShellCall.run (sys : System) (sh : ShellTables C) : ShellCall C → Nat × ShellTables C
  | .setVar name value exported =>
    let r := arkshShellSetVar sh.store name value exported
    (r.1, { sh with store := r.2 })
  | .assign name value =>
    let r := arkshShellSetVar sh.store ((arkshShellResolveNameref sh.store name).getD name) value false
    (r.1, { sh with store := r.2 })
  | .unsetName namerefOnly name =>
    let target :=
      if namerefOnly then name else (arkshShellResolveNameref sh.store name).getD name
    let r := arkshShellUnsetVar sh.store target
    let r' := arkshShellUnsetBinding r.2 target
    (if r.1 = 0 ∨ r'.1 = 0 then 0 else 1, { sh with store := r'.2 })
  | .setBinding name value =>
    let r := arkshShellSetBinding sh.store name value
    (r.1, { sh with store := r.2 })
  | .removeKey name key =>
    match (arkshShellGetBinding sh.store name).bind fun binding =>
        if binding.kind = .dict then withoutKey binding key else none with
    | none => (1, sh)
    | some value =>
      let r := arkshShellSetBinding sh.store name value
      (r.1, { sh with store := r.2 })
  | .setPositional values => arkshShellSetPositionalArgv sh values
  | .shiftPositional count => arkshShellShiftPositional sh count
  | .setFunction name function =>
    if isValidIdentifier name then
      updateTable sh sh.functions name function fun functions => { sh with functions }
    else (1, sh)
  | .setClass name definition =>
    if isValidIdentifier name then
      updateTable sh sh.classes name definition fun classes => { sh with classes }
    else (1, sh)
  | .setAlias name value =>
    if isValidAliasName name then
      updateTable sh sh.aliases name (copyString arkshMaxAliasValue value) fun aliases =>
        { sh with aliases }
    else (1, sh)
  | .setOption option enable =>
    (0, { sh with options := Function.update sh.options option enable })
  | .setTrap kind entry => (0, Arksh.setTrap sys sh kind entry)
  | .chdir directory cwd =>
    let process := { sh.process with cwd := directory }
    match cwd with
    | some cwd => (0, { sh with process, cwd })
    | none => (1, { sh with process })
  | .umask mask => (0, { sh with process := { sh.process with umask := mask } })
  | .fail => (1, sh)

def runCalls (sys : System) : List (ShellCall C) → ShellTables C → Nat × ShellTables C
  | [], sh => (0, sh)
  | call :: calls, sh =>
    let r := call.run sys sh
    if r.1 = 0 then runCalls sys calls r.2 else r

/-! ## 4. Arguments -/

def splitAssignment (nameSize valueSize : Nat) (text : Text) : Option (Text × Text) :=
  let name := text.takeWhile (· ≠ '=')
  match text.dropWhile (· ≠ '=') with
  | [] => none
  | _ :: value =>
    if name = [] ∨ nameSize ≤ name.length then none else some (name, copyString valueSize value)

/-- The loop of `join_arguments` behind the first argument. -/
def joinFurther (size : Nat) : List Text → Text → Option Text
  | [], out => some out
  | arg :: args, out =>
    (appendText size out [' ']).bind fun out =>
      (appendText size out arg).bind (joinFurther size args)

def joinArguments (size : Nat) : List Text → Option Text
  | [] => some []
  | arg :: args => (appendText size [] arg).bind (joinFurther size args)

def parseAssocReference (text : Text) : Option (Text × Text) :=
  let isName (c : Char) : Bool := isalnum c || c = '_'
  let name := text.takeWhile isName
  match text.dropWhile isName with
  | '[' :: rest =>
    let key := rest.takeWhile (· ≠ ']')
    if arkshMaxVarName ≤ name.length ∨ arkshMaxName ≤ key.length ∨
        rest.dropWhile (· ≠ ']') ≠ [']'] then none
    else if isValidIdentifier name ∧ stripAssocKeyQuotes key ≠ [] then
      some (name, stripAssocKeyQuotes key)
    else none
  | _ => none

/-- The option behind `set -o`, and whether its name turns the sense around. -/
def optionNamed (name : Text) : Option (ShellOption × Bool) :=
  if name = "errexit".toList then some (.errexit, false)
  else if name = "nounset".toList then some (.nounset, false)
  else if name = "xtrace".toList then some (.xtrace, false)
  else if name = "pipefail".toList then some (.pipefail, false)
  else if name = "nopipefail".toList then some (.pipefail, true)
  else none

def optionOfLetter (c : Char) : Option ShellOption :=
  if c = 'e' then some .errexit else if c = 'u' then some .nounset
  else if c = 'x' then some .xtrace else none

/-- The letters of one argument of `set`: the calls, and whether all of them are known. -/
def setLetters (enable : Bool) : Text → List (ShellCall C) × Bool
  | [] => ([], true)
  | c :: letters =>
    match optionOfLetter c with
    | some option =>
      let r := setLetters enable letters
      (.setOption option enable :: r.1, r.2)
    | none => ([], false)

/-- What is left of the arguments of `set` behind its flags. -/
inductive SetRest where
  | failed
  /-- Behind `--`. -/
  | positional (values : List Text)
  | words (args : List Text)

def setFlags : List Text → List (ShellCall C) × SetRest
  | [] => ([], .words [])
  | [arg] =>
    if arg.head? ≠ some '-' ∧ arg.head? ≠ some '+' then ([], .words [arg])
    else if arg = ['-', '-'] then ([], .positional [])
    else if arg = ['-', 'o'] ∨ arg = ['+', 'o'] then ([], .failed)
    else
      let r := setLetters (arg.head? = some '-') arg.tail
      (r.1, .words (if r.2 then [] else [arg]))
  | arg :: next :: args =>
    if arg.head? ≠ some '-' ∧ arg.head? ≠ some '+' then ([], .words (arg :: next :: args))
    else if arg = ['-', '-'] then ([], .positional (next :: args))
    else if arg = ['-', 'o'] ∨ arg = ['+', 'o'] then
      match optionNamed next with
      | some (option, inverse) =>
        let r := setFlags args
        (.setOption option ((arg.head? = some '-') != inverse) :: r.1, r.2)
      | none => ([], .failed)
    else
      let r := setLetters (arg.head? = some '-') arg.tail
      if r.2 then
        let r' := setFlags (next :: args)
        (r.1 ++ r'.1, r'.2)
      else (r.1, .words (arg :: next :: args))

/-- `strtol` in base ten, of the whole text, for a count that is an `int`. -/
def parseShiftCount (text : Text) : Option Int :=
  let numeral (neg : Bool) (digits : Text) : Option Int :=
    if digits ≠ [] ∧ digits.all isdigit then
      let value := clamp (if neg then -digitsValue 10 digits else digitsValue 10 digits)
      if value < 0 then none else some (value.bmod (2 ^ 32))
    else none
  match text.dropWhile isspace with
  | '-' :: digits => numeral true digits
  | '+' :: digits => numeral false digits
  | digits => numeral false digits

def parseOctalUmask (text : Text) : Option Nat :=
  if text ≠ [] ∧ text.all isoctdigit ∧ digitsValue 8 text ≤ 0o777 then some (digitsValue 8 text)
  else none

/-- `umask_bits_for_who`, of the bits of one permission in the order of `who_mask`. -/
def umaskBitsForWho (who : Nat) (bit : Nat) : Nat :=
  (if who.testBit 0 then bit * 64 else 0) ||| (if who.testBit 1 then bit * 8 else 0) |||
    (if who.testBit 2 then bit else 0)

def permBit (c : Char) : Nat := if c = 'r' then 4 else if c = 'w' then 2 else 1

def whoBits (c : Char) : Nat := if c = 'u' then 1 else if c = 'g' then 2 else if c = 'o' then 4 else 7

/-- The loop of `apply_symbolic_umask`; each clause takes at least its operator. -/
def symbolicClauses : Nat → Nat → Text → Option Nat
  | 0, _, _ => none
  | _ + 1, perms, [] => some perms
  | fuel + 1, perms, spec =>
    let isWho (c : Char) : Bool := c = 'u' || c = 'g' || c = 'o' || c = 'a'
    let isPerm (c : Char) : Bool := c = 'r' || c = 'w' || c = 'x'
    let named := (spec.takeWhile isWho).foldl (fun who c => who ||| whoBits c) 0
    let who := if named = 0 then 7 else named
    match spec.dropWhile isWho with
    | [] => none
    | op :: rest =>
      let bits := (rest.takeWhile isPerm).foldl (fun b c => b ||| umaskBitsForWho who (permBit c)) 0
      let scope := umaskBitsForWho who 7
      let perms? :=
        if op = '+' then some (perms ||| bits)
        else if op = '-' then some (perms &&& (0o777 ^^^ bits))
        else if op = '=' then some ((perms &&& (0o777 ^^^ scope)) ||| (bits &&& scope))
        else none
      match perms?, rest.dropWhile isPerm with
      | some perms, [] => some perms
      | some perms, ',' :: spec => symbolicClauses fuel perms spec
      | _, _ => none

def applySymbolicUmask (currentMask : Nat) (spec : Text) : Option Nat :=
  if spec = [] then none
  else
    (symbolicClauses (spec.length + 1) (0o777 &&& (0o777 ^^^ (currentMask &&& 0o777))) spec).map
      fun perms => 0o777 ^^^ perms

def trapKindNamed (name : Text) : Option ArkshTrapKind :=
  [("EXIT", .exit), ("ERR", .err), ("HUP", .hup), ("INT", .int), ("QUIT", .quit), ("ILL", .ill),
    ("ABRT", .abrt), ("FPE", .fpe), ("SEGV", .segv), ("PIPE", .pipe), ("ALRM", .alrm),
    ("TERM", .term), ("USR1", .usr1), ("USR2", .usr2), ("CHLD", .chld), ("TSTP", .tstp),
    ("TTIN", .ttin), ("TTOU", .ttou)].findSome?
    fun (known, kind) => if known.toList = name then some kind else none

def trapNameToKind (name : Text) : Option ArkshTrapKind :=
  trapKindNamed (if "SIG".toList.isPrefixOf name then name.drop 3 else name)

/-! ## 5. The builtins -/

inductive Builtin (C : Type) where
  /-- Assignments without a command. -/
  | assignments (words : List (Text × Text))
  | set (args : List Text)
  | unset (args : List Text)
  | «export» (args : List Text)
  | alias (args : List Text)
  | cd (args : List Text)
  | umask (args : List Text)
  | trap (args : List Text)
  | shift (args : List Text)
  | functionDefinition (name : Text) (function : ArkshShellFunction)
  | classDefinition (name : Text) (definition : C)
  /-- `let`, with the value of its right-hand side. -/
  | letBinding (name : Text) (value : ArkshValue)

def onIdentifier (name : Text) (call : ShellCall C) : List (ShellCall C) :=
  if isValidIdentifier name then [call] else [.fail]

def commandSet (args : List Text) : List (ShellCall C) :=
  let (calls, rest) := setFlags args
  calls ++
    match rest with
    | .failed => [.fail]
    | .positional values => [.setPositional values]
    | .words [] => []
    | .words (word :: words) =>
      match (if args = word :: words then splitAssignment arkshMaxVarName arkshMaxVarValue word
        else none) with
      | some (name, value) => onIdentifier name (.setVar name value false)
      | none =>
        let name := copyString arkshMaxVarName word
        match joinArguments arkshMaxVarValue words with
        | some value => onIdentifier name (.setVar name value false)
        | none => [.fail]

def commandExport (sh : ShellTables C) (args : List Text) : List (ShellCall C) :=
  match args with
  | [] => []
  | word :: words =>
    match (if words = [] then splitAssignment arkshMaxVarName arkshMaxVarValue word else none) with
    | some (name, value) => onIdentifier name (.setVar name value true)
    | none =>
      let name := copyString arkshMaxVarName word
      if words = [] then
        let value := (arkshShellGetVar sh.store name).getD []
        onIdentifier name (.setVar name (copyString arkshMaxVarValue value) true)
      else
        match joinArguments arkshMaxVarValue words with
        | some value => onIdentifier name (.setVar name value true)
        | none => [.fail]

def unsetArgument (namerefOnly : Bool) (arg : Text) : List (ShellCall C) :=
  match (if namerefOnly then none else parseAssocReference arg) with
  | some (name, key) => [.removeKey name key]
  | none => onIdentifier arg (.unsetName namerefOnly arg)

def commandUnset (args : List Text) : List (ShellCall C) :=
  match args with
  | [] => [.fail]
  | ['-', 'n'] :: args => args.flatMap (unsetArgument true)
  | args => args.flatMap (unsetArgument false)

def commandAlias (sh : ShellTables C) (args : List Text) : List (ShellCall C) :=
  match args with
  | [] => []
  | [word] =>
    match splitAssignment arkshMaxVarName arkshMaxAliasValue word with
    | some (name, value) => [.setAlias name value]
    | none => if (sh.aliases.find word).isSome then [] else [.fail]
  | word :: words =>
    match joinArguments arkshMaxAliasValue words with
    | some value => [.setAlias (copyString arkshMaxVarName word) value]
    | none => [.fail]

def updateDirectoryVars (previousCwd cwd : Text) : List (ShellCall C) :=
  (if previousCwd = [] then [] else [.setVar "OLDPWD".toList previousCwd false]) ++
    [.setVar "PWD".toList cwd true]

def commandCd (sys : System) (sh : ShellTables C) (args : List Text) : List (ShellCall C) :=
  let target :=
    match args with
    | ['-'] :: _ =>
      match arkshShellGetVar sh.store "OLDPWD".toList with
      | none | some [] => none
      | some directory => some directory
    | [] :: _ => some ['.']
    | path :: _ => some path
    | [] =>
      match arkshShellGetVar sh.store "HOME".toList with
      | none | some [] => some ['.']
      | some home => some home
  match target.bind (arkshPlatformResolvePath sh.cwd) with
  | none => [.fail]
  | some resolved =>
    match sys.chdir sh.process.cwd resolved with
    | none => [.fail]
    | some directory =>
      match sys.getcwd directory with
      | none => [.chdir directory none]
      | some cwd => .chdir directory (some cwd) :: updateDirectoryVars sh.cwd cwd

def commandUmask (sh : ShellTables C) (args : List Text) : List (ShellCall C) :=
  match args with
  | [] => []
  | mode :: _ =>
    match (parseOctalUmask mode).or (applySymbolicUmask sh.process.umask mode) with
    | some mask => [.umask mask]
    | none => [.fail]

def trapArguments (entry : ArkshTrapEntry) (args : List Text) : List (ShellCall C) :=
  args.map fun name =>
    match trapNameToKind name with
    | some kind => .setTrap kind entry
    | none => .fail

def commandTrap (args : List Text) : List (ShellCall C) :=
  match args with
  | [] => []
  | ['-', 'p'] :: names => if names.all fun name => (trapNameToKind name).isSome then [] else [.fail]
  | ['-'] :: names => trapArguments ⟨[], false, false⟩ names
  | [_] => [.fail]
  | command :: names =>
    trapArguments ⟨copyString arkshMaxLine command, true, decide (command = [])⟩ names

def arkshShellGetPositionalCount (sh : VarStore) : Nat :=
  match sh.frames.findSome? (·.positional) with
  | some params => params.length
  | none => sh.positional.length

def commandShift (sh : ShellTables C) (args : List Text) : List (ShellCall C) :=
  match (match args with | [] => some 1 | count :: _ => parseShiftCount count) with
  | none => [.fail]
  | some count =>
    if arkshShellGetPositionalCount sh.store < count then [.fail] else [.shiftPositional count]

def Builtin.calls (sys : System) (sh : ShellTables C) : Builtin C → List (ShellCall C)
  | .assignments words => words.map fun word => .assign word.1 word.2
  | .set args => commandSet args
  | .unset args => commandUnset args
  | .export args => commandExport sh args
  | .alias args => commandAlias sh args
  | .cd args => commandCd sys sh args
  | .umask args => commandUmask sh args
  | .trap args => commandTrap args
  | .shift args => commandShift sh args
  | .functionDefinition name function => [.setFunction name function]
  | .classDefinition name definition => [.setClass name definition]
  | .letBinding name value => onIdentifier name (.setBinding name value)

def Builtin.run (sys : System) (sh : ShellTables C) (builtin : Builtin C) : Nat × ShellTables C :=
  runCalls sys (builtin.calls sys sh) sh

end Arksh
