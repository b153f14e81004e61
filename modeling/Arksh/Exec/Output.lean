/-
  Subject: How the output of commands travels: `read_fd_to_buffer` of `src/platform.c`,
           `command_echo` of `src/shell.c`, and the executors of `src/executor.c` that run a
           builtin with redirections, a pipeline, a list, a compound command, or a substitution.

  A run is a tree: its leaves are what the environment did (processes) or was asked to print
  (builtins), its nodes are the executors. Output that goes to the terminal is no part of it. Of
  every node the tree says what the shell returns (`run`) and what there was to return (`whole`).
-/
import Arksh.Object.JsonRead
import Arksh.Shell.Source

namespace Arksh

open CText

/-! ## 1. Reading a pipe -/

/-- A turn of the loop of `read_fd_to_buffer`. -/
def readChunk (size : Nat) (out chunk : Text) : Text :=
  if out.length < size - 1 then out ++ chunk.take (size - 1 - out.length) else out

def readFdToBuffer (size : Nat) (chunks : List Text) (readError : Bool) : Int × Text :=
  (if readError then 1 else 0, chunks.foldl (readChunk size) [])

/-- A turn of the first loop of `read_child_output_fd`; the second one throws away what is left. -/
def readChildChunk (size : Nat) (out chunk : Text) : Text :=
  if out.length + 1 < size then out ++ chunk.take (size - out.length - 1) else out

/-! ## 2. `echo` -/

def putChar (size : Nat) (out : Text) (c : Char) : Text :=
  if out.length < size - 1 then out ++ [c] else out

def octalDigits : Nat → Nat → Text → Nat × Text
  | k + 1, value, c :: s =>
    if '0' ≤ c ∧ c ≤ '7' then octalDigits k (value * 8 + (c.toNat - '0'.toNat)) s
    else (value, c :: s)
  | _, value, s => (value, s)

/-- A turn of the loop of `printf_process_escape`: the characters that it writes, and the rest. -/
def escapeStep : Text → Text × Text
  | '\\' :: 'a' :: s => (['\x07'], s)
  | '\\' :: 'b' :: s => (['\x08'], s)
  | '\\' :: 'f' :: s => (['\x0c'], s)
  | '\\' :: 'n' :: s => (['\n'], s)
  | '\\' :: 'r' :: s => (['\r'], s)
  | '\\' :: 't' :: s => (['\t'], s)
  | '\\' :: 'v' :: s => (['\x0b'], s)
  | '\\' :: '\\' :: s => (['\\'], s)
  | '\\' :: '\'' :: s => (['\''], s)
  | '\\' :: '"' :: s => (['"'], s)
  | '\\' :: '0' :: s =>
    let (value, s) := octalDigits 3 0 s
    ([Char.ofNat (value % 256)], s)
  | '\\' :: c :: s => (['\\', c], s)
  | c :: s => ([c], s)
  | [] => ([], [])

/-- The characters that `printf_process_escape` writes, in so many turns. -/
def escapedText : Nat → Text → Text
  | 0, _ => []
  | _, [] => []
  | turns + 1, s => (escapeStep s).1 ++ escapedText turns (escapeStep s).2

def printfProcessEscape (size : Nat) (out s : Text) : Text :=
  (escapedText s.length s).foldl (putChar size) out

structure EchoFlags where
  newline : Bool
  interpretEscapes : Bool

def echoOption : EchoFlags → Text → EchoFlags × Bool
  | flags, [] => (flags, true)
  | flags, c :: letters =>
    if c = 'n' then echoOption { flags with newline := false } letters
    else if c = 'e' then echoOption { flags with interpretEscapes := true } letters
    else if c = 'E' then echoOption { flags with interpretEscapes := false } letters
    else (flags, false)

def echoOptions : EchoFlags → List Text → EchoFlags × List Text
  | flags, [] => (flags, [])
  | flags, ('-' :: c :: letters) :: args =>
    match echoOption flags (c :: letters) with
    | (flags, true) => echoOptions flags args
    | (flags, false) => (flags, ('-' :: c :: letters) :: args)
  | flags, args => (flags, args)

def echoArgument (size : Nat) (flags : EchoFlags) (out arg : Text) : Text :=
  if flags.interpretEscapes then printfProcessEscape size out arg
  else
    out ++ arg.take (if out.length + arg.length ≥ size then size - out.length - 1 else arg.length)

/-- The arguments of `echo`, with blanks between them. -/
def echoArguments (size : Nat) (flags : EchoFlags) : Text → List Text → Text
  | out, [] => out
  | out, [arg] => echoArgument size flags out arg
  | out, arg :: args =>
    echoArguments size flags (putChar size (echoArgument size flags out arg) ' ') args

def commandEcho (args : List Text) : Int × Text :=
  let (flags, args) := echoOptions ⟨true, false⟩ args
  let result := echoArguments arkshMaxOutput flags [] args
  let result := if flags.newline then putChar arkshMaxOutput result '\n' else result
  (0, copyString arkshMaxOutput (cString result))

/-- What `echo` is asked to print. -/
def echoWhole (args : List Text) : Text :=
  let (flags, args) := echoOptions ⟨true, false⟩ args
  let texts :=
    if flags.interpretEscapes then args.map fun arg => escapedText arg.length arg else args
  [' '].intercalate texts ++ if flags.newline then ['\n'] else []

/-! ## 3. Processes and builtins -/

/-- What becomes of the processes of a pipeline; `unread` is what an error of `read` leaves. -/
structure ProcessRun where
  /-- `arksh_platform_run_process_pipeline` fails, with this text. -/
  refusal : Option Text
  chunks : List Text
  readError : Bool
  unread : Text
  unread_nil : readError = false → unread = []
  /-- They were stopped, and are in the job table. -/
  stopped : Bool
  exitCode : Int

def ProcessRun.whole (p : ProcessRun) : Text := p.chunks.flatten ++ p.unread

/-- The executors behind `arksh_platform_run_process_pipeline`, which do not look at what
    `read_fd_to_buffer` returns. -/
def ProcessRun.run (fallback : Text) (p : ProcessRun) : Int × Text :=
  match p.refusal with
  | some message => (1, copyString arkshMaxOutput (if message = [] then fallback else message))
  | none =>
    if p.stopped then (1, [])
    else
      (if p.exitCode = 0 then 0 else 1,
        cString (readFdToBuffer arkshMaxOutput p.chunks p.readError).2)

inductive BuiltinRun where
  | echo (args : List Text)
  | other (status : Int) (text : Text)

def BuiltinRun.whole : BuiltinRun → Text
  | .echo args => echoWhole args
  | .other _ text => text

def BuiltinRun.run : BuiltinRun → Int × Text
  | .echo args => commandEcho args
  | .other status text => (status, copyString arkshMaxOutput (cString text))

/-- A redirection of the output of a builtin or a group, with the error of its target, if there is
    one. -/
inductive RedirectStep where
  | output (append : Bool) (refusal : Option Text)
  | error (append : Bool) (refusal : Option Text)
  | errorToOutput
  | other

/-- The loop over the redirections behind a builtin that succeeded: its output that is left, and
    what is written to files. -/
def redirectOutput : List RedirectStep → Text → List Text → Except Text (Text × List Text)
  | [], output, written => .ok (output, written)
  | .output _ (some message) :: _, _, _ => .error message
  | .output _ none :: steps, output, written => redirectOutput steps [] (written ++ [output])
  | .error _ (some message) :: _, _, _ => .error message
  | .error _ none :: steps, output, written => redirectOutput steps output written
  | .errorToOutput :: steps, output, written => redirectOutput steps output written
  | .other :: steps, output, written => redirectOutput steps output written

/-- The loop behind a group that failed: what it reports goes where its errors go. -/
def redirectReport : List RedirectStep → Text → Text → List Text → Except Text (Text × List Text)
  | [], output, report, written => .ok (if report ≠ [] then report else output, written)
  | .output _ (some message) :: _, _, _, _ => .error message
  | .output _ none :: steps, output, report, written =>
    redirectReport steps [] report (written ++ [output])
  | .error _ (some message) :: _, _, _, _ => .error message
  | .error _ none :: steps, output, report, written =>
    redirectReport steps output [] (written ++ [report])
  | .errorToOutput :: steps, output, report, written =>
    match appendOutputSegment output report with
    | none => .error outputTooLarge
    | some output => redirectReport steps output [] written
  | .other :: steps, output, report, written => redirectReport steps output report written

def RedirectStep.isOutput : RedirectStep → Bool
  | .output _ _ => true
  | _ => false

def leftOutput (steps : List RedirectStep) (output : Text) : Text :=
  if steps.any RedirectStep.isOutput then [] else output

/-- `execute_builtin_with_redirection`: what is returned, and what is written to files. -/
def builtinWithRedirection (b : BuiltinRun) (steps : List RedirectStep) :
    (Int × Text) × List Text :=
  let (status, output) := b.run
  if status ≠ 0 then ((1, output), [])
  else
    match redirectOutput steps output [] with
    | .error message => ((1, copyString arkshMaxOutput message), [])
    | .ok (output, written) => ((0, output), written)

/-- The text that a builtin hands to the first process behind it; `none` is the input of the
    shell. -/
def stageInput (redirections : Nat) (text : Text) : Option Text :=
  if redirections < arkshMaxRedirections ∧ text ≠ [] then some text else none

/-! ## 4. Runs -/

structure Pieces where
  cut : Text → List Text
  joined : ∀ text, (cut text).flatten = text

mutual

inductive OutputRun where
  /-- External commands. -/
  | processes (fallback : Text) (p : ProcessRun)
  | builtin (b : BuiltinRun)
  | redirected (b : BuiltinRun) (steps : List RedirectStep)
  /-- A builtin in front of external commands. -/
  | piped (b : BuiltinRun) (steps : List RedirectStep) (redirections : Nat) (p : ProcessRun)
  | list (entries : OutputParts)
  /-- The parts of an `if` or a loop that are run; its status is decided by the control flow. -/
  | compound (status : Int) (parts : OutputParts)
  /-- The commands of a file. -/
  | source (resolved : Text) (commands : OutputParts)
  | group (body : OutputRun) (steps : List RedirectStep)
  | subshell (body : OutputRun) (pieces : Pieces)
  /-- A function, a branch, or a command with `sudo`. -/
  | through (body : OutputRun)
  /-- `$( )` in a word with so much room. -/
  | substitution (command : Text) (body : OutputRun) (room : Nat)
  /-- `$(< )` of a file that is there. -/
  | fileSubstitution (content : Text) (room : Nat)

/-- Parts that are run in turn, under the condition of a list or with the line of a file; `ready`:
    the parts behind are run. -/
inductive OutputParts where
  | nil
  | cons (condition : ArkshListCondition) (line : Nat) (run : OutputRun) (ready : Bool)
      (rest : OutputParts)

end

/-- `execute_compound_body`: a compound command and its redirections. -/
def executeGroup (body : Int × Text) (steps : List RedirectStep) : (Int × Text) × List Text :=
  if body.1 ≠ 0 then
    match redirectReport steps [] body.2 [] with
    | .error message => ((1, copyString arkshMaxOutput message), [])
    | .ok (output, written) => ((body.1, output), written)
  else
    match redirectOutput steps body.2 [] with
    | .error message => ((1, copyString arkshMaxOutput message), [])
    | .ok (output, written) => ((0, output), written)

def appendToWord (text : Text) (room : Nat) : Int × Text :=
  if text.length < room then (0, text) else (1, "expanded token too long".toList)

def executeSubstitution (command : Text) (body : Int × Text) (room : Nat) : Int × Text :=
  if body.1 ≠ 0 then
    (1, copyString arkshMaxOutput ("command substitution failed: ".toList ++ command))
  else appendToWord (trimTrailingNewlines body.2) room

/-- `execute_command_substitution` on a file: the loop over its characters stops when the buffer is
    full. -/
def executeFileSubstitution (content : Text) (room : Nat) : Int × Text :=
  appendToWord (cString (trimTrailingNewlines (content.take (arkshMaxOutput - 1)))) room

mutual

/-- What is returned. -/
def OutputRun.run : OutputRun → Int × Text
  | .processes fallback p => p.run fallback
  | .builtin b => b.run
  | .redirected b steps => (builtinWithRedirection b steps).1
  | .piped b steps _ p =>
    let built := (builtinWithRedirection b steps).1
    if built.1 ≠ 0 then built else p.run "failed to execute shell pipeline".toList
  | .list entries => entries.runList 0 []
  | .compound status parts => parts.runCompound status []
  | .source resolved commands => commands.runSource resolved []
  | .group body steps => (executeGroup body.run steps).1
  | .subshell body pieces =>
    (body.run.1 % 256, (pieces.cut body.run.2).foldl (readChildChunk arkshMaxOutput) [])
  | .through body => body.run
  | .substitution command body room => executeSubstitution command body.run room
  | .fileSubstitution content room => executeFileSubstitution content room

/-- The loop of `execute_command_list`. -/
def OutputParts.runList : OutputParts → Int → Text → Int × Text
  | .nil, previousStatus, out => (previousStatus, out)
  | .cons condition _ run ready rest, previousStatus, out =>
    if ¬ shouldRunListEntry condition previousStatus then rest.runList previousStatus out
    else
      match appendOutputSegment out run.run.2 with
      | none => (1, outputTooLarge)
      | some out => if ready then rest.runList run.run.1 out else (run.run.1, out)

/-- The parts of an `if` or a loop. -/
def OutputParts.runCompound : OutputParts → Int → Text → Int × Text
  | .nil, status, out => (status, out)
  | .cons _ _ run _ rest, status, out =>
    match appendOutputSegment out run.run.2 with
    | none => (1, outputTooLarge)
    | some out => rest.runCompound status out

def OutputParts.runSource : OutputParts → Text → Text → Int × Text
  | .nil, _, out => (0, out)
  | .cons _ line run _ rest, resolved, out =>
    if run.run.1 ≠ 0 then
      (1, copyString arkshMaxOutput ((SourceStop.commandFailed line run.run.2).text resolved))
    else
      match appendOutputSegment out run.run.2 with
      | none =>
        (1, copyString arkshMaxOutput ((SourceStop.outputTooLarge line).text resolved))
      | some out => rest.runSource resolved out

end

/-! ## 5. The whole output -/

/-- `append_output_segment`, with room for everything. -/
def joinSegments (out segment : Text) : Text :=
  if segment = [] then out else if out = [] then segment else out ++ '\n' :: segment

mutual

/-- What there is to return. -/
def OutputRun.whole : OutputRun → Text
  | .processes _ p => p.whole
  | .builtin b => b.whole
  | .redirected b steps => leftOutput steps b.whole
  | .piped _ _ _ p => p.whole
  | .list entries => entries.wholeList 0 []
  | .compound _ parts => parts.wholeCompound []
  | .source _ commands => commands.wholeCompound []
  | .group body steps => leftOutput steps (if body.run.1 = 0 then body.whole else body.run.2)
  | .subshell body _ | .through body => if body.run.1 = 0 then body.whole else body.run.2
  | .substitution _ body _ =>
    trimTrailingNewlines (if body.run.1 = 0 then body.whole else body.run.2)
  | .fileSubstitution content _ => trimTrailingNewlines content

def OutputParts.wholeList : OutputParts → Int → Text → Text
  | .nil, _, out => out
  | .cons condition _ run ready rest, previousStatus, out =>
    if ¬ shouldRunListEntry condition previousStatus then rest.wholeList previousStatus out
    else
      let out := joinSegments out (if run.run.1 = 0 then run.whole else run.run.2)
      if ready then rest.wholeList run.run.1 out else out

def OutputParts.wholeCompound : OutputParts → Text → Text
  | .nil, out => out
  | .cons _ _ run _ rest, out =>
    rest.wholeCompound (joinSegments out (if run.run.1 = 0 then run.whole else run.run.2))

end

def OutputRun.account (r : OutputRun) : Text := if r.run.1 = 0 then r.whole else r.run.2

end Arksh
