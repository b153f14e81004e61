/-
  Subject: `arksh_shell_source_file` of `src/shell.c`: a file is read line by line, and what has
           been read is handed over as soon as the parser does not ask for more.

  A blank line or a comment line is left out, unless the parser's message about what has been read
  is that of an unterminated here-document. What becomes of a command, and the context that is set
  for the file, are parameters; that there is no memory left for a tree is not modelled.
-/
import Arksh.Exec.Builtins
import Arksh.Parse.Line

namespace Arksh

open CText

/-! ## 1. Does a command ask for more input? -/

def strncmpEq (n : Nat) (text message : String) : Bool :=
  (text.toList.take n).isPrefixOf message.toList

def parseErrorIsIncompleteCompound (error : String) : Bool :=
  strncmpEq 22 "unterminated if command" error ||
    strncmpEq 25 "unterminated while command" error ||
    strncmpEq 25 "unterminated until command" error ||
    strncmpEq 27 "unterminated [[ conditional" error ||
    strncmpEq 20 "unterminated heredoc" error ||
    strncmpEq 23 "unterminated for command" error ||
    strncmpEq 24 "unterminated case command" error ||
    strncmpEq 27 "unterminated switch command" error ||
    strncmpEq 29 "unterminated function command" error ||
    strncmpEq 26 "unterminated class command" error ||
    strncmpEq 26 "unterminated group command" error ||
    strncmpEq 29 "unterminated subshell command" error ||
    strncmpEq 30 "unterminated with sudo command" error

def parseErrorIsUnterminatedHeredoc (error : String) : Bool :=
  strncmpEq 20 "unterminated heredoc" error

/-- The status of `command_requires_more_input`: 0, 1 and -1, the last two with the message of the
    parser. -/
inductive InputStatus where
  | complete
  | more (message : String)
  | refused (message : String)
  deriving DecidableEq

/-- The forms that `command_requires_more_input` does not show to the parser. -/
def isHandledForm (trimmed : Text) : Bool :=
  !trimmed.any (fun c => c = '\n' || c = '\r') && !containsTopLevelListOperator trimmed &&
    ["let", "extend", "break", "continue", "return"].any fun word =>
      isKeywordLine word.toList trimmed

def commandRequiresMoreInput (text : Text) : InputStatus :=
  if isHandledForm (trimCopy arkshMaxLine text) then .complete
  else
    match arkshParseLine lineParser text with
    | .ok _ => .complete
    | .error message =>
      if parseErrorIsIncompleteCompound message then .more message else .refused message

/-! ## 2. The lines of the file -/

/-- A line as `fgets` leaves it, and whether the end of the file was met (`feof`). -/
structure FileLine where
  text : Text
  atEnd : Bool
  deriving DecidableEq

/-- What `fgets` reads into a buffer of `size` bytes, behind what it has read of a line. -/
def fileLines (size : Nat) : Text → Text → List FileLine
  | read, [] => if read = [] then [] else [⟨read, true⟩]
  | read, c :: rest =>
    if c = '\n' ∨ read.length + 2 ≥ size then ⟨read ++ [c], false⟩ :: fileLines size [] rest
    else fileLines size (read ++ [c]) rest

def trimTrailingNewlines (text : Text) : Text := text.rdropWhile fun c => c = '\n' || c = '\r'

def appendCommandFragment (command fragment : Text) : Option Text :=
  let cleaned := trimTrailingNewlines (copyString arkshMaxLine fragment)
  (if command = [] then some command else appendText arkshMaxOutput command ['\n']).bind
    (appendText arkshMaxOutput · cleaned)

/-! ## 3. Why a file ends before its end -/

inductive SourceStop where
  | unresolved (path : Text)
  | unopened
  | unstored
  | lineTooLong (line : Nat)
  | blockTooLarge (line : Nat)
  | parseError (line : Nat) (message : String)
  | commandFailed (line : Nat) (output : Text)
  | outputTooLarge (line : Nat)
  | incomplete (line : Nat) (message : String)
  | unrestored (line : Nat)
  deriving DecidableEq

def SourceStop.byCommand : SourceStop → Bool
  | .commandFailed _ _ | .outputTooLarge _ => true
  | _ => false

/-- `"%s:%zu: %s"` -/
def sourcePlace (resolved : Text) (line : Nat) (message : Text) : Text :=
  resolved ++ ':' :: (toString line).toList ++ ": ".toList ++ message

def SourceStop.text (resolved : Text) : SourceStop → Text
  | .unresolved path => "unable to resolve source path: ".toList ++ path
  | .unopened => "unable to open source file: ".toList ++ resolved
  | .unstored => "unable to store source positional parameters".toList
  | .lineTooLong line => sourcePlace resolved line "line too long".toList
  | .blockTooLarge line => sourcePlace resolved line "command block too large".toList
  | .parseError line message =>
    sourcePlace resolved line (if message = "" then "parse error" else message).toList
  | .commandFailed line output =>
    sourcePlace resolved line (if output = [] then "command failed".toList else output)
  | .outputTooLarge line => sourcePlace resolved line "sourced output too large".toList
  | .incomplete line message =>
    sourcePlace resolved line (if message = "" then "incomplete command block" else message).toList
  | .unrestored line =>
    sourcePlace resolved line "unable to restore source positional parameters".toList

/-! ## 4. The loop -/

structure SourceHost (σ : Type) where
  /-- `arksh_platform_resolve_path` from the working directory. -/
  resolvePath : σ → Text → Option Text
  /-- `fopen`, with the text of the file. -/
  openFile : σ → Text → Option Text
  /-- The program path, the source path and the positional parameters become those of the file. -/
  enter : Text → List Text → σ → Option σ
  /-- They become those of an earlier shell again. -/
  leave : σ → σ → Bool × σ
  /-- `current_source_line` -/
  enterLine : Nat → σ → σ
  /-- `arksh_shell_execute_line` -/
  execute : Text → σ → (Int × Text) × σ

structure SourceState (σ : Type) where
  commandBuffer : Text
  lineNumber : Nat
  commandStartLine : Nat
  pendingHeredoc : Bool
  out : Text
  shell : σ
  handed : List Text

def appendOutputLine (size : Nat) (out line : Text) : Option Text :=
  if line = [] then some out
  else
    (if out = [] then some out else appendText size out ['\n']).bind (appendText size · line)

variable {σ : Type} (host : SourceHost σ) (size : Nat)

def sourceCommand (s : SourceState σ) : Except (SourceStop × SourceState σ) (SourceState σ) :=
  let ((status, output), shell) :=
    host.execute s.commandBuffer (host.enterLine s.commandStartLine s.shell)
  let s := { s with shell := shell, handed := s.handed ++ [s.commandBuffer] }
  if status ≠ 0 then .error (.commandFailed s.commandStartLine output, s)
  else
    match appendOutputLine size s.out output with
    | none => .error (.outputTooLarge s.commandStartLine, s)
    | some out => .ok { s with commandBuffer := [], commandStartLine := 0, out := out }

def sourceFragment (s : SourceState σ) (line : FileLine) :
    Except (SourceStop × SourceState σ) (SourceState σ) :=
  match appendCommandFragment s.commandBuffer line.text with
  | none => .error (.blockTooLarge s.commandStartLine, s)
  | some command =>
    match commandRequiresMoreInput command with
    | .more message =>
      .ok { s with
        commandBuffer := command, pendingHeredoc := parseErrorIsUnterminatedHeredoc message }
    | .refused message =>
      .error (.parseError s.commandStartLine message,
        { s with commandBuffer := command, pendingHeredoc := false })
    | .complete =>
      sourceCommand host size { s with commandBuffer := command, pendingHeredoc := false }

/-- The body of the loop of `arksh_shell_source_file`. -/
def sourceStep (s : SourceState σ) (line : FileLine) :
    Except (SourceStop × SourceState σ) (SourceState σ) :=
  let s := { s with lineNumber := s.lineNumber + 1 }
  if line.text ≠ [] ∧ line.text.getLast? ≠ some '\n' ∧ ¬ line.atEnd then
    .error (.lineTooLong s.lineNumber, s)
  else if s.commandBuffer = [] ∧ isBlankOrCommentLine line.text then .ok s
  else if ¬ s.pendingHeredoc ∧ isBlankOrCommentLine line.text then .ok s
  else
    sourceFragment host size
      { s with
        commandStartLine := if s.commandBuffer = [] then s.lineNumber else s.commandStartLine }
      line

def sourceEnd (s : SourceState σ) : Option SourceStop × SourceState σ :=
  if s.commandBuffer = [] then (none, s)
  else
    (some (.incomplete s.commandStartLine
      (match commandRequiresMoreInput s.commandBuffer with
        | .complete => ""
        | .more message | .refused message => message)), s)

def sourceLoop (s : SourceState σ) (lines : List FileLine) : Option SourceStop × SourceState σ :=
  match lines.foldlM (sourceStep host size) s with
  | .ok s => sourceEnd s
  | .error (stop, s) => (some stop, s)

/-! ## 5. The file -/

/-- What is left by `arksh_shell_source_file`: why it ended before the end of the file, and the
    texts handed over. -/
structure SourceResult (σ : Type) where
  status : Int
  out : Text
  shell : σ
  stop : Option SourceStop
  handed : List Text

/-- An error, with its text in a buffer of `size` bytes. -/
def SourceResult.failed (stop : SourceStop) (resolved : Text) (shell : σ) : SourceResult σ :=
  ⟨1, copyString size (stop.text resolved), shell, some stop, []⟩

def sourceStart (shell : σ) : SourceState σ := ⟨[], 0, 0, false, [], shell, []⟩

def sourceOutcome (resolved : Text) (stop : Option SourceStop) (s : SourceState σ) : Int × Text :=
  match stop with
  | none => (0, s.out)
  | some stop => (1, copyString size (stop.text resolved))

def arkshShellSourceFile (path : Text) (args : List Text) (shell : σ) : SourceResult σ :=
  match host.resolvePath shell path with
  | none => .failed size (.unresolved path) [] shell
  | some resolved =>
    match host.openFile shell resolved with
    | none => .failed size .unopened resolved shell
    | some file =>
      match host.enter resolved (args.take arkshMaxPositionalParams) shell with
      | none => .failed size .unstored resolved shell
      | some entered =>
        let (stop, s) := sourceLoop host size (sourceStart entered) (fileLines arkshMaxLine [] file)
        let outcome := sourceOutcome size resolved stop s
        match host.leave shell s.shell with
        | (true, left) => ⟨outcome.1, outcome.2, left, stop, s.handed⟩
        | (false, left) =>
          let place := if s.commandStartLine = 0 then s.lineNumber else s.commandStartLine
          ⟨1, copyString size (SourceStop.text resolved (.unrestored place)), left, stop, s.handed⟩

end Arksh
