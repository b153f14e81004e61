/-
  Subject: `arksh_line_editor_read_line` of `src/line_editor.c`, key by key.

  A session is the state between two calls of `read_key`: the locals of the editor and, inside of
  `do_reverse_search`, those of the search. A key comes with what the rest of the shell says to it:
  whether the input needs more lines, and the candidates of a completion.

  * buffers are bytes; a block move or a read outside of one is the fault `outOfBounds`;
  * `isprint` of a code that is neither an `unsigned char` nor EOF is the fault `charClass`;
  * what is printed is left out, and so are the prompts;
  * the history does not change while a line is read.
-/
import Arksh.Lib.CBuffer
import Arksh.Shell.Line

namespace Arksh

open CText CBuffer

/-! ## 1. Keys -/

inductive KeyName where
  | backspace | delete | left | right | up | down | tab | enter
  | ctrlA | ctrlC | ctrlD | ctrlE | ctrlG | ctrlR | esc | wordLeft | wordRight
  | ctrlK | ctrlU | ctrlW | ctrlY | ctrlUnderscore | resize
  deriving DecidableEq

/-- What `read_key` returns: -1, a named code, or a byte. -/
inductive Key where
  | failed
  | named (name : KeyName)
  | byte (c : {c : Char // c.toNat < 256})
  deriving DecidableEq

def KeyName.code (name : KeyName) : Int := 1000 + name.ctorIdx

def Key.code : Key → Int
  | failed => -1
  | named name => name.code
  | byte c => c.1.toNat

def Key.toChar : Key → Char
  | failed => '\xff'
  | named name => Char.ofNat (name.code.toNat % 256)
  | byte c => c.1

/-! ## 2. Faults -/

inductive Fault where
  | outOfBounds
  | charClass (code : Int)
  deriving DecidableEq

abbrev Checked := Except Fault

/-- A step that reads or writes a buffer. -/
def inBounds {α : Type} : Option α → Checked α
  | some a => .ok a
  | none => .error .outOfBounds

def isprint (code : Int) : Checked Bool :=
  if -1 ≤ code ∧ code < 256 then .ok (decide (32 ≤ code ∧ code < 127))
  else .error (.charClass code)

/-! ## 3. State -/

abbrev HistoryEntry := {t : Text // t.length < arkshMaxLine ∧ nul ∉ t}

/-- An item of `ArkshCompletionMatches`. -/
abbrev Candidate := {t : Text // t.length < arkshMaxPath ∧ nul ∉ t}

structure Editor where
  line : Buffer arkshMaxLine
  length : Nat
  cursor : Nat
  historyIndex : Nat
  historyScratch : Buffer arkshMaxLine
  multi : Buffer arkshMaxOutput
  multiLen : Nat
  inContinuation : Bool
  undoLine : Buffer arkshMaxLine
  undoLength : Nat
  undoCursor : Nat
  undoValid : Bool
  lastTab : Bool
  killBuf : Buffer arkshMaxLine

/-- The locals of `do_reverse_search`. -/
structure Search where
  query : Buffer arkshMaxLine
  queryLen : Nat
  searchFrom : Nat
  matchIdx : Nat
  matchStr : Option HistoryEntry

inductive Mode where
  | editing
  | searching (search : Search)

structure Session where
  editor : Editor
  mode : Mode

inductive LineReadStatus where
  | ok | eof | error
  deriving DecidableEq

inductive Reading where
  | going (session : Session)
  | returned (status : LineReadStatus) (out : Text)

/-- A key, the answer of the callback `needs_more`, and the candidates of a completion. -/
structure KeyEvent where
  key : Key
  needsMore : Bool := false
  candidates : List Candidate := []

/-! ## 4. Changes of the line -/

/-- The snapshot in front of a change. -/
def saveUndo (e : Editor) : Checked Editor :=
  (inBounds (e.undoLine.copy 0 e.line 0 (e.length + 1))).map fun undoLine =>
    { e with
      undoLine := undoLine, undoLength := e.length, undoCursor := e.cursor, undoValid := true }

/-- `replace_range`; nothing changes where the result does not fit. -/
def replaceRange (e : Editor) (start stop : Nat) (replacement : Text) : Checked Editor :=
  if stop < start then .ok e
  else if start + replacement.length + (e.length - stop) ≥ arkshMaxLine then .ok e
  else
    (inBounds ((e.line.move (start + replacement.length) stop (e.length - stop + 1)).bind
      (·.write start replacement))).map fun line =>
        { e with
          line := line
          length := start + replacement.length + (e.length - stop)
          cursor := start + replacement.length }

/-- `while (pos > 0 && p(buf[pos - 1])) pos--;` -/
def scanBack (p : Char → Bool) (bytes : List Char) : Nat → Nat
  | 0 => 0
  | pos + 1 => if p (bytes.getD pos nul) then scanBack p bytes pos else pos + 1

def scanForward (p : Char → Bool) (bytes : List Char) : (left pos : Nat) → Nat
  | 0, pos => pos
  | left + 1, pos => if p (bytes.getD pos nul) then scanForward p bytes left (pos + 1) else pos

def wordBackward (bytes : List Char) (cursor : Nat) : Nat :=
  scanBack (fun c => !isspace c) bytes (scanBack isspace bytes cursor)

def wordForward (bytes : List Char) (length cursor : Nat) : Nat :=
  let pos := scanForward (fun c => !isspace c) bytes (length - cursor) cursor
  scanForward isspace bytes (length - pos) pos

/-- `^K` -/
def killToEnd (e : Editor) : Checked Editor :=
  if e.cursor < e.length then
    (saveUndo e).bind fun e =>
      (inBounds ((e.line.text e.cursor).bind e.killBuf.copyString)).bind fun killBuf =>
        (inBounds (e.line.write e.cursor [nul])).map fun line =>
          { e with killBuf := killBuf, line := line, length := e.cursor }
  else .ok e

/-- The stretch from `newPos` to the cursor goes to the kill buffer. -/
def killBack (e : Editor) (newPos : Nat) : Checked Editor :=
  let killed := e.cursor - newPos
  (saveUndo e).bind fun e =>
    (inBounds (if killed < arkshMaxLine then
        (e.killBuf.copy 0 e.line newPos killed).bind (·.write killed [nul])
      else some e.killBuf)).bind fun killBuf =>
      (inBounds (e.line.move newPos e.cursor (e.length - e.cursor + 1))).map fun line =>
        { e with killBuf := killBuf, line := line, length := e.length - killed, cursor := newPos }

/-- `^U` -/
def killToStart (e : Editor) : Checked Editor := if 0 < e.cursor then killBack e 0 else .ok e

/-- `^W` -/
def killWord (e : Editor) : Checked Editor :=
  if 0 < e.cursor then killBack e (wordBackward e.line.bytes e.cursor) else .ok e

/-- `^Y` -/
def yank (e : Editor) : Checked Editor :=
  (inBounds (e.killBuf.text 0)).bind fun killed =>
    if 0 < killed.length ∧ e.length + killed.length < arkshMaxLine then
      (saveUndo e).bind fun e =>
        (inBounds ((e.line.move (e.cursor + killed.length) e.cursor (e.length - e.cursor + 1)).bind
          (·.write e.cursor killed))).map fun line =>
            { e with
              line := line, length := e.length + killed.length
              cursor := e.cursor + killed.length }
    else .ok e

def undo (e : Editor) : Checked Editor :=
  if e.undoValid then
    (inBounds (e.line.copy 0 e.undoLine 0 (e.undoLength + 1))).map fun line =>
      { e with line := line, length := e.undoLength, cursor := e.undoCursor, undoValid := false }
  else .ok e

def backspace (e : Editor) : Checked Editor :=
  if 0 < e.cursor then
    (saveUndo e).bind fun e =>
      (inBounds (e.line.move (e.cursor - 1) e.cursor (e.length - e.cursor + 1))).map fun line =>
        { e with line := line, length := e.length - 1, cursor := e.cursor - 1 }
  else .ok e

def delete (e : Editor) : Checked Editor :=
  if e.cursor < e.length then
    (saveUndo e).bind fun e =>
      (inBounds (e.line.move e.cursor (e.cursor + 1) (e.length - e.cursor))).map fun line =>
        { e with line := line, length := e.length - 1 }
  else .ok e

def insertChar (e : Editor) (c : Char) : Checked Editor :=
  if e.length + 1 ≥ arkshMaxLine then .ok e
  else
    (saveUndo e).bind fun e =>
      (inBounds ((e.line.move (e.cursor + 1) e.cursor (e.length - e.cursor + 1)).bind
        (·.write e.cursor [c]))).map fun line =>
          { e with line := line, length := e.length + 1, cursor := e.cursor + 1 }

/-! ## 5. History -/

def applyHistoryEntry (e : Editor) (entry : Text) : Checked Editor :=
  (inBounds (e.line.copyString entry)).bind fun line =>
    (inBounds (line.text 0)).map fun t =>
      { e with line := line, length := t.length, cursor := t.length }

section History

variable (history : List HistoryEntry)

/-- `navigate_history(.., -1, ..)` -/
def historyUp (e : Editor) : Checked Editor :=
  if history = [] ∨ e.historyIndex = 0 then .ok e
  else
    (if e.historyIndex = history.length then
      (inBounds ((e.line.text 0).bind e.historyScratch.copyString)).map fun scratch =>
        { e with historyScratch := scratch }
    else .ok e).bind fun e =>
      (inBounds history[e.historyIndex - 1]?).bind fun entry =>
        applyHistoryEntry { e with historyIndex := e.historyIndex - 1 } entry.1

/-- `navigate_history(.., 1, ..)` -/
def historyDown (e : Editor) : Checked Editor :=
  if history = [] ∨ e.historyIndex ≥ history.length then .ok e
  else
    let e := { e with historyIndex := e.historyIndex + 1 }
    if e.historyIndex = history.length then
      (inBounds (e.historyScratch.text 0)).bind (applyHistoryEntry e)
    else (inBounds history[e.historyIndex]?).bind fun entry => applyHistoryEntry e entry.1

def findHistoryMatch (query : Text) : Nat → Option Nat
  | 0 => none
  | i + 1 =>
    match history[i]? with
    | some entry =>
      if query ≠ [] ∧ query <:+: entry.1 then some i else findHistoryMatch query i
    | none => none

def findMatch (s : Search) : Checked Search :=
  (inBounds (s.query.text 0)).map fun query =>
    match findHistoryMatch history query s.searchFrom with
    | some found => { s with matchIdx := found, matchStr := history[found]?, searchFrom := found }
    | none => s

def Search.restart (s : Search) : Search :=
  { s with searchFrom := history.length, matchIdx := history.length, matchStr := none }

end History

/-! ## 6. Completion -/

def isTokenDelimiter (c : Char) : Bool :=
  isspace c || c = '|' || c = '&' || c = ';' || c = '<' || c = '>' || c = '(' || c = ')' ||
    c = ',' || c = '='

def isMemberChar (c : Char) : Bool := isalnum c || c = '_'

def findTokenStart (bytes : List Char) (cursor : Nat) : Nat :=
  scanBack (fun c => !isTokenDelimiter c) bytes cursor

def findObjectMemberContext (bytes : List Char) (cursor : Nat) : Option (Nat × Nat × Nat) :=
  let memberStart := scanBack isMemberChar bytes cursor
  let scan := scanBack isspace bytes memberStart
  if scan < 2 ∨ bytes.getD (scan - 1) nul ≠ '>' ∨ bytes.getD (scan - 2) nul ≠ '-' then none
  else
    let receiverEnd := scanBack isspace bytes (scan - 2)
    if receiverEnd = 0 then none
    else
      let receiverStart := scanBack (fun c => !isTokenDelimiter c) bytes receiverEnd
      if receiverEnd ≤ receiverStart then none
      else some (receiverStart, receiverEnd, memberStart)

/-- The characters that two texts begin with alike. -/
def sharedLength : Text → Text → Nat
  | a :: s, b :: t => if a = b then sharedLength s t + 1 else 0
  | _, _ => 0

def sharedPrefixLength (first : Text) (rest : List Candidate) : Nat :=
  rest.foldl (fun length item => sharedLength (first.take length) item.1) first.length

def onlyReplacement (member : Bool) (candidate : Text) : Text :=
  let replacement := copyString arkshMaxPath candidate
  if member then replacement
  else
    match replacement.getLast? with
    | some last =>
      if last ≠ '/' ∧ last ≠ '\\' ∧ replacement.length + 1 < arkshMaxPath then
        replacement ++ [' ']
      else replacement
    | none => replacement

def completionStart (bytes : List Char) (cursor : Nat) : Option (Nat × Nat × Nat) → Nat
  | some (_, _, memberStart) => memberStart
  | none => findTokenStart bytes cursor

def collected (e : Editor) (context : Option (Nat × Nat × Nat)) (candidates : List Candidate) :
    Checked (List Candidate) :=
  match context with
  | some (receiverStart, receiverEnd, _) =>
    let receiverLen := receiverEnd - receiverStart
    if receiverLen = 0 ∨ receiverLen ≥ arkshMaxLine then .ok []
    else (inBounds (e.line.read receiverStart receiverLen)).map fun _ => candidates
  | none => .ok candidates

def handleCompletion (e : Editor) (forceList : Bool) (candidates : List Candidate) :
    Checked Editor :=
  let context := findObjectMemberContext e.line.bytes e.cursor
  let start := completionStart e.line.bytes e.cursor context
  let typedLen := e.cursor - start
  if typedLen ≥ arkshMaxPath then .ok e
  else
    (inBounds (e.line.read start typedLen)).bind fun _ =>
      (collected e context candidates).bind fun
        | [] => .ok e
        | [only] => replaceRange e start e.cursor (onlyReplacement context.isSome only.1)
        | first :: rest =>
          let shared := sharedPrefixLength first.1 rest
          -- the second TAB in a row lists the candidates as well
          if forceList then
            if shared > typedLen ∧ shared < arkshMaxPath then
              replaceRange e start e.cursor (first.1.take shared)
            else .ok e
          else if shared > typedLen then
            if shared ≥ arkshMaxPath then .ok e
            else replaceRange e start e.cursor (first.1.take shared)
          else .ok e

/-! ## 7. Lines -/

/-- ENTER: the line goes to the end of the input. What does not fit is left out. -/
def appendLine (e : Editor) : Checked Editor :=
  let space := arkshMaxOutput - e.multiLen - 1
  (if 0 < e.multiLen ∧ 0 < space then
    (inBounds (e.multi.write e.multiLen ['\n'])).map fun multi =>
      ({ e with multi := multi, multiLen := e.multiLen + 1 }, space - 1)
  else .ok (e, space)).bind fun (e, space) =>
    (if 0 < e.length ∧ e.length ≤ space then
      (inBounds (e.multi.copy e.multiLen e.line 0 e.length)).map fun multi =>
        { e with multi := multi, multiLen := e.multiLen + e.length }
    else .ok e).bind fun e =>
      (inBounds (e.multi.write e.multiLen [nul])).map fun multi => { e with multi := multi }

section Reading

variable (history : List HistoryEntry) (outSize : Nat)

def submit (e : Editor) : Checked Reading :=
  (inBounds (e.multi.text 0)).map fun t => .returned .ok (copyString outSize t)

def enterLine (e : Editor) (needsMore : Bool) : Checked Reading :=
  (appendLine e).bind fun e =>
    if 0 < e.multiLen ∧ needsMore then
      (inBounds (e.line.write 0 [nul])).bind fun line =>
        (inBounds (e.historyScratch.write 0 [nul])).map fun scratch =>
          .going
            { editor :=
                { e with
                  inContinuation := true, length := 0, cursor := 0, line := line
                  historyIndex := history.length, historyScratch := scratch }
              mode := .editing }
    else submit outSize e

/-! ## 8. The search -/

def terminated {size : Nat} (b : Buffer size) : Buffer size := (b.write 0 [nul]).getD b

/-- The locals of `do_reverse_search` at its start. What lies behind the NUL is not read. -/
def startSearch : Search :=
  { query := ⟨List.replicate arkshMaxLine nul, List.length_replicate⟩
    queryLen := 0, searchFrom := history.length, matchIdx := history.length, matchStr := none }

def acceptMatch (e : Editor) (s : Search) : Checked Editor :=
  match s.matchStr with
  | some entry => (applyHistoryEntry e entry.1).map fun e => { e with historyIndex := s.matchIdx }
  | none => .ok e

def typeQuery (s : Search) (c : Char) : Checked Search :=
  if s.queryLen + 1 < arkshMaxLine then
    (inBounds (s.query.write s.queryLen [c, nul])).bind fun query =>
      findMatch history ({ s with query := query, queryLen := s.queryLen + 1 }.restart history)
  else .ok s

def shortenQuery (s : Search) : Checked Search :=
  if 0 < s.queryLen then
    (inBounds (s.query.write (s.queryLen - 1) [nul])).bind fun query =>
      let s := { s with query := query, queryLen := s.queryLen - 1 }.restart history
      if 0 < s.queryLen then findMatch history s else .ok s
  else .ok s

def searchOlder (s : Search) : Checked Search :=
  if 0 < s.queryLen then
    findMatch history
      (if s.matchIdx < history.length then { s with searchFrom := s.matchIdx } else s)
  else .ok s

/-- A turn of `do_reverse_search`. -/
def searchStep (e : Editor) (s : Search) (event : KeyEvent) : Checked Reading :=
  let search (r : Checked Search) : Checked Reading :=
    r.map fun s => .going { editor := e, mode := .searching s }
  let back (r : Checked Editor) : Checked Reading :=
    r.map fun e => .going { editor := e, mode := .editing }
  match event.key with
  | .named .resize => search (.ok s)
  | .failed => back (.ok e)
  | .named .ctrlG => back (.ok e)
  | .named .esc => back (.ok e)
  | .named .ctrlC => back (.ok e)
  | .named .enter => (acceptMatch e s).bind fun e => enterLine history outSize e event.needsMore
  | .named .ctrlR => search (searchOlder history s)
  | .named .backspace => search (shortenQuery history s)
  | key =>
    (isprint key.code).bind fun printable =>
      if printable ∧ key.code < 128 then search (typeQuery history s key.toChar)
      else back (acceptMatch e s)

/-! ## 9. The editor -/

def editStep (e : Editor) (event : KeyEvent) : Checked Reading :=
  let prevTab := e.lastTab
  let e := { e with lastTab := event.key = .named .tab }
  let edited (r : Checked Editor) : Checked Reading :=
    r.map fun e => .going { editor := e, mode := .editing }
  match event.key with
  | .named .resize => edited (.ok e)
  | .failed => .ok (.returned .error [])
  | .named .enter => enterLine history outSize e event.needsMore
  | .named .ctrlD =>
    if e.length = 0 ∧ e.multiLen = 0 then .ok (.returned .eof [])
    else if 0 < e.multiLen then submit outSize e
    else edited (.ok e)
  | .named .ctrlC => .ok (.returned .ok [])
  | .named .ctrlA => edited (.ok { e with cursor := 0 })
  | .named .ctrlE => edited (.ok { e with cursor := e.length })
  | .named .left => edited (.ok (if 0 < e.cursor then { e with cursor := e.cursor - 1 } else e))
  | .named .right =>
    edited (.ok (if e.cursor < e.length then { e with cursor := e.cursor + 1 } else e))
  | .named .wordLeft => edited (.ok { e with cursor := wordBackward e.line.bytes e.cursor })
  | .named .wordRight =>
    edited (.ok { e with cursor := wordForward e.line.bytes e.length e.cursor })
  | .named .up => edited (if e.inContinuation then .ok e else historyUp history e)
  | .named .down => edited (if e.inContinuation then .ok e else historyDown history e)
  | .named .ctrlR =>
    .ok (.going
      { editor := e
        mode := if e.inContinuation then .editing else .searching (startSearch history) })
  | .named .tab => edited (handleCompletion e prevTab event.candidates)
  | .named .ctrlK => edited (killToEnd e)
  | .named .ctrlU => edited (killToStart e)
  | .named .ctrlW => edited (killWord e)
  | .named .ctrlY => edited (yank e)
  | .named .ctrlUnderscore => edited (undo e)
  | .named .backspace => edited (backspace e)
  | .named .delete => edited (delete e)
  | key =>
    (isprint key.code).bind fun printable =>
      edited (if printable then insertChar e key.toChar else .ok e)

def keyStep (event : KeyEvent) (session : Session) : Checked Reading :=
  match session.mode with
  | .editing => editStep history outSize session.editor event
  | .searching s => searchStep history outSize session.editor s event

/-- `arksh_line_editor_read_line` on some keys. -/
def readKeys : List KeyEvent → Session → Checked Reading
  | [], session => .ok (.going session)
  | event :: events, session =>
    (keyStep history outSize event session).bind fun
      | .going session => readKeys events session
      | .returned status out => .ok (.returned status out)

def startReading (frame : Editor) (killBuf : {b : Buffer arkshMaxLine // ∃ k, Holds b k}) :
    Session :=
  { editor :=
      { frame with
        line := terminated frame.line, length := 0, cursor := 0
        historyIndex := history.length
        historyScratch := terminated frame.historyScratch
        multi := terminated frame.multi, multiLen := 0
        inContinuation := false
        undoLength := 0, undoCursor := 0, undoValid := false
        lastTab := false
        killBuf := killBuf.1 }
    mode := .editing }

end Reading

end Arksh
