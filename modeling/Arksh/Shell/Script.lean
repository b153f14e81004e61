/-
  Subject: Files that are sequences of complete commands, and what `arksh_shell_source_file` is to
           hand over of them.

  Of a command, only the blank lines and comment lines outside of its here-documents may be left
  out. A line is inside of one where the tokens of the command lines announce more documents than
  have ended, or where the parser itself reports an unterminated one. A command is complete when,
  without those lines, the reader does not ask for more; and no sooner.
-/
import Arksh.Lib.Cuts
import Arksh.Shell.FileLines

namespace Arksh

open CText Cuts List

/-! ## 1. Texts -/

def joinTexts (texts : List Text) : Text := ['\n'].intercalate texts

def linesText (lines : List FileLine) : Text := joinTexts (lines.map FileLine.content)

/-! ## 2. Here-documents at any depth -/

def announcedDocuments : List ArkshToken → List HeredocMark
  | token :: word :: tokens =>
    if isHeredocToken token.kind && isValueToken word.kind then
      ⟨word.text.1, token.kind = .heredocStrip⟩ :: announcedDocuments tokens
    else announcedDocuments (word :: tokens)
  | _ => []

/-- The lines of a command that cannot be left out, those outside of documents, and the documents
    that have ended. -/
structure DocumentScan where
  kept : List FileLine
  commandLines : List FileLine
  closed : Nat

def DocumentScan.start : DocumentScan := ⟨[], [], 0⟩

def DocumentScan.openDocument (s : DocumentScan) : Option HeredocMark :=
  match arkshLexLine (trimText (linesText s.commandLines)) with
  | .ok stream => (announcedDocuments stream.tokens)[s.closed]?
  | .error _ => none

def reportsDocument (text : Text) : Bool :=
  match commandRequiresMoreInput text with
  | .more message => parseErrorIsUnterminatedHeredoc message
  | _ => false

def DocumentScan.reported (s : DocumentScan) : Bool := reportsDocument (linesText s.kept)

def HeredocMark.endsAt (mark : HeredocMark) (line : FileLine) : Bool :=
  strippedLine mark.stripTabs ⟨line.content, []⟩ = mark.delimiter

def DocumentScan.next (s : DocumentScan) (line : FileLine) : DocumentScan :=
  match s.openDocument with
  | some mark =>
    { s with kept := s.kept ++ [line], closed := s.closed + if mark.endsAt line then 1 else 0 }
  | none =>
    if line.isBlank then
      if s.reported then { s with kept := s.kept ++ [line] } else s
    else { s with kept := s.kept ++ [line], commandLines := s.commandLines ++ [line] }

def documentScan : Scan DocumentScan FileLine where
  next := DocumentScan.next
  free s line := line.isBlank && s.openDocument.isNone && !s.reported

def scanned (lines : List FileLine) : DocumentScan := documentScan.run .start lines

def leastText (lines : List FileLine) : Text := linesText (documentScan.least .start lines)

/-! ## 3. Scripts -/

structure ScriptCommand where
  above : List FileLine
  lines : List FileLine
  above_blank : ∀ line ∈ above, line.isBlank = true
  starts : ∃ line, lines.head? = some line ∧ line.isBlank = false
  complete : commandRequiresMoreInput (leastText lines) = .complete
  shortest : ∀ front, front <+: lines → front ≠ [] → front ≠ lines →
    commandRequiresMoreInput (leastText front) ≠ .complete

structure Script (file : Text) where
  commands : List ScriptCommand
  below : List FileLine
  below_blank : ∀ line ∈ below, line.isBlank = true
  lines_eq : textLines [] file = (commands.flatMap fun c => c.above ++ c.lines) ++ below

def ScriptCommand.IsText (c : ScriptCommand) (text : Text) : Prop :=
  ∃ kept, documentScan.Cut .start c.lines kept ∧ text = linesText kept

def SourceHost.Opens {σ : Type} (host : SourceHost σ) (path : Text) (args : List Text) (shell : σ)
    (file : Text) : Prop :=
  ∃ resolved, host.resolvePath shell path = some resolved ∧
    host.openFile shell resolved = some file ∧
    (host.enter resolved (args.take arkshMaxPositionalParams) shell).isSome = true

/-- **What is handed over are the texts of the commands, in order; all, unless one fails or its
    output does not fit.** -/
def Script.SourceLaw {file : Text} (script : Script file) : Prop :=
  ∀ (σ : Type) (host : SourceHost σ) (size : Nat) (path : Text) (args : List Text) (shell : σ),
    host.Opens path args shell file →
    let result := arkshShellSourceFile host size path args shell
    List.Forall₂ ScriptCommand.IsText (script.commands.take result.handed.length) result.handed ∧
      (result.stop.any SourceStop.byCommand = false →
        result.handed.length = script.commands.length)

/-- A command can be read up to the end of some of its lines: they fit their buffers, the parser
    asks for more each time, and at every blank line or comment line of a document with the message
    of an unterminated one. -/
structure ScriptCommand.ReadableTo (c : ScriptCommand) (lines : List FileLine) : Prop where
  fit : ∀ line ∈ lines, line.Fits
  textFits : (leastText lines).length < arkshMaxOutput
  asks : ∀ front, front <+: lines → front ≠ [] → front ≠ c.lines →
    ∃ message, commandRequiresMoreInput (leastText front) = .more message
  keeps : ∀ front line, front ++ [line] <+: lines → line.isBlank = true →
    (scanned front).openDocument.isSome = true → (scanned front).reported = true

def ScriptCommand.Readable (c : ScriptCommand) : Prop :=
  (∀ line ∈ c.above, line.Fits) ∧ c.ReadableTo c.lines

/-! ## 4. The scan -/

theorem next_kept (s : DocumentScan) (line : FileLine) :
    (s.next line).kept = if documentScan.free s line then s.kept else s.kept ++ [line] := by
  unfold DocumentScan.next documentScan
  cases hopen : s.openDocument with
  | some mark => simp [hopen]
  | none =>
    cases hblank : line.isBlank with
    | false => simp [hblank]
    | true =>
      cases hreported : s.reported with
      | false => simp [hopen, hblank, hreported]
      | true => simp [hreported]

theorem run_kept (s : DocumentScan) (lines : List FileLine) :
    (documentScan.run s lines).kept = s.kept ++ documentScan.least s lines := by
  induction lines generalizing s with
  | nil => exact (append_nil _).symm
  | cons line lines ih =>
    rw [Scan.run_cons, ih, Scan.least, show documentScan.next s line = s.next line from rfl,
      next_kept]
    split
    · rfl
    · rw [append_assoc]; rfl

theorem scanned_reported (lines : List FileLine) :
    (scanned lines).reported = reportsDocument (leastText lines) := by
  rw [DocumentScan.reported, scanned, run_kept]
  rfl

theorem leastText_concat (lines : List FileLine) (line : FileLine) : leastText (lines ++ [line]) =
      if documentScan.free (scanned lines) line then leastText lines
      else linesText (documentScan.least .start lines ++ [line]) := by
  rw [leastText, Scan.least_concat]
  unfold scanned
  split <;> rfl

theorem joinTexts_concat {texts : List Text} (h : texts ≠ []) (t : Text) :
    joinTexts (texts ++ [t]) = joinTexts texts ++ '\n' :: t := by
  induction texts with
  | nil => exact absurd rfl h
  | cons first texts ih =>
    cases texts with
    | nil => simp [joinTexts, intercalate_cons_cons]
    | cons second texts =>
      have hrest := ih (cons_ne_nil _ _)
      unfold joinTexts at hrest ⊢
      rw [cons_append, cons_append, intercalate_cons_cons,
        intercalate_cons_cons, ← cons_append, hrest, append_assoc, append_assoc, append_assoc]

theorem joinTexts_inj {texts texts' : List Text} (h : ∀ t ∈ texts, '\n' ∉ t)
    (h' : ∀ t ∈ texts', '\n' ∉ t) (hne : texts ≠ []) (hne' : texts' ≠ [])
    (heq : joinTexts texts = joinTexts texts') : texts = texts' := by
  have hsplit : (joinTexts texts).splitOn '\n' = (joinTexts texts').splitOn '\n' := by rw [heq]
  unfold joinTexts at hsplit
  rw [splitOn_intercalate _ h hne, splitOn_intercalate _ h' hne'] at hsplit
  exact hsplit

end Arksh
