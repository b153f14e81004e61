/-
  Subject: `collect_leading_heredocs` of `src/parser.c`.

  The first line announces the documents; their lines follow, and each document ends at the first
  line that is its delimiter. What stands behind the last delimiter is left where it is: the
  function returns the first line and the documents.
-/
import Arksh.Exec.CommandList
import Arksh.Exec.Redirect
import Arksh.Lib.TextLines
import Arksh.Shell.Alias

namespace Arksh

open CText Scan TextLines List

/-! ## 1. The first line -/

def arkshTokenKindName : ArkshTokenKind → String
  | .eof => "eof"
  | .word => "word"
  | .string => "string"
  | .arrow => "arrow"
  | .objectPipe => "object-pipe"
  | .shellPipe => "shell-pipe"
  | .redirectIn => "redirect-in"
  | .redirectOut => "redirect-out"
  | .redirectAppend => "redirect-append"
  | .procSubstIn => "proc-subst-in"
  | .procSubstOut => "proc-subst-out"
  | .hereString => "here-string"
  | .heredoc => "heredoc"
  | .heredocStrip => "heredoc-strip"
  | .redirectError => "redirect-error"
  | .redirectErrorAppend => "redirect-error-append"
  | .redirectErrorToOutput => "redirect-error-to-output"
  | .redirectFdIn => "redirect-fd-in"
  | .redirectFdOut => "redirect-fd-out"
  | .redirectFdAppend => "redirect-fd-append"
  | .redirectDupIn => "redirect-dup-in"
  | .redirectDupOut => "redirect-dup-out"
  | .andIf => "and-if"
  | .orIf => "or-if"
  | .sequence => "sequence"
  | .background => "background"
  | .lparen => "lparen"
  | .rparen => "rparen"
  | .comma => "comma"

/-- A document that a line announces. -/
structure HeredocMark where
  delimiter : Text
  stripTabs : Bool
  deriving DecidableEq

/-- An item of `ArkshParsedHeredocList`. -/
structure ArkshParsedHeredoc extends HeredocMark where
  body : Text
  deriving DecidableEq

def isHeredocToken (kind : ArkshTokenKind) : Bool := kind = .heredoc || kind = .heredocStrip

/-- The first loop of `collect_leading_heredocs`: the documents that the first line announces. -/
def heredocMarks : Nat → List ArkshToken → Except String (List HeredocMark)
  | _, [] => .ok []
  | _, [token] =>
    if isHeredocToken token.kind then
      .error ("heredoc " ++ arkshTokenKindName token.kind ++ " expects a delimiter")
    else .ok []
  | count, token :: word :: tokens =>
    if isHeredocToken token.kind then
      if isValueToken word.kind = false then
        .error ("heredoc " ++ arkshTokenKindName token.kind ++ " expects a delimiter")
      else if count ≥ arkshMaxRedirections then .error "too many heredoc redirections"
      else
        (heredocMarks (count + 1) tokens).map fun marks =>
          ⟨word.text.1, token.kind = .heredocStrip⟩ :: marks
    else heredocMarks count (word :: tokens)

def firstLine (text : Text) : Text := text.takeWhile fun c => c ≠ '\n' ∧ c ≠ '\r'

def furtherLines (text : Text) : List TextLine := (lines text).tail

/-! ## 2. The documents -/

def missingDelimiter (mark : HeredocMark) : String :=
  "unterminated heredoc: missing delimiter " ++ String.ofList mark.delimiter

def normalizeHeredocLine (stripTabs : Bool) (line : TextLine) : Text :=
  let raw := copyString arkshMaxLine line.text
  copyString arkshMaxLine (if stripTabs then raw.dropWhile (· = '\t') else raw)

/-- The loop over the lines of a document: its body, and the lines behind its delimiter. -/
def collectBody (mark : HeredocMark) : Text → List TextLine → Except String (Text × List TextLine)
  | _, [] => .error (missingDelimiter mark)
  | body, line :: rest =>
    let normalized := normalizeHeredocLine mark.stripTabs line
    if normalized = mark.delimiter then .ok (body, rest)
    else
      match appendText arkshMaxOutput body normalized with
      | none => .error "heredoc body too large"
      | some body =>
        if line.ending = [] then collectBody mark body rest
        else
          match appendText arkshMaxOutput body ['\n'] with
          | none => .error "heredoc body too large"
          | some body => collectBody mark body rest

def collectBodies : List HeredocMark → List TextLine →
    Except String (List ArkshParsedHeredoc × List TextLine)
  | [], rest => .ok ([], rest)
  | mark :: marks, rest =>
    (collectBody mark [] rest).bind fun (body, rest) =>
      (collectBodies marks rest).map fun (heredocs, rest) => (⟨mark, body⟩ :: heredocs, rest)

/-- What `collect_leading_heredocs` finds. -/
structure CollectedHeredocs where
  header : Text
  heredocs : List ArkshParsedHeredoc
  rest : List TextLine

/-- `collect_leading_heredocs`: no documents (status 1), documents (status 0) or an error (status
    2). -/
def collectHeredocs (line : Text) : Except String (Option CollectedHeredocs) :=
  let headerLine := copyTrimmedSlice line 0 (firstLine line).length
  if headerLine = [] then .ok none
  else
    (arkshLexLine headerLine).bind fun stream =>
      (heredocMarks 0 stream.tokens).bind fun marks =>
        match marks with
        | [] => .ok none
        | mark :: _ =>
          if line.length = (firstLine line).length then .error (missingDelimiter mark)
          else
            (collectBodies marks (furtherLines line)).map fun (heredocs, rest) =>
              some ⟨headerLine, heredocs, rest⟩

def collectLeadingHeredocs (line : Text) :
    Except String (Option (Text × List ArkshParsedHeredoc)) :=
  (collectHeredocs line).map (·.map fun found => (found.header, found.heredocs))

/-! ## 3. What the documents consist of -/

def strippedLine (stripTabs : Bool) (line : TextLine) : Text :=
  if stripTabs then line.text.dropWhile (· = '\t') else line.text

def Closes (mark : HeredocMark) (line : TextLine) : Prop :=
  strippedLine mark.stripTabs line = mark.delimiter

def documentBody (mark : HeredocMark) (own : List TextLine) : Text :=
  own.flatMap fun line => strippedLine mark.stripTabs line ++ ['\n']

def Documents (marks : List HeredocMark) (ls : List TextLine)
    (heredocs : List ArkshParsedHeredoc) (rest : List TextLine) : Prop :=
  ∃ owns, Sections Closes marks ls owns rest ∧
    heredocs = List.zipWith (fun mark own => ⟨mark, documentBody mark own⟩) marks owns

def Short (ls : List TextLine) : Prop := ∀ line ∈ ls, line.text.length < arkshMaxLine

theorem normalizeHeredocLine_eq {line : TextLine} (h : line.text.length < arkshMaxLine)
    (stripTabs : Bool) : normalizeHeredocLine stripTabs line = strippedLine stripTabs line := by
  have hle : (strippedLine stripTabs line).length ≤ line.text.length := by
    unfold strippedLine
    split
    · exact (dropWhile_suffix _).length_le
    · exact le_refl _
  unfold normalizeHeredocLine
  rw [copyString_of_lt h]
  exact copyString_of_lt (hle.trans_lt h)

theorem collectBody_ok {mark : HeredocMark} {body b : Text} {ls rest : List TextLine}
    (h : collectBody mark body ls = .ok (b, rest)) (hended : Ended ls) (hshort : Short ls) :
    ∃ own last, ls = own ++ last :: rest ∧ (∀ line ∈ own, ¬ Closes mark line) ∧
      Closes mark last ∧ b = body ++ documentBody mark own := by
  induction ls generalizing body with
  | nil => cases h
  | cons line ls ih =>
    rw [collectBody, normalizeHeredocLine_eq (hshort line mem_cons_self)] at h
    split at h
    next hcloses =>
      cases h
      have hnone : ∀ l ∈ ([] : List TextLine), ¬ Closes mark l := fun _ hl => nomatch hl
      exact ⟨[], line, rfl, hnone, hcloses, by simp [documentBody]⟩
    next hopen =>
      split at h
      · cases h
      next body₁ hbody₁ =>
        obtain ⟨_, rfl⟩ := appendText_eq_some.mp hbody₁
        have hrest : Ended ls := @Ended.drop [line] ls hended
        have hlines : Short ls := fun l hl => hshort l (mem_cons_of_mem _ hl)
        split at h
        next hending =>
          -- only the last line has no end, and behind it the delimiter is missing
          cases ls with
          | nil => cases h
          | cons next ls =>
            exact absurd hending (hended line (by
              exact mem_cons_self))
        · split at h
          · cases h
          next body₂ hbody₂ =>
            obtain ⟨_, rfl⟩ := appendText_eq_some.mp hbody₂
            obtain ⟨own, last, rfl, hown, hlast, rfl⟩ := ih h hrest hlines
            refine ⟨line :: own, last, rfl, ?_, hlast, ?_⟩
            · intro l hl
              rcases mem_cons.mp hl with rfl | hl
              · exact hopen
              · exact hown l hl
            · simp [documentBody]

theorem collectBodies_documents {marks : List HeredocMark} {ls rest : List TextLine}
    {heredocs : List ArkshParsedHeredoc} (h : collectBodies marks ls = .ok (heredocs, rest))
    (hended : Ended ls) (hshort : Short ls) : Documents marks ls heredocs rest := by
  induction marks generalizing ls heredocs with
  | nil => cases h; exact ⟨[], .done rest, rfl⟩
  | cons mark marks ih =>
    obtain ⟨⟨body, ls₁⟩, hbody, h⟩ := bind_ok.mp h
    obtain ⟨⟨others, rest₁⟩, hothers, heq⟩ := map_ok.mp h
    cases heq
    obtain ⟨own, last, hls, hown, hlast, rfl⟩ := collectBody_ok hbody hended hshort
    subst hls
    have hended₁ : Ended ls₁ := @Ended.drop [last] ls₁ (@Ended.drop own _ hended)
    have hshort₁ : Short ls₁ := fun line hline =>
      hshort line (mem_append_right _ (mem_cons_of_mem _ hline))
    obtain ⟨owns, hsections, rfl⟩ := ih hothers hended₁ hshort₁
    exact ⟨own :: owns, .cut hown hlast hsections, rfl⟩

theorem furtherLines_ended (text : Text) : Ended (furtherLines text) := by
  have h := lines_ended text
  unfold furtherLines
  cases hlines : lines text with
  | nil => exact fun _ hl => by cases hl
  | cons line rest => rw [hlines] at h; exact @Ended.drop [line] rest h

theorem furtherLines_short {text : Text} (h : text.length < arkshMaxLine) :
    Short (furtherLines text) := fun _ hline =>
  (length_mem_lines (mem_of_mem_tail hline)).trans_lt h

/-- **Each document consists of the lines up to its delimiter.** -/
theorem collectHeredocs_documents {text : Text} {found : CollectedHeredocs}
    (h : collectHeredocs text = .ok (some found)) (hshort : text.length < arkshMaxLine) :
    ∃ stream marks, arkshLexLine found.header = .ok stream ∧
      heredocMarks 0 stream.tokens = .ok marks ∧
      Documents marks (furtherLines text) found.heredocs found.rest := by
  unfold collectHeredocs at h
  dsimp only at h
  split at h
  · cases h
  · obtain ⟨stream, hlex, h⟩ := bind_ok.mp h
    obtain ⟨marks, hmarks, h⟩ := bind_ok.mp h
    split at h
    · cases h
    next mark others =>
      split at h
      · cases h
      · obtain ⟨⟨heredocs, rest⟩, hbodies, heq⟩ := map_ok.mp h
        cases heq
        exact ⟨stream, _, hlex, hmarks,
          collectBodies_documents hbodies (furtherLines_ended text) (furtherLines_short hshort)⟩

end Arksh
