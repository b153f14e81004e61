/-
  Subject: `arksh_parse_line` behind its trimmed copy: here-documents, tokens, the parsers of the
           compound commands in turn, and the forms that are none.

  The parsers of the compound commands share one buffer for their message. Where one of them fails,
  its message says whether the line is refused or the next parser looks at it.
-/
import Arksh.Parse.Compound

namespace Arksh

open CText Scan List

/-! ## 1. The first line -/

def startsWithCompoundConstruct (text : Text) : Bool :=
  match text.dropWhile isspace with
  | [] => false
  | c :: rest =>
    c = '{' || c = '(' ||
      keywordIsCompoundOpen
        (((c :: rest).takeWhile fun c => !isspace c && c != ';').take (arkshMaxName - 1))

/-- The line that is parsed, with its here-documents: not where it starts with a compound command or
    has a list operator. -/
def lineHeredocs (trimmed : Text) : Except String (Text × List ArkshParsedHeredoc) :=
  if startsWithCompoundConstruct trimmed ∨ containsTopLevelListOperator trimmed then
    .ok (trimmed, [])
  else (collectLeadingHeredocs trimmed).map (·.getD (trimmed, []))

/-! ## 2. The compound commands in turn -/

def startsWithText (start message : String) : Bool := start.toList.isPrefixOf message.toList

/-- A parser of a compound command, and the messages behind which the line is refused. -/
structure CompoundParser where
  parse : Text → ArkshTokenStream → Attempt (ArkshAst ArkshNode)
  isFatal : Text → ArkshTokenStream → String → Bool

/-- The messages that refuse a line of a command: what starts with a text, and some whole ones. -/
def fatalMessages (starts exactly : List String) (_ : Text) (_ : ArkshTokenStream)
    (message : String) : Bool :=
  starts.any (startsWithText · message) || exactly.contains message

def fatalBehindWord (word : String) (_ : Text) (stream : ArkshTokenStream) (message : String) :
    Bool :=
  stream.tokens.head?.any (isWord · word) && message ≠ ""

def fatalBehindChar (c : Char) (except : String) (line : Text) (_ : ArkshTokenStream)
    (message : String) : Bool :=
  line.head? = some c && message ≠ "" && message ≠ except

def ifParser : CompoundParser where
  parse := parseIfCommandTokens
  isFatal := fatalMessages ["unterminated if command", "if command "] ["unexpected token after fi"]

def whileParser : CompoundParser where
  parse := parseWhileCommandTokens
  isFatal :=
    fatalMessages ["unterminated while command", "while command "] ["unexpected token after done"]

def untilParser : CompoundParser where
  parse := parseUntilCommandTokens
  isFatal :=
    fatalMessages ["unterminated until command", "until command "] ["unexpected token after done"]

def forParser : CompoundParser where
  parse := parseForCommandTokens
  isFatal :=
    fatalMessages ["unterminated for command", "for command "] ["unexpected token after done"]

def caseParser : CompoundParser where
  parse := parseCaseCommandTokens
  isFatal :=
    fatalMessages ["unterminated case command", "case branch ", "case command "]
      ["unexpected token after esac"]

def switchParser : CompoundParser where
  parse := parseSwitchCommandTokens
  isFatal :=
    fatalMessages ["unterminated switch command", "switch command ", "switch branch "]
      [ "unexpected token after endswitch", "default branch does not accept a match expression",
        "default branch must be the last branch in switch" ]

/-- The messages of `name() { body }` that refuse the line: not the one that there is no brace. -/
def posixFatal (message : String) : Bool :=
  (startsWithText "POSIX function" message &&
      !message.toList.tails.any fun tail => "expected '\x7b'".toList.isPrefixOf tail) ||
    message = "unexpected token after POSIX function definition"

/-- `name() { body }` has a buffer of its own, which is copied where its message refuses the
    line. -/
def posixFunctionParser : CompoundParser where
  parse line stream := (parsePosixFunctionCommandTokens line stream).mapError (·.filter posixFatal)
  isFatal _ _ := posixFatal

def functionParser : CompoundParser where
  parse := parseFunctionCommandTokens
  isFatal := fatalBehindWord "function"

def classParser : CompoundParser where
  parse := parseClassCommandTokens
  isFatal := fatalBehindWord "class"

def withSudoParser : CompoundParser where
  parse := parseWithSudoCommandTokens
  isFatal := fatalBehindWord "with"

def groupParser : CompoundParser where
  parse line _ :=
    (parseGroupCommandText line).map fun group =>
      .groupCommand (.redirections group.redirections) group.body
  isFatal := fatalBehindChar '{' "unexpected token after \x7d"

def subshellParser : CompoundParser where
  parse line _ :=
    (parseSubshellCommandText line).map fun subshell => .plain .subshellCommand (.subshell subshell)
  isFatal := fatalBehindChar '(' "unexpected token after )"

def compoundParsers : List CompoundParser :=
  [ ifParser, whileParser, untilParser, forParser, caseParser, switchParser, posixFunctionParser,
    functionParser, classParser, withSudoParser, groupParser, subshellParser ]

/-- The parsers in turn: the tree of the first one that takes the line, if no message refuses it
    before. -/
def firstCompound (line : Text) (stream : ArkshTokenStream) :
    List CompoundParser → String → Except String (Option (ArkshAst ArkshNode))
  | [], _ => .ok none
  | parser :: parsers, message =>
    match parser.parse line stream with
    | .ok ast => .ok (some ast)
    | .error left =>
      if parser.isFatal line stream (left.getD message) then .error (left.getD message)
      else firstCompound line stream parsers (left.getD message)

/-! ## 3. The other forms -/

def hasListControl (line : Text) (stream : ArkshTokenStream) : Bool :=
  stream.tokens.any fun token =>
    isListControlToken token.kind && !positionIsInsideNestedStructure line token.position

def boundaryLoop (line : Text) : Option ArkshToken → Nat → List ArkshToken → Bool
  | _, _, [] => false
  | previous, depth, token :: rest =>
    if token.kind = .eof then false
    else if positionIsInsideNestedStructure line token.position then
      boundaryLoop line (some token) depth rest
    else if token.kind = .word ∧ tokenStartsCommand line previous token = true then
      if depth = 0 ∧ previous.any (newlineBetween line · token) = true then true
      else boundaryLoop line (some token) (compoundDepthBehind depth token.text.1) rest
    else boundaryLoop line (some token) depth rest

def hasTopLevelCommandBoundary (line : Text) (stream : ArkshTokenStream) : Bool :=
  boundaryLoop line none 0 stream.tokens

def parsePipelineSource (source : Text) : Except String ArkshValueSourceNode :=
  match parseValueSourceTextEx source true "" with
  | .value value => .ok value
  | .noValue message | .invalid message =>
    if source ≠ [] then .ok { kind := .captureShell, text := source, rawText := source }
    else .error (if message = "" then "invalid pipeline source" else message)

def pipelineStages (line : Text) : List ArkshPipelineStageNode → Nat → List ArkshToken →
    Except String (List ArkshPipelineStageNode)
  | stages, _, [] => .ok stages
  | stages, start, token :: rest =>
    if token.kind = .objectPipe ∨ token.kind = .eof then
      if stages.length ≥ arkshMaxPipelineStages then .error "too many pipeline stages"
      else
        let text := copyTrimmedSlice line start token.position
        match parsePipelineStageText text with
        | none => .error ("invalid pipeline stage: " ++ String.ofList text)
        | some stage =>
          pipelineStages line (stages ++ [stage]) (token.position + token.text.1.length) rest
    else pipelineStages line stages start rest

def parseObjectPipeline (line : Text) (pipe : ArkshToken) (behind : List ArkshToken) :
    Except String (ArkshAst ArkshNode) :=
  (parsePipelineSource (copyTrimmedSlice line 0 pipe.position)).bind fun source =>
    (pipelineStages line [] (pipe.position + pipe.text.1.length) behind).bind fun stages =>
      if stages = [] then .error "" else .ok (.plain .objectPipeline (.pipeline source stages))

def hasToken (stream : ArkshTokenStream) (is : ArkshTokenKind → Bool) : Bool :=
  stream.tokens.any fun token => is token.kind

/-- A pipeline or a simple command, or the error of an object expression with this message about
    it. -/
def parseShellForm (line : Text) (stream : ArkshTokenStream) (heredocs : List ArkshParsedHeredoc)
    (message : String) : Except String (ArkshAst ArkshNode) :=
  let isPipeline := hasToken stream (· = .shellPipe) || hasToken stream isRedirectToken
  if hasToken stream (· = .arrow) ∨ "obj(".toList.isPrefixOf line then
    if isPipeline then
      .error "shell pipe and redirection are not supported after object expressions yet"
    else .error (if message = "" then "invalid object expression" else message)
  else if isPipeline then
    (parseCommandPipelineTokens stream heredocs).map fun stages =>
      .plain .commandPipeline (.commandPipeline stages)
  else
    (parseSimpleCommandTokens stream).map fun words =>
      if words = [] then .empty else .plain .simpleCommand (.command words)

def parseSingleForm (line : Text) (stream : ArkshTokenStream) (heredocs : List ArkshParsedHeredoc) :
    Except String (ArkshAst ArkshNode) :=
  match stream.tokens.dropWhile fun token => token.kind ≠ .objectPipe with
  | pipe :: behind => parseObjectPipeline line pipe behind
  | [] =>
    match parseObjectExpressionText line with
    | .ok expression => .ok (.plain .objectExpression (.objectExpression expression))
    | .error _ =>
      match parseValueSourceText line "" with
      | .value value =>
        if value.kind ≠ .objectExpression then
          .ok (.plain .valueExpression (.valueExpression value))
        else parseShellForm line stream heredocs ""
      | .invalid message => .error message
      | .noValue message => parseShellForm line stream heredocs message

def parseOtherForms (line : Text) (stream : ArkshTokenStream) (heredocs : List ArkshParsedHeredoc) :
    Except String (ArkshAst ArkshNode) :=
  if hasListControl line stream ∨ hasTopLevelCommandBoundary line stream then
    (parseCommandListTokens line stream).map .commandList
  else parseSingleForm line stream heredocs

/-! ## 4. The line -/

def parseTokens (line : Text) (stream : ArkshTokenStream) (heredocs : List ArkshParsedHeredoc) :
    Except String (ArkshAst ArkshNode) :=
  (firstCompound line stream compoundParsers "").bind fun
    | some ast => .ok ast
    | none => parseOtherForms line stream heredocs

def parseTrimmed (trimmed : Text) : Except String (ArkshAst ArkshNode) :=
  (lineHeredocs trimmed).bind fun (line, heredocs) =>
    (arkshLexLine line).bind fun stream => parseTokens line stream heredocs

def lineParser : ParserBody (ArkshAst ArkshNode) where
  parse := parseTrimmed
  kind := ArkshAst.kind
  empty := .empty
  kind_empty := rfl

/-! ## 5. The line of a text -/

structure LexedLine (text : Text) where
  line : Text
  heredocs : List ArkshParsedHeredoc
  stream : ArkshTokenStream
  found : lineHeredocs (trimCopy arkshMaxLine text) = .ok (line, heredocs)
  lexed : arkshLexLine line = .ok stream

variable {text trimmed : Text} {found : CollectedHeredocs}

def LexedLine.below (l : LexedLine text) : Text := (trimText text).drop l.line.length

def LexedLine.parsed (l : LexedLine text) : Except String (ArkshAst ArkshNode) :=
  parseTokens l.line l.stream l.heredocs

theorem parseTrimmed_nil : parseTrimmed [] = .ok .empty := by
  rfl

theorem arkshParseLine_eq (text : Text) :
    arkshParseLine lineParser text = parseTrimmed (trimCopy arkshMaxLine text) := by
  unfold arkshParseLine
  dsimp only
  split
  next hnil => rw [hnil, parseTrimmed_nil]; rfl
  · rfl

theorem LexedLine.parse_eq (l : LexedLine text) : arkshParseLine lineParser text = l.parsed := by
  rw [arkshParseLine_eq, parseTrimmed, l.found]
  show (arkshLexLine l.line).bind _ = _
  rw [l.lexed]
  rfl

theorem exists_lexedLine {ast : ArkshAst ArkshNode}
    (h : arkshParseLine lineParser text = .ok ast) : Nonempty (LexedLine text) := by
  rw [arkshParseLine_eq] at h
  obtain ⟨⟨line, heredocs⟩, hfound, h⟩ := bind_ok.mp h
  obtain ⟨stream, hlex, -⟩ := bind_ok.mp h
  exact ⟨⟨line, heredocs, stream, hfound, hlex⟩⟩

def CollectsLine (trimmed : Text) : Prop :=
  startsWithCompoundConstruct trimmed = false ∧ containsTopLevelListOperator trimmed = false

theorem lineHeredocs_cases {line : Text} {heredocs : List ArkshParsedHeredoc}
    (h : lineHeredocs trimmed = .ok (line, heredocs)) : line = trimmed ∧ heredocs = [] ∨
      CollectsLine trimmed ∧ ∃ found, collectHeredocs trimmed = .ok (some found) ∧
        line = found.header ∧ heredocs = found.heredocs := by
  unfold lineHeredocs at h
  split at h
  · cases h; exact .inl ⟨rfl, rfl⟩
  next hline =>
    rw [not_or, Bool.not_eq_true, Bool.not_eq_true] at hline
    obtain ⟨collected, hcollected, heq⟩ := map_ok.mp h
    obtain ⟨found, hfound, rfl⟩ := map_ok.mp hcollected
    cases found with
    | none => cases heq; exact .inl ⟨rfl, rfl⟩
    | some found => cases heq; exact .inr ⟨hline, found, hfound, rfl, rfl⟩

theorem lineHeredocs_collected (hline : CollectsLine trimmed)
    (h : collectHeredocs trimmed = .ok (some found)) :
    lineHeredocs trimmed = .ok (found.header, found.heredocs) := by
  rw [lineHeredocs, if_neg (by simp [hline.1, hline.2]), collectLeadingHeredocs, h]
  rfl

theorem copyTrimmedSlice_length (line : Text) (start stop : Nat) :
    (copyTrimmedSlice line start stop).length ≤ stop - start := by
  refine ((length_take_le' _ _).trans (trimText_length_le _)).trans ?_
  exact (length_take_le _ _).trans (Nat.min_le_left _ _)

theorem collectHeredocs_below {text : Text} (h : collectHeredocs text = .ok (some found)) :
    found.heredocs ≠ [] ∧ found.header.length < text.length := by
  unfold collectHeredocs at h
  dsimp only at h
  split at h
  · cases h
  · obtain ⟨stream, _, h⟩ := bind_ok.mp h
    obtain ⟨marks, _, h⟩ := bind_ok.mp h
    split at h
    · cases h
    next mark marks =>
      split at h
      · cases h
      next hbelow =>
        obtain ⟨⟨heredocs, rest⟩, hbodies, heq⟩ := map_ok.mp h
        cases heq
        refine ⟨ne_nil_of_length_pos ?_, ?_⟩
        · rw [collectBodies_length hbodies]; exact Nat.succ_pos _
        · have hheader := copyTrimmedSlice_length text 0 (firstLine text).length
          have hfirst : (firstLine text).length ≤ text.length := (List.takeWhile_prefix _).length_le
          show (copyTrimmedSlice text 0 (firstLine text).length).length < _
          omega

/-- **Nothing stands behind the line of a text that fits the buffer and has no here-documents.** -/
theorem LexedLine.below_eq_nil (l : LexedLine text) :
    l.below = [] ↔ l.heredocs = [] ∧ (trimText text).length < arkshMaxLine := by
  have hcut : (trimCopy arkshMaxLine text).length = min 2047 (trimText text).length := length_take
  have hmax : arkshMaxLine = 2048 := rfl
  rw [LexedLine.below, drop_eq_nil_iff]
  rcases lineHeredocs_cases l.found with ⟨hline, hnone⟩ | ⟨-, found, hfound, hline, hheredocs⟩
  · rw [hline, hnone]
    simp only [true_and]
    omega
  · obtain ⟨hsome, hshort⟩ := collectHeredocs_below hfound
    rw [hline, hheredocs]
    simp only [hsome, false_and, iff_false]
    omega

end Arksh
