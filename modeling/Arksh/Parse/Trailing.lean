/-
  Subject: Text behind the closing keyword of a compound command.

  Nine parsers look for their closing keyword, and all but that of `with sudo` check that nothing
  follows it. They look at one line only: here-documents that this line announces, and what does
  not fit the buffer, are not seen by any of them.
-/
import Arksh.Parse.Line

namespace Arksh

open CText Scan List

/-! ## 1. The commands with a closing keyword -/

inductive CompoundKind where
  | ifCommand | whileCommand | untilCommand | forCommand | caseCommand | switchCommand
  | functionCommand | classCommand | withSudoCommand
  deriving DecidableEq

namespace CompoundKind

def keyword : CompoundKind → String
  | ifCommand => "if"
  | whileCommand => "while"
  | untilCommand => "until"
  | forCommand => "for"
  | caseCommand => "case"
  | switchCommand => "switch"
  | functionCommand => "function"
  | classCommand => "class"
  | withSudoCommand => "with"

def parser : CompoundKind → CompoundParser
  | ifCommand => ifParser
  | whileCommand => whileParser
  | untilCommand => untilParser
  | forCommand => forParser
  | caseCommand => caseParser
  | switchCommand => switchParser
  | functionCommand => functionParser
  | classCommand => classParser
  | withSudoCommand => withSudoParser

def astKind : CompoundKind → ArkshAstKind
  | ifCommand => .ifCommand
  | whileCommand => .whileCommand
  | untilCommand => .untilCommand
  | forCommand => .forCommand
  | caseCommand => .caseCommand
  | switchCommand => .switchCommand
  | functionCommand => .functionCommand
  | classCommand => .classCommand
  | withSudoCommand => .withSudoCommand

/-- The closing keyword that the parser finds. -/
def closing (kind : CompoundKind) (line : Text) (stream : ArkshTokenStream) : Option Found :=
  match kind with
  | ifCommand => (locateIf line stream).toOption.map Located.closing
  | whileCommand => (locateWhile line stream).toOption.map Located.closing
  | untilCommand => (locateUntil line stream).toOption.map Located.closing
  | forCommand => (locateFor line stream).toOption.map fun found => found.2.closing
  | caseCommand => (locateCase line stream).toOption.map Located.closing
  | switchCommand => (locateSwitch line stream).toOption.map Located.closing
  | functionCommand => (locateFunction line stream).toOption.map Located.closing
  | classCommand => (locateClass line stream).toOption.map Located.closing
  | withSudoCommand => (locateWithSudo line stream).toOption.map Located.closing

end CompoundKind

def StartsWith (stream : ArkshTokenStream) (word : String) : Prop :=
  ∃ first rest, stream.tokens = first :: rest ∧ isWord first word = true

/-! ## 2. What each parser checks -/

variable {line : Text} {stream : ArkshTokenStream} {keyword message word : String}
  {parser : CompoundParser}

theorem behindKeywordToken_ok {found : ArkshToken × List ArkshToken}
    (h : behindKeywordToken stream keyword = .ok found) : StartsWith stream keyword := by
  unfold behindKeywordToken at h
  split at h
  next first rest htokens =>
    split at h
    next hword => exact ⟨first, rest, htokens, hword⟩
    · cases h
  · cases h

/-- What a parser does that has found its closing keyword: a tree of its kind, or a message that
    refuses what stands behind (`with sudo` apart). -/
inductive Concludes (kind : CompoundKind) (line : Text) (stream : ArkshTokenStream) (closing : Found) :
    Attempt (ArkshAst ArkshNode) → Prop where
  | takes (ast : ArkshAst ArkshNode) (hkind : ast.kind = kind.astKind)
      (hlast : closing.isLast = true ∨ kind = .withSudoCommand) :
      Concludes kind line stream closing (.ok ast)
  | refuses (message : String) (hfatal : kind.parser.isFatal line stream message = true) :
      Concludes kind line stream closing (.error (some message))

variable {kind : CompoundKind} {closing : Found} {ast : ArkshAst ArkshNode}

theorem Concludes.expectEnd (hkind : ast.kind = kind.astKind)
    (hfatal : kind.parser.isFatal line stream ("unexpected token after " ++ keyword) = true) :
    Concludes kind line stream closing (expectEnd keyword closing ast) := by
  unfold Arksh.expectEnd
  split
  next hlast => exact .takes ast hkind (.inl hlast)
  · exact .refuses _ hfatal

theorem finishLoop_concludes {what : String} {located : Located LoopParts}
    {node : Text → Text → ArkshAst ArkshNode}
    (hnode : ∀ front body, (node front body).kind = kind.astKind)
    (hbody : kind.parser.isFatal line stream
      (keyword ++ " command requires " ++ what ++ " and a body") = true)
    (hdone : kind.parser.isFatal line stream "unexpected token after done" = true) :
    Concludes kind line stream located.closing (finishLoop line keyword what located node) := by
  unfold finishLoop
  dsimp only
  split
  · exact .refuses _ hbody
  · exact .expectEnd (hnode _ _) hdone

theorem fatalBehindWord_of_startsWith (line : Text) (h : StartsWith stream word)
    (hmessage : message ≠ "") : fatalBehindWord word line stream message = true := by
  obtain ⟨first, rest, htokens, hword⟩ := h
  simp [fatalBehindWord, htokens, hword, hmessage]

theorem CompoundKind.closing_startsWith (h : kind.closing line stream = some closing) :
    StartsWith stream kind.keyword := by
  cases kind <;>
  · obtain ⟨located, hlocated, -⟩ := toOption_map_some h
    obtain ⟨found, hfound, -⟩ := bind_ok.mp hlocated
    exact behindKeywordToken_ok hfound

theorem CompoundKind.concludes (h : kind.closing line stream = some closing) :
    Concludes kind line stream closing (kind.parser.parse line stream) := by
  have hstart := closing_startsWith h
  cases kind with
  | ifCommand =>
    obtain ⟨⟨parts, fi⟩, hlocated, rfl⟩ := toOption_map_some h
    show Concludes _ _ _ _ (parseIfCommandTokens line stream)
    rw [parseIfCommandTokens, hlocated]
    dsimp only [Except.bind]
    split
    · exact .refuses _ rfl
    · exact .expectEnd rfl rfl
  | whileCommand =>
    obtain ⟨located, hlocated, rfl⟩ := toOption_map_some h
    show Concludes _ _ _ _ (parseWhileCommandTokens line stream)
    rw [parseWhileCommandTokens, hlocated]
    dsimp only [Except.bind]
    exact finishLoop_concludes (fun _ _ => rfl)
      (by simp [CompoundKind.parser, whileParser, fatalMessages, startsWithText]) rfl
  | untilCommand =>
    obtain ⟨located, hlocated, rfl⟩ := toOption_map_some h
    show Concludes _ _ _ _ (parseUntilCommandTokens line stream)
    rw [parseUntilCommandTokens, hlocated]
    dsimp only [Except.bind]
    exact finishLoop_concludes (fun _ _ => rfl)
      (by simp [CompoundKind.parser, untilParser, fatalMessages, startsWithText]) rfl
  | forCommand =>
    obtain ⟨⟨name, located⟩, hlocated, rfl⟩ := toOption_map_some h
    show Concludes _ _ _ _ (parseForCommandTokens line stream)
    rw [parseForCommandTokens, hlocated]
    dsimp only [Except.bind]
    exact finishLoop_concludes (fun _ _ => rfl)
      (by simp [CompoundKind.parser, forParser, fatalMessages, startsWithText]) rfl
  | caseCommand =>
    obtain ⟨⟨node, esac⟩, hlocated, rfl⟩ := toOption_map_some h
    show Concludes _ _ _ _ (parseCaseCommandTokens line stream)
    rw [parseCaseCommandTokens, hlocated]
    dsimp only [Except.bind]
    split
    · exact .refuses _ rfl
    · exact .expectEnd rfl rfl
  | switchCommand =>
    obtain ⟨⟨node, endswitch⟩, hlocated, rfl⟩ := toOption_map_some h
    show Concludes _ _ _ _ (parseSwitchCommandTokens line stream)
    rw [parseSwitchCommandTokens, hlocated]
    dsimp only [Except.bind]
    split
    · exact .refuses _ rfl
    · exact .expectEnd rfl rfl
  | functionCommand =>
    obtain ⟨⟨parts, endfunction⟩, hlocated, rfl⟩ := toOption_map_some h
    show Concludes _ _ _ _ (parseFunctionCommandTokens line stream)
    rw [parseFunctionCommandTokens, hlocated]
    dsimp only [Except.bind]
    split
    · exact .refuses _ (fatalBehindWord_of_startsWith line hstart (by decide))
    · exact .expectEnd rfl (fatalBehindWord_of_startsWith line hstart (by decide))
  | classCommand =>
    obtain ⟨⟨parts, endclass⟩, hlocated, rfl⟩ := toOption_map_some h
    show Concludes _ _ _ _ (parseClassCommandTokens line stream)
    rw [parseClassCommandTokens, hlocated]
    exact .expectEnd rfl (fatalBehindWord_of_startsWith line hstart (by decide))
  | withSudoCommand =>
    obtain ⟨⟨doToken, endwith⟩, hlocated, rfl⟩ := toOption_map_some h
    show Concludes _ _ _ _ (parseWithSudoCommandTokens line stream)
    rw [parseWithSudoCommandTokens, hlocated]
    dsimp only [Except.bind]
    split
    · exact .refuses _ (fatalBehindWord_of_startsWith line hstart (by decide))
    · exact .takes _ rfl (.inr rfl)

theorem CompoundKind.parse_closing (h : kind.parser.parse line stream = .ok ast) :
    ∃ closing, kind.closing line stream = some closing := by
  cases kind <;>
  · obtain ⟨located, hlocated, -⟩ := bind_ok.mp h; simp [closing, hlocated, Except.toOption]

/-! ## 3. The parsers in turn -/

/-- The parser does not know the first word, and the next one looks at the line. -/
structure Passes (parser : CompoundParser) (line : Text) (stream : ArkshTokenStream) : Prop where
  parse : parser.parse line stream = .error none
  isFatal : parser.isFatal line stream "" = false

theorem StartsWith.unique {a b : String} (ha : StartsWith stream a) (hb : StartsWith stream b) :
    a = b := by
  obtain ⟨first, rest, htokens, hword⟩ := ha
  obtain ⟨first', rest', htokens', hword'⟩ := hb
  rw [htokens] at htokens'
  cases htokens'
  simp only [isWord, Bool.and_eq_true, decide_eq_true_eq] at hword hword'
  exact String.toList_inj.mp (hword.2.symm.trans hword'.2)

variable {a b : CompoundKind}

theorem CompoundKind.keyword_injective (h : a.keyword = b.keyword) : a = b := by
  cases a <;> cases b <;> first | rfl | exact absurd h (by decide)

theorem CompoundKind.astKind_injective (h : a.astKind = b.astKind) : a = b := by
  cases a <;> cases b <;> first | rfl | cases h

theorem behindKeywordToken_error (h : ¬ StartsWith stream word) :
    behindKeywordToken stream word = .error none := by
  unfold behindKeywordToken
  split
  next first rest htokens => rw [if_neg]; exact fun hword => h ⟨first, rest, htokens, hword⟩
  · rfl

theorem fatalBehindWord_empty (word : String) (line : Text) (stream : ArkshTokenStream) :
    fatalBehindWord word line stream "" = false := by
  simp [fatalBehindWord]

theorem CompoundKind.passes (h : ¬ StartsWith stream kind.keyword) :
    Passes kind.parser line stream := by
  have herror := behindKeywordToken_error h
  constructor
  · cases kind <;> exact bind_error.mpr (.inl (bind_error.mpr (.inl herror)))
  · cases kind with
    | functionCommand | classCommand | withSudoCommand => exact fatalBehindWord_empty _ line stream
    | _ => rfl

theorem CompoundKind.opens (kind : CompoundKind) :
    keywordIsCompoundOpen kind.keyword.toList = true := by
  cases kind <;> rfl

theorem posixFunction_name (h : parsePosixFunctionCommandTokens line stream = .ok ast)
    (kind : CompoundKind) : ¬ StartsWith stream kind.keyword := by
  intro ⟨first, rest, htokens, hword⟩
  simp only [isWord, Bool.and_eq_true, decide_eq_true_eq] at hword
  obtain ⟨_, hlocated, -⟩ := bind_ok.mp h
  unfold locatePosixFunction at hlocated
  rw [htokens] at hlocated
  split at hlocated
  next heq =>
    cases heq
    split at hlocated
    · cases hlocated
    · rw [if_pos (.inl (hword.2 ▸ kind.opens))] at hlocated; cases hlocated
  · cases hlocated

theorem posixFunction_passes (h : StartsWith stream kind.keyword) :
    Passes posixFunctionParser line stream := by
  obtain ⟨first, rest, htokens, hword⟩ := h
  simp only [isWord, Bool.and_eq_true, decide_eq_true_eq] at hword
  refine ⟨?_, rfl⟩
  have hlocated : locatePosixFunction line stream = .error none := by
    unfold locatePosixFunction
    rw [htokens]
    split
    next heq =>
      cases heq
      split
      · rfl
      · rw [if_pos (.inl (hword.2 ▸ kind.opens))]
    · rfl
  show (parsePosixFunctionCommandTokens line stream).mapError _ = _
  rw [parsePosixFunctionCommandTokens, hlocated]
  rfl

theorem firstCompound_passes {front : List CompoundParser}
    (hfront : ∀ parser ∈ front, Passes parser line stream) (behind : List CompoundParser) :
    firstCompound line stream (front ++ behind) "" = firstCompound line stream behind "" := by
  induction front with
  | nil => rfl
  | cons parser front ih =>
    have hpasses := hfront parser mem_cons_self
    rw [cons_append, firstCompound, hpasses.parse]
    dsimp only [Option.getD_none]
    rw [if_neg (by simp [hpasses.isFatal])]
    exact ih fun other hother => hfront other (mem_cons_of_mem _ hother)

variable {parsers : List CompoundParser}

theorem firstCompound_takes (h : parser.parse line stream = .ok ast) :
    firstCompound line stream (parser :: parsers) message = .ok (some ast) := by
  rw [firstCompound, h]

theorem firstCompound_refuses {left : String} (h : parser.parse line stream = .error (some left))
    (hfatal : parser.isFatal line stream left = true) :
    firstCompound line stream (parser :: parsers) message = .error left := by
  rw [firstCompound, h]
  exact if_pos hfatal

theorem firstCompound_mem (h : firstCompound line stream parsers message = .ok (some ast)) :
    ∃ parser ∈ parsers, parser.parse line stream = .ok ast := by
  induction parsers generalizing message with
  | nil => cases h
  | cons parser parsers ih =>
    unfold firstCompound at h
    split at h
    next taken htaken => cases h; exact ⟨parser, mem_cons_self, htaken⟩
    · split at h
      · cases h
      · obtain ⟨other, hother, htaken⟩ := ih h
        exact ⟨other, mem_cons_of_mem _ hother, htaken⟩

/-- The commands whose parsers stand in front of that of functions `name() { body }`. -/
def earlyKinds : List CompoundKind :=
  [.ifCommand, .whileCommand, .untilCommand, .forCommand, .caseCommand, .switchCommand]

def lateKinds : List CompoundKind := [.functionCommand, .classCommand, .withSudoCommand]

theorem compoundParsers_eq : compoundParsers = earlyKinds.map CompoundKind.parser ++
    posixFunctionParser :: (lateKinds.map CompoundKind.parser ++ [groupParser, subshellParser]) :=
  rfl

/-- The parsers in front are those of other keywords, or of functions `name() { body }`. -/
theorem compoundParsers_split (kind : CompoundKind) :
    ∃ front behind, compoundParsers = front ++ kind.parser :: behind ∧
      ∀ parser ∈ front, parser = posixFunctionParser ∨ ∃ other ≠ kind, parser = other.parser := by
  by_cases hearly : kind ∈ earlyKinds
  · obtain ⟨front, behind, hkinds, hnot⟩ := eq_append_cons_of_mem hearly
    refine ⟨front.map CompoundKind.parser, behind.map CompoundKind.parser ++
      posixFunctionParser :: (lateKinds.map CompoundKind.parser ++ [groupParser, subshellParser]),
      ?_, ?_⟩
    · rw [compoundParsers_eq, hkinds]; simp
    · intro parser hparser
      obtain ⟨other, hother, rfl⟩ := mem_map.mp hparser
      exact .inr ⟨other, fun heq => hnot (heq ▸ hother), rfl⟩
  · have hlate : kind ∈ lateKinds := by
      cases kind <;> first | exact absurd (by decide) hearly | decide
    obtain ⟨front, behind, hkinds, hnot⟩ := eq_append_cons_of_mem hlate
    refine ⟨earlyKinds.map CompoundKind.parser ++
      posixFunctionParser :: front.map CompoundKind.parser,
      behind.map CompoundKind.parser ++ [groupParser, subshellParser], ?_, ?_⟩
    · rw [compoundParsers_eq, hkinds]; simp
    · intro parser hparser
      rcases mem_append.mp hparser with hparser | hparser
      · obtain ⟨other, hother, rfl⟩ := mem_map.mp hparser
        exact .inr ⟨other, fun heq => hearly (heq ▸ hother), rfl⟩
      · rcases mem_cons.mp hparser with rfl | hparser
        · exact .inl rfl
        · obtain ⟨other, hother, rfl⟩ := mem_map.mp hparser
          exact .inr ⟨other, fun heq => hnot (heq ▸ hother), rfl⟩

theorem firstCompound_of_startsWith (h : StartsWith stream kind.keyword) :
    ∃ behind, firstCompound line stream compoundParsers "" =
      firstCompound line stream (kind.parser :: behind) "" := by
  obtain ⟨front, behind, hparsers, hfront⟩ := compoundParsers_split kind
  refine ⟨behind, ?_⟩
  rw [hparsers]
  refine firstCompound_passes (fun parser hparser => ?_) _
  rcases hfront parser hparser with rfl | ⟨other, hother, rfl⟩
  · exact posixFunction_passes h
  · exact CompoundKind.passes fun hstart =>
      hother (CompoundKind.keyword_injective (hstart.unique h))

theorem firstCompound_posixFunction (h : parsePosixFunctionCommandTokens line stream = .ok ast) :
    firstCompound line stream compoundParsers "" = .ok (some ast) := by
  rw [compoundParsers_eq, firstCompound_passes]
  · refine firstCompound_takes ?_
    show (parsePosixFunctionCommandTokens line stream).mapError _ = _
    rw [h]
    rfl
  · intro parser hparser
    obtain ⟨kind, -, rfl⟩ := mem_map.mp hparser
    exact CompoundKind.passes (posixFunction_name h kind)

/-! ## 4. The tree of a line -/

variable {text : Text}

variable {l : LexedLine text}

theorem LexedLine.parsed_of_takes (h : kind.parser.parse l.line l.stream = .ok ast) :
    l.parsed = .ok ast := by
  obtain ⟨closing, hclosing⟩ := CompoundKind.parse_closing h
  obtain ⟨behind, hfirst⟩ := @firstCompound_of_startsWith l.line l.stream kind
    (CompoundKind.closing_startsWith hclosing)
  rw [LexedLine.parsed, parseTokens, hfirst, firstCompound_takes h]
  rfl

theorem LexedLine.parsed_of_posixFunction
    (h : parsePosixFunctionCommandTokens l.line l.stream = .ok ast) : l.parsed = .ok ast := by
  rw [LexedLine.parsed, parseTokens, firstCompound_posixFunction h]
  rfl

/-- **A closing keyword that is found makes the line a command of its kind or an error.** -/
theorem LexedLine.parsed_of_closing (h : kind.closing l.line l.stream = some closing) :
    (∃ ast, kind.parser.parse l.line l.stream = .ok ast ∧
      (closing.isLast = true ∨ kind = .withSudoCommand)) ∨ ∃ message, l.parsed = .error message := by
  obtain ⟨behind, hfirst⟩ := @firstCompound_of_startsWith l.line l.stream kind
    (CompoundKind.closing_startsWith h)
  have hconcludes := CompoundKind.concludes h
  cases hparse : kind.parser.parse l.line l.stream with
  | ok ast =>
    rw [hparse] at hconcludes
    cases hconcludes with
    | takes _ _ hlast => exact .inl ⟨ast, rfl, hlast⟩
  | error left =>
    rw [hparse] at hconcludes
    cases hconcludes with
    | refuses message hfatal =>
      refine .inr ⟨message, ?_⟩
      rw [LexedLine.parsed, parseTokens, hfirst, firstCompound_refuses hparse hfatal]
      rfl

def plainKinds : List ArkshAstKind :=
  [ .empty, .simpleCommand, .valueExpression, .objectExpression, .objectPipeline, .commandPipeline,
    .commandList, .groupCommand, .subshellCommand ]

theorem CompoundKind.astKind_not_plain (kind : CompoundKind) : kind.astKind ∉ plainKinds := by
  cases kind <;> decide

def singleKinds : List ArkshAstKind :=
  [ .empty, .simpleCommand, .valueExpression, .objectExpression, .objectPipeline,
    .commandPipeline ]

variable {heredocs : List ArkshParsedHeredoc}

theorem parseShellForm_kind (h : parseShellForm line stream heredocs message = .ok ast) :
    ast.kind ∈ singleKinds := by
  unfold parseShellForm at h
  dsimp only at h
  split at h
  · split at h <;> cases h
  · split at h
    · obtain ⟨stages, -, rfl⟩ := map_ok.mp h; simp [ArkshAst.kind, singleKinds]
    · obtain ⟨words, -, rfl⟩ := map_ok.mp h
      split <;> simp [ArkshAst.kind, singleKinds]

theorem parseSingleForm_kind (h : parseSingleForm line stream heredocs = .ok ast) :
    ast.kind ∈ singleKinds := by
  unfold parseSingleForm at h
  split at h
  next pipe behind _ =>
    obtain ⟨source, -, h⟩ := bind_ok.mp h
    obtain ⟨stages, -, h⟩ := bind_ok.mp h
    split at h
    · cases h
    · cases h; simp [ArkshAst.kind, singleKinds]
  · split at h
    · cases h; simp [ArkshAst.kind, singleKinds]
    · split at h
      · split at h
        · cases h; simp [ArkshAst.kind, singleKinds]
        · exact parseShellForm_kind h
      · cases h
      · exact parseShellForm_kind h

theorem parseOtherForms_kind (h : parseOtherForms line stream heredocs = .ok ast) :
    ast.kind ∈ plainKinds := by
  unfold parseOtherForms at h
  split at h
  · obtain ⟨entries, -, rfl⟩ := map_ok.mp h; simp [ArkshAst.kind, plainKinds]
  · have hsingle : singleKinds ⊆ plainKinds := by decide
    exact hsingle (parseSingleForm_kind h)

theorem mem_compoundParsers (h : parser ∈ compoundParsers) :
    (∃ kind : CompoundKind, parser = kind.parser) ∨ parser = posixFunctionParser ∨
      parser = groupParser ∨ parser = subshellParser := by
  rw [compoundParsers_eq] at h
  simp only [mem_append, mem_cons, mem_map, not_mem_nil, or_false] at h
  rcases h with ⟨kind, -, rfl⟩ | rfl | ⟨kind, -, rfl⟩ | rfl | rfl
  · exact .inl ⟨kind, rfl⟩
  · exact .inr (.inl rfl)
  · exact .inl ⟨kind, rfl⟩
  · exact .inr (.inr (.inl rfl))
  · exact .inr (.inr (.inr rfl))

theorem CompoundKind.parse_kind (h : kind.parser.parse line stream = .ok ast) :
    ast.kind = kind.astKind := by
  obtain ⟨closing, hclosing⟩ := parse_closing h
  have hconcludes := concludes hclosing
  rw [h] at hconcludes
  cases hconcludes with
  | takes _ hkind _ => exact hkind

theorem mapError_ok {ε ε' α : Type} {x : Except ε α} {f : ε → ε'} {a : α}
    (h : x.mapError f = .ok a) : x = .ok a := by
  cases x with
  | error e => cases h
  | ok b => cases h; rfl

theorem posixFunction_ok (h : parsePosixFunctionCommandTokens line stream = .ok ast) :
    ∃ name body behind, locatePosixFunction line stream = .ok (name, body, behind) ∧
      behind.dropWhile (fun c => c = ';' || isspace c) = [] ∧ ast.kind = .functionCommand := by
  obtain ⟨⟨name, body, behind⟩, hlocated, h⟩ := bind_ok.mp h
  dsimp only at h
  split at h
  next hlast => cases h; exact ⟨name, body, behind, hlocated, hlast, rfl⟩
  · cases h

/-- **A compound command is what its parser makes of the line, or a function `name() { body }`.** -/
theorem LexedLine.parsed_kind (h : l.parsed = .ok ast) (hkind : ast.kind = kind.astKind) :
    kind.parser.parse l.line l.stream = .ok ast ∨
      kind = .functionCommand ∧ parsePosixFunctionCommandTokens l.line l.stream = .ok ast := by
  obtain ⟨taken, hfirst, h⟩ := bind_ok.mp h
  have hplain := hkind ▸ kind.astKind_not_plain
  cases taken with
  | none => exact absurd (parseOtherForms_kind h) hplain
  | some taken =>
    cases h
    obtain ⟨parser, hmem, hparse⟩ := firstCompound_mem hfirst
    rcases mem_compoundParsers hmem with ⟨other, rfl⟩ | rfl | rfl | rfl
    · have hother := (CompoundKind.parse_kind hparse).symm.trans hkind
      cases CompoundKind.astKind_injective hother
      exact .inl hparse
    · have hparse := mapError_ok hparse
      obtain ⟨_, _, _, -, -, hfunction⟩ := posixFunction_ok hparse
      have hsame : kind.astKind = CompoundKind.functionCommand.astKind := hkind.symm.trans hfunction
      exact .inr ⟨CompoundKind.astKind_injective hsame, hparse⟩
    · obtain ⟨group, -, rfl⟩ := map_ok.mp hparse
      exact absurd (by simp [ArkshAst.kind, plainKinds]) hplain
    · obtain ⟨subshell, -, rfl⟩ := map_ok.mp hparse
      exact absurd (by simp [ArkshAst.kind, plainKinds]) hplain

/-! ## 5. The law -/

inductive LexedLine.EndsWith (l : LexedLine text) (kind : CompoundKind) : Prop where
  | keyword (closing : Found) (hclosing : kind.closing l.line l.stream = some closing)
      (hlast : closing.isLast = true) (hbelow : l.below = [])
  | brace (hkind : kind = .functionCommand) (name body behind : Text)
      (hlocated : locatePosixFunction l.line l.stream = .ok (name, body, behind))
      (hlast : behind.dropWhile (fun c => c = ';' || isspace c) = []) (hbelow : l.below = [])

/-- A compound command that is accepted ends with its closing keyword, and the text with it; a text
    with anything behind one is refused. -/
structure CompoundLaw (text : Text) : Prop where
  accepted : ∀ ast, arkshParseLine lineParser text = .ok ast →
    ∀ kind : CompoundKind, ast.kind = kind.astKind →
      ∃ l : LexedLine text, l.EndsWith kind
  rejected : ∀ (l : LexedLine text) (kind : CompoundKind) (closing : Found),
    kind.closing l.line l.stream = some closing → closing.isLast = false ∨ l.below ≠ [] →
      ∃ message, arkshParseLine lineParser text = .error message

/-- A parser with a closing keyword, or that of functions `name() { body }`, takes the line. -/
def LexedLine.TakesCompound (l : LexedLine text) : Prop :=
  (∃ (kind : CompoundKind) (ast : ArkshAst ArkshNode),
    kind.parser.parse l.line l.stream = .ok ast) ∨
  ∃ ast, parsePosixFunctionCommandTokens l.line l.stream = .ok ast

/-- Nothing is lost behind a compound command: its line is the whole text, without here-documents,
    which fits the buffer; and where it is `with sudo`, `endwith` is the last token. -/
structure LexedLine.KeepsAll (l : LexedLine text) : Prop where
  whole : l.TakesCompound → l.heredocs = [] ∧ (trimText text).length < arkshMaxLine
  endwith : ∀ located, locateWithSudo l.line l.stream = .ok located →
    textBetween l.line located.parts located.closing.token ≠ [] → located.closing.isLast = true

theorem LexedLine.eq (l l' : LexedLine text) : l = l' := by
  obtain ⟨line, heredocs, stream, hfound, hlex⟩ := l
  obtain ⟨line', heredocs', stream', hfound', hlex'⟩ := l'
  cases hfound.symm.trans hfound'
  cases hlex.symm.trans hlex'
  rfl

variable {located : Located ArkshToken}

theorem parseWithSudo_located (hlocated : locateWithSudo line stream = .ok located)
    (hbody : textBetween line located.parts located.closing.token ≠ []) :
    CompoundKind.withSudoCommand.parser.parse line stream =
      .ok (.withSudoCommand (textBetween line located.parts located.closing.token)) := by
  show parseWithSudoCommandTokens line stream = _
  rw [parseWithSudoCommandTokens, hlocated]
  dsimp only [Except.bind]
  rw [if_neg hbody]

theorem parseWithSudo_ok (h : CompoundKind.withSudoCommand.parser.parse line stream = .ok ast) :
    ∃ located, locateWithSudo line stream = .ok located ∧
      textBetween line located.parts located.closing.token ≠ [] := by
  obtain ⟨located, hlocated, h⟩ := bind_ok.mp h
  refine ⟨located, hlocated, fun hbody => ?_⟩
  dsimp only at h
  rw [if_pos hbody] at h
  cases h

theorem closing_withSudo (h : locateWithSudo line stream = .ok located) :
    CompoundKind.withSudoCommand.closing line stream = some located.closing := by
  simp [CompoundKind.closing, h, Except.toOption]

theorem LexedLine.KeepsAll.isLast (hkeeps : l.KeepsAll)
    (hclosing : kind.closing l.line l.stream = some closing)
    (h : kind.parser.parse l.line l.stream = .ok ast) : closing.isLast = true := by
  have hconcludes := CompoundKind.concludes hclosing
  rw [h] at hconcludes
  cases hconcludes with
  | takes _ _ hlast =>
    rcases hlast with hlast | rfl
    · exact hlast
    · obtain ⟨located, hlocated, hbody⟩ := parseWithSudo_ok h
      cases (closing_withSudo hlocated).symm.trans hclosing
      exact hkeeps.endwith located hlocated hbody

/-- **Nothing behind a compound command is dropped exactly where a command that is taken is alone in
    a text that fits and has no here-documents, and `with sudo` ends with `endwith`.** -/
theorem compoundLaw_iff (text : Text) : CompoundLaw text ↔ ∀ l : LexedLine text, l.KeepsAll := by
  constructor
  · intro law l
    have hends : ∀ ast, l.parsed = .ok ast → ∀ kind : CompoundKind, ast.kind = kind.astKind →
        l.EndsWith kind := by
      intro ast hast kind hkind
      obtain ⟨l', hends⟩ := law.accepted ast (l.parse_eq.trans hast) kind hkind
      exact l.eq l' ▸ hends
    constructor
    · intro htakes
      refine l.below_eq_nil.mp ?_
      rcases htakes with ⟨kind, ast, hparse⟩ | ⟨ast, hparse⟩
      · cases hends ast (LexedLine.parsed_of_takes hparse) kind (CompoundKind.parse_kind hparse) with
        | keyword _ _ _ hbelow | brace _ _ _ _ _ _ hbelow => exact hbelow
      · obtain ⟨_, _, _, -, -, hkind⟩ := posixFunction_ok hparse
        cases hends ast (LexedLine.parsed_of_posixFunction hparse) .functionCommand hkind with
        | keyword _ _ _ hbelow | brace _ _ _ _ _ _ hbelow => exact hbelow
    · intro located hlocated hbody
      have hparse := parseWithSudo_located hlocated hbody
      cases hends _ (LexedLine.parsed_of_takes hparse) .withSudoCommand rfl with
      | keyword closing hclosing hlast _ =>
        cases (closing_withSudo hlocated).symm.trans hclosing
        exact hlast
      | brace hkind => cases hkind
  · intro hkeeps
    constructor
    · intro ast hast kind hkind
      obtain ⟨l⟩ := exists_lexedLine hast
      refine ⟨l, ?_⟩
      rcases LexedLine.parsed_kind (l.parse_eq.symm.trans hast) hkind with hparse | ⟨rfl, hparse⟩
      · obtain ⟨closing, hclosing⟩ := CompoundKind.parse_closing hparse
        have hwhole := (hkeeps l).whole (.inl ⟨kind, ast, hparse⟩)
        exact .keyword closing hclosing ((hkeeps l).isLast hclosing hparse)
          (l.below_eq_nil.mpr hwhole)
      · obtain ⟨name, body, behind, hlocated, hlast, -⟩ := posixFunction_ok hparse
        have hwhole := (hkeeps l).whole (.inr ⟨ast, hparse⟩)
        exact .brace rfl name body behind hlocated hlast (l.below_eq_nil.mpr hwhole)
    · intro l kind closing hclosing hbehind
      rcases LexedLine.parsed_of_closing hclosing with ⟨ast, hparse, -⟩ | ⟨message, herror⟩
      · have hwhole := (hkeeps l).whole (.inl ⟨kind, ast, hparse⟩)
        rcases hbehind with hlast | hbelow
        · exact absurd ((hkeeps l).isLast hclosing hparse) (by simp [hlast])
        · exact absurd (l.below_eq_nil.mpr hwhole) hbelow
      · exact ⟨message, l.parse_eq.trans herror⟩

/-- `with sudo do a; endwith; b`: `b` is dropped. -/
theorem not_compoundLaw_withSudo : ¬ CompoundLaw "with sudo do a; endwith; b".toList := by
  intro law
  have hdropped : ((arkshLexLine "with sudo do a; endwith; b".toList).toOption.bind fun stream =>
      (locateWithSudo "with sudo do a; endwith; b".toList stream).toOption).any (fun located =>
        textBetween "with sudo do a; endwith; b".toList located.parts located.closing.token ≠ [] &&
          !located.closing.isLast) = true := by
    decide
  obtain ⟨located, hlocated, hdropped⟩ := (Option.any_eq_true _ _).mp hdropped
  obtain ⟨stream, hlex, hlocated⟩ := Option.bind_eq_some_iff.mp hlocated
  have hlocated := toOption_some hlocated
  simp only [Bool.and_eq_true, decide_eq_true_eq, Bool.not_eq_true'] at hdropped
  let l : LexedLine "with sudo do a; endwith; b".toList := ⟨_, [], stream, rfl, toOption_some hlex⟩
  have hparsed : l.parsed = .ok _ :=
    LexedLine.parsed_of_takes (parseWithSudo_located hlocated hdropped.1)
  obtain ⟨l', hends⟩ := law.accepted _ (l.parse_eq.trans hparsed) .withSudoCommand rfl
  rw [l'.eq l] at hends
  cases hends with
  | keyword closing hclosing hlast _ =>
    cases (closing_withSudo hlocated).symm.trans hclosing
    exact absurd (hdropped.2.symm.trans hlast) (by decide)
  | brace hkind => cases hkind

end Arksh
