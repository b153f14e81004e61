/-
  Subject: What becomes of the here-documents of a text, and of the text behind the last one.

  `collect_leading_heredocs` gives each redirection of a line the lines up to its delimiter, and
  stops behind the last one. Its callers go on with the first line alone.
-/
import Arksh.Parse.Trailing

namespace Arksh

open CText Scan TextLines List Option

/-! ## 1. What is trimmed -/

def cutText (text : Text) : Text := (trimText text).drop (arkshMaxLine - 1)

theorem cutText_blank {text : Text} :
    (cutText text).all isspace = true ↔ (trimText text).length < arkshMaxLine := by
  constructor
  · intro hblank
    by_contra hlong
    have hne : cutText text ≠ [] := by
      have hmax : arkshMaxLine = 2048 := rfl
      rw [cutText, Ne, drop_eq_nil_iff]
      omega
    have hlast := getLast_mem hne
    have htext : (trimText text).getLast? = some ((cutText text).getLast hne) := by
      rw [← getLast?_eq_some_getLast hne, cutText, getLast?_drop, if_neg]
      exact fun h => hne (drop_eq_nil_of_le h)
    have hspace := all_eq_true.mp hblank _ hlast
    rw [trimText_getLast? htext] at hspace
    cases hspace
  · intro hshort
    have hnil : cutText text = [] := drop_eq_nil_of_le (Nat.le_sub_one_of_lt hshort)
    simp [hnil]

variable {c : Char} {source : Text}

theorem copyTrimmedSlice_head? {text : Text} {stop : Nat}
    (h : (copyTrimmedSlice text 0 stop).head? = some c) :
    (text.dropWhile isspace).head? = some c := by
  have htaken : (trimText ((text.drop 0).take (min (stop - 0) (arkshMaxLine - 1)))).head? =
      some c := by
    rwa [copyTrimmedSlice, trimCopy, copyString, head?_take,
      if_neg (show ¬ arkshMaxLine - 1 = 0 by decide)] at h
  have hfront := trimText_head? htaken
  rw [drop_zero] at hfront
  rw [← take_append_drop (min (stop - 0) (arkshMaxLine - 1)) text, dropWhile_append, if_neg]
  · rw [head?_append, hfront]; rfl
  · intro hnil
    rw [isEmpty_iff.mp hnil] at hfront
    cases hfront

theorem trimCopy_copyTrimmedSlice (text : Text) (start stop : Nat) :
    trimCopy arkshMaxLine (copyTrimmedSlice text start stop) = copyTrimmedSlice text start stop := by
  have hlen : (trimText ((text.drop start).take (min (stop - start) (arkshMaxLine - 1)))).length <
      arkshMaxLine := by
    refine ((trimText_length_le _).trans (length_take_le _ _)).trans_lt ?_
    exact (Nat.min_le_right _ _).trans_lt (by decide)
  have hslice : copyTrimmedSlice text start stop =
      trimText ((text.drop start).take (min (stop - start) (arkshMaxLine - 1))) :=
    copyString_of_lt hlen
  rw [hslice, trimCopy, trimText_trimText]
  exact copyString_of_lt hlen

/-! ## 2. Where documents are collected -/

variable {found : CollectedHeredocs} {ast : ArkshAst ArkshNode}

/-- What `collect_leading_heredocs` found: the first line, and one document for each that it
    announces. -/
theorem collectHeredocs_found {text : Text} (h : collectHeredocs text = .ok (some found)) :
    found.header = copyTrimmedSlice text 0 (firstLine text).length ∧ found.header ≠ [] ∧
      ∃ stream marks, arkshLexLine found.header = .ok stream ∧
        heredocMarks 0 stream.tokens = .ok marks ∧ found.heredocs.length = marks.length := by
  unfold collectHeredocs at h
  dsimp only at h
  split at h
  · cases h
  next hheader =>
    obtain ⟨stream, hlex, h⟩ := bind_ok.mp h
    obtain ⟨marks, hmarks, h⟩ := bind_ok.mp h
    split at h
    · cases h
    next mark others =>
      split at h
      · cases h
      · obtain ⟨⟨heredocs, rest⟩, hbodies, heq⟩ := map_ok.mp h
        cases heq
        exact ⟨rfl, hheader, stream, _, hlex, hmarks, collectBodies_length hbodies⟩

def tailOf (line : Text) (close : Nat) : Text := copyTrimmedSlice line (close + 1) line.length

/-- Where the documents of a tree come from: from below the first line, or the one behind a group or
    a subshell. -/
inductive Collected (text : Text) (ast : ArkshAst ArkshNode) (source : Text)
    (found : CollectedHeredocs) : Prop where
  | line (hsource : source = trimCopy arkshMaxLine text) (hline : CollectsLine source)
      (hfound : collectHeredocs source = .ok (some found))
  | group (hkind : ast.kind = .groupCommand) (close : Nat)
      (hclose : findMatchingDelimiter '{' '}' (trimCopy arkshMaxLine text) = some close)
      (hsource : source = tailOf (trimCopy arkshMaxLine text) close)
      (hfound : collectHeredocs source = .ok (some found))
  | subshell (hkind : ast.kind = .subshellCommand) (close : Nat)
      (hclose : findMatchingDelimiter '(' ')' (trimCopy arkshMaxLine text) = some close)
      (hsource : source = tailOf (trimCopy arkshMaxLine text) close)
      (hfound : collectHeredocs source = .ok (some found))

theorem Collected.found_ok {text : Text} (h : Collected text ast source found) :
    collectHeredocs source = .ok (some found) := by
  cases h <;> assumption

theorem Collected.short {text : Text} (h : Collected text ast source found) :
    source.length < arkshMaxLine := by
  cases h with
  | line hsource | group _ _ _ hsource
  | subshell _ _ _ hsource => exact hsource ▸ copyString_length_lt_maxLine _

def astRedirections : ArkshAst ArkshNode → List ParsedRedirection
  | .plain .commandPipeline (.commandPipeline stages) => pipelineRedirections stages
  | .plain .subshellCommand (.subshell command) => command.redirections
  | .groupCommand (.redirections redirections) _ => redirections
  | _ => []

/-- The redirections of a tree receive the documents, each the lines up to its delimiter, in their
    order; and only blanks are left of the text. -/
structure Receives (text source : Text) (found : CollectedHeredocs) (ast : ArkshAst ArkshNode) :
    Prop where
  documents : ∃ stream marks, arkshLexLine found.header = .ok stream ∧
    heredocMarks 0 stream.tokens = .ok marks ∧
    Documents marks (furtherLines source) found.heredocs found.rest
  redirections : documentsOf (astRedirections ast) = found.heredocs.map documentOf
  behind : (joined found.rest ++ cutText text).all isspace = true

/-- What holds of a text: where it is accepted, its here-documents lose nothing. -/
def HeredocLaw (text : Text) : Prop :=
  ∀ ast, arkshParseLine lineParser text = .ok ast →
    ∀ source found, Collected text ast source found → Receives text source found ast

/-! ## 3. What a command takes -/

variable {line text : Text} {stream : ArkshTokenStream} {heredocs : List ArkshParsedHeredoc}
  {closingToken : String}

theorem parseCompoundRedirectionTail_heredocs {tail : Text} {marks : List HeredocMark}
    {redirections : List ParsedRedirection} (hlex : arkshLexLine tail = .ok stream)
    (hmarks : heredocMarks 0 stream.tokens = .ok marks) (hlength : heredocs.length = marks.length)
    (hne : tail ≠ []) (htrimmed : trimCopy arkshMaxLine tail = tail)
    (h : parseCompoundRedirectionTail tail closingToken heredocs = .ok redirections) :
    documentsOf redirections = heredocs.map documentOf := by
  unfold parseCompoundRedirectionTail at h
  rw [htrimmed, if_neg hne, hlex] at h
  obtain ⟨s, hloop, rfl⟩ := map_ok.mp h
  obtain ⟨taken, hpending, hlen, hdocs⟩ := (stageLoop_heredocs (refuse_keeps _) hloop).taken
  dsimp only at hpending hdocs
  rw [heredocCount_marks hlex hmarks, ← hlength] at hlen
  have hrest : s.pending = [] := by
    have htotal := congrArg List.length hpending
    rw [length_append] at htotal
    exact eq_nil_of_length_eq_zero (by omega)
  rw [hdocs, hpending, hrest, append_nil]
  simp [documentsOf]

theorem parseCompoundTail_heredocs {close : Nat} {redirections : List ParsedRedirection}
    (hfound : collectHeredocs (tailOf line close) = .ok (some found))
    (h : parseCompoundTail line close closingToken = .ok redirections) :
    documentsOf redirections = found.heredocs.map documentOf := by
  obtain ⟨hheader, hne, stream, marks, hlex, hmarks, hlength⟩ := collectHeredocs_found hfound
  have hcollected : collectLeadingHeredocs (copyTrimmedSlice line (close + 1) line.length) =
      .ok (some (found.header, found.heredocs)) := by
    rw [collectLeadingHeredocs, ← tailOf, hfound]
    rfl
  unfold parseCompoundTail at h
  dsimp only at h
  rw [hcollected] at h
  refine parseCompoundRedirectionTail_heredocs hlex hmarks hlength hne ?_ h
  rw [hheader]
  exact trimCopy_copyTrimmedSlice _ _ _

theorem parseGroupCommandText_tail {group : ArkshCompoundCommandNode}
    (h : parseGroupCommandText line = .ok group) :
    line.head? = some '{' ∧ ∃ close, findMatchingDelimiter '{' '}' line = some close ∧
      parseCompoundTail line close "\x7d" = .ok group.redirections := by
  unfold parseGroupCommandText at h
  split at h
  · cases h
  next hhead =>
    refine ⟨not_not.mp hhead, ?_⟩
    split at h
    · cases h
    next close hclose =>
      refine ⟨close, hclose, ?_⟩
      dsimp only at h
      split at h
      · cases h
      · split at h
        · cases h
        · split at h
          · cases h
          next redirections htail => cases h; exact htail

theorem parseSubshellCommandText_tail {subshell : ArkshCompoundCommandNode}
    (h : parseSubshellCommandText line = .ok subshell) :
    line.head? = some '(' ∧ ∃ close, findMatchingDelimiter '(' ')' line = some close ∧
      parseCompoundTail line close ")" = .ok subshell.redirections := by
  unfold parseSubshellCommandText at h
  split at h
  · cases h
  next hhead =>
    refine ⟨not_not.mp hhead, ?_⟩
    split at h
    · cases h
    next close hclose =>
      refine ⟨close, hclose, ?_⟩
      dsimp only at h
      split at h
      · cases h
      · split at h
        · cases h
        next redirections htail => cases h; exact htail

/-! ## 4. The trees that hold redirections -/

structure PipelineForm (line : Text) (stream : ArkshTokenStream) : Prop where
  noCompound : firstCompound line stream compoundParsers "" = .ok none
  noList : hasListControl line stream = false
  noBoundary : hasTopLevelCommandBoundary line stream = false
  noObjectPipe : ∀ token ∈ stream.tokens, token.kind ≠ .objectPipe
  noExpression : (parseObjectExpressionText line).toOption = none
  noValue : ∀ value, parseValueSourceText line "" = .value value → value.kind = .objectExpression

inductive HoldsRedirections (line : Text) (stream : ArkshTokenStream)
    (heredocs : List ArkshParsedHeredoc) : ArkshAst ArkshNode → Prop where
  | pipeline (stages : List ParsedStage) (hform : PipelineForm line stream)
      (hstages : parseCommandPipelineTokens stream heredocs = .ok stages) :
      HoldsRedirections line stream heredocs (.plain .commandPipeline (.commandPipeline stages))
  | group (node : ArkshCompoundCommandNode) (hnode : parseGroupCommandText line = .ok node) :
      HoldsRedirections line stream heredocs
        (.groupCommand (.redirections node.redirections) node.body)
  | subshell (node : ArkshCompoundCommandNode) (hnode : parseSubshellCommandText line = .ok node) :
      HoldsRedirections line stream heredocs (.plain .subshellCommand (.subshell node))

def holdingKinds : List ArkshAstKind := [.commandPipeline, .groupCommand, .subshellCommand]

theorem parseShellForm_pipeline {message : String}
    (h : parseShellForm line stream heredocs message = .ok ast)
    (hpipeline : ast.kind ∈ holdingKinds ∨ hasToken stream isRedirectToken = true) :
    ∃ stages, parseCommandPipelineTokens stream heredocs = .ok stages ∧
      ast = .plain .commandPipeline (.commandPipeline stages) := by
  unfold parseShellForm at h
  dsimp only at h
  split at h
  · split at h <;> cases h
  · split at h
    · obtain ⟨stages, hstages, rfl⟩ := map_ok.mp h; exact ⟨stages, hstages, rfl⟩
    next hplain =>
      obtain ⟨words, -, rfl⟩ := map_ok.mp h
      rcases hpipeline with hkind | hredirect
      · split at hkind <;> simp [ArkshAst.kind, holdingKinds] at hkind
      · simp [hredirect] at hplain

theorem PipelineForm.parsed (hform : PipelineForm line stream)
    (hredirect : hasToken stream isRedirectToken = true)
    (h : parseTokens line stream heredocs = .ok ast) :
    ∃ stages, parseCommandPipelineTokens stream heredocs = .ok stages ∧
      ast = .plain .commandPipeline (.commandPipeline stages) := by
  rw [parseTokens, hform.noCompound] at h
  have hpipe : (stream.tokens.dropWhile fun token => decide (token.kind ≠ .objectPipe)) = [] :=
    dropWhile_eq_nil_iff.mpr fun token htoken => decide_eq_true (hform.noObjectPipe token htoken)
  rw [parseOtherForms, if_neg (by simp [hform.noList, hform.noBoundary]), parseSingleForm,
    hpipe] at h
  dsimp only at h
  have hexpression := hform.noExpression
  split at h
  next expression hok => rw [hok] at hexpression; cases hexpression
  · split at h
    next value hvalue =>
      rw [if_neg (not_not.mpr (hform.noValue value hvalue))] at h
      exact parseShellForm_pipeline h (.inr hredirect)
    · cases h
    · exact parseShellForm_pipeline h (.inr hredirect)

theorem parseOtherForms_pipeline
    (hcompound : firstCompound line stream compoundParsers "" = .ok none)
    (h : parseOtherForms line stream heredocs = .ok ast) (hkind : ast.kind ∈ holdingKinds) :
    HoldsRedirections line stream heredocs ast := by
  unfold parseOtherForms at h
  split at h
  · obtain ⟨entries, -, rfl⟩ := map_ok.mp h; simp [ArkshAst.kind, holdingKinds] at hkind
  next hlist =>
    rw [not_or, Bool.not_eq_true, Bool.not_eq_true] at hlist
    unfold parseSingleForm at h
    split at h
    next pipe behind _ =>
      obtain ⟨source, -, h⟩ := bind_ok.mp h
      obtain ⟨stages, -, h⟩ := bind_ok.mp h
      split at h
      · cases h
      · cases h; simp [ArkshAst.kind, holdingKinds] at hkind
    next hpipe =>
      have hnone : ∀ token ∈ stream.tokens, token.kind ≠ .objectPipe := fun token htoken =>
        of_decide_eq_true (dropWhile_eq_nil_iff.mp hpipe token htoken)
      split at h
      · cases h; simp [ArkshAst.kind, holdingKinds] at hkind
      next message hexpression =>
        have hform : (∀ value, parseValueSourceText line "" = .value value →
            value.kind = .objectExpression) → PipelineForm line stream :=
          fun hvalue => ⟨hcompound, hlist.1, hlist.2, hnone, by rw [hexpression]; rfl, hvalue⟩
        split at h
        next value hvalue =>
          split at h
          · cases h; simp [ArkshAst.kind, holdingKinds] at hkind
          next hobject =>
            obtain ⟨stages, hstages, rfl⟩ := parseShellForm_pipeline h (.inl hkind)
            refine .pipeline stages (hform fun value' hvalue' => ?_) hstages
            cases hvalue.symm.trans hvalue'
            exact not_not.mp hobject
        · cases h
        next hvalue =>
          obtain ⟨stages, hstages, rfl⟩ := parseShellForm_pipeline h (.inl hkind)
          refine .pipeline stages (hform fun value' hvalue' => ?_) hstages
          cases hvalue.symm.trans hvalue'

theorem parseTokens_holds (h : parseTokens line stream heredocs = .ok ast)
    (hkind : ast.kind ∈ holdingKinds) : HoldsRedirections line stream heredocs ast := by
  obtain ⟨taken, hfirst, h⟩ := bind_ok.mp h
  cases taken with
  | some taken =>
    cases h
    obtain ⟨parser, hmem, hparse⟩ := firstCompound_mem hfirst
    rcases mem_compoundParsers hmem with ⟨kind, rfl⟩ | rfl | rfl | rfl
    · rw [CompoundKind.parse_kind hparse] at hkind
      cases kind <;> simp [CompoundKind.astKind, holdingKinds] at hkind
    · obtain ⟨_, _, _, -, -, hfunction⟩ := posixFunction_ok (mapError_ok hparse)
      simp [hfunction, holdingKinds] at hkind
    · obtain ⟨node, hnode, rfl⟩ := map_ok.mp hparse; exact .group node hnode
    · obtain ⟨node, hnode, rfl⟩ := map_ok.mp hparse; exact .subshell node hnode
  | none => exact parseOtherForms_pipeline hfirst h hkind

/-! ## 5. The law -/

theorem astRedirections_kind (h : astRedirections ast ≠ []) : ast.kind ∈ holdingKinds := by
  unfold astRedirections at h
  split at h
  · simp [ArkshAst.kind, holdingKinds]
  · simp [ArkshAst.kind, holdingKinds]
  · simp [ArkshAst.kind, holdingKinds]
  · exact absurd rfl h

theorem CollectsLine.head {trimmed : Text} {stop : Nat} (h : CollectsLine trimmed)
    (hhead : (copyTrimmedSlice trimmed 0 stop).head? = some c) : c ≠ '{' ∧ c ≠ '(' := by
  have hfirst := copyTrimmedSlice_head? hhead
  have hstart := h.1
  unfold startsWithCompoundConstruct at hstart
  split at hstart
  next hnil => rw [hnil] at hfirst; cases hfirst
  next c' rest hcons =>
    rw [hcons] at hfirst
    cases hfirst
    simp only [Bool.or_eq_false_iff, decide_eq_false_iff_not] at hstart
    exact hstart.1

theorem LexedLine.line_of_head {l : LexedLine text} (h : l.line.head? = some c)
    (hc : c = '{' ∨ c = '(') : l.line = trimCopy arkshMaxLine text := by
  rcases lineHeredocs_cases l.found with ⟨hline, -⟩ | ⟨hline, found, hfound, heq, -⟩
  · exact hline
  · obtain ⟨hheader, -⟩ := collectHeredocs_found hfound
    rw [heq, hheader] at h
    rcases hc with rfl | rfl
    · exact absurd rfl (hline.head h).1
    · exact absurd rfl (hline.head h).2

theorem LexedLine.hasRedirect {l : LexedLine text} (h : l.heredocs ≠ []) :
    hasToken l.stream isRedirectToken = true := by
  rcases lineHeredocs_cases l.found with ⟨-, hnone⟩ | ⟨-, found, hfound, hline, hheredocs⟩
  · exact absurd hnone h
  · obtain ⟨-, -, stream, marks, hlex, hmarks, hlength⟩ := collectHeredocs_found hfound
    rw [← hline] at hlex
    cases hlex.symm.trans l.lexed
    have hpos : 0 < heredocCount (l.stream.tokens.takeWhile fun token => token.kind ≠ .eof) := by
      rw [heredocCount_marks l.lexed hmarks, ← hlength, ← hheredocs]
      exact length_pos_of_ne_nil h
    obtain ⟨token, htoken, hkind⟩ := countP_pos_iff.mp hpos
    refine any_eq_true.mpr ⟨token, (List.takeWhile_prefix _).subset htoken, ?_⟩
    revert hkind
    cases token.kind <;> decide

/-- A first line that announces documents is a command pipeline; and only blanks stand behind the
    last delimiter, in a text that fits the buffer. -/
structure LexedLine.KeepsHeredocs (l : LexedLine text) (ast : ArkshAst ArkshNode) : Prop where
  form : l.heredocs ≠ [] → PipelineForm l.line l.stream
  behind : ∀ source found, Collected text ast source found →
    (joined found.rest).all isspace = true ∧ (trimText text).length < arkshMaxLine

theorem Collected.redirections {l : LexedLine text} (h : Collected text ast source found)
    (hform : l.heredocs ≠ [] → PipelineForm l.line l.stream)
    (hparsed : parseTokens l.line l.stream l.heredocs = .ok ast) :
    documentsOf (astRedirections ast) = found.heredocs.map documentOf := by
  cases h with
  | line hsource hline hfound =>
    subst hsource
    obtain ⟨hheredocs, -⟩ := collectHeredocs_below hfound
    obtain ⟨-, -, stream, marks, hlex, hmarks, hlength⟩ := collectHeredocs_found hfound
    obtain ⟨hheader, hdocs⟩ :=
      Prod.mk.inj (Except.ok.inj ((lineHeredocs_collected hline hfound).symm.trans l.found))
    rw [hheader] at hlex
    rw [hdocs] at hheredocs hlength ⊢
    cases hlex.symm.trans l.lexed
    obtain ⟨stages, hstages, rfl⟩ := (hform hheredocs).parsed (l.hasRedirect hheredocs) hparsed
    exact parseCommandPipelineTokens_heredocs l.lexed hmarks hlength hstages
  | group hkind close hclose hsource hfound =>
    subst hsource
    cases parseTokens_holds hparsed (by simp [hkind, holdingKinds]) with
    | pipeline | subshell => cases hkind
    | group node hnode =>
      obtain ⟨hhead, close', hclose', htail⟩ := parseGroupCommandText_tail hnode
      rw [← l.line_of_head hhead (.inl rfl)] at hclose hfound
      cases hclose.symm.trans hclose'
      exact parseCompoundTail_heredocs hfound htail
  | subshell hkind close hclose hsource hfound =>
    subst hsource
    cases parseTokens_holds hparsed (by simp [hkind, holdingKinds]) with
    | pipeline | group => cases hkind
    | subshell node hnode =>
      obtain ⟨hhead, close', hclose', htail⟩ := parseSubshellCommandText_tail hnode
      rw [← l.line_of_head hhead (.inr rfl)] at hclose hfound
      cases hclose.symm.trans hclose'
      exact parseCompoundTail_heredocs hfound htail

/-- **Here-documents lose nothing exactly where a first line that announces some is refused or is a
    command pipeline, and only blanks stand behind the last delimiter.** -/
theorem heredocLaw_iff (text : Text) :
    HeredocLaw text ↔ ∀ (l : LexedLine text) (ast : ArkshAst ArkshNode),
      parseTokens l.line l.stream l.heredocs = .ok ast → l.KeepsHeredocs ast := by
  constructor
  · intro law l ast hparsed
    have hreceives := law ast (l.parse_eq.trans hparsed)
    constructor
    · intro hne
      rcases lineHeredocs_cases l.found with ⟨-, hnone⟩ | ⟨hline, found, hfound, hheader, hheredocs⟩
      · exact absurd hnone hne
      · have htaken := (hreceives _ found (.line rfl hline hfound)).redirections
        have hholds : astRedirections ast ≠ [] := by
          intro hnil
          rw [hnil, ← hheredocs] at htaken
          exact hne (map_eq_nil_iff.mp htaken.symm)
        cases parseTokens_holds hparsed (astRedirections_kind hholds) with
        | pipeline _ hform => exact hform
        | group node hnode =>
          have hhead := (parseGroupCommandText_tail hnode).1
          rw [hheader, (collectHeredocs_found hfound).1] at hhead
          exact absurd rfl (hline.head hhead).1
        | subshell node hnode =>
          have hhead := (parseSubshellCommandText_tail hnode).1
          rw [hheader, (collectHeredocs_found hfound).1] at hhead
          exact absurd rfl (hline.head hhead).2
    · intro source found hcollected
      have hbehind := (hreceives source found hcollected).behind
      rw [all_append, Bool.and_eq_true] at hbehind
      exact ⟨hbehind.1, cutText_blank.mp hbehind.2⟩
  · intro hkeeps ast hast source found hcollected
    obtain ⟨l⟩ := exists_lexedLine hast
    have hparsed := l.parse_eq.symm.trans hast
    obtain ⟨hform, hbehind⟩ := hkeeps l ast hparsed
    obtain ⟨hblank, hfits⟩ := hbehind source found hcollected
    exact
      { documents := collectHeredocs_documents hcollected.found_ok hcollected.short
        redirections := hcollected.redirections hform hparsed
        behind := by rw [all_append, hblank, cutText_blank.mpr hfits]; rfl }

/-- `cat <<E`, an empty document and `echo lost` below it: the command is not in the tree. -/
theorem not_heredocLaw_lost : ¬ HeredocLaw "cat <<E\nE\necho lost".toList := by
  intro law
  have hlost : ((collectHeredocs "cat <<E\nE\necho lost".toList).toOption.bind id).any
      (fun found => !(joined found.rest).all isspace) = true := by
    decide
  have haccepted : (arkshParseLine lineParser "cat <<E\nE\necho lost".toList).toOption.isSome =
      true := by
    decide +kernel
  obtain ⟨found, hfound, hlost⟩ := (any_eq_true _ _).mp hlost
  obtain ⟨collected, hcollected, rfl⟩ := bind_eq_some_iff.mp hfound
  obtain ⟨ast, hast⟩ := isSome_iff_exists.mp haccepted
  have hline : CollectsLine "cat <<E\nE\necho lost".toList := ⟨by decide, by decide⟩
  have hreceives := law ast (toOption_some hast) _ found
    (.line rfl hline (toOption_some hcollected))
  have hbehind := hreceives.behind
  rw [all_append, Bool.and_eq_true] at hbehind
  rw [hbehind.1] at hlost
  cases hlost

end Arksh
