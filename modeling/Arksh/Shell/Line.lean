/-
  Subject: `arksh_shell_execute_line` up to the point where it runs something, and what becomes
           of a text that does not fit its buffers.

  A text goes through alias expansion, a trimmed copy, the checks of sh mode, the forms that are
  no commands of the parser (`let`, `extend`, `break`, `continue`, `return`) and the parser; then
  a handler or the executor runs what came out. Of the shell only the aliases and the sh-mode
  flag are read on the way. What the parser does behind its own trimmed copy is a parameter.
-/
import Arksh.Shell.LexLine
import Mathlib.Data.List.DropRight

namespace Arksh

open CText Scan List Option

/-! ## 1. Text helpers of `src/shell.c` -/

def arkshMaxLine : Nat := 2048

def appendSlice (size : Nat) (dest src : Text) (start stop : Nat) : Option Text :=
  if stop < start then none
  else if dest.length + (stop - start) ≥ size then none
  else some (dest ++ (src.drop start).take (stop - start))

/-- A text without the white space around it. -/
def trimText (src : Text) : Text := ((src.dropWhile isspace).reverse.dropWhile isspace).reverse

theorem dropWhile_head? {α : Type} {p : α → Bool} {l : List α} {a : α}
    (h : (l.dropWhile p).head? = some a) : p a = false := by
  have := head?_dropWhile_not p l
  simpa [h] using this

variable {text : Text}

theorem trimText_head? {c : Char} (h : (trimText text).head? = some c) :
    (text.dropWhile isspace).head? = some c := by
  have hprefix : trimText text <+: text.dropWhile isspace := List.rdropWhile_prefix isspace _
  obtain ⟨behind, hbehind⟩ := hprefix
  rw [← hbehind, head?_append, h]
  rfl

theorem trimText_trimText (text : Text) : trimText (trimText text) = trimText text := by
  have hfront : (trimText text).dropWhile isspace = trimText text := by
    cases h : trimText text with
    | nil => rfl
    | cons c rest => have hc := dropWhile_head? (@trimText_head? text c (by rw [h]; rfl)); simp [hc]
  have hback : trimText (trimText text) =
      List.rdropWhile isspace ((trimText text).dropWhile isspace) := rfl
  rw [hback, hfront]
  exact rdropWhile_idempotent isspace _

theorem trimText_getLast? {c : Char} (h : (trimText text).getLast? = some c) :
    isspace c = false := by
  have hhead : ((text.dropWhile isspace).reverse.dropWhile isspace).head? = some c := by
    rwa [trimText, getLast?_reverse] at h
  exact dropWhile_head? hhead

/-- `trim_copy`: what does not fit is cut. -/
def trimCopy (size : Nat) (src : Text) : Text := copyString size (trimText src)

def isBlankOrCommentLine (line : Text) : Bool :=
  match line.dropWhile isspace with
  | [] => true
  | c :: _ => c = '#'

/-- `contains_top_level_list_operator`, with the counts of open parentheses, braces and
    brackets. -/
def topLevelListOperator : Quote → Nat → Nat → Nat → Text → Bool
  | _, _, _, _, [] => false
  | .single, paren, brace, bracket, c :: text =>
    topLevelListOperator (if c = '\'' then .unquoted else .single) paren brace bracket text
  | .double, paren, brace, bracket, c :: text =>
    if c = '"' then topLevelListOperator .unquoted paren brace bracket text
    else
      match c, text with
      | '\\', _ :: text => topLevelListOperator .double paren brace bracket text
      | _, text => topLevelListOperator .double paren brace bracket text
  | .unquoted, paren, brace, bracket, c :: text =>
    if c = '"' then topLevelListOperator .double paren brace bracket text
    else if c = '\'' then topLevelListOperator .single paren brace bracket text
    else if c = '(' then topLevelListOperator .unquoted (paren + 1) brace bracket text
    else if c = ')' ∧ paren > 0 then topLevelListOperator .unquoted (paren - 1) brace bracket text
    else if c = '{' then topLevelListOperator .unquoted paren (brace + 1) bracket text
    else if c = '}' ∧ brace > 0 then topLevelListOperator .unquoted paren (brace - 1) bracket text
    else if c = '[' then topLevelListOperator .unquoted paren brace (bracket + 1) text
    else if c = ']' ∧ bracket > 0 then
      topLevelListOperator .unquoted paren brace (bracket - 1) text
    else if paren = 0 ∧ brace = 0 ∧ bracket = 0 ∧
        (c = ';' ∨ c = '&' ∨ (c = '|' ∧ text.head? = some '|')) then true
    else topLevelListOperator .unquoted paren brace bracket text

def containsTopLevelListOperator (text : Text) : Bool := topLevelListOperator .unquoted 0 0 0 text

/-- The line is `word` or starts with it and white space. -/
def isKeywordLine (word line : Text) : Bool :=
  line = word || (word.isPrefixOf line && (line.drop word.length).head?.any isspace)

/-! ## 2. Aliases -/

def tokenIsPlainWord (token : ArkshToken) : Bool :=
  token.kind = .word && token.text.1 ≠ [] && token.raw.1 = token.text.1

def isCommandPosition (previous : Option ArkshTokenKind) : Bool :=
  match previous with
  | none => true
  | some kind => kind = .shellPipe

/-- The variables of the loop of `expand_aliases_once`. -/
structure AliasState where
  expanded : Text
  lastPosition : Nat
  replaced : Bool

def aliasTooLong : String := "alias expansion produced a line that is too long"

def aliasLoop (aliases : Text → Option Text) (size : Nat) (line : Text) :
    Option ArkshTokenKind → AliasState → List ArkshToken → Except String AliasState
  | _, s, [] => .ok s
  | previous, s, token :: tokens =>
    if token.kind = .eof then .ok s
    else if ¬ isCommandPosition previous ∨ ¬ tokenIsPlainWord token ∨
        tokens.head?.map ArkshToken.kind = some .arrow then
      aliasLoop aliases size line (some token.kind) s tokens
    else
      match aliases token.text.1 with
      | none => aliasLoop aliases size line (some token.kind) s tokens
      | some value =>
        match (appendSlice size s.expanded line s.lastPosition token.position).bind
            (appendText size · value) with
        | none => .error aliasTooLong
        | some expanded =>
          aliasLoop aliases size line (some token.kind)
            ⟨expanded, token.position + token.raw.1.length, true⟩ tokens

/-- `expand_aliases_once` into a buffer of `size` bytes: the new line, and whether an alias was
    replaced. -/
def expandAliasesOnce (aliases : Text → Option Text) (size : Nat) (line : Text) :
    Except String (Text × Bool) :=
  (arkshLexLine line).bind fun stream =>
    (aliasLoop aliases size line none ⟨[], 0, false⟩ stream.tokens).bind fun s =>
      match appendSlice size s.expanded line s.lastPosition line.length with
      | none => .error aliasTooLong
      | some expanded => .ok (expanded, s.replaced)

def aliasRounds (aliases : Text → Option Text) : Nat → Text → Except String Text
  | 0, _ => .error "alias expansion depth exceeded"
  | rounds + 1, current =>
    (expandAliasesOnce aliases arkshMaxLine current).bind fun (next, replaced) =>
      if replaced then aliasRounds aliases rounds (copyString arkshMaxLine next)
      else .ok (copyString arkshMaxLine current)

def expandAliases (aliases : Text → Option Text) (line : Text) : Except String Text :=
  aliasRounds aliases 8 (copyString arkshMaxLine line)

/-! ## 3. sh mode -/

/-- The scan of `sh_mode_check_line` for `[:` outside quotes. -/
def hasBlockLiteral : Bool → Bool → Text → Bool
  | _, _, [] => false
  | inSq, inDq, c :: text =>
    if c = '\'' ∧ ¬ inDq then hasBlockLiteral (!inSq) inDq text
    else if c = '"' ∧ ¬ inSq then hasBlockLiteral inSq (!inDq) text
    else if ¬ inSq ∧ ¬ inDq ∧ c = '[' ∧ text.head? = some ':' then true
    else hasBlockLiteral inSq inDq text

/-- The body of the loop of `sh_mode_check_line` over the tokens: why it refuses the `i`-th. -/
def shModeCheckToken (i : Nat) (token : ArkshToken) : Option String :=
  match token.kind with
  | .arrow => some "sh: -> not supported in sh mode"
  | .objectPipe => some "sh: |> not supported in sh mode"
  | .hereString => some "sh: <<< not supported in sh mode"
  | .procSubstIn => some "sh: <(...) not supported in sh mode"
  | .procSubstOut => some "sh: >(...) not supported in sh mode"
  | .word =>
    if token.text.1 = "[[".toList then some "sh: [[ not supported in sh mode"
    else if i = 0 ∧ token.text.1 = "class".toList then some "sh: class not supported in sh mode"
    else if i = 0 ∧ token.text.1 = "switch".toList then some "sh: switch not supported in sh mode"
    else if i = 0 ∧ token.text.1 = "extend".toList then some "sh: extend not supported in sh mode"
    else none
  | _ => none

/-- `sh_mode_check_line`: why it refuses the line. A line that does not lex is left to the
    parser. -/
def shModeCheckLine (trimmed : Text) : Option String :=
  if hasBlockLiteral false false trimmed then some "sh: block literal not supported in sh mode"
  else
    match arkshLexLine trimmed with
    | .error _ => none
    | .ok stream => stream.tokens.zipIdx.findSome? fun (token, i) => shModeCheckToken i token

inductive ArkshAstKind where
  | empty | simpleCommand | valueExpression | objectExpression | objectPipeline | commandPipeline
  | commandList | groupCommand | subshellCommand | ifCommand | whileCommand | untilCommand
  | forCommand | caseCommand | switchCommand | functionCommand | classCommand | withSudoCommand
  deriving DecidableEq

def shModeCheckAst : ArkshAstKind → Option String
  | .objectExpression => some "sh: object expression not supported in sh mode"
  | .objectPipeline => some "sh: |> pipeline not supported in sh mode"
  | .switchCommand => some "sh: switch not supported in sh mode"
  | .classCommand => some "sh: class not supported in sh mode"
  | _ => none

/-! ## 4. From a line to what it runs -/

/-- `arksh_parse_line` behind its trimmed copy: what a non-empty trimmed text parses to, the kind of
    a tree, the empty tree. -/
structure ParserBody (Ast : Type) where
  parse : Text → Except String Ast
  kind : Ast → ArkshAstKind
  empty : Ast
  kind_empty : kind empty = .empty

/-- What `arksh_shell_execute_line` reads of the shell before it runs anything. -/
structure LineShell where
  aliases : Text → Option Text
  shMode : Bool

/-- What is run: a handler on the trimmed line, or the executor on a tree. -/
inductive Action (Ast : Type) where
  | letLine (line : Text)
  | extendLine (line : Text)
  | breakLine (line : Text)
  | continueLine (line : Text)
  | returnLine (line : Text)
  | program (ast : Ast)
  deriving DecidableEq

/-- What becomes of a line: nothing to do (status 0), an error with nothing run (status 1), or
    something is run. -/
inductive Outcome (Ast : Type) where
  | blank
  | refused (message : String)
  | runs (action : Action Ast)
  deriving DecidableEq

def Outcome.Refused {Ast : Type} (o : Outcome Ast) : Prop := ∃ message, o = .refused message

variable {Ast : Type} {replaced : Bool}

def arkshParseLine (P : ParserBody Ast) (line : Text) : Except String Ast :=
  let trimmed := trimCopy arkshMaxLine line
  if trimmed = [] then .ok P.empty else P.parse trimmed

def shModeRefusal (trimmed : Text) : Option String :=
  if isKeywordLine "let".toList trimmed then some "sh: let not supported in sh mode"
  else if isKeywordLine "extend".toList trimmed then some "sh: extend not supported in sh mode"
  else shModeCheckLine trimmed

def lineHandler (shMode : Bool) (trimmed : Text) : Option (Action Ast) :=
  if trimmed.any (fun c => c = '\n' || c = '\r') || containsTopLevelListOperator trimmed then none
  else if !shMode && isKeywordLine "let".toList trimmed then some (.letLine trimmed)
  else if !shMode && isKeywordLine "extend".toList trimmed then some (.extendLine trimmed)
  else if isKeywordLine "break".toList trimmed then some (.breakLine trimmed)
  else if isKeywordLine "continue".toList trimmed then some (.continueLine trimmed)
  else if isKeywordLine "return".toList trimmed then some (.returnLine trimmed)
  else none

def executeExpanded (sh : LineShell) (P : ParserBody Ast) (expandedLine : Text) : Outcome Ast :=
  let trimmed := trimCopy arkshMaxLine expandedLine
  match (if sh.shMode then shModeRefusal trimmed else none) with
  | some message => .refused message
  | none =>
    match lineHandler sh.shMode trimmed with
    | some action => .runs action
    | none =>
      match arkshParseLine P expandedLine with
      | .error message => .refused (if message = "" then "parse error" else message)
      | .ok ast =>
        match (if sh.shMode then shModeCheckAst (P.kind ast) else none) with
        | some message => .refused message
        | none => .runs (.program ast)

def executeAliased (sh : LineShell) (P : ParserBody Ast) (line : Text) : Outcome Ast :=
  match expandAliases sh.aliases line with
  | .error message => .refused (if message = "" then "alias expansion error" else message)
  | .ok expandedLine => executeExpanded sh P expandedLine

def arkshShellExecuteLine (sh : LineShell) (P : ParserBody Ast) (line : Text) : Outcome Ast :=
  if isBlankOrCommentLine line then .blank else executeAliased sh P line

/-! ## 5. Alias expansion and the size of the line -/

variable {aliases : Text → Option Text}

theorem copyString_length_lt_maxLine (src : Text) :
    (copyString arkshMaxLine src).length < arkshMaxLine :=
  copyString_length_lt (by decide) src

variable {size size' rounds : Nat} {dest src t line : Text}

theorem appendSlice_resize {start stop : Nat} (h : appendSlice size dest src start stop = some t) :
    appendSlice size' dest src start stop = some t ∨
      appendSlice size' dest src start stop = none := by
  unfold appendSlice at h ⊢
  split at h
  · cases h
  rename_i hle
  rw [if_neg hle]
  split at h
  · cases h
  · cases h
    split
    · exact Or.inr rfl
    · exact Or.inl rfl

theorem appendText_resize {buf text : Text} (h : appendText size buf text = some t) :
    appendText size' buf text = some t ∨ appendText size' buf text = none := by
  obtain ⟨-, rfl⟩ := appendText_eq_some.mp h
  unfold appendText
  split
  · exact Or.inr rfl
  · exact Or.inl rfl

theorem appendSlice_length {start stop : Nat} (h : appendSlice size dest src start stop = some t) :
    t.length < size := by
  unfold appendSlice at h
  split at h
  · cases h
  split at h
  · cases h
  · cases h
    rw [length_append, length_take]
    omega

theorem aliasLoop_resize {tokens : List ArkshToken} :
    ∀ {previous : Option ArkshTokenKind} {s s' : AliasState},
      aliasLoop aliases size line previous s tokens = .ok s' →
      aliasLoop aliases size' line previous s tokens = .ok s' ∨
        aliasLoop aliases size' line previous s tokens = .error aliasTooLong := by
  induction tokens with
  | nil => intro previous s s' h; exact Or.inl h
  | cons token tokens ih =>
    intro previous s s' h
    rw [aliasLoop] at h
    rw [aliasLoop]
    split at h
    · rename_i heof
      rw [if_pos heof]
      exact Or.inl h
    rename_i heof
    rw [if_neg heof]
    split at h
    · rename_i hskip
      rw [if_pos hskip]
      exact ih h
    rename_i hskip
    rw [if_neg hskip]
    split at h
    · exact ih h
    split at h
    · cases h
    · rename_i expanded happ
      obtain ⟨t, hslice, htext⟩ := bind_eq_some_iff.mp happ
      rcases @appendSlice_resize size size' _ _ _ _ _ hslice with hslice' | hslice'
      · rw [hslice', bind_some]
        rcases @appendText_resize size size' _ _ _ htext with htext' | htext'
        · rw [htext']; exact ih h
        · rw [htext']; exact Or.inr rfl
      · rw [hslice']; exact Or.inr rfl

/-- **A round whose result would not fit is an error.** -/
theorem expandAliasesOnce_tooLong (h : expandAliasesOnce aliases size line = .ok (t, replaced))
    (ht : size' ≤ t.length) : expandAliasesOnce aliases size' line = .error aliasTooLong := by
  obtain ⟨stream, hlex, h⟩ := bind_ok.mp h
  obtain ⟨s, hloop, h⟩ := bind_ok.mp h
  unfold expandAliasesOnce
  rw [hlex]
  show (aliasLoop aliases size' line none ⟨[], 0, false⟩ stream.tokens).bind _ = _
  rcases @aliasLoop_resize _ _ size' _ _ _ _ _ hloop with hloop' | hloop'
  · rw [hloop']
    split at h
    · cases h
    · rename_i expanded happ
      cases h
      rcases @appendSlice_resize size size' _ _ _ _ _ happ with happ' | happ'
      · have hlt := appendSlice_length happ'; omega
      · show (match appendSlice size' s.expanded line s.lastPosition line.length with
          | none => Except.error aliasTooLong
          | some expanded => Except.ok (expanded, s.replaced)) = _
        rw [happ']
  · rw [hloop']; rfl

theorem expandAliasesOnce_length (h : expandAliasesOnce aliases size line = .ok (t, replaced)) :
    t.length < size := by
  obtain ⟨stream, _, h⟩ := bind_ok.mp h
  obtain ⟨s, _, h⟩ := bind_ok.mp h
  split at h
  · cases h
  · rename_i expanded happ
    cases h
    exact appendSlice_length happ

/-- Some round of alias expansion, of at most `rounds`, would make 2048 characters or more of the
    line. -/
def BecomesTooLong (aliases : Text → Option Text) : Nat → Text → Prop
  | 0, _ => False
  | rounds + 1, line =>
    (∃ size t replaced, expandAliasesOnce aliases size line = .ok (t, replaced) ∧
      arkshMaxLine ≤ t.length) ∨
    ∃ t, expandAliasesOnce aliases arkshMaxLine line = .ok (t, true) ∧
      BecomesTooLong aliases rounds t

theorem aliasRounds_tooLong : ∀ {line : Text}, BecomesTooLong aliases rounds line →
      aliasRounds aliases rounds line = .error aliasTooLong := by
  induction rounds with
  | zero => intro line h; exact h.elim
  | succ rounds ih =>
    intro line h
    rw [aliasRounds]
    rcases h with ⟨size, t, replaced, honce, ht⟩ | ⟨t, honce, h⟩
    · rw [expandAliasesOnce_tooLong honce ht]; rfl
    · rw [honce]
      show aliasRounds aliases rounds (copyString arkshMaxLine t) = _
      rw [copyString_of_lt (expandAliasesOnce_length honce)]
      exact ih h

theorem aliasRounds_length :
    ∀ {line t : Text}, aliasRounds aliases rounds line = .ok t → t.length < arkshMaxLine := by
  induction rounds with
  | zero => intro line t h; cases h
  | succ rounds ih =>
    intro line t h
    obtain ⟨⟨next, replaced⟩, _, h⟩ := bind_ok.mp h
    dsimp only at h
    split at h
    · exact ih h
    · cases h; exact copyString_length_lt_maxLine line

/-! ## 6. Long texts -/

theorem trimText_length_le (src : Text) : (trimText src).length ≤ src.length := by
  have h₁ := (dropWhile_sublist isspace (l := src)).length_le
  have h₂ := (dropWhile_sublist isspace (l := (src.dropWhile isspace).reverse)).length_le
  rw [length_reverse] at h₂
  rw [trimText, length_reverse]
  omega

/-- **Behind the check for blanks and comments a line is taken for its first 2047 characters.** -/
theorem executeAliased_cut (sh : LineShell) (P : ParserBody Ast) (line : Text) :
    executeAliased sh P line = executeAliased sh P (line.take (arkshMaxLine - 1)) := by
  have hcopy : copyString arkshMaxLine (line.take (arkshMaxLine - 1)) =
      copyString arkshMaxLine line := by
    rw [copyString, copyString, take_take, Nat.min_self]
  unfold executeAliased expandAliases
  rw [hcopy]

def ParseRefused (sh : LineShell) (P : ParserBody Ast) (text : Text) : Prop :=
  match P.parse text with
  | .error _ => True
  | .ok ast => sh.shMode = true ∧ shModeCheckAst (P.kind ast) ≠ none

/-- A text is not accepted: alias expansion fails, sh mode refuses what it makes of the text, or no
    handler takes that and the parser or sh mode refuses it. -/
def Unacceptable (sh : LineShell) (P : ParserBody Ast) (text : Text) : Prop :=
  match expandAliases sh.aliases text with
  | .error _ => True
  | .ok expanded =>
    (sh.shMode = true ∧ shModeRefusal (trimText expanded) ≠ none) ∨
    ((lineHandler sh.shMode (trimText expanded) : Option (Action Ast)) = none ∧
      trimText expanded ≠ [] ∧ ParseRefused sh P (trimText expanded))

theorem not_refused_runs {action : Action Ast} : ¬ (Outcome.runs action).Refused := by
  intro ⟨_, h⟩
  cases h

theorem executeExpanded_refused_iff {sh : LineShell} {P : ParserBody Ast} {expanded : Text}
    (hlen : expanded.length < arkshMaxLine) : (executeExpanded sh P expanded).Refused ↔
      (sh.shMode = true ∧ shModeRefusal (trimText expanded) ≠ none) ∨
      ((lineHandler sh.shMode (trimText expanded) : Option (Action Ast)) = none ∧
        trimText expanded ≠ [] ∧ ParseRefused sh P (trimText expanded)) := by
  have htrim : trimCopy arkshMaxLine expanded = trimText expanded := by
    have hle := trimText_length_le expanded
    exact copyString_of_lt (by omega)
  unfold executeExpanded arkshParseLine
  rw [htrim]
  dsimp only
  split
  · rename_i message hmode
    split at hmode
    · rename_i hsh
      constructor
      · intro _; exact Or.inl ⟨hsh, by rw [hmode]; exact some_ne_none _⟩
      · intro _; exact ⟨_, rfl⟩
    · cases hmode
  rename_i hmode
  have hleft : ¬ (sh.shMode = true ∧ shModeRefusal (trimText expanded) ≠ none) := by
    intro ⟨hsh, hne⟩
    rw [if_pos hsh] at hmode
    exact hne hmode
  split
  · rename_i action haction
    constructor
    · intro h; exact (not_refused_runs h).elim
    · rintro (h | ⟨h, -⟩)
      · exact (hleft h).elim
      · rw [haction] at h; cases h
  rename_i haction
  by_cases hnil : trimText expanded = []
  · -- the empty tree is no construct that sh mode refuses
    rw [if_pos hnil]
    dsimp only
    rw [P.kind_empty]
    constructor
    · intro h
      split at h
      · rename_i hmode'
        split at hmode' <;> cases hmode'
      · exact (not_refused_runs h).elim
    · rintro (h | ⟨-, h, -⟩)
      · exact (hleft h).elim
      · exact (h hnil).elim
  rw [if_neg hnil]
  unfold ParseRefused
  cases hparse : P.parse (trimText expanded) with
  | error message =>
    constructor
    · intro _; exact Or.inr ⟨haction, hnil, trivial⟩
    · intro _; exact ⟨_, rfl⟩
  | ok ast =>
    dsimp only
    constructor
    · intro h
      refine Or.inr ⟨haction, hnil, ?_⟩
      split at h
      · rename_i hcheck
        split at hcheck
        · rename_i hsh; exact ⟨hsh, by rw [hcheck]; exact some_ne_none _⟩
        · cases hcheck
      · exact (not_refused_runs h).elim
    · rintro (h | ⟨-, -, hsh, hne⟩)
      · exact (hleft h).elim
      · obtain ⟨message, hcheck⟩ := ne_none_iff_exists'.mp hne
        rw [if_pos hsh, hcheck]
        exact ⟨_, rfl⟩

theorem executeAliased_refused_iff (sh : LineShell) (P : ParserBody Ast) (text : Text) :
    (executeAliased sh P text).Refused ↔ Unacceptable sh P text := by
  unfold executeAliased Unacceptable
  split
  · constructor
    · intro _; exact trivial
    · intro _; exact ⟨_, rfl⟩
  · rename_i halias; exact executeExpanded_refused_iff (aliasRounds_length halias)

/-- **A text of 2048 characters or more is refused iff it is no comment and its first 2047
    characters are not accepted; `arksh_parse_line` alone takes those of the trimmed text. What
    alias expansion would make too long is refused.** -/
theorem longText_refused_iff (sh : LineShell) (P : ParserBody Ast) {line : Text}
    (h : arkshMaxLine ≤ (trimText line).length) : ((arkshShellExecuteLine sh P line).Refused ↔
      isBlankOrCommentLine line = false ∧ Unacceptable sh P (line.take (arkshMaxLine - 1))) ∧
    arkshParseLine P line = P.parse ((trimText line).take (arkshMaxLine - 1)) ∧
    ∀ short : Text, short.length < arkshMaxLine → isBlankOrCommentLine short = false →
      BecomesTooLong sh.aliases 8 short → (arkshShellExecuteLine sh P short).Refused := by
  refine ⟨?_, ?_, ?_⟩
  · unfold arkshShellExecuteLine
    split
    · rename_i hblank
      constructor
      · intro ⟨_, hm⟩; cases hm
      · intro ⟨hfalse, _⟩
        rw [hblank] at hfalse
        cases hfalse
    · rename_i hblank
      rw [executeAliased_cut, executeAliased_refused_iff]
      constructor
      · intro hu; exact ⟨Bool.eq_false_of_not_eq_true hblank, hu⟩
      · intro hu; exact hu.2
  · unfold arkshParseLine trimCopy copyString
    rw [if_neg]
    intro hnil
    have hlen := congrArg List.length hnil
    rw [length_take, length_nil, arkshMaxLine] at hlen
    rw [arkshMaxLine] at h
    omega
  · intro short hshort hblank hlong
    have hrounds : expandAliases sh.aliases short = .error aliasTooLong := by
      unfold expandAliases
      rw [copyString_of_lt hshort]
      exact aliasRounds_tooLong hlong
    unfold arkshShellExecuteLine executeAliased
    rw [hblank, hrounds]
    exact ⟨_, rfl⟩

/-- A shell without aliases and a parser that accepts nothing. -/
def plainShell : LineShell := ⟨fun _ => none, false⟩

def strictParser : ParserBody ArkshAstKind := ⟨fun _ => .error "parse error", id, .empty, rfl⟩

def longLet : Text := "let x = 1".toList ++ List.replicate 2040 ' ' ++ "+ 2".toList

theorem longText_refused_iff_longLet :
    ((arkshShellExecuteLine plainShell strictParser longLet).Refused ↔
      isBlankOrCommentLine longLet = false ∧
        Unacceptable plainShell strictParser (longLet.take (arkshMaxLine - 1))) ∧
    arkshParseLine strictParser longLet =
      strictParser.parse ((trimText longLet).take (arkshMaxLine - 1)) ∧
    ∀ short : Text, short.length < arkshMaxLine → isBlankOrCommentLine short = false →
      BecomesTooLong plainShell.aliases 8 short →
      (arkshShellExecuteLine plainShell strictParser short).Refused :=
  longText_refused_iff plainShell strictParser (by decide +kernel)

/-- The handler of `let` runs on the prefix `let x = 1`. -/
theorem not_refused_longLet : ¬ ∀ line : Text, arkshMaxLine ≤ (trimText line).length →
    (arkshShellExecuteLine plainShell strictParser line).Refused := by
  intro h
  obtain ⟨message, hm⟩ := h longLet (by decide +kernel)
  have hrun : arkshShellExecuteLine plainShell strictParser longLet =
      .runs (.letLine "let x = 1".toList) := by
    decide +kernel
  rw [hrun] at hm
  cases hm

end Arksh
