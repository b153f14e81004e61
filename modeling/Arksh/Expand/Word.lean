/-
  Subject: `expand_raw_token` of `src/expand.c`: the expansion of one word.

  The loop takes one piece of the raw text at a time: a quote, an escape, a tilde, an expansion
  or a plain character. What a piece is depends on the quote it stands in and on the text alone
  (`readPiece`); what it adds to the word depends on the shell (`Expansion.apply`).
-/
import Arksh.Expand.Parameter
import Arksh.Shell.Lexer

namespace Arksh

open CText Scan Nat

/-! ## 1. Arithmetic expansions -/

structure ArithExpansionState where
  depth : Nat
  expr : Text

/-- Keep a character, as long as there is room. -/
def ArithExpansionState.take (s : ArithExpansionState) (c : Char) (depth : Nat) :
    ArithExpansionState :=
  ⟨depth, copyString arkshMaxOutput (s.expr ++ [c])⟩

/-- The body of the loop of `parse_arith_expansion`, which counts parentheses. -/
def arithExpansionStep (s : ArithExpansionState) (c : Char) (rest : Text) :
    Except ExpandError (Turn ArithExpansionState) :=
  if c = '(' then .ok (.more (s.take c (s.depth + 1)) rest)
  else if c = ')' then
    if s.depth > 0 then .ok (.more (s.take c (s.depth - 1)) rest)
    else
      match rest with
      | ')' :: rest => .ok (.stop s rest)
      | _ => .error (.delimiter .unmatchedParen)
  else .ok (.more (s.take c s.depth) rest)

variable {c : Char} {t t' rest : Text} {s s' : ArithExpansionState} {quote : Quote}

theorem arithExpansionStep_more (h : arithExpansionStep s c t = .ok (.more s' t')) : t' = t := by
  unfold arithExpansionStep at h
  split at h
  · cases h; rfl
  split at h
  · split at h
    · cases h; rfl
    · split at h <;> cases h
  · cases h; rfl

theorem arithExpansionStep_stop (h : arithExpansionStep s c t = .ok (.stop s' t')) :
    s' = s ∧ s.depth = 0 ∧ c = ')' ∧ t = ')' :: t' := by
  unfold arithExpansionStep at h
  split at h
  · cases h
  split at h
  · rename_i hc
    split at h
    · cases h
    rename_i hdepth
    split at h
    · cases h; exact ⟨rfl, Nat.eq_zero_of_not_pos hdepth, hc, rfl⟩
    · cases h
  · cases h

def arithExpansionScanner : Scanner ArithExpansionState ExpandError where
  step := arithExpansionStep
  atEnd _ := .error (.delimiter .arithmeticExpansion)
  shortens h := by rw [arithExpansionStep_more h]

def parseArithExpansion (t : Text) : Except ExpandError (Text × Text) :=
  (arithExpansionScanner.run ⟨0, []⟩ t).map fun (s, rest) => (s.expr, rest)

theorem parseArithExpansion_length {expr : Text} (h : parseArithExpansion t = .ok (expr, rest)) :
    rest.length ≤ t.length := by
  obtain ⟨⟨s, t'⟩, hrun, h⟩ := map_ok.mp h
  cases h
  refine arithExpansionScanner.run_length ?_ hrun
  intro s c t s' t' hstep
  obtain ⟨-, -, -, rfl⟩ := arithExpansionStep_stop hstep
  rw [List.length_cons]
  omega

/-! ## 2. Command substitutions -/

structure SubstitutionState where
  /-- How many substitutions are open inside of the one that is read. -/
  depth : Nat
  quote : Quote
  command : Text

def SubstitutionState.append (s : SubstitutionState) (cs : Text) :
    Except ExpandError SubstitutionState :=
  match appendText arkshMaxOutput s.command cs with
  | some command => .ok { s with command }
  | none => .error (tooLong "command substitution")

def SubstitutionState.take (s : SubstitutionState) (c : Char) (quote : Quote) (depth : Nat)
    (rest : Text) : Except ExpandError (Turn SubstitutionState) :=
  (s.append [c]).bind fun s => .ok (.more { s with quote, depth } rest)

/-- A backslash and the character behind it. -/
def SubstitutionState.escape (s : SubstitutionState) (rest : Text) :
    Except ExpandError (Turn SubstitutionState) :=
  match rest with
  | [] => .error (.delimiter .danglingInCommand)
  | e :: rest => (s.append ['\\', e]).bind fun s => .ok (.more s rest)

/-- The body of the loop of `parse_command_substitution`. -/
def substitutionStep (s : SubstitutionState) (c : Char) (rest : Text) :
    Except ExpandError (Turn SubstitutionState) :=
  match s.quote with
  | .unquoted =>
    if c = '\'' then s.take c .single s.depth rest
    else if c = '"' then s.take c .double s.depth rest
    else if c = '\\' then s.escape rest
    else if c = '$' ∧ rest.head? = some '(' then s.take c .unquoted (s.depth + 1) rest
    else if c = ')' then
      match s.depth with
      | 0 => .ok (.stop s rest)
      | depth + 1 => s.take c .unquoted depth rest
    else s.take c .unquoted s.depth rest
  | .single => s.take c (if c = '\'' then .unquoted else .single) s.depth rest
  | .double =>
    if c = '\\' then s.escape rest
    else s.take c (if c = '"' then .unquoted else .double) s.depth rest

variable {s : SubstitutionState} {turn : Turn SubstitutionState}

theorem SubstitutionState.take_ok {depth : Nat} (h : s.take c quote depth t = .ok turn) :
    ∃ command, turn = .more ⟨depth, quote, command⟩ t := by
  obtain ⟨s', _, h⟩ := bind_ok.mp h
  cases h
  exact ⟨s'.command, rfl⟩

theorem SubstitutionState.escape_ok (h : s.escape t = .ok turn) :
    ∃ e t' command, t = e :: t' ∧ turn = .more ⟨s.depth, s.quote, command⟩ t' := by
  cases t with
  | nil => cases h
  | cons e t =>
    obtain ⟨s', happend, h⟩ := bind_ok.mp h
    unfold append at happend
    split at happend
    · cases happend
      cases h
      exact ⟨e, t, _, rfl, rfl⟩
    · cases happend

theorem substitutionStep_stop {s' : SubstitutionState}
    (h : substitutionStep s c t = .ok (.stop s' t')) :
    s' = s ∧ s.depth = 0 ∧ s.quote = .unquoted ∧ c = ')' ∧ t' = t := by
  -- only the branch of the parenthesis can leave the loop
  have htake : ∀ {c quote depth}, s.take c quote depth t ≠ .ok (.stop s' t') := by
    intro c quote depth h
    obtain ⟨_, h⟩ := SubstitutionState.take_ok h
    cases h
  have hescape : s.escape t ≠ .ok (.stop s' t') := by
    intro h
    obtain ⟨_, _, _, -, h⟩ := SubstitutionState.escape_ok h
    cases h
  unfold substitutionStep at h
  split at h
  · rename_i hquote
    split at h
    · exact absurd h htake
    split at h
    · exact absurd h htake
    split at h
    · exact absurd h hescape
    split at h
    · exact absurd h htake
    split at h
    · rename_i hc
      split at h
      · rename_i hdepth
        cases h
        exact ⟨rfl, hdepth, hquote, hc, rfl⟩
      · exact absurd h htake
    · exact absurd h htake
  · exact absurd h htake
  · split at h
    · exact absurd h hescape
    · exact absurd h htake

theorem substitutionStep_shortens {s' : SubstitutionState}
    (h : substitutionStep s c t = .ok (.more s' t')) : t'.length ≤ t.length := by
  have htake : ∀ {c quote depth}, s.take c quote depth t = .ok (.more s' t') →
      t'.length ≤ t.length := by
    intro c quote depth h
    obtain ⟨_, h⟩ := SubstitutionState.take_ok h
    cases h
    exact le_refl _
  have hescape : s.escape t = .ok (.more s' t') → t'.length ≤ t.length := by
    intro h
    obtain ⟨e, u, _, ht, hturn⟩ := SubstitutionState.escape_ok h
    cases hturn
    rw [ht]
    exact le_succ _
  unfold substitutionStep at h
  split at h
  · split at h
    · exact htake h
    split at h
    · exact htake h
    split at h
    · exact hescape h
    split at h
    · exact htake h
    split at h
    · split at h
      · cases h
      · exact htake h
    · exact htake h
  · exact htake h
  · split at h
    · exact hescape h
    · exact htake h

def substitutionScanner : Scanner SubstitutionState ExpandError where
  step := substitutionStep
  atEnd _ := .error (.delimiter .commandSubstitution)
  shortens := substitutionStep_shortens

def parseCommandSubstitution (t : Text) : Except ExpandError (Text × Text) :=
  (substitutionScanner.run ⟨0, .unquoted, []⟩ t).map fun (s, rest) => (s.command, rest)

theorem parseCommandSubstitution_length {command : Text}
    (h : parseCommandSubstitution t = .ok (command, rest)) : rest.length ≤ t.length := by
  obtain ⟨⟨s, t'⟩, hrun, h⟩ := map_ok.mp h
  cases h
  refine substitutionScanner.run_length ?_ hrun
  intro s c t s' t' hstep
  obtain ⟨-, -, -, -, rfl⟩ := substitutionStep_stop hstep
  exact le_succ _

/-! ## 3. The word so far -/

inductive ArkshExpandMode where
  | command | commandName | conditional | objectSelector | objectArgument | redirectTarget
  deriving DecidableEq

def isGlobMetaChar (c : Char) : Bool := c = '*' || c = '?' || c = '[' || c = ']'

/-- The state of the loop. -/
structure Expansion (σ : Type) where
  shell : σ
  quote : Quote
  expanded : Text
  /-- One flag for each character of `expanded`. -/
  splitFlags : List Bool
  sawQuoteOpen : Bool
  pattern : Text
  hasGlob : Bool
  sawPrefixFragment : Bool

variable {σ : Type}

def patternChar (allowGlob : Bool) (c : Char) : Text :=
  if allowGlob && isGlobMetaChar c then [c]
  else if c = '\\' || isGlobMetaChar c then ['\\', c]
  else [c]

def Expansion.append (s : Expansion σ) (text : Text) (allowGlob : Bool) (split : Bool) :
    Except ExpandError (Expansion σ) :=
  match appendText arkshMaxToken s.expanded text with
  | none => .error (tooLong "expanded token")
  | some expanded =>
    match appendText (2 * arkshMaxToken) s.pattern (text.flatMap (patternChar allowGlob)) with
    | none => .error (tooLong "glob pattern")
    | some pattern =>
      .ok { s with
        expanded, pattern
        splitFlags := s.splitFlags ++ text.map fun _ => split
        hasGlob := s.hasGlob || (allowGlob && text.any isGlobMetaChar)
        sawPrefixFragment := true }

/-- Append characters one by one, none of them for globbing. -/
def Expansion.appendEscaped : Expansion σ → Text → Except ExpandError (Expansion σ)
  | s, [] => .ok s
  | s, c :: cs => (s.append [c] false false).bind fun s => s.appendEscaped cs

def Expansion.allowGlob (s : Expansion σ) (mode : ArkshExpandMode) : Bool :=
  mode = .command && s.quote = .unquoted

/-! ## 4. Pieces -/

inductive Piece where
  | openQuote (quote : Quote)
  | closeQuote
  | plain (c : Char)
  | escaped (cs : Text)
  /-- A tilde in front of a slash or of the end. -/
  | tilde
  | arith (expr : Text)
  | command (text : Text)
  | parameter (parameter : Parameter)

def readDollar (t : Text) : Except ExpandError (Piece × Text) :=
  match t with
  | '(' :: '(' :: t => (parseArithExpansion t).map fun (expr, rest) => (.arith expr, rest)
  | '(' :: t => (parseCommandSubstitution t).map fun (text, rest) => (.command text, rest)
  | t => (readParameter t).map fun (parameter, rest) => (.parameter parameter, rest)

/-- What a backslash between double quotes takes away. -/
def escapesInDouble (c : Char) : Bool := c = '$' || c = '\x60' || c = '"' || c = '\\' || c = '\n'

/-- What stands behind a backslash. -/
def readEscape (dangling : DelimiterError) (kept : Char → Text) :
    Text → Except ExpandError (Piece × Text)
  | [] => .error (.delimiter dangling)
  | e :: rest => .ok (.escaped (kept e), rest)

def readPiece (quote : Quote) (c : Char) (rest : Text) : Except ExpandError (Piece × Text) :=
  match quote with
  | .unquoted =>
    if c = '\'' then .ok (.openQuote .single, rest)
    else if c = '"' then .ok (.openQuote .double, rest)
    else if c = '\\' then readEscape .danglingAtEnd (fun e => [e]) rest
    else if c = '~' ∧ (rest = [] ∨ rest.head? = some '/') then .ok (.tilde, rest)
    else if c = '$' then readDollar rest
    else .ok (.plain c, rest)
  | .single => if c = '\'' then .ok (.closeQuote, rest) else .ok (.escaped [c], rest)
  | .double =>
    if c = '"' then .ok (.closeQuote, rest)
    else if c = '\\' then
      readEscape .danglingInDouble (fun e => if escapesInDouble e then [e] else ['\\', e]) rest
    else if c = '$' then readDollar rest
    else .ok (.plain c, rest)

def lookupHomeDirectory (view : ShellView σ) (s : σ) : Option Text :=
  (view.getVar s "HOME".toList).filter (· ≠ [])

def Expansion.apply (view : ShellView σ) (mode : ArkshExpandMode) (s : Expansion σ) (piece : Piece) :
    Except ExpandError (Expansion σ) :=
  match piece with
  | .openQuote quote => .ok { s with quote, sawQuoteOpen := true, sawPrefixFragment := true }
  | .closeQuote => .ok { s with quote := .unquoted }
  | .plain c => s.append [c] (s.allowGlob mode) false
  | .escaped cs => s.appendEscaped cs
  | .tilde =>
    if !s.sawPrefixFragment && s.expanded.isEmpty then
      s.append ((lookupHomeDirectory view s.shell).getD ['~']) (s.allowGlob mode) false
    else s.append ['~'] (s.allowGlob mode) false
  | .arith expr =>
    match evaluateArith (view.getVar s.shell) expr with
    | .error e => .error e.expand
    | .ok v => s.append (decimal v) (s.allowGlob mode) false
  | .command text =>
    let (out, shell) := view.executeCommand s.shell text
    { s with shell }.append (copyString arkshMaxOutput out) (s.allowGlob mode)
      (s.quote = Quote.unquoted)
  | .parameter parameter =>
    (parameter.value view s.shell).bind fun (text, shell) =>
      { s with shell }.append text (s.allowGlob mode) (s.quote = Quote.unquoted)

/-! ## 5. The loop -/

theorem readParameter_length {parameter : Parameter} (h : readParameter t = .ok (parameter, rest)) :
    rest.length ≤ t.length := by
  unfold readParameter at h
  split at h
  · cases h; exact le_refl _
  split at h
  · cases h; exact le_succ _
  split at h
  · obtain ⟨⟨b, u⟩, hb, h⟩ := map_ok.mp h
    cases h
    have hlt := (parseBraces_reads hb).length_lt
    exact le_succ_of_le hlt.le
  split at h
  · dsimp only at h
    split at h
    · cases h
    · cases h; exact List.length_dropWhile_le _ _
  · cases h; exact le_refl _

variable {piece : Piece}

theorem readDollar_length (h : readDollar t = .ok (piece, rest)) : rest.length ≤ t.length := by
  unfold readDollar at h
  split at h
  · obtain ⟨⟨expr, u⟩, hread, h⟩ := map_ok.mp h
    cases h
    exact le_succ_of_le (le_succ_of_le (parseArithExpansion_length hread))
  · obtain ⟨⟨text, u⟩, hread, h⟩ := map_ok.mp h
    cases h
    exact le_succ_of_le (parseCommandSubstitution_length hread)
  · obtain ⟨⟨parameter, u⟩, hread, h⟩ := map_ok.mp h
    cases h
    exact readParameter_length hread

theorem readPiece_length (h : readPiece quote c t = .ok (piece, rest)) :
    rest.length ≤ t.length := by
  have hescape : ∀ {e : DelimiterError} {kept : Char → Text},
      readEscape e kept t = .ok (piece, rest) → rest.length ≤ t.length := by
    intro e kept h
    cases t with
    | nil => cases h
    | cons d u => cases h; exact le_succ _
  have hone : ∀ {p : Piece}, (.ok (p, t) : Except ExpandError (Piece × Text)) = .ok (piece, rest) →
      rest.length ≤ t.length := by
    intro p h
    cases h
    exact le_refl _
  cases quote with
  | unquoted =>
    simp only [readPiece] at h
    split at h
    · exact hone h
    split at h
    · exact hone h
    split at h
    · exact hescape h
    split at h
    · exact hone h
    split at h
    · exact readDollar_length h
    · exact hone h
  | single =>
    simp only [readPiece] at h
    split at h <;> exact hone h
  | double =>
    simp only [readPiece] at h
    split at h
    · exact hone h
    split at h
    · exact hescape h
    split at h
    · exact readDollar_length h
    · exact hone h

/-- The loop of `expand_raw_token`. -/
def expandScanner (view : ShellView σ) (mode : ArkshExpandMode) :
    Scanner (Expansion σ) ExpandError where
  step s c rest :=
    (readPiece s.quote c rest).bind fun (piece, rest) =>
      (s.apply view mode piece).map fun s => .more s rest
  atEnd s := if s.quote = .unquoted then .ok s else .error (.delimiter .quotedToken)
  shortens h := by
    obtain ⟨⟨piece, rest⟩, hread, h⟩ := bind_ok.mp h
    obtain ⟨_, _, h⟩ := map_ok.mp h
    cases h
    exact readPiece_length hread

/-- The word before its first piece. -/
def Expansion.start (shell : σ) : Expansion σ := ⟨shell, .unquoted, [], [], false, [], false, false⟩

def expandRawToken (view : ShellView σ) (shell : σ) (mode : ArkshExpandMode) (raw : Text) :
    Except ExpandError (Expansion σ) :=
  ((expandScanner view mode).run (.start shell) raw).map (·.1)

end Arksh
