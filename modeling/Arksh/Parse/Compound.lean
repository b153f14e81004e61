/-
  Subject: The compound commands of `src/parser.c`: nine parsers that look for their keywords in
           the tokens of a line and take the text between them.

  Each parser is cut in two: `locate…` goes through the tokens up to the closing keyword, and the
  parser itself looks at the texts and at what follows that keyword.
-/
import Arksh.Parse.Command
import Arksh.Shell.Classes

namespace Arksh

open CText Scan List Nat

/-! ## 1. Nodes -/

def arkshMaxSwitchCases : Nat := 16
def arkshMaxCaseBranches : Nat := 16
def arkshMaxFunctionParams : Nat := 8

structure ArkshCaseBranchNode where
  patterns : Text
  body : Text
  deriving DecidableEq

structure ArkshCaseCommandNode where
  expression : Text
  branches : List ArkshCaseBranchNode
  deriving DecidableEq

structure ArkshSwitchCaseNode where
  «match» : Text
  body : Text
  deriving DecidableEq

structure ArkshSwitchCommandNode where
  expression : Text
  cases : List ArkshSwitchCaseNode
  defaultBranch : Option Text
  deriving DecidableEq

/-- `ArkshFunctionCommandNode`; no parameters at all is a `param_count` of -1. -/
structure ArkshFunctionCommandNode where
  name : Text
  params : Option (List Text)
  body : Text
  source : Text
  deriving DecidableEq

inductive ArkshNode where
  | command (words : List CommandWord)
  | valueExpression (source : ArkshValueSourceNode)
  | objectExpression (expression : ArkshObjectExpressionNode)
  | pipeline (source : ArkshValueSourceNode) (stages : List ArkshPipelineStageNode)
  | commandPipeline (stages : List ParsedStage)
  | redirections (redirections : List ParsedRedirection)
  | subshell (command : ArkshCompoundCommandNode)
  | caseCommand (command : ArkshCaseCommandNode)
  | switchCommand (command : ArkshSwitchCommandNode)
  | functionCommand (command : ArkshFunctionCommandNode)
  | classCommand (command : ArkshClassCommandNode)

/-- What a parser of a compound command returns. An error may leave the message as it was. -/
abbrev Attempt (α : Type) := Except (Option String) α

/-! ## 2. Keywords -/

structure Found where
  token : ArkshToken
  behind : List ArkshToken

/-- `token_is_word_value` -/
def isWord (token : ArkshToken) (value : String) : Bool :=
  token.kind = .word && token.text.1 = value.toList

def wordStartsCommand (line : Text) (previous token : ArkshToken) : Bool :=
  token.kind = .word && tokenStartsCommand line (some previous) token

def depthBehind (line : Text) (previous token : ArkshToken) (depth : Nat) : Nat :=
  if wordStartsCommand line previous token then compoundDepthBehind depth token.text.1 else depth

/-- A loop that looks for a keyword behind a token, outside of nested compound commands. -/
def findKeyword (line : Text) (wanted : List String) :
    ArkshToken → Nat → List ArkshToken → Option Found
  | _, _, [] => none
  | previous, depth, token :: rest =>
    if wordStartsCommand line previous token = true ∧ depth = 0 ∧
        wanted.any (isWord token) = true then
      some ⟨token, rest⟩
    else findKeyword line wanted token (depthBehind line previous token depth) rest

/-- The loop for `endclass` and `endwith`, which may stand behind anything. -/
def findClosing (line : Text) (closing : String) :
    ArkshToken → Nat → List ArkshToken → Option Found
  | _, _, [] => none
  | previous, depth, token :: rest =>
    if depth = 0 ∧ isWord token closing = true then some ⟨token, rest⟩
    else findClosing line closing token (depthBehind line previous token depth) rest

def textBetween (line : Text) (first last : ArkshToken) : Text :=
  trimCompoundSegment line (first.position + first.raw.1.length) last.position

structure Located (α : Type) where
  parts : α
  closing : Found

def Found.isLast (found : Found) : Bool := found.behind.head?.any fun token => token.kind = .eof

def expectEnd {α : Type} (keyword : String) (closing : Found) (result : α) : Attempt α :=
  if closing.isLast then .ok result else .error (some ("unexpected token after " ++ keyword))

def orMissing {α : Type} (found : Option α) (message : String) : Attempt α :=
  match found with
  | some a => .ok a
  | none => .error (some message)

def behindKeywordToken (stream : ArkshTokenStream) (keyword : String) :
    Attempt (ArkshToken × List ArkshToken) :=
  match stream.tokens with
  | first :: rest => if isWord first keyword then .ok (first, rest) else .error none
  | [] => .error none

/-! ## 3. `if` -/

structure IfParts where
  opening : ArkshToken
  thenToken : ArkshToken
  elseToken : Option ArkshToken

/-- The second loop of `parse_if_command_tokens`: `fi`, and the last `else` in front of it. -/
def findFi (line : Text) : ArkshToken → Nat → Option ArkshToken → List ArkshToken →
    Option (Option ArkshToken × Found)
  | _, _, _, [] => none
  | previous, depth, elseToken, token :: rest =>
    if wordStartsCommand line previous token = true ∧ depth = 0 ∧ isWord token "else" = true then
      findFi line token depth (some token) rest
    else if wordStartsCommand line previous token = true ∧ depth = 0 ∧
        isWord token "fi" = true then
      some (elseToken, ⟨token, rest⟩)
    else findFi line token (depthBehind line previous token depth) elseToken rest

def locateIf (line : Text) (stream : ArkshTokenStream) : Attempt (Located IfParts) :=
  (behindKeywordToken stream "if").bind fun (opening, tokens) =>
    (orMissing (findKeyword line ["then"] opening 0 tokens)
      "unterminated if command: missing then").bind fun thenFound =>
        (orMissing (findFi line thenFound.token 0 none thenFound.behind)
          "unterminated if command: missing fi").map fun (elseToken, fi) =>
            ⟨⟨opening, thenFound.token, elseToken⟩, fi⟩

def parseIfCommandTokens (line : Text) (stream : ArkshTokenStream) :
    Attempt (ArkshAst ArkshNode) :=
  (locateIf line stream).bind fun ⟨parts, fi⟩ =>
    let condition := textBetween line parts.opening parts.thenToken
    let thenBranch := textBetween line parts.thenToken (parts.elseToken.getD fi.token)
    let elseBranch := parts.elseToken.map fun elseToken => textBetween line elseToken fi.token
    if condition = [] ∨ thenBranch = [] then
      .error (some "if command requires a condition and a then branch")
    else expectEnd "fi" fi (.ifCommand condition thenBranch (elseBranch.filter (· ≠ [])))

/-! ## 4. Loops -/

structure LoopParts where
  head : ArkshToken
  doToken : ArkshToken

def locateLoop (line : Text) (keyword : String) (head : ArkshToken) (tokens : List ArkshToken) :
    Attempt (Located LoopParts) :=
  (orMissing (findKeyword line ["do"] head 0 tokens)
    ("unterminated " ++ keyword ++ " command: missing do")).bind fun doFound =>
      (orMissing (findKeyword line ["done"] doFound.token 0 doFound.behind)
        ("unterminated " ++ keyword ++ " command: missing done")).map fun done =>
          ⟨⟨head, doFound.token⟩, done⟩

def finishLoop (line : Text) (keyword what : String) (located : Located LoopParts)
    (node : Text → Text → ArkshAst ArkshNode) : Attempt (ArkshAst ArkshNode) :=
  let front := textBetween line located.parts.head located.parts.doToken
  let body := textBetween line located.parts.doToken located.closing.token
  if front = [] ∨ body = [] then
    .error (some (keyword ++ " command requires " ++ what ++ " and a body"))
  else expectEnd "done" located.closing (node front body)

def locateWhile (line : Text) (stream : ArkshTokenStream) : Attempt (Located LoopParts) :=
  (behindKeywordToken stream "while").bind fun (first, rest) => locateLoop line "while" first rest

def parseWhileCommandTokens (line : Text) (stream : ArkshTokenStream) :
    Attempt (ArkshAst ArkshNode) :=
  (locateWhile line stream).bind fun located =>
    finishLoop line "while" "a condition" located .whileCommand

def locateUntil (line : Text) (stream : ArkshTokenStream) : Attempt (Located LoopParts) :=
  (behindKeywordToken stream "until").bind fun (first, rest) => locateLoop line "until" first rest

def parseUntilCommandTokens (line : Text) (stream : ArkshTokenStream) :
    Attempt (ArkshAst ArkshNode) :=
  (locateUntil line stream).bind fun located =>
    finishLoop line "until" "a condition" located .untilCommand

def locateFor (line : Text) (stream : ArkshTokenStream) : Attempt (Text × Located LoopParts) :=
  (behindKeywordToken stream "for").bind fun (_, tokens) =>
    match tokens with
    | name :: rest =>
      if name.kind ≠ .word ∨ isIdentifierText name.text.1 = false then
        .error (some "for command expects an identifier after 'for'")
      else
        match rest with
        | inToken :: rest =>
          if isWord inToken "in" then
            (locateLoop line "for" inToken rest).map fun located => (name.text.1, located)
          else .error (some "for command expects 'in' after the loop variable")
        | [] => .error (some "for command expects 'in' after the loop variable")
    | [] => .error (some "for command expects an identifier after 'for'")

def parseForCommandTokens (line : Text) (stream : ArkshTokenStream) :
    Attempt (ArkshAst ArkshNode) :=
  (locateFor line stream).bind fun (name, located) =>
    finishLoop line "for" "an item source" located (.forCommand (copyString arkshMaxName name))

/-! ## 5. `case` -/

/-- The loop of `find_top_level_case_in_keyword`, behind a character. -/
def caseInFrom : Nat → Option Char → List (Char × Bool) → Option Nat
  | _, _, [] => none
  | i, previous, (c, top) :: rest =>
    if top = true ∧ c = 'i' ∧ rest.head?.map Prod.fst = some 'n' ∧ previous.all isspace = true ∧
        (rest[1]?.map Prod.fst).all isspace = true then some i
    else caseInFrom (i + 1) (some c) rest

def findTopLevelCaseInKeyword (text : Text) (start : Nat) : Option Nat :=
  caseInFrom start (text.take start).getLast? (markedChars ⟨true, false⟩ (text.drop start))

def findCaseIn (line : Text) (opening : ArkshToken) (tokens : List ArkshToken) : Option Found :=
  (findTopLevelCaseInKeyword line opening.raw.1.length).bind fun position =>
    match tokens.dropWhile fun token => !(token.position = position && isWord token "in") with
    | inToken :: behind => some ⟨inToken, behind⟩
    | [] => none

/-- The tokens behind some `;`. -/
def skipSequence (tokens : List ArkshToken) : List ArkshToken :=
  tokens.dropWhile fun token => token.kind = .sequence

def findPatternEnd : Nat → List ArkshToken → Option Found
  | _, [] => none
  | depth, token :: rest =>
    if token.kind = .lparen then findPatternEnd (depth + 1) rest
    else if token.kind = .rparen then
      if depth > 0 then findPatternEnd (depth - 1) rest else some ⟨token, rest⟩
    else if isWord token "esac" then none
    else findPatternEnd depth rest

def findBodyEnd (line : Text) : ArkshToken → Nat → List ArkshToken → Option (Nat × List ArkshToken)
  | _, _, [] => none
  | previous, depth, token :: rest =>
    if positionIsInsideNestedStructure line token.position then findBodyEnd line token depth rest
    else if wordStartsCommand line previous token = true ∧ depth = 0 ∧
        isWord token "esac" = true then
      some (token.position, token :: rest)
    else if depthBehind line previous token depth = 0 ∧ token.kind = .sequence ∧
        rest.head?.map ArkshToken.kind = some .sequence then some (token.position, rest.tail)
    else findBodyEnd line token (depthBehind line previous token depth) rest

variable {depth : Nat} {tokens : List ArkshToken} {found : Found}

theorem findPatternEnd_length (h : findPatternEnd depth tokens = some found) :
    found.behind.length < tokens.length := by
  induction tokens generalizing depth with
  | nil => cases h
  | cons token rest ih =>
    unfold findPatternEnd at h
    split at h
    · exact (ih h).trans (lt_succ_self _)
    · split at h
      · split at h
        · exact (ih h).trans (lt_succ_self _)
        · cases h; exact lt_succ_self _
      · split at h
        · cases h
        · exact (ih h).trans (lt_succ_self _)

variable {previous : ArkshToken} {line : Text}

theorem findBodyEnd_length {stop : Nat} {behind : List ArkshToken}
    (h : findBodyEnd line previous depth tokens = some (stop, behind)) :
    behind.length ≤ tokens.length := by
  induction tokens generalizing previous depth with
  | nil => cases h
  | cons token rest ih =>
    unfold findBodyEnd at h
    split at h
    · exact (ih h).trans (le_succ _)
    · split at h
      · cases h; exact le_refl _
      · split at h
        · cases h
          simp only [length_tail, length_cons]
          omega
        · exact (ih h).trans (le_succ _)

theorem skipSequence_length (tokens : List ArkshToken) :
    (skipSequence tokens).length ≤ tokens.length :=
  (dropWhile_suffix _).length_le

def caseLoop (line : Text) (branches : List ArkshCaseBranchNode) (tokens : List ArkshToken) :
    Except String (Located (List ArkshCaseBranchNode)) :=
  match tokens with
  | [] => .error "unterminated case command: missing esac"
  | first :: rest =>
    if isWord first "esac" then .ok ⟨branches, ⟨first, rest⟩⟩
    else
      let pattern := if first.kind = .lparen then rest else first :: rest
      match _hpattern : findPatternEnd 0 pattern with
      | none => .error "case branch requires a closing ')'"
      | some close =>
        let start := pattern.head?.getD close.token
        if start.position = close.token.position then
          .error "case branch requires at least one pattern"
        else if branches.length ≥ arkshMaxCaseBranches then .error "too many case branches"
        else
          let patterns := trimCompoundSegment line start.position close.token.position
          if patterns = [] then .error "case branch requires at least one pattern"
          else
            match _hbody : findBodyEnd line close.token 0 close.behind with
            | none => .error "unterminated case command: missing ;; or esac"
            | some (stop, behind) =>
              let body := trimCompoundSegment line
                (close.token.position + close.token.raw.1.length) stop
              caseLoop line (branches ++ [⟨patterns, body⟩]) (skipSequence behind)
termination_by tokens.length
decreasing_by
  have hclose := findPatternEnd_length _hpattern
  have hstop := findBodyEnd_length _hbody
  have hskip := skipSequence_length behind
  have hle : pattern.length ≤ rest.length + 1 := by
    dsimp only [pattern]
    split <;> simp
  simp only [List.length_cons]
  omega

def locateCase (line : Text) (stream : ArkshTokenStream) :
    Attempt (Located ArkshCaseCommandNode) :=
  (behindKeywordToken stream "case").bind fun (opening, tokens) =>
    (orMissing (findCaseIn line opening tokens) "unterminated case command: missing in").bind
      fun inFound =>
        let expression := textBetween line opening inFound.token
        if expression = [] then .error (some "case command requires an expression")
        else
          match caseLoop line [] (skipSequence inFound.behind) with
          | .error message => .error (some message)
          | .ok ⟨branches, esac⟩ => .ok ⟨⟨expression, branches⟩, esac⟩

def parseCaseCommandTokens (line : Text) (stream : ArkshTokenStream) :
    Attempt (ArkshAst ArkshNode) :=
  (locateCase line stream).bind fun ⟨node, esac⟩ =>
    if node.branches = [] then .error (some "case command requires at least one branch")
    else expectEnd "esac" esac (.caseCommand (.caseCommand node))

/-! ## 6. `switch` -/

/-- The keywords between the branches of a `switch`. -/
def switchBoundaries : List String := ["case", "default", "endswitch"]

theorem findKeyword_length {wanted : List String}
    (h : findKeyword line wanted previous depth tokens = some found) :
    found.behind.length < tokens.length := by
  induction tokens generalizing previous depth with
  | nil => cases h
  | cons token rest ih =>
    unfold findKeyword at h
    split at h
    · cases h; exact lt_succ_self _
    · exact (ih h).trans (lt_succ_self _)

def addSwitchBranch (line : Text) (node : ArkshSwitchCommandNode)
    (branch thenToken next : ArkshToken) : Except String ArkshSwitchCommandNode :=
  let header := textBetween line branch thenToken
  let body := textBetween line thenToken next
  if isWord branch "case" then
    if node.cases.length ≥ arkshMaxSwitchCases then .error "too many switch cases"
    else if header = [] ∨ body = [] then
      .error "switch case requires a match expression and a body"
    else .ok { node with cases := node.cases ++ [⟨header, body⟩] }
  else if isWord branch "default" then
    if node.defaultBranch.isSome then .error "switch command only supports one default branch"
    else if isWord next "endswitch" = false then
      .error "default branch must be the last branch in switch"
    else if header ≠ [] then .error "default branch does not accept a match expression"
    else if body = [] then .error "default branch requires a body"
    else .ok { node with defaultBranch := some body }
  else .error ("invalid switch branch: " ++ String.ofList branch.text.1)

def switchLoop (line : Text) (node : ArkshSwitchCommandNode) (branch : ArkshToken)
    (tokens : List ArkshToken) : Except String (Located ArkshSwitchCommandNode) :=
  if isWord branch "endswitch" then .ok ⟨node, ⟨branch, tokens⟩⟩
  else
    match _hthen : findKeyword line ("then" :: switchBoundaries) branch 0 tokens with
    | none => .error "unterminated switch command: missing then"
    | some ⟨thenToken, body⟩ =>
      if isWord thenToken "then" = false then .error "switch branch requires then"
      else
        match _hnext : findKeyword line switchBoundaries thenToken 0 body with
        | none => .error "unterminated switch command: missing endswitch"
        | some ⟨next, behind⟩ =>
          (addSwitchBranch line node branch thenToken next).bind fun node =>
            switchLoop line node next behind
termination_by tokens.length
decreasing_by
  have hthen := findKeyword_length _hthen
  have hnext := findKeyword_length _hnext
  exact hnext.trans hthen

def locateSwitch (line : Text) (stream : ArkshTokenStream) :
    Attempt (Located ArkshSwitchCommandNode) :=
  (behindKeywordToken stream "switch").bind fun (opening, tokens) =>
    (orMissing (findKeyword line switchBoundaries opening 0 tokens)
      "unterminated switch command: missing case, default or endswitch").bind fun first =>
        let expression := textBetween line opening first.token
        if isWord first.token "endswitch" then
          .error (some "switch command requires at least one case or default branch")
        else if expression = [] then .error (some "switch command requires an expression")
        else
          match switchLoop line ⟨expression, [], none⟩ first.token first.behind with
          | .error message => .error (some message)
          | .ok located => .ok located

def parseSwitchCommandTokens (line : Text) (stream : ArkshTokenStream) :
    Attempt (ArkshAst ArkshNode) :=
  (locateSwitch line stream).bind fun ⟨node, endswitch⟩ =>
    if node.cases = [] ∧ node.defaultBranch = none then
      .error (some "switch command requires at least one case or default branch")
    else expectEnd "endswitch" endswitch (.switchCommand (.switchCommand node))

/-! ## 7. Functions and classes -/

def locatePosixFunction (line : Text) (stream : ArkshTokenStream) :
    Attempt (Text × Text × Text) :=
  match stream.tokens with
  | name :: lparen :: rparen :: next :: _ =>
    if name.kind ≠ .word ∨ isIdentifierText name.text.1 = false ∨ lparen.kind ≠ .lparen ∨
        rparen.kind ≠ .rparen ∨ next.kind = .eof then .error none
    else if keywordIsCompoundOpen name.text.1 ∨ keywordIsCompoundClose name.text.1 then .error none
    else
      let brace := (line.drop (rparen.position + rparen.raw.1.length)).dropWhile (· ≠ '\x7b')
      let message := "POSIX function '" ++ String.ofList name.text.1 ++ "': "
      if brace = [] then .error (some (message ++ "expected '\x7b' after '()'"))
      else
        match findMatchingDelimiter '\x7b' '\x7d' brace with
        | none => .error (some (message ++ "unterminated '\x7b' — missing '\x7d'"))
        | some stop =>
          let body := trimCompoundSegment brace 1 stop
          if body = [] then .error (some (message ++ "body cannot be empty"))
          else .ok (name.text.1, body, brace.drop (stop + 1))
  | _ => .error none

def parsePosixFunctionCommandTokens (line : Text) (stream : ArkshTokenStream) :
    Attempt (ArkshAst ArkshNode) :=
  (locatePosixFunction line stream).bind fun (name, body, behind) =>
    if behind.dropWhile (fun c => c = ';' || isspace c) = [] then
      .ok (.plain .functionCommand
        (.functionCommand ⟨copyString arkshMaxName name, none, body, line⟩))
    else .error (some "unexpected token after POSIX function definition")

def parseFunctionParamsTokens (params : List Text) : List ArkshToken → Except String (List Text)
  | [] => .ok params
  | [token] => param token
  | [token, comma] =>
    (param token).bind fun _ =>
      if comma.kind ≠ .comma then
        .error "function parameter list expects commas between parameters"
      else .error "function parameter list cannot end with a comma"
  | token :: comma :: next :: rest =>
    (param token).bind fun params =>
      if comma.kind ≠ .comma then
        .error "function parameter list expects commas between parameters"
      else parseFunctionParamsTokens params (next :: rest)
where
  /-- One more parameter. -/
  param (token : ArkshToken) : Except String (List Text) :=
    if token.kind ≠ .word ∨ isIdentifierText token.text.1 = false then
      .error "function parameters must be valid identifiers"
    else if params.length ≥ arkshMaxFunctionParams then .error "too many function parameters"
    else if token.text.1 ∈ params then
      .error ("duplicate function parameter: " ++ String.ofList token.text.1)
    else .ok (params ++ [copyString arkshMaxName token.text.1])

structure FunctionParts where
  name : Text
  params : List Text
  doToken : ArkshToken

def functionHeader (tokens : List ArkshToken) : Attempt (List Text × List ArkshToken) :=
  match tokens with
  | [] => .ok ([], [])
  | token :: rest =>
    if token.kind ≠ .lparen then .ok ([], token :: rest)
    else
      match rest.dropWhile fun token => token.kind ≠ .rparen with
      | [] => .error (some "unterminated function command: missing ')'")
      | _ :: behind =>
        match parseFunctionParamsTokens [] (rest.takeWhile fun token => token.kind ≠ .rparen) with
        | .error message => .error (some message)
        | .ok params => .ok (params, behind)

/-- `do` behind a header, and the tokens behind it. -/
def expectDo (what : String) (tokens : List ArkshToken) : Attempt Found :=
  match skipSequence tokens with
  | token :: rest =>
    if isWord token "do" then .ok ⟨token, rest⟩
    else .error (some ("unterminated " ++ what ++ " command: missing do"))
  | [] => .error (some ("unterminated " ++ what ++ " command: missing do"))

/-- The name behind `function` or `class`. A line that ends in front of it loses the message. -/
def expectName (what : String) (tokens : List ArkshToken) : Attempt (Text × List ArkshToken) :=
  match tokens with
  | [] => .error none
  | name :: rest =>
    if name.kind = .eof then .error (some "")
    else if name.kind ≠ .word ∨ isIdentifierText name.text.1 = false then
      .error (some (what ++ " command expects an identifier after '" ++ what ++ "'"))
    else .ok (name.text.1, rest)

def locateFunction (line : Text) (stream : ArkshTokenStream) : Attempt (Located FunctionParts) :=
  (behindKeywordToken stream "function").bind fun (_, tokens) =>
    (expectName "function" tokens).bind fun (name, tokens) =>
      (functionHeader tokens).bind fun (params, tokens) =>
        (expectDo "function" tokens).bind fun doFound =>
          (orMissing (findKeyword line ["endfunction"] doFound.token 0 doFound.behind)
            "unterminated function command: missing endfunction").map fun endfunction =>
              ⟨⟨name, params, doFound.token⟩, endfunction⟩

def parseFunctionCommandTokens (line : Text) (stream : ArkshTokenStream) :
    Attempt (ArkshAst ArkshNode) :=
  (locateFunction line stream).bind fun ⟨parts, endfunction⟩ =>
    let body := textBetween line parts.doToken endfunction.token
    if body = [] then .error (some "function command requires a body")
    else
      expectEnd "endfunction" endfunction (.plain .functionCommand
        (.functionCommand ⟨copyString arkshMaxName parts.name, some parts.params, body, line⟩))

abbrev ClassBases := { bases : List Text // bases.length ≤ arkshMaxClassBases }

def addBase (bases : ClassBases) (token : ArkshToken) : Except String ClassBases :=
  if token.kind ≠ .word ∨ isIdentifierText token.text.1 = false then
    .error "class extends list expects base class identifiers"
  else if h : bases.1.length ≥ arkshMaxClassBases then .error "too many base classes"
  else if token.text.1 ∈ bases.1 then
    .error ("duplicate base class: " ++ String.ofList token.text.1)
  else .ok ⟨bases.1 ++ [copyString arkshMaxName token.text.1], by
    rw [List.length_append]
    exact Nat.lt_of_not_le h⟩

/-- The loop over the bases behind `extends`: the bases, whether one more is expected, and the
    tokens from `do` on. -/
def basesLoop : ClassBases → Bool → List ArkshToken →
    Except String (ClassBases × Bool × List ArkshToken)
  | bases, expectBase, [] => .ok (bases, expectBase, [])
  | bases, expectBase, token :: rest =>
    if token.kind = .eof ∨ isWord token "do" = true then .ok (bases, expectBase, token :: rest)
    else if token.kind = .sequence then basesLoop bases expectBase rest
    else if expectBase then
      match addBase bases token with
      | .error message => .error message
      | .ok bases => basesLoop bases false rest
    else if token.kind ≠ .comma then
      .error "class extends list expects commas between base classes"
    else basesLoop bases true rest

def classHeader (tokens : List ArkshToken) : Except String (ClassBases × List ArkshToken) :=
  match tokens with
  | [] => .ok (⟨[], by decide⟩, [])
  | token :: rest =>
    if isWord token "extends" = false then .ok (⟨[], by decide⟩, token :: rest)
    else
      (basesLoop ⟨[], by decide⟩ true rest).bind fun (bases, expectBase, behind) =>
        if bases.1 = [] then .error "class extends list requires at least one base class"
        else if expectBase then .error "class extends list cannot end with a comma"
        else .ok (bases, behind)

structure ClassParts where
  name : Text
  bases : ClassBases
  doToken : ArkshToken

def locateClass (line : Text) (stream : ArkshTokenStream) : Attempt (Located ClassParts) :=
  (behindKeywordToken stream "class").bind fun (_, tokens) =>
    (expectName "class" tokens).bind fun (name, tokens) =>
      ((classHeader (skipSequence tokens)).mapError some).bind fun (bases, tokens) =>
        (expectDo "class" tokens).bind fun doFound =>
          (orMissing (findClosing line "endclass" doFound.token 0 doFound.behind)
            "unterminated class command: missing endclass").map fun endclass =>
              ⟨⟨name, bases, doFound.token⟩, endclass⟩

def parseClassCommandTokens (line : Text) (stream : ArkshTokenStream) :
    Attempt (ArkshAst ArkshNode) :=
  (locateClass line stream).bind fun ⟨parts, endclass⟩ =>
    let body := textBetween line parts.doToken endclass.token
    expectEnd "endclass" endclass (.plain .classCommand (.classCommand
      ⟨copyString arkshMaxName parts.name, parts.bases.1, body, line, parts.bases.2⟩))

/-! ## 8. `with sudo` -/

/-- The loop for `do`, which may stand behind anything. -/
def findBareDo : Nat → List ArkshToken → Option Found
  | _, [] => none
  | depth, token :: rest =>
    if depth = 0 ∧ isWord token "do" = true then some ⟨token, rest⟩
    else
      findBareDo
        (if token.kind = .word then compoundDepthBehind depth token.text.1 else depth) rest

def locateWithSudo (line : Text) (stream : ArkshTokenStream) : Attempt (Located ArkshToken) :=
  (behindKeywordToken stream "with").bind fun (_, tokens) =>
    match tokens with
    | [] => .error (some "with: expected 'sudo' after 'with'")
    | second :: rest =>
      if isWord second "sudo" = false then .error (some "with: expected 'sudo' after 'with'")
      else
        (orMissing (findBareDo 0 rest) "unterminated with sudo command: missing do").bind
          fun doFound =>
            (orMissing (findClosing line "endwith" doFound.token 0 doFound.behind)
              "unterminated with sudo command: missing endwith").map fun endwith =>
                ⟨doFound.token, endwith⟩

def parseWithSudoCommandTokens (line : Text) (stream : ArkshTokenStream) :
    Attempt (ArkshAst ArkshNode) :=
  (locateWithSudo line stream).bind fun ⟨doToken, endwith⟩ =>
    let body := textBetween line doToken endwith.token
    if body = [] then .error (some "with sudo: empty body") else .ok (.withSudoCommand body)

end Arksh
