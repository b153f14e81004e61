/-
  Subject: The value forms of `src/parser.c`: block literals, object expressions, calls, ternary
           and binary expressions, literals and bindings.

  Each form is looked for in the text of the whole line. What the parser finds in it is the
  syntax only: the arguments and the operands stay texts.
-/
import Arksh.Lib.Strtod
import Arksh.Parse.Heredoc
import Arksh.Shell.Registry

namespace Arksh

open CText Scan

/-! ## 1. Scanning -/

def arkshMaxObjectMembers : Nat := 8
def arkshMaxBlockParams : Nat := 4
def arkshMaxBlockSource : Nat := 1024

/-- Where the scanning loops differ: a backslash outside of quotes, and braces. -/
structure ScanMode where
  escapes : Bool
  braces : Bool

/-- Which characters a scanning loop looks at: those outside of quotes and open brackets, but for
    the brackets. -/
def topLevelChars (mode : ScanMode) : Quote → Nat → Nat → Nat → Text → List Bool
  | _, _, _, _, [] => []
  | .single, paren, brace, bracket, c :: text =>
    false :: topLevelChars mode (if c = '\'' then .unquoted else .single) paren brace bracket text
  | .double, paren, brace, bracket, c :: text =>
    if c = '"' then false :: topLevelChars mode .unquoted paren brace bracket text
    else
      match c, text with
      | '\\', _ :: text => false :: false :: topLevelChars mode .double paren brace bracket text
      | _, text => false :: topLevelChars mode .double paren brace bracket text
  | .unquoted, paren, brace, bracket, c :: text =>
    if c = '"' then false :: topLevelChars mode .double paren brace bracket text
    else if c = '\'' then false :: topLevelChars mode .single paren brace bracket text
    else
      match mode.escapes, c, text with
      | true, '\\', _ :: text =>
        false :: false :: topLevelChars mode .unquoted paren brace bracket text
      | _, c, text =>
        if c = '(' then false :: topLevelChars mode .unquoted (paren + 1) brace bracket text
        else if c = ')' ∧ paren > 0 then
          false :: topLevelChars mode .unquoted (paren - 1) brace bracket text
        else if mode.braces = true ∧ c = '{' then
          false :: topLevelChars mode .unquoted paren (brace + 1) bracket text
        else if mode.braces = true ∧ c = '}' ∧ brace > 0 then
          false :: topLevelChars mode .unquoted paren (brace - 1) bracket text
        else if c = '[' then
          false :: topLevelChars mode .unquoted paren brace (bracket + 1) text
        else if c = ']' ∧ bracket > 0 then
          false :: topLevelChars mode .unquoted paren brace (bracket - 1) text
        else
          decide (paren = 0 ∧ brace = 0 ∧ bracket = 0) ::
            topLevelChars mode .unquoted paren brace bracket text

def markedChars (mode : ScanMode) (text : Text) : List (Char × Bool) :=
  text.zip (topLevelChars mode .unquoted 0 0 0 text)

def findTopLevelTernaryOperator (text : Text) : Option (Nat × Nat) :=
  let marked := markedChars ⟨false, false⟩ text
  (marked.findIdx? (· = ('?', true))).bind fun question =>
    ((marked.drop (question + 1)).findIdx? (· = (':', true))).map fun colon =>
      (question, question + 1 + colon)

/-- The loop of `find_top_level_binary_op` for `+` and `-`: the last one that is found. -/
def lastAdditiveOp : Nat → Option (Nat × Char) → List (Char × Bool) → Option (Nat × Char)
  | _, found, [] => found
  | i, found, (c, top) :: rest =>
    if top = false then lastAdditiveOp (i + 1) found rest
    else if c = '+' then lastAdditiveOp (i + 1) (some (i, '+')) rest
    else if c = '-' then
      match rest with
      | (d, dTop) :: rest' =>
        -- `->` and `--` are passed over
        if d = '>' ∨ d = '-' then lastAdditiveOp (i + 2) found rest'
        else lastAdditiveOp (i + 1) (some (i, '-')) ((d, dTop) :: rest')
      | [] => some (i, '-')
    else lastAdditiveOp (i + 1) found rest

/-- The loop for `*` and `/`. -/
def lastMultiplicativeOp : Nat → Option (Nat × Char) → List (Char × Bool) → Option (Nat × Char)
  | _, found, [] => found
  | i, found, (c, top) :: rest =>
    lastMultiplicativeOp (i + 1) (if top = true ∧ (c = '*' ∨ c = '/') then some (i, c) else found) rest

def findTopLevelBinaryOp (text : Text) : Option (Nat × Char) :=
  let marked := markedChars ⟨false, false⟩ text
  match lastAdditiveOp 0 none marked with
  | some found => some found
  | none => lastMultiplicativeOp 0 none marked

/-- The loop of `find_next_top_level_arrow`. -/
def arrowIn : Nat → List (Char × Bool) → Option Nat
  | i, (c, top) :: (d, dTop) :: rest =>
    if top = true ∧ c = '-' ∧ d = '>' then some i else arrowIn (i + 1) ((d, dTop) :: rest)
  | _, _ => none

def findNextTopLevelArrow (text : Text) (start : Nat) : Option Nat :=
  arrowIn start (markedChars ⟨true, true⟩ (text.drop start))

/-! ## 2. Texts -/

def isIdentifierText (text : Text) : Bool :=
  match text with
  | [] => false
  | c :: rest => (isalpha c || c = '_') && rest.all fun c => isalnum c || c = '_'

def isNumericText (text : Text) : Bool :=
  match Binary64.strtod text with
  | some (_, rest) => rest = []
  | none => false

def isQuotedText (text : Text) : Bool :=
  text.length ≥ 2 &&
    ((text.head? = some '"' && text.getLast? = some '"') ||
      (text.head? = some '\'' && text.getLast? = some '\''))

def stripMatchingQuotes (text : Text) : Text :=
  if isQuotedText text then (text.drop 1).dropLast else text

def tokenIsQuotedString (token : ArkshToken) : Bool :=
  token.kind = .string || isQuotedText token.raw.1

/-- The text between the first `(` and the last `)`, with what stands in front of it and
    behind it. -/
def callParts (text : Text) : Option (Text × Text × Text) :=
  match text.dropWhile (· ≠ '(') with
  | [] => none
  | _ :: behind =>
    match behind.reverse.dropWhile (· ≠ ')') with
    | [] => none
    | _ :: args =>
      some (text.takeWhile (· ≠ '('), args.reverse, (behind.reverse.takeWhile (· ≠ ')')).reverse)

/-! ## 3. Arguments -/

/-- An argument: its text without quotes, and as it stands. -/
abbrev ParsedArg := Text × Text

/-- The variables of `parse_method_args_csv`. -/
structure ArgsState where
  quote : Option Char
  paren : Nat
  bracket : Nat
  token : Text
  raw : Text
  sawAny : Bool
  args : List ParsedArg

def pushIfRoom (buf : Text) (c : Char) : Text := (appendChar arkshMaxToken buf c).getD buf

/-- An argument ends. -/
def ArgsState.finish (s : ArgsState) : Option ArgsState :=
  if s.sawAny = false then some s
  else if s.args.length ≥ arkshMaxArgs then none
  else
    some { s with
      token := [], raw := [], sawAny := false
      args := s.args ++ [(trimCopy arkshMaxToken s.token, trimCopy arkshMaxToken s.raw)] }

/-- The body of the loop of `parse_method_args_csv`. -/
def ArgsState.step (s : ArgsState) (c : Char) : Option ArgsState :=
  match s.quote with
  | some quote =>
    if c = quote then
      (appendChar arkshMaxToken s.raw c).map fun raw => { s with raw := raw, quote := none }
    else
      match appendChar arkshMaxToken s.token c, appendChar arkshMaxToken s.raw c with
      | some token, some raw => some { s with token := token, raw := raw, sawAny := true }
      | _, _ => some s
  | none =>
    if c = '"' ∨ c = '\'' then
      (appendChar arkshMaxToken s.raw c).map fun raw =>
        { s with raw := raw, quote := some c, sawAny := true }
    else
      let s :=
        if c = '(' then { s with paren := s.paren + 1 }
        else if c = ')' ∧ s.paren > 0 then { s with paren := s.paren - 1 }
        else if c = '[' then { s with bracket := s.bracket + 1 }
        else if c = ']' ∧ s.bracket > 0 then { s with bracket := s.bracket - 1 }
        else s
      if c = ',' ∧ s.paren = 0 ∧ s.bracket = 0 then s.finish
      else
        some { s with token := pushIfRoom s.token c, raw := pushIfRoom s.raw c, sawAny := true }

def parseMethodArgsCsv (src : Text) : Option (List ParsedArg) :=
  (src.foldlM ArgsState.step ⟨none, 0, 0, [], [], false, []⟩).bind fun s =>
    if s.quote.isSome then none else s.finish.map ArgsState.args

/-! ## 4. Block literals -/

def findBlockSeparator : Quote → Nat → Text → Option Nat
  | _, _, [] => none
  | .single, i, c :: text =>
    findBlockSeparator (if c = '\'' then .unquoted else .single) (i + 1) text
  | .double, i, c :: text =>
    if c = '"' then findBlockSeparator .unquoted (i + 1) text
    else
      match c, text with
      | '\\', _ :: text => findBlockSeparator .double (i + 2) text
      | _, text => findBlockSeparator .double (i + 1) text
  | .unquoted, i, c :: text =>
    if c = '\'' then findBlockSeparator .single (i + 1) text
    else if c = '"' then findBlockSeparator .double (i + 1) text
    else if c = '|' then some i
    else findBlockSeparator .unquoted (i + 1) text

def isIdentifierChar (c : Char) : Bool := isalnum c || c = '_'

def blockParamsLoop : Nat → List Text → Text → Except String (List Text)
  | 0, params, _ => .ok params
  | turns + 1, params, text =>
    match text.dropWhile isspace with
    | [] => .ok params
    | c :: rest =>
      if c ≠ ':' then .error "block parameters must use Smalltalk-style :name syntax"
      else
        let name := rest.takeWhile isIdentifierChar
        if isIdentifierText (copyString arkshMaxName name) = false then
          .error ("invalid block parameter: " ++ String.ofList (copyString arkshMaxName name))
        else if params.length ≥ arkshMaxBlockParams then .error "too many block parameters"
        else if name.length ≥ arkshMaxName then .error "block parameter name too long"
        else blockParamsLoop turns (params ++ [name]) (rest.dropWhile isIdentifierChar)

def parseBlockParamsText (text : Text) : Except String (List Text) :=
  blockParamsLoop (text.length + 1) [] text

def parseBlockLiteralText (line : Text) : Except (Option String) ArkshBlock :=
  let trimmed := trimCopy arkshMaxLine line
  if trimmed.length < 2 ∨ trimmed.head? ≠ some '[' ∨ trimmed.getLast? ≠ some ']' then .error none
  else
    match findBlockSeparator .unquoted 0 (trimmed.drop 1).dropLast with
    | none => .error (some "block literal requires a '|' separator")
    | some separator =>
      let params := copyTrimmedSlice trimmed 1 (separator + 1)
      let body := copyTrimmedSlice trimmed (separator + 2) (trimmed.length - 1)
      if body = [] then .error (some "block literal requires a body")
      else
        match parseBlockParamsText params with
        | .error message => .error (some message)
        | .ok params =>
          .ok
            { params := params
              body := copyString arkshMaxBlockSource body
              source := copyString arkshMaxBlockSource trimmed }

/-! ## 5. Object expressions -/

structure ArkshObjectMemberNode where
  member : Text
  args : List ParsedArg
  memberKind : ArkshMemberKind
  deriving DecidableEq

structure ArkshObjectExpressionNode where
  selector : Text
  rawSelector : Text
  members : List ArkshObjectMemberNode
  legacySyntax : Bool
  deriving DecidableEq

def parseObjectMemberText (suffix : Text) : Option ArkshObjectMemberNode :=
  let text := trimCopy arkshMaxLine suffix
  if text = [] then none
  else if '(' ∉ text then some ⟨copyString arkshMaxName text, [], .property⟩
  else
    (callParts text).bind fun (name, args, _) =>
      if name.length ≥ arkshMaxName then none
      else if trimCopy arkshMaxName name = [] then none
      else if args.length ≥ arkshMaxLine then none
      else
        (parseMethodArgsCsv args).map fun args => ⟨trimCopy arkshMaxName name, args, .method⟩

def parseLegacyObjectExpression (line : Text) : Option ArkshObjectExpressionNode :=
  let trimmed := trimCopy arkshMaxLine line
  if "obj(".toList.isPrefixOf trimmed = false then none
  else
    let selector := (trimmed.drop 4).takeWhile (· ≠ ')')
    match (trimmed.drop 4).dropWhile (· ≠ ')') with
    | ')' :: '.' :: suffix =>
      let raw := trimCopy arkshMaxLine selector
      if selector.length ≥ arkshMaxPath then none
      else if stripMatchingQuotes raw = [] then none
      else (parseObjectMemberText suffix).map fun member =>
        ⟨stripMatchingQuotes raw, raw, [member], true⟩
    | _ => none

def objectMembersLoop (trimmed : Text) : Nat → Nat → Except String (List ArkshObjectMemberNode)
  | 0, cursor =>
    if cursor < trimmed.length then .error "too many object members in chain" else .ok []
  | room + 1, cursor =>
    if cursor < trimmed.length then
      let stop := (findNextTopLevelArrow trimmed cursor).getD trimmed.length
      let memberText := copyTrimmedSlice trimmed cursor stop
      match parseObjectMemberText memberText with
      | none => .error ("invalid object member: " ++ String.ofList memberText)
      | some member =>
        if stop = trimmed.length then .ok [member]
        else (objectMembersLoop trimmed room (stop + 2)).map fun members => member :: members
    else .ok []

def parseObjectExpressionText (line : Text) : Except (Option String) ArkshObjectExpressionNode :=
  match parseLegacyObjectExpression line with
  | some expression => .ok expression
  | none =>
    let trimmed := trimCopy arkshMaxLine line
    match findNextTopLevelArrow trimmed 0 with
    | none => .error none
    | some arrow =>
      if arrow = 0 ∨ trimmed.length ≤ arrow + 2 then
        .error (some "expected receiver and member around ->")
      else
        let raw := trimCopy arkshMaxLine (copyTrimmedSlice trimmed 0 arrow)
        if stripMatchingQuotes raw = [] then .error (some "object expression requires a receiver")
        else
          match objectMembersLoop trimmed arkshMaxObjectMembers (arrow + 2) with
          | .error message => .error (some message)
          | .ok members => .ok ⟨stripMatchingQuotes raw, raw, members, false⟩

/-! ## 6. Value sources -/

inductive ArkshValueSourceKind where
  | objectExpression | binding | stringLiteral | numberLiteral | booleanLiteral | listLiteral
  | blockLiteral | captureText | captureLines | ternary | resolverCall | binaryOp | captureShell
  deriving DecidableEq

structure ArkshValueSourceNode where
  kind : ArkshValueSourceKind
  text : Text := []
  rawText : Text := []
  binding : Text := []
  args : List ParsedArg := []
  block : ArkshBlock := {}
  objectExpression : Option ArkshObjectExpressionNode := none
  binaryLeft : Text := []
  binaryRight : Text := []
  binaryOp : Char := '\x00'
  deriving DecidableEq

inductive ValueResult where
  | value (source : ArkshValueSourceNode)
  | noValue (message : String)
  | invalid (message : String)

def unaryCalls : List (String × ArkshValueSourceKind) :=
  [ ("text", .stringLiteral), ("string", .stringLiteral), ("number", .numberLiteral),
    ("bool", .booleanLiteral), ("capture", .captureText), ("capture_lines", .captureLines) ]

def parseValueSourceCallText (line : Text) (message : String) : ValueResult :=
  let trimmed := trimCopy arkshMaxLine line
  match callParts trimmed with
  | none => .noValue message
  | some (front, args, behind) =>
    let name := trimCopy arkshMaxName front
    if behind.all isspace = false then .noValue message
    else if front.length = 0 ∨ front.length ≥ arkshMaxName then .noValue message
    else if isIdentifierText name = false then .noValue message
    else if args.length ≥ arkshMaxLine then .invalid message
    else
      match parseMethodArgsCsv args with
      | none => .invalid message
      | some args =>
        match unaryCalls.lookup (String.ofList name) with
        | some kind =>
          match args with
          | [(text, raw)] => .value { kind := kind, text := text, rawText := raw, args := args }
          | _ => .invalid (String.ofList name ++ "() expects exactly one argument")
        | none =>
          .value
            { kind :=
                if name = "list".toList ∨ name = "array".toList then .listLiteral
                else .resolverCall
              text := name, rawText := trimmed, args := args }

def parseNonObjectValueSourceTokens (stream : ArkshTokenStream) (message : String) : ValueResult :=
  match stream.tokens with
  | [token, _] =>
    if tokenIsQuotedString token then
      .value { kind := .stringLiteral, text := token.text.1, rawText := token.raw.1 }
    else if token.kind ≠ .word then .noValue message
    else if token.text.1 = "true".toList ∨ token.text.1 = "false".toList then
      .value { kind := .booleanLiteral, text := token.text.1, rawText := token.raw.1 }
    else if isNumericText token.text.1 then
      .value { kind := .numberLiteral, text := token.text.1, rawText := token.raw.1 }
    else .noValue message
  | _ => .noValue message

def leftIsValue (left : Text) : Bool :=
  if '(' ∈ left then (left.takeWhile (· ≠ '(')).all fun c => c ≠ ' ' && c ≠ '\t'
  else if left.head? = some '"' ∧ left.length ≥ 2 ∧ left.getLast? = some '"' then true
  else if left.head? = some '\'' ∧ left.length ≥ 2 ∧ left.getLast? = some '\'' then true
  else left.head?.any isdigit && !left.contains ' '

def binaryExpression (trimmed : Text) : Option ArkshValueSourceNode :=
  (findTopLevelBinaryOp trimmed).bind fun (place, op) =>
    let left := copyTrimmedSlice trimmed 0 place
    let right := copyTrimmedSlice trimmed (place + 1) trimmed.length
    if left ≠ [] ∧ right ≠ [] ∧ leftIsValue left = true then
      some
        { kind := .binaryOp, text := trimmed, rawText := trimmed
          binaryLeft := left, binaryRight := right, binaryOp := op }
    else none

/-- What `parse_value_source_text_ex` does where the text is no block, binding, ternary or binary
    expression. -/
def parseOtherValueSource (line trimmed : Text) (message : String) : ValueResult :=
  match parseObjectExpressionText line with
  | .ok expression => .value { kind := .objectExpression, objectExpression := some expression }
  | .error objectMessage =>
    match parseValueSourceCallText trimmed (objectMessage.getD message) with
    | .noValue _ =>
      match arkshLexLine line with
      | .error lexMessage => .invalid lexMessage
      | .ok stream => parseNonObjectValueSourceTokens stream ""
    | result => result

def parseValueSourceTextEx (line : Text) (allowBindingRef : Bool) (message : String) :
    ValueResult :=
  let trimmed := trimCopy arkshMaxLine line
  if trimmed = [] then .noValue message
  else
    match parseBlockLiteralText trimmed with
    | .ok block =>
      .value { kind := .blockLiteral, text := block.source, rawText := block.source, block := block }
    | .error blockMessage =>
      if trimmed = "true".toList ∨ trimmed = "false".toList then
        .value { kind := .booleanLiteral, text := trimmed, rawText := trimmed }
      else if allowBindingRef = true ∧ isIdentifierText trimmed = true then
        .value
          { kind := .binding, binding := copyString arkshMaxName trimmed
            text := trimmed, rawText := trimmed }
      else
        match findTopLevelTernaryOperator trimmed with
        | some (question, colon) =>
          if copyTrimmedSlice trimmed 0 question = [] ∨
              copyTrimmedSlice trimmed (question + 1) colon = [] ∨
              copyTrimmedSlice trimmed (colon + 1) trimmed.length = [] then
            .invalid "ternary expression requires condition, true branch and false branch"
          else .value { kind := .ternary, text := trimmed, rawText := trimmed }
        | none =>
          match binaryExpression trimmed with
          | some source => .value source
          | none => parseOtherValueSource line trimmed (blockMessage.getD message)

def parseValueSourceText (line : Text) (message : String) : ValueResult :=
  parseValueSourceTextEx line false message

/-! ## 7. Stages of object pipelines -/

structure ArkshPipelineStageNode where
  name : Text
  rawArgs : Text
  args : List ParsedArg
  deriving DecidableEq

def parsePipelineStageText (text : Text) : Option ArkshPipelineStageNode :=
  let trimmed := trimCopy arkshMaxLine text
  if trimmed = [] then none
  else if '(' ∉ trimmed then some ⟨copyString arkshMaxName trimmed, [], []⟩
  else
    (callParts trimmed).bind fun (front, args, behind) =>
      if behind.all isspace = false then none
      else if front.length ≥ arkshMaxName then none
      else if args.length ≥ arkshMaxLine then none
      else
        let rawArgs := trimCopy arkshMaxLine args
        (parseMethodArgsCsv rawArgs).bind fun args =>
          if trimCopy arkshMaxName front = [] then none
          else some ⟨trimCopy arkshMaxName front, rawArgs, args⟩

end Arksh
