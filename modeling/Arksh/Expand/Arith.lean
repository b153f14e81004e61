/-
  Subject: `evaluate_arith` of `src/expand.c`: the value of the text between `$((` and `))`.

  The C parser is one function for each level of precedence, over a cursor into the text. Here a
  parser takes what is left of the text and gives a value and what is left then; the levels of
  binary operators differ in their table of operators only.

  * a `long long` is an `Int` in range; where C leaves the result of an operation open, the
    outcome is `undefined`;
  * `arithParseNestedExpansion` looks for the end of a nested `$((` by counting adjacent
    parentheses, not by parsing.
-/
import Arksh.Lib.Scan
import Arksh.Lib.Strtoll
import Arksh.Object.Value

namespace Arksh

open CText Scan

/-! ## 1. Errors and operators -/

inductive ArithError where
  /-- The end of a nested `$((` is missing. -/
  | unterminated
  /-- A closing parenthesis is missing. The error comes with the value read so far, and the unary
      operators still compute on it. -/
  | missingParen (value : Int)
  | failed (message : String)
  /-- An operation that C leaves undefined. -/
  | undefined

def ArithError.message : ArithError → String
  | unterminated => "unterminated arithmetic expansion"
  | missingParen _ => "missing ')' in arithmetic expression"
  | failed message => message
  | undefined => ""

/-- A result that has to be a `long long`. -/
def representable (v : Int) : Except ArithError Int := if InRange v then .ok v else .error .undefined

inductive ArithOp where
  | mul | div | mod | add | sub | shl | shr
  | le | ge | lt | gt | eq | ne
  | bitAnd | bitXor | bitOr | logicalAnd | logicalOr

def truth (p : Prop) [Decidable p] : Int := if p then 1 else 0

/-- An operation on the two's complement patterns of 64 bits. -/
def bitwise (f : BitVec 64 → BitVec 64 → BitVec 64) (a b : Int) : Int :=
  (f (BitVec.ofInt 64 a) (BitVec.ofInt 64 b)).toInt

def ArithOp.apply (op : ArithOp) (left right : Int) : Except ArithError Int :=
  match op with
  | mul => representable (left * right)
  | div => if right = 0 then .error (.failed "division by zero") else representable (left.tdiv right)
  | mod =>
    if right = 0 then .error (.failed "modulo by zero")
    else if left = -2 ^ 63 ∧ right = -1 then .error .undefined
    else .ok (left.tmod right)
  | add => representable (left + right)
  | sub => representable (left - right)
  | shl =>
    if right < 0 ∨ 64 ≤ right ∨ left < 0 then .error .undefined
    else representable (left * 2 ^ right.toNat)
  | shr => if right < 0 ∨ 64 ≤ right then .error .undefined else .ok (left / 2 ^ right.toNat)
  | le => .ok (truth (left ≤ right))
  | ge => .ok (truth (left ≥ right))
  | lt => .ok (truth (left < right))
  | gt => .ok (truth (left > right))
  | eq => .ok (truth (left = right))
  | ne => .ok (truth (left ≠ right))
  | bitAnd => .ok (bitwise (· &&& ·) left right)
  | bitXor => .ok (bitwise (· ^^^ ·) left right)
  | bitOr => .ok (bitwise (· ||| ·) left right)
  | logicalAnd => .ok (truth (left ≠ 0 ∧ right ≠ 0))
  | logicalOr => .ok (truth (left ≠ 0 ∨ right ≠ 0))

/-- The loop of `arith_pow_int`, which stops making sense at the first product out of range. -/
def powLoop (base : Int) : Nat → Int → Except ArithError Int
  | 0, result => .ok result
  | n + 1, result => (representable (result * base)).bind (powLoop base n)

def arithPowInt (base exponent : Int) : Except ArithError Int :=
  if exponent < 0 then .error (.failed "negative exponent not supported")
  else powLoop base exponent.toNat 1

theorem representable_ne_unterminated (v : Int) : representable v ≠ .error .unterminated := by
  unfold representable
  split <;> intro h <;> cases h

theorem ArithOp.apply_ne_unterminated (op : ArithOp) (left right : Int) :
    op.apply left right ≠ .error .unterminated := by
  have hrep := representable_ne_unterminated
  cases op with
  | mul | add | sub => exact hrep _
  | div =>
    simp only [ArithOp.apply]
    split
    · intro h; cases h
    · exact hrep _
  | mod =>
    simp only [ArithOp.apply]
    split
    · intro h; cases h
    split <;> intro h <;> cases h
  | shl =>
    simp only [ArithOp.apply]
    split
    · intro h; cases h
    · exact hrep _
  | shr =>
    simp only [ArithOp.apply]
    split <;> intro h <;> cases h
  | _ => intro h; cases h

theorem representable_ne_missingParen (w v : Int) : representable w ≠ .error (.missingParen v) := by
  unfold representable
  split <;> intro h <;> cases h

theorem ArithOp.apply_ne_missingParen (op : ArithOp) (left right v : Int) :
    op.apply left right ≠ .error (.missingParen v) := by
  have hrep (w : Int) := representable_ne_missingParen w v
  intro h
  cases op <;> simp [ArithOp.apply, hrep] at h <;> (repeat' split at h) <;> simp_all

theorem arithPowInt_ne_unterminated (base exponent : Int) :
    arithPowInt base exponent ≠ .error .unterminated := by
  have hloop : ∀ n result, powLoop base n result ≠ .error .unterminated := by
    intro n
    induction n with
    | zero => intro result h; cases h
    | succ n ih =>
      intro result
      rw [powLoop]
      cases hres : representable (result * base) with
      | ok v => exact ih v
      | error e =>
        intro h
        cases h
        exact representable_ne_unterminated _ hres
  unfold arithPowInt
  split
  · intro h; cases h
  · exact hloop _ _

/-! ## 2. The levels of the parser -/

abbrev ArithParser := Text → Except ArithError (Int × Text)

def arithSkipWs (t : Text) : Text := t.dropWhile isspace

structure ArithOperator where
  lexeme : Text
  op : ArithOp
  notBefore : Option Char := none
  plain : '$' ∉ lexeme := by decide

def ArithOperator.stands (o : ArithOperator) (t : Text) : Bool :=
  o.lexeme.isPrefixOf t &&
    (o.notBefore.isNone || (t.drop o.lexeme.length).head? != o.notBefore)

/-- The loop of a level: where one of its operators stands, its right operand is read at the next
    level. -/
def arithLoop (next : ArithParser) (table : List ArithOperator) : Nat → Int → ArithParser
  | 0, left, t => .ok (left, arithSkipWs t)
  | fuel + 1, left, t =>
    match table.find? (·.stands (arithSkipWs t)) with
    | some o =>
      (next ((arithSkipWs t).drop o.lexeme.length)).bind fun (right, t) =>
        (o.op.apply left right).bind fun left => arithLoop next table fuel left t
    | none => .ok (left, arithSkipWs t)

def arithLevel (next : ArithParser) (table : List ArithOperator) : ArithParser := fun t =>
  (next t).bind fun (left, t) => arithLoop next table t.length left t

/-- A unary operator, whose operand may have come with an error. -/
def onValue (f : Int → Except ArithError Int) :
    Except ArithError (Int × Text) → Except ArithError (Int × Text)
  | .ok (v, t) => (f v).map (·, t)
  | .error (.missingParen v) => (f v).bind fun v => .error (.missingParen v)
  | .error e => .error e

def unaryOperator (c : Char) : Option (Int → Except ArithError Int) :=
  if c = '-' then some fun v => representable (-v)
  else if c = '+' then some .ok
  else if c = '!' then some fun v => .ok (truth (v = 0))
  else if c = '~' then some fun v => .ok (-v - 1)
  else none

def arithUnary (primary : ArithParser) : ArithParser
  | [] => primary []
  | c :: t =>
    if isspace c then arithUnary primary t
    else
      match unaryOperator c with
      | some f => onValue f (arithUnary primary t)
      | none => primary (c :: t)

def arithPower (unary : ArithParser) : Nat → ArithParser
  | 0, t => (unary t).map fun (left, t) => (left, arithSkipWs t)
  | fuel + 1, t =>
    (unary t).bind fun (left, t) =>
      match arithSkipWs t with
      | '*' :: '*' :: t =>
        (arithPower unary fuel t).bind fun (right, t) => (arithPowInt left right).map (·, t)
      | t => .ok (left, t)

def arithMultiplicative (power : ArithParser) : ArithParser :=
  arithLevel power
    [{ lexeme := ['*'], op := .mul }, { lexeme := ['/'], op := .div },
      { lexeme := ['%'], op := .mod }]

def arithAdditive (multiplicative : ArithParser) : ArithParser :=
  arithLevel multiplicative [{ lexeme := ['+'], op := .add }, { lexeme := ['-'], op := .sub }]

def arithShift (additive : ArithParser) : ArithParser :=
  arithLevel additive [{ lexeme := ['<', '<'], op := .shl }, { lexeme := ['>', '>'], op := .shr }]

def arithComparison (shift : ArithParser) : ArithParser :=
  arithLevel shift
    [{ lexeme := ['<', '='], op := .le }, { lexeme := ['>', '='], op := .ge },
      { lexeme := ['<'], op := .lt, notBefore := some '<' },
      { lexeme := ['>'], op := .gt, notBefore := some '>' }]

def arithEquality (comparison : ArithParser) : ArithParser :=
  arithLevel comparison [{ lexeme := ['=', '='], op := .eq }, { lexeme := ['!', '='], op := .ne }]

def arithBitwiseAnd (equality : ArithParser) : ArithParser :=
  arithLevel equality [{ lexeme := ['&'], op := .bitAnd, notBefore := some '&' }]

def arithBitwiseXor (bitwiseAnd : ArithParser) : ArithParser :=
  arithLevel bitwiseAnd [{ lexeme := ['^'], op := .bitXor }]

def arithBitwiseOr (bitwiseXor : ArithParser) : ArithParser :=
  arithLevel bitwiseXor [{ lexeme := ['|'], op := .bitOr, notBefore := some '|' }]

def arithLogicalAnd (bitwiseOr : ArithParser) : ArithParser :=
  arithLevel bitwiseOr [{ lexeme := ['&', '&'], op := .logicalAnd }]

def arithLogicalOr (logicalAnd : ArithParser) : ArithParser :=
  arithLevel logicalAnd [{ lexeme := ['|', '|'], op := .logicalOr }]

def ArithOp.operator : ArithOp → ArithOperator
  | mul => { lexeme := ['*'], op := .mul }
  | div => { lexeme := ['/'], op := .div }
  | mod => { lexeme := ['%'], op := .mod }
  | add => { lexeme := ['+'], op := .add }
  | sub => { lexeme := ['-'], op := .sub }
  | shl => { lexeme := ['<', '<'], op := .shl }
  | shr => { lexeme := ['>', '>'], op := .shr }
  | le => { lexeme := ['<', '='], op := .le }
  | ge => { lexeme := ['>', '='], op := .ge }
  | lt => { lexeme := ['<'], op := .lt, notBefore := some '<' }
  | gt => { lexeme := ['>'], op := .gt, notBefore := some '>' }
  | eq => { lexeme := ['=', '='], op := .eq }
  | ne => { lexeme := ['!', '='], op := .ne }
  | bitAnd => { lexeme := ['&'], op := .bitAnd, notBefore := some '&' }
  | bitXor => { lexeme := ['^'], op := .bitXor }
  | bitOr => { lexeme := ['|'], op := .bitOr, notBefore := some '|' }
  | logicalAnd => { lexeme := ['&', '&'], op := .logicalAnd }
  | logicalOr => { lexeme := ['|', '|'], op := .logicalOr }

/-- `arith_ternary`. All three operands are read at the level of `||`. -/
def arithTernary (logicalOr : ArithParser) : ArithParser := fun t =>
  (logicalOr t).bind fun (cond, t) =>
    match arithSkipWs t with
    | '?' :: t =>
      (logicalOr t).bind fun (v, t) =>
        match arithSkipWs t with
        | ':' :: t => (logicalOr t).map fun (w, t) => (if cond ≠ 0 then v else w, t)
        | _ => .error (.failed "missing ':' in ternary arithmetic expression")
    | t => .ok (cond, t)

/-! ## 3. Primaries -/

/-- The loop of `arith_parse_nested_expansion` behind a `$((`: the text up to the `))` that closes
    it, and the rest. -/
def nestedScan : Nat → Text → Option (Text × Text)
  | depth, '$' :: '(' :: '(' :: t =>
    (nestedScan (depth + 1) t).map fun (inner, rest) => ('$' :: '(' :: '(' :: inner, rest)
  | 0, ')' :: ')' :: t => some ([], t)
  | depth + 1, ')' :: ')' :: t =>
    (nestedScan depth t).map fun (inner, rest) => (')' :: ')' :: inner, rest)
  | depth, c :: t => (nestedScan depth t).map fun (inner, rest) => (c :: inner, rest)
  | _, [] => none

/-- `arith_parse_nested_expansion`, behind the `$((`; its buffer is as large as that of the whole
    expression. -/
def arithParseNestedExpansion (t : Text) : Except ArithError (Text × Text) :=
  match nestedScan 0 t with
  | some found => .ok found
  | none => .error .unterminated

def isNameChar (c : Char) : Bool := isalnum c || c = '_'

def arithVarValue (value : Option Text) : Int :=
  match value with
  | none => 0
  | some text =>
    let (num, rest) := strtoll text
    if rest.dropWhile isspace = [] then num else 0

/-- A bare name or `$name`; `t` is what stands behind the dollar, if there is one. -/
def arithVariable (getVar : Text → Option Text) (t : Text) : Int × Text :=
  let name := t.takeWhile isNameChar
  (if name = [] then 0 else arithVarValue (getVar (copyString 128 name)), t.dropWhile isNameChar)

def arithPrimary (getVar : Text → Option Text) (expr : ArithParser)
    (evaluate : Text → Except ArithError Int) : ArithParser := fun t =>
  match arithSkipWs t with
  | [] => .error (.failed "unexpected end of arithmetic expression")
  | '(' :: t =>
    (expr t).bind fun (v, t) =>
      match arithSkipWs t with
      | ')' :: t => .ok (v, t)
      | _ => .error (.missingParen v)
  | '$' :: '(' :: '(' :: t =>
    (arithParseNestedExpansion t).bind fun (nested, t) => (evaluate nested).map (·, t)
  | c :: t =>
    if c = '$' then .ok (arithVariable getVar t)
    else if isalpha c || c = '_' then .ok (arithVariable getVar (c :: t))
    else if isdigit c then .ok (strtoll (c :: t))
    else .error (.failed ("unexpected character '" ++ String.singleton c
      ++ "' in arithmetic expression"))

def evaluateWith (expr : ArithParser) (t : Text) : Except ArithError Int :=
  match expr t with
  | .error (.missingParen _) => .error (.missingParen 0)
  | .error e => .error e
  | .ok (v, t) =>
    match arithSkipWs t with
    | [] => .ok v
    | c :: _ => .error (.failed ("unexpected token in arithmetic expression: '"
        ++ String.singleton c ++ "'"))

/-- `arith_logical_or` and the levels below it. -/
def arithOperand (primary : ArithParser) : ArithParser :=
  arithLogicalOr <| arithLogicalAnd <| arithBitwiseOr <| arithBitwiseXor <| arithBitwiseAnd <|
    arithEquality <| arithComparison <| arithShift <| arithAdditive <| arithMultiplicative <|
      fun t => arithPower (arithUnary primary) t.length t

/-- `arith_expr`, for texts in which parentheses and nested expansions lie less than `depth`
    deep. -/
def arithExpr (getVar : Text → Option Text) : Nat → ArithParser
  | 0 => fun _ => .error .undefined
  | depth + 1 =>
    arithTernary (arithOperand (arithPrimary getVar (arithExpr getVar depth)
      (evaluateWith (arithExpr getVar depth))))

def evaluateArith (getVar : Text → Option Text) (t : Text) : Except ArithError Int :=
  evaluateWith (arithExpr getVar (t.length + 1)) t

example : (evaluateArith (fun _ => some "3".toList) "2 * (x + $((1))) ** 2".toList).toOption
    = some 32 := by
  decide +kernel

end Arksh
