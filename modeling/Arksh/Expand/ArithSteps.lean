/-
  Subject: The binary operations that `evaluate_arith` of `src/expand.c` comes to, for any text.

  `/` and `%` are guarded against a divisor of 0 and `<<` and `>>` against nothing. The parsers of
  `Arith` are logged here: next to each stands the list of the operations that a reading comes to,
  in their order, with their operands.
-/
import Arksh.Expand.ArithReads

namespace Arksh

open CText Scan List

/-! ## 1. Logs -/

/-- An operator at work. -/
structure ArithStep where
  op : ArithOp
  left : Int
  right : Int
  deriving DecidableEq

def ArithStep.result (s : ArithStep) : Except ArithError Int := s.op.apply s.left s.right

/-- What is done with a result, if there is one. -/
def performed {α : Type} (r : Except ArithError α) (f : α → List ArithStep) : List ArithStep :=
  match r with
  | .ok a => f a
  | .error _ => []

variable {s : ArithStep}

theorem mem_performed {α : Type} {r : Except ArithError α} {f : α → List ArithStep} :
    s ∈ performed r f ↔ ∃ a, r = .ok a ∧ s ∈ f a := by
  cases r with
  | ok a =>
    constructor
    · intro h; exact ⟨a, rfl, h⟩
    · intro ⟨b, hb, h⟩
      cases hb
      exact h
  | error e =>
    constructor
    · intro h; cases h
    · intro ⟨b, hb, _⟩; cases hb

structure ArithLog where
  parse : ArithParser
  steps : Text → List ArithStep

def loopSteps (next : ArithLog) (table : List ArithOperator) :
    Nat → Int → Text → List ArithStep
  | 0, _, _ => []
  | fuel + 1, left, t =>
    match table.find? (·.stands (arithSkipWs t)) with
    | some o =>
      next.steps ((arithSkipWs t).drop o.lexeme.length) ++
        performed (next.parse ((arithSkipWs t).drop o.lexeme.length)) fun (right, t) =>
          ⟨o.op, left, right⟩ :: performed (o.op.apply left right) fun left =>
            loopSteps next table fuel left t
    | none => []

def levelSteps (next : ArithLog) (table : List ArithOperator) (t : Text) : List ArithStep :=
  next.steps t ++ performed (next.parse t) fun (left, t) => loopSteps next table t.length left t

def unarySteps (primary : ArithLog) : Text → List ArithStep
  | [] => primary.steps []
  | c :: t =>
    if isspace c then unarySteps primary t
    else
      match unaryOperator c with
      | some _ => unarySteps primary t
      | none => primary.steps (c :: t)

def powerSteps (unary : ArithLog) : Nat → Text → List ArithStep
  | 0, t => unary.steps t
  | fuel + 1, t =>
    unary.steps t ++ performed (unary.parse t) fun (_, t) =>
      match arithSkipWs t with
      | '*' :: '*' :: t => powerSteps unary fuel t
      | _ => []

def ternarySteps (operand : ArithLog) (t : Text) : List ArithStep :=
  operand.steps t ++ performed (operand.parse t) fun (_, t) =>
    match arithSkipWs t with
    | '?' :: t =>
      operand.steps t ++ performed (operand.parse t) fun (_, t) =>
        match arithSkipWs t with
        | ':' :: t => operand.steps t
        | _ => []
    | _ => []

def primarySteps (expr : Text → List ArithStep) (t : Text) : List ArithStep :=
  match arithSkipWs t with
  | '(' :: t => expr t
  | '$' :: '(' :: '(' :: t => performed (arithParseNestedExpansion t) fun (nested, _) => expr nested
  | _ => []

def levelLog (primary : ArithLog) : Nat → ArithLog
  | 0 => primary
  | 1 => ⟨arithUnary primary.parse, unarySteps primary⟩
  | 2 =>
    ⟨fun t => arithPower (arithUnary primary.parse) t.length t,
      fun t => powerSteps ⟨arithUnary primary.parse, unarySteps primary⟩ t.length t⟩
  | h + 3 =>
    if h = 10 then ⟨arithTernary (levelLog primary (h + 2)).parse,
      ternarySteps (levelLog primary (h + 2))⟩
    else ⟨arithLevel (levelLog primary (h + 2)).parse (operatorsAt (h + 3)),
      levelSteps (levelLog primary (h + 2)) (operatorsAt (h + 3))⟩

/-- The operations of `arith_expr`. A nested expansion is one more expression. -/
def exprLog (getVar : Text → Option Text) : Nat → ArithLog
  | 0 => ⟨arithExpr getVar 0, fun _ => []⟩
  | depth + 1 => levelLog ⟨primaryAt getVar depth, primarySteps (exprLog getVar depth).steps⟩ 13

/-- The operations of `evaluate_arith`, in their order. -/
def arithSteps (getVar : Text → Option Text) (t : Text) : List ArithStep :=
  (exprLog getVar (t.length + 1)).steps t

example : arithSteps (fun _ => none) "1 ? 6 / (1 + 2) : $((0 << 1))".toList =
    [⟨.add, 1, 2⟩, ⟨.div, 6, 3⟩, ⟨.shl, 0, 1⟩] := by
  decide +kernel

theorem levelLog_parse (primary : ArithLog) :
    ∀ h, (levelLog primary h).parse = levelAt primary.parse h
  | 0 => rfl
  | 1 => rfl
  | 2 => rfl
  | h + 3 => by
    have ih := levelLog_parse primary (h + 2)
    rw [levelLog, levelAt]
    split <;> rw [← ih]

theorem exprLog_parse (getVar : Text → Option Text) (depth : Nat) :
    (exprLog getVar depth).parse = arithExpr getVar depth := by
  cases depth with
  | zero => rfl
  | succ depth => rw [exprLog, levelLog_parse, levelAt_expr]

/-! ## 2. Operations that fail -/

def ArithLog.Fails (l : ArithLog) : Prop :=
  ∀ ⦃t s e⦄, s ∈ l.steps t → s.result = .error e → l.parse t = .error e

theorem loopSteps_fails {next : ArithLog} (hnext : next.Fails) (table : List ArithOperator)
    (fuel : Nat) : ∀ left, ArithLog.Fails ⟨arithLoop next.parse table fuel left,
      loopSteps next table fuel left⟩ := by
  induction fuel with
  | zero => intro left t s e hs _; cases hs
  | succ fuel ih =>
    intro left t s e hs he
    dsimp only at hs ⊢
    rw [loopSteps] at hs
    rw [arithLoop]
    cases hfind : table.find? (·.stands (arithSkipWs t)) with
    | none => rw [hfind] at hs; cases hs
    | some o =>
      rw [hfind] at hs
      refine bind_error.mpr ?_
      rcases mem_append.mp hs with hs | hs
      · exact .inl (hnext hs he)
      obtain ⟨⟨right, u⟩, hright, hs⟩ := mem_performed.mp hs
      refine .inr ⟨_, hright, bind_error.mpr ?_⟩
      rcases mem_cons.mp hs with rfl | hs
      · exact .inl he
      obtain ⟨left', hleft, hs⟩ := mem_performed.mp hs
      exact .inr ⟨left', hleft, ih left' hs he⟩

theorem levelSteps_fails {next : ArithLog} (hnext : next.Fails) (table : List ArithOperator) :
    ArithLog.Fails ⟨arithLevel next.parse table, levelSteps next table⟩ := by
  intro t s e hs he
  refine bind_error.mpr ?_
  rcases mem_append.mp hs with hs | hs
  · exact .inl (hnext hs he)
  obtain ⟨⟨left, u⟩, hleft, hs⟩ := mem_performed.mp hs
  exact .inr ⟨_, hleft, loopSteps_fails hnext table _ left hs he⟩

variable {e : ArithError}

theorem onValue_fails (f : Int → Except ArithError Int) {r : Except ArithError (Int × Text)}
    (he : s.result = .error e) (hr : r = .error e) : onValue f r = .error e := by
  subst hr
  cases e with
  | missingParen v => exact absurd he (s.op.apply_ne_missingParen _ _ v)
  | _ => rfl

variable {primary log : ArithLog}

theorem unarySteps_fails (hprimary : primary.Fails) :
    ArithLog.Fails ⟨arithUnary primary.parse, unarySteps primary⟩ := by
  intro t
  induction t with
  | nil => exact fun s e hs he => hprimary hs he
  | cons c t ih =>
    intro s e hs he
    dsimp only at hs ⊢
    rw [unarySteps] at hs
    rw [arithUnary]
    split
    · rename_i hspace
      rw [if_pos hspace] at hs
      exact ih hs he
    rename_i hspace
    rw [if_neg hspace] at hs
    split
    · rename_i f hop
      rw [hop] at hs
      exact onValue_fails f he (ih hs he)
    · rename_i hop
      rw [hop] at hs
      exact hprimary hs he

theorem powerSteps_fails {unary : ArithLog} (hunary : unary.Fails) (fuel : Nat) :
    ArithLog.Fails ⟨arithPower unary.parse fuel, powerSteps unary fuel⟩ := by
  induction fuel with
  | zero => intro t s e hs he; exact map_error.mpr (hunary hs he)
  | succ fuel ih =>
    intro t s e hs he
    refine bind_error.mpr ?_
    rcases mem_append.mp hs with hs | hs
    · exact .inl (hunary hs he)
    obtain ⟨⟨left, u⟩, hleft, hs⟩ := mem_performed.mp hs
    refine .inr ⟨_, hleft, ?_⟩
    dsimp only at hs ⊢
    generalize arithSkipWs u = z at hs ⊢
    split at hs
    · exact bind_error.mpr (.inl (ih hs he))
    · cases hs

theorem ternarySteps_fails {operand : ArithLog} (hoperand : operand.Fails) :
    ArithLog.Fails ⟨arithTernary operand.parse, ternarySteps operand⟩ := by
  intro t s e hs he
  refine bind_error.mpr ?_
  rcases mem_append.mp hs with hs | hs
  · exact .inl (hoperand hs he)
  obtain ⟨⟨cond, u⟩, hcond, hs⟩ := mem_performed.mp hs
  refine .inr ⟨_, hcond, ?_⟩
  dsimp only at hs ⊢
  generalize arithSkipWs u = z at hs ⊢
  split at hs
  · refine bind_error.mpr ?_
    rcases mem_append.mp hs with hs | hs
    · exact .inl (hoperand hs he)
    obtain ⟨⟨v, u'⟩, hv, hs⟩ := mem_performed.mp hs
    refine .inr ⟨_, hv, ?_⟩
    generalize arithSkipWs u' = z at hs ⊢
    split at hs
    · exact map_error.mpr (hoperand hs he)
    · cases hs
  · cases hs

theorem levelLog_fails (hprimary : primary.Fails) : ∀ h, (levelLog primary h).Fails
  | 0 => hprimary
  | 1 => unarySteps_fails hprimary
  | 2 => fun _ _ _ hs he => powerSteps_fails (unarySteps_fails hprimary) _ hs he
  | h + 3 => by
    have ih := levelLog_fails hprimary (h + 2)
    rw [levelLog]
    split
    · exact ternarySteps_fails ih
    · exact levelSteps_fails ih _

variable {t : Text}

theorem evaluateWith_fails (hlog : log.Fails) (hs : s ∈ log.steps t) (he : s.result = .error e) :
    evaluateWith log.parse t = .error e := by
  unfold evaluateWith
  rw [hlog hs he]
  cases e with
  | missingParen v => exact absurd he (s.op.apply_ne_missingParen _ _ v)
  | _ => rfl

theorem primarySteps_fails (getVar : Text → Option Text) (hlog : log.Fails) :
    ArithLog.Fails ⟨arithPrimary getVar log.parse (evaluateWith log.parse),
      primarySteps log.steps⟩ := by
  intro t s e hs he
  dsimp only at hs ⊢
  rw [primarySteps] at hs
  unfold arithPrimary
  split at hs
  · rename_i u hparen
    rw [hparen]
    exact bind_error.mpr (.inl (hlog hs he))
  · rename_i u hnested
    obtain ⟨⟨nested, u'⟩, hscan, hs⟩ := mem_performed.mp hs
    rw [hnested]
    refine bind_error.mpr (.inr ⟨_, hscan, ?_⟩)
    exact map_error.mpr (evaluateWith_fails hlog hs he)
  · cases hs

theorem exprLog_fails (getVar : Text → Option Text) (depth : Nat) :
    (exprLog getVar depth).Fails := by
  induction depth with
  | zero => intro t s e hs _; cases hs
  | succ depth ih =>
    have hprimary := primarySteps_fails getVar ih
    rw [exprLog_parse] at hprimary
    exact levelLog_fails hprimary 13

variable {getVar : Text → Option Text}

/-- **An operation that fails ends the evaluation with its error.** -/
theorem mem_arithSteps_error (hs : s ∈ arithSteps getVar t) (he : s.result = .error e) :
    evaluateArith getVar t = .error e := by
  have heval := evaluateWith_fails (exprLog_fails getVar _) hs he
  rwa [exprLog_parse] at heval

/-! ## 3. Divisions and shifts -/

/-- The operations that C defines, among the divisions and shifts. -/
def ArithStep.Defined (s : ArithStep) : Prop :=
  match s.op with
  | .div | .mod => s.right ≠ 0 ∧ ¬ (s.left = -2 ^ 63 ∧ s.right = -1)
  | .shl | .shr => 0 ≤ s.right ∧ s.right < 64
  | _ => True

/-- The divisions that overflow, and the shifts by more than the width or by less than nothing. -/
def ArithStep.Unguarded (s : ArithStep) : Prop :=
  match s.op with
  | .div | .mod => s.left = -2 ^ 63 ∧ s.right = -1
  | .shl | .shr => s.right < 0 ∨ 64 ≤ s.right
  | _ => False

/-- An error that the code finds and returns. -/
def Refused (r : Except ArithError Int) : Prop := ∃ e, r = .error e ∧ e ≠ .undefined

/-- No division or shift that C leaves undefined is carried out: each is defined, or an error is
    returned. -/
def Guarded (getVar : Text → Option Text) (t : Text) : Prop :=
  ∀ s ∈ arithSteps getVar t, s.Defined ∨ Refused (evaluateArith getVar t)

theorem ArithStep.Unguarded.not_defined (h : s.Unguarded) : ¬ s.Defined := by
  obtain ⟨op, left, right⟩ := s
  intro hdefined
  cases op with
  | div | mod => exact hdefined.2 h
  | shl | shr => exact h.elim (Int.not_lt.mpr hdefined.1) (Int.not_le.mpr hdefined.2)
  | _ => exact h

theorem ArithStep.Unguarded.result (h : s.Unguarded) : s.result = .error .undefined := by
  obtain ⟨op, left, right⟩ := s
  cases op with
  | div | mod => obtain ⟨rfl, rfl⟩ : left = -2 ^ 63 ∧ right = -1 := h; rfl
  | shl =>
    have hcount : right < 0 ∨ 64 ≤ right ∨ left < 0 := h.imp_right Or.inl
    exact if_pos hcount
  | shr => exact if_pos h
  | _ => exact h.elim

theorem ArithStep.zero_or_unguarded (h : ¬ s.Defined) :
    s.Unguarded ∨ ∃ message, s.result = .error (.failed message) := by
  obtain ⟨op, left, right⟩ := s
  cases op with
  | div | mod =>
    by_cases hzero : right = 0
    · exact .inr ⟨_, if_pos hzero⟩
    · exact .inl (Classical.byContradiction fun hmin => h ⟨hzero, hmin⟩)
  | shl | shr => exact .inl ((Decidable.not_and_iff_or_not.mp h).imp Int.not_le.mp Int.not_lt.mp)
  | _ => exact absurd trivial h

theorem not_guarded_of_mem (hs : s ∈ arithSteps getVar t) (hunguarded : s.Unguarded) :
    ¬ Guarded getVar t := by
  intro h
  rcases h s hs with hdefined | ⟨e, herror, hne⟩
  · exact hunguarded.not_defined hdefined
  · have heval := mem_arithSteps_error hs hunguarded.result
    rw [herror] at heval
    exact hne (Except.error.inj heval)

end Arksh
