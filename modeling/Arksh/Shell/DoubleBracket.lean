/-
  Subject: `[[ ... ]]`, `src/shell.c`: its primaries, and a descent over the words between the
           brackets that evaluates what it needs and skips the rest.

  The functions on patterns and regular expressions are parameters, as the file system is. What is
  recorded besides the shell and the message is which primaries are evaluated, in their order.
-/
import Arksh.Exec.Builtins
import Arksh.Shell.TestCommand

namespace Arksh

open CText Option Nat

/-! ## 1. Primaries -/

/-- `regmatch_t` -/
structure RegexMatch where
  start : Int
  stop : Int

inductive RegexResult where
  | found (matches_ : List RegexMatch)
  | noMatch
  | failed

/-- The functions of the C library that `[[` uses. -/
structure PatternHost extends TestHost where
  /-- `fnmatch(pattern, text, 0) == 0` -/
  fnmatch : Text → Text → Bool
  Regex : Type
  /-- `regcomp` with `REG_EXTENDED`, or the message of `regerror` -/
  regcomp : Text → Except Text Regex
  subexpressions : Regex → Nat
  /-- `regexec`, with room for so many matches -/
  regexec : Regex → Text → Nat → RegexResult

def bashRematch : Text := "BASH_REMATCH".toList

def clearBashRematch (sh : VarStore) : VarStore :=
  (arkshShellUnsetBinding (arkshShellSetVar sh bashRematch [] false).2 bashRematch).2

/-- The loop of `set_bash_rematch_capture` over the matches. -/
def collectCaptures (text : Text) : List RegexMatch → ArkshValue → Except Text ArkshValue
  | [], captures => .ok captures
  | m :: ms, captures =>
    if m.start < 0 ∨ m.stop < m.start then collectCaptures text ms captures
    else
      let length := (m.stop - m.start).toNat
      if length ≥ arkshMaxToken then .error "regex capture too long".toList
      else
        let capture := (text.drop m.start.toNat).take length
        match arkshValueListAppendValue captures (arkshValueSetString capture) with
        | none => .error "unable to store regex capture".toList
        | some captures => collectCaptures text ms captures

def setBashRematchCapture (sh : VarStore) (text : Text) (ms : List RegexMatch) :
    Option Text × VarStore :=
  match collectCaptures text ms arkshValueInit with
  | .error message => (some message, sh)
  | .ok captures =>
    let captures := if captures.kind = .empty then arkshValueSetString [] else captures
    let first := match captures.list with
      | item :: _ => copyString arkshMaxToken item.text
      | [] => []
    let set := arkshShellSetVar sh bashRematch first false
    if set.1 ≠ 0 then (some "unable to store BASH_REMATCH".toList, set.2)
    else
      let bound := arkshShellSetBinding set.2 bashRematch captures
      if bound.1 ≠ 0 then (some "unable to store BASH_REMATCH binding".toList, bound.2)
      else (none, bound.2)

structure PrimaryResult where
  status : Nat
  shell : VarStore
  err : Text

/-- The branch of `double_bracket_primary_eval` for `=~`. -/
def matchRegex (host : PatternHost) (text pattern : Text) (sh : VarStore) (err : Text) :
    PrimaryResult :=
  let sh := clearBashRematch sh
  match host.regcomp pattern with
  | .error message =>
    ⟨2, sh, copyString 256 ("[[: invalid regex: ".toList ++ copyString 128 message)⟩
  | .ok regex =>
    match host.regexec regex text (min (host.subexpressions regex + 1) 16) with
    | .found ms =>
      let set := setBashRematchCapture sh text ms
      match set.1 with
      | some message => ⟨2, set.2, message⟩
      | none => ⟨0, set.2, err⟩
    | .noMatch => ⟨1, clearBashRematch sh, err⟩
    | .failed => ⟨2, sh, "[[: regex evaluation failed".toList⟩

/-- The last branch, for what `test_primary` knows. No words come here that start with `!`. -/
def testClearing (host : PatternHost) (words : List Text) (sh : VarStore) (err : Text) :
    PrimaryResult :=
  let result := testOperands host.toTestHost words err
  ⟨result.1, clearBashRematch sh, result.2⟩

def doubleBracketPrimaryEval (host : PatternHost) (words : List Text) (sh : VarStore) (err : Text) :
    PrimaryResult :=
  match words with
  | [lhs, op, rhs] =>
    if op = "==".toList ∨ op = "=".toList then
      ⟨testStatus (host.fnmatch rhs lhs), clearBashRematch sh, err⟩
    else if op = "!=".toList then ⟨testStatus (!host.fnmatch rhs lhs), clearBashRematch sh, err⟩
    else if op = "=~".toList then matchRegex host lhs rhs sh err
    else testClearing host words sh err
  | _ => testClearing host words sh err

theorem testOperands_le_two (host : TestHost) (words : List Text) (err : Text) :
    (testOperands host words err).1 ≤ 2 := by
  have htruth : ∀ holds, testStatus holds ≤ 2 := fun holds =>
    (testStatus_le_one holds).trans (by decide)
  unfold testOperands
  split
  · exact le_refl 2
  · exact htruth _
  · exact (testUnary_le_one host _ _).trans (by decide)
  · unfold testBinary
    repeat' split
    all_goals first | exact htruth _ | exact le_refl 2 | exact le_succ 1
  · exact le_succ 1

theorem primaryEval_le_two (host : PatternHost) (words : List Text) (sh : VarStore) (err : Text) :
    (doubleBracketPrimaryEval host words sh err).status ≤ 2 := by
  have htruth : ∀ holds, testStatus holds ≤ 2 := fun holds =>
    (testStatus_le_one holds).trans (by decide)
  have htest : ∀ words, (testClearing host words sh err).status ≤ 2 := fun words =>
    testOperands_le_two host.toTestHost words err
  have hregex : ∀ text pattern, (matchRegex host text pattern sh err).status ≤ 2 := by
    intro text pattern
    unfold matchRegex
    dsimp only
    repeat' split
    all_goals first | exact le_refl 2 | exact zero_le 2 | exact le_succ 1
  unfold doubleBracketPrimaryEval
  split
  · split_ifs
    · exact htruth _
    · exact htruth _
    · exact hregex _ _
    · exact htest _
  · exact htest _

/-! ## 2. The parser -/

structure CondState where
  shell : VarStore
  err : Text
  evaluated : List (List Text)

structure CondResult where
  status : Nat
  args : List Text
  state : CondState

/-- What a function that skips returns: whether it fails, what is left, and the message. -/
structure SkipResult where
  failed : Bool
  args : List Text
  err : Text

def missingConditional : Text := "[[: missing conditional expression".toList

def missingParen : Text := "[[: missing closing )".toList

def condEnd : List Text := ["&&".toList, "||".toList, ")".toList]

/-- The words that the parser takes where a primary may start. -/
def condSpecial : List Text := "!".toList :: "(".toList :: condEnd

def wordDepth (depth : Nat) (word : Text) : Nat :=
  if word = "(".toList then depth + 1
  else if word = ")".toList ∧ depth > 0 then depth - 1
  else depth

/-- The loop of `double_bracket_skip_primary`. -/
def skipWords : Nat → List Text → List Text
  | _, [] => []
  | depth, word :: args =>
    if depth = 0 ∧ word ∈ condEnd then word :: args else skipWords (wordDepth depth word) args

/-- The loop of `double_bracket_eval_not` that collects a primary, and what is left. -/
def collectWords : Nat → List Text → List Text → List Text × List Text
  | _, prim, [] => (prim, [])
  | depth, prim, word :: args =>
    if prim.length < 16 ∧ ¬ (depth = 0 ∧ word ∈ condEnd) then
      collectWords (wordDepth depth word) (prim ++ [word]) args
    else (prim, word :: args)

mutual

/-- `double_bracket_skip_or` -/
def skipOr : Nat → List Text → Text → Option SkipResult
  | 0, _, _ => none
  | fuel + 1, args, err =>
    (skipAnd fuel args err).bind fun r => if r.failed then some r else skipOrLoop fuel r

def skipOrLoop : Nat → SkipResult → Option SkipResult
  | 0, _ => none
  | fuel + 1, r =>
    if r.args.head? = some "||".toList then
      (skipAnd fuel r.args.tail r.err).bind fun r => if r.failed then some r else skipOrLoop fuel r
    else some r

/-- `double_bracket_skip_and` -/
def skipAnd : Nat → List Text → Text → Option SkipResult
  | 0, _, _ => none
  | fuel + 1, args, err =>
    (skipPrimary fuel args err).bind fun r => if r.failed then some r else skipAndLoop fuel r

def skipAndLoop : Nat → SkipResult → Option SkipResult
  | 0, _ => none
  | fuel + 1, r =>
    if r.args.head? = some "&&".toList then
      (skipPrimary fuel r.args.tail r.err).bind fun r =>
        if r.failed then some r else skipAndLoop fuel r
    else some r

/-- `double_bracket_skip_primary` -/
def skipPrimary : Nat → List Text → Text → Option SkipResult
  | 0, _, _ => none
  | fuel + 1, args, err =>
    if args = [] then some ⟨true, [], missingConditional⟩
    else if args.head? = some "!".toList then skipPrimary fuel args.tail err
    else if args.head? = some "(".toList then
      (skipOr fuel args.tail err).map fun r =>
        if r.failed then r
        else if r.args.head? ≠ some ")".toList then { r with failed := true, err := missingParen }
        else { r with args := r.args.tail }
    else some ⟨false, skipWords 0 args, err⟩

end

def evaluatePrimary (host : PatternHost) (words : List Text) (st : CondState) : Nat × CondState :=
  let r := doubleBracketPrimaryEval host words st.shell st.err
  (r.status, ⟨r.shell, r.err, st.evaluated ++ [words]⟩)

/-- What is left of the words when an operand has been skipped, or an error. -/
def CondResult.skip (result : CondResult) (skipped : SkipResult) : CondResult :=
  let state := { result.state with err := skipped.err }
  ⟨if skipped.failed then 2 else result.status, skipped.args, state⟩

mutual

/-- `double_bracket_eval_or` -/
def evalOr (host : PatternHost) : Nat → List Text → CondState → Option CondResult
  | 0, _, _ => none
  | fuel + 1, args, st =>
    (evalAnd host fuel args st).bind fun r => if r.status = 2 then some r else evalOrLoop host fuel r

/-- The loop of `double_bracket_eval_or`, which does not look at the status of its operands. -/
def evalOrLoop (host : PatternHost) : Nat → CondResult → Option CondResult
  | 0, _ => none
  | fuel + 1, r =>
    if r.args.head? = some "||".toList then
      if r.status = 0 then
        (skipAnd fuel r.args.tail r.state.err).bind fun skipped =>
          if skipped.failed then some (r.skip skipped) else evalOrLoop host fuel (r.skip skipped)
      else (evalAnd host fuel r.args.tail r.state).bind fun r => evalOrLoop host fuel r
    else some r

/-- `double_bracket_eval_and` -/
def evalAnd (host : PatternHost) : Nat → List Text → CondState → Option CondResult
  | 0, _, _ => none
  | fuel + 1, args, st =>
    (evalNot host fuel args st).bind fun r => if r.status = 2 then some r else evalAndLoop host fuel r

/-- The loop of `double_bracket_eval_and`. -/
def evalAndLoop (host : PatternHost) : Nat → CondResult → Option CondResult
  | 0, _ => none
  | fuel + 1, r =>
    if r.args.head? = some "&&".toList then
      if r.status ≠ 0 then
        (skipPrimary fuel r.args.tail r.state.err).bind fun skipped =>
          if skipped.failed then some (r.skip skipped) else evalAndLoop host fuel (r.skip skipped)
      else (evalNot host fuel r.args.tail r.state).bind fun r => evalAndLoop host fuel r
    else some r

/-- `double_bracket_eval_not` -/
def evalNot (host : PatternHost) : Nat → List Text → CondState → Option CondResult
  | 0, _, _ => none
  | fuel + 1, args, st =>
    if args = [] then some ⟨2, [], { st with err := missingConditional }⟩
    else if args.head? = some "!".toList then
      (evalNot host fuel args.tail st).map fun r =>
        if r.status = 2 then r else { r with status := testStatus (r.status ≠ 0) }
    else if args.head? = some "(".toList then
      (evalOr host fuel args.tail st).map fun r =>
        if r.status = 2 then r
        else if r.args.head? ≠ some ")".toList then
          ⟨2, r.args, { r.state with err := missingParen }⟩
        else { r with args := r.args.tail }
    else
      let prim := collectWords 0 [] args
      if prim.1 = [] then some ⟨2, prim.2, { st with err := missingConditional }⟩
      else
        let result := evaluatePrimary host prim.1 st
        some ⟨result.1, prim.2, result.2⟩

end

/-! ## 3. The descent returns -/

/-- A function that skips returns, and leaves no more than so many words. -/
def SkipReturns (result : Option SkipResult) (n : Nat) : Prop :=
  ∃ r, result = some r ∧ r.args.length ≤ n

structure AllSkipReturns (fuel : Nat) : Prop where
  or_ : ∀ args err, 4 * args.length + 4 ≤ fuel → SkipReturns (skipOr fuel args err) args.length
  orLoop : ∀ r, 4 * r.args.length + 1 ≤ fuel → SkipReturns (skipOrLoop fuel r) r.args.length
  and_ : ∀ args err, 4 * args.length + 3 ≤ fuel → SkipReturns (skipAnd fuel args err) args.length
  andLoop : ∀ r, 4 * r.args.length + 1 ≤ fuel → SkipReturns (skipAndLoop fuel r) r.args.length
  primary : ∀ args err, 4 * args.length + 2 ≤ fuel →
    SkipReturns (skipPrimary fuel args err) args.length

/-- A function that evaluates returns, leaves at most so many words, and adds to a record of so many
    primaries. -/
def CondReturns (result : Option CondResult) (n k : Nat) : Prop :=
  ∃ r, result = some r ∧ r.args.length ≤ n ∧ k ≤ r.state.evaluated.length

structure AllCondReturns (host : PatternHost) (fuel : Nat) : Prop where
  or_ : ∀ args st, 4 * args.length + 4 ≤ fuel →
    CondReturns (evalOr host fuel args st) args.length st.evaluated.length
  orLoop : ∀ r, 4 * r.args.length + 1 ≤ fuel →
    CondReturns (evalOrLoop host fuel r) r.args.length r.state.evaluated.length
  and_ : ∀ args st, 4 * args.length + 3 ≤ fuel →
    CondReturns (evalAnd host fuel args st) args.length st.evaluated.length
  andLoop : ∀ r, 4 * r.args.length + 1 ≤ fuel →
    CondReturns (evalAndLoop host fuel r) r.args.length r.state.evaluated.length
  not_ : ∀ args st, 4 * args.length + 2 ≤ fuel →
    CondReturns (evalNot host fuel args st) args.length st.evaluated.length

variable {r : CondResult}

section Descent

variable {host : PatternHost} {fuel m n k : Nat} {next : CondResult → Option CondResult}

theorem skipWords_length (depth : Nat) (args : List Text) :
    (skipWords depth args).length ≤ args.length := by
  induction args generalizing depth with
  | nil => exact le_refl 0
  | cons word args ih =>
    rw [skipWords]
    split_ifs
    · exact le_refl _
    · exact (ih _).trans (le_succ _)

theorem collectWords_length (depth : Nat) (prim args : List Text) :
    (collectWords depth prim args).2.length ≤ args.length := by
  induction args generalizing depth prim with
  | nil => exact le_refl 0
  | cons word args ih =>
    rw [collectWords]
    split_ifs
    · exact (ih _ _).trans (le_succ _)
    · exact le_refl _

theorem length_of_head {args : List Text} {a : Text} (h : args.head? = some a) :
    args.length = args.tail.length + 1 := by
  obtain ⟨rest, rfl⟩ := List.head?_eq_some_iff.mp h
  rfl

theorem skipReturns_bind {operand : Option SkipResult} {next : SkipResult → Option SkipResult}
    (hoperand : SkipReturns operand m) (hmn : m ≤ n)
    (hnext : ∀ r : SkipResult, r.args.length ≤ m → SkipReturns (next r) r.args.length) :
    SkipReturns (operand.bind fun r => if r.failed then some r else next r) n := by
  obtain ⟨r, rfl, hr⟩ := hoperand
  rw [bind_some]
  by_cases hfailed : r.failed = true
  · exact ⟨r, if_pos hfailed, hr.trans hmn⟩
  · rw [if_neg hfailed]
    obtain ⟨r', hr', hlength⟩ := hnext r hr
    exact ⟨r', hr', by omega⟩

theorem AllSkipReturns.step (ih : AllSkipReturns fuel) : AllSkipReturns (fuel + 1) where
  or_ args err h := by
    exact skipReturns_bind (ih.and_ args err (by omega)) (le_refl _) fun r hr =>
      ih.orLoop r (by omega)
  orLoop r h := by
    rw [skipOrLoop]
    split_ifs with hhead
    · have hlength := length_of_head hhead
      exact skipReturns_bind (ih.and_ _ _ (by omega)) (by omega) fun r hr => ih.orLoop r (by omega)
    · exact ⟨r, rfl, le_refl _⟩
  and_ args err h := by
    exact skipReturns_bind (ih.primary args err (by omega)) (le_refl _) fun r hr =>
      ih.andLoop r (by omega)
  andLoop r h := by
    rw [skipAndLoop]
    split_ifs with hhead
    · have hlength := length_of_head hhead
      exact skipReturns_bind (ih.primary _ _ (by omega)) (by omega) fun r hr =>
        ih.andLoop r (by omega)
    · exact ⟨r, rfl, le_refl _⟩
  primary args err h := by
    rw [skipPrimary]
    split_ifs with hnil hnot hopen
    · exact ⟨_, rfl, zero_le _⟩
    · have hlength := length_of_head hnot
      obtain ⟨r, hr, hle⟩ := ih.primary args.tail err (by omega)
      exact ⟨r, hr, by omega⟩
    · have hlength := length_of_head hopen
      obtain ⟨r, hr, hle⟩ := ih.or_ args.tail err (by omega)
      have htail : r.args.tail.length ≤ r.args.length := by simp
      have hrest : r.args.length ≤ args.length := by omega
      rw [hr, map_some]
      refine ⟨_, rfl, ?_⟩
      split_ifs
      · exact hrest
      · exact hrest
      · exact htail.trans hrest
    · exact ⟨_, rfl, skipWords_length 0 args⟩

theorem skipReturns (fuel : Nat) : AllSkipReturns fuel := by
  induction fuel with
  | zero => exact ⟨by omega, by omega, by omega, by omega, by omega⟩
  | succ fuel ih => exact ih.step

theorem condReturns_bind {operand : Option CondResult} (hoperand : CondReturns operand m k)
    (hmn : m ≤ n) (hnext : ∀ r : CondResult, r.args.length ≤ m →
      CondReturns (next r) r.args.length r.state.evaluated.length) :
    CondReturns (operand.bind next) n k := by
  obtain ⟨r, rfl, hr, hk⟩ := hoperand
  obtain ⟨r', hr', hlength, hk'⟩ := hnext r hr
  exact ⟨r', hr', by omega, hk.trans hk'⟩

theorem condReturns_first (hnext : CondReturns (next r) r.args.length r.state.evaluated.length) :
    CondReturns (if r.status = 2 then some r else next r) r.args.length r.state.evaluated.length := by
  split_ifs
  · exact ⟨r, rfl, le_refl _, le_refl _⟩
  · exact hnext

theorem condReturns_skip {skipped : Option SkipResult} (hskipped : SkipReturns skipped m)
    (hmn : m ≤ n) (hnext : ∀ r' : CondResult, r'.args.length ≤ m →
      CondReturns (next r') r'.args.length r'.state.evaluated.length) :
    CondReturns (skipped.bind fun s => if s.failed then some (r.skip s) else next (r.skip s)) n
      r.state.evaluated.length := by
  obtain ⟨s, rfl, hs⟩ := hskipped
  rw [bind_some]
  by_cases hfailed : s.failed = true
  · exact ⟨r.skip s, if_pos hfailed, hs.trans hmn, le_refl _⟩
  · rw [if_neg hfailed]
    obtain ⟨r', hr', hlength, hk⟩ := hnext (r.skip s) hs
    exact ⟨r', hr', hlength.trans (hs.trans hmn), hk⟩

theorem AllCondReturns.not_step (ih : AllCondReturns host fuel) (args : List Text) (st : CondState)
    (h : 4 * args.length + 2 ≤ fuel + 1) :
    CondReturns (evalNot host (fuel + 1) args st) args.length st.evaluated.length := by
  rw [evalNot]
  split_ifs with hnil hnot hopen
  · exact ⟨_, rfl, zero_le _, le_refl _⟩
  · have hlength := length_of_head hnot
    obtain ⟨r, hr, hle, hk⟩ := ih.not_ args.tail st (by omega)
    have hrest : r.args.length ≤ args.length := by omega
    rw [hr, map_some]
    refine ⟨_, rfl, ?_, ?_⟩
    · split_ifs <;> exact hrest
    · split_ifs <;> exact hk
  · have hlength := length_of_head hopen
    obtain ⟨r, hr, hle, hk⟩ := ih.or_ args.tail st (by omega)
    have htail : r.args.tail.length ≤ r.args.length := by simp
    have hrest : r.args.length ≤ args.length := by omega
    rw [hr, map_some]
    refine ⟨_, rfl, ?_, ?_⟩
    · split_ifs
      · exact hrest
      · exact hrest
      · exact htail.trans hrest
    · split_ifs <;> exact hk
  · have hlength := collectWords_length 0 [] args
    dsimp only
    split_ifs
    · exact ⟨_, rfl, hlength, le_refl _⟩
    · exact ⟨_, rfl, hlength, by simp [evaluatePrimary]⟩

theorem AllCondReturns.step (ih : AllCondReturns host fuel) : AllCondReturns host (fuel + 1) where
  or_ args st h := by
    exact condReturns_bind (ih.and_ args st (by omega)) (le_refl _) fun r hr =>
      condReturns_first (ih.orLoop r (by omega))
  orLoop r h := by
    rw [evalOrLoop]
    split_ifs with hhead hstatus
    · have hlength := length_of_head hhead
      exact condReturns_skip ((skipReturns fuel).and_ _ _ (by omega)) (by omega) fun r' hr' =>
        ih.orLoop r' (by omega)
    · have hlength := length_of_head hhead
      exact condReturns_bind (ih.and_ _ _ (by omega)) (by omega) fun r' hr' =>
        ih.orLoop r' (by omega)
    · exact ⟨r, rfl, le_refl _, le_refl _⟩
  and_ args st h := by
    exact condReturns_bind (ih.not_ args st (by omega)) (le_refl _) fun r hr =>
      condReturns_first (ih.andLoop r (by omega))
  andLoop r h := by
    rw [evalAndLoop]
    split_ifs with hhead hstatus
    · have hlength := length_of_head hhead
      exact condReturns_skip ((skipReturns fuel).primary _ _ (by omega)) (by omega) fun r' hr' =>
        ih.andLoop r' (by omega)
    · have hlength := length_of_head hhead
      exact condReturns_bind (ih.not_ _ _ (by omega)) (by omega) fun r' hr' =>
        ih.andLoop r' (by omega)
    · exact ⟨r, rfl, le_refl _, le_refl _⟩
  not_ args st h := ih.not_step args st h

/-- **The functions that evaluate return**, and the record only grows. -/
theorem condReturns (host : PatternHost) (fuel : Nat) : AllCondReturns host fuel := by
  induction fuel with
  | zero => exact ⟨by omega, by omega, by omega, by omega, by omega⟩
  | succ fuel ih => exact ih.step

end Descent

/-! ## 4. The command -/

/-- What the command returns and writes, and what it leaves. -/
structure CondOutcome where
  status : Nat
  out : Text
  shell : VarStore
  evaluated : List (List Text)

def CondResult.finish (r : CondResult) : CondOutcome :=
  match r.args with
  | [] => ⟨r.status, r.state.err, r.state.shell, r.state.evaluated⟩
  | word :: _ =>
    if r.status = 2 then ⟨2, r.state.err, r.state.shell, r.state.evaluated⟩
    else
      ⟨2, copyString 256 ("[[: unexpected token: ".toList ++ word), r.state.shell, r.state.evaluated⟩

def commandDoubleLbracket (host : PatternHost) (args : List Text) (sh : VarStore) :
    Option CondOutcome :=
  if args.getLast? ≠ some "]]".toList then some ⟨2, "[[: missing closing ]]".toList, sh, []⟩
  else if args.dropLast = [] then some ⟨1, [], sh, []⟩
  else
    (evalOr host (4 * args.dropLast.length + 4) args.dropLast ⟨sh, [], []⟩).map CondResult.finish

theorem CondResult.finish_state (r : CondResult) :
    r.finish.shell = r.state.shell ∧ r.finish.evaluated = r.state.evaluated := by
  unfold finish
  split
  · exact ⟨rfl, rfl⟩
  · split_ifs <;> exact ⟨rfl, rfl⟩

theorem CondResult.finish_error (h : r.status = 2) : r.finish.status = 2 := by
  unfold finish
  split
  · exact h
  · rw [if_pos h]

end Arksh
