/-
  Subject: `test` and `[`, `src/shell.c`: a descent over the argument vector.

  The parser knows nothing of the number of arguments. It takes `!` and `(` wherever an operand may
  start, and `-a`, `-o` and `)` end the operands that it collects for a primary, even where they are
  operands.
-/
import Arksh.Shell.TestPrimary

namespace Arksh

open CText List Option Nat

/-! ## 1. The parser -/

/-- What a function of the parser returns, leaves of the arguments, and leaves in `err`. -/
structure TestResult where
  status : Nat
  args : List Text
  err : Text
  deriving DecidableEq

def missingExpression : Text := "test: missing expression".toList

def missingClosing : Text := "test: missing closing )".toList

/-- The operators at which the look-ahead of `test_eval_not` stops; `==` is not among them. -/
def lookAheadOperators : List Text :=
  [ "-eq".toList, "-ne".toList, "-lt".toList, "-le".toList, "-gt".toList, "-ge".toList,
    "=".toList, "!=".toList, "<".toList, ">".toList, "-nt".toList, "-ot".toList, "-ef".toList ]

def primaryEnd : List Text := ["-a".toList, "-o".toList, ")".toList]

/-- The loop of `test_eval_not` that collects a primary, and what is left. -/
def collectPrimary : List Text → List Text → List Text × List Text
  | prim, [] => (prim, [])
  | prim, arg :: args =>
    if arg ∉ primaryEnd ∧ prim.length < 15 then
      if prim.length = 1 ∧ (arg :: args).length ≥ 3 ∧ args.headD [] ∈ lookAheadOperators then
        (prim ++ (arg :: args).take 3, (arg :: args).drop 3)
      else collectPrimary (prim ++ [arg]) args
    else (prim, arg :: args)

/-- `test_primary`, but for its branch for `!`. -/
def testOperands (host : TestHost) (args : List Text) (err : Text) : Nat × Text :=
  match args with
  | [] => (2, missingExpression)
  | [arg] => (testStatus (arg ≠ []), err)
  | [op, arg] => (testUnary host op arg, err)
  | [lhs, op, rhs] => testBinary host lhs op rhs err
  | _ => (1, err)

mutual

def testEvalOr (host : TestHost) : Nat → List Text → Text → Option TestResult
  | 0, _, _ => none
  | fuel + 1, args, err =>
    (testEvalAnd host fuel args err).bind fun result =>
      if result.status > 1 then some result else testOrLoop host fuel result

def testOrLoop (host : TestHost) : Nat → TestResult → Option TestResult
  | 0, _ => none
  | fuel + 1, result =>
    if result.args.head? = some "-o".toList then
      (testEvalAnd host fuel result.args.tail result.err).bind fun right =>
        if right.status > 1 then some right
        else testOrLoop host fuel
          { right with status := testStatus (result.status = 0 || right.status = 0) }
    else some result

def testEvalAnd (host : TestHost) : Nat → List Text → Text → Option TestResult
  | 0, _, _ => none
  | fuel + 1, args, err =>
    (testEvalNot host fuel args err).bind fun result =>
      if result.status > 1 then some result else testAndLoop host fuel result

def testAndLoop (host : TestHost) : Nat → TestResult → Option TestResult
  | 0, _ => none
  | fuel + 1, result =>
    if result.args.head? = some "-a".toList then
      (testEvalNot host fuel result.args.tail result.err).bind fun right =>
        if right.status > 1 then some right
        else testAndLoop host fuel
          { right with status := testStatus (result.status = 0 && right.status = 0) }
    else some result

def testEvalNot (host : TestHost) : Nat → List Text → Text → Option TestResult
  | 0, _, _ => none
  | fuel + 1, args, err =>
    if args.head? = some "!".toList then
      (testEvalNot host fuel args.tail err).map fun val =>
        if val.status > 1 then val else { val with status := testStatus (val.status ≠ 0) }
    else if args.head? = some "(".toList then
      (testEvalOr host fuel args.tail err).map fun grouped =>
        if grouped.status > 1 then grouped
        else if grouped.args.head? ≠ some ")".toList then
          { grouped with status := 2, err := missingClosing }
        else { grouped with args := grouped.args.tail }
    else
      let prim := collectPrimary [] args
      if prim.1 = [] then some ⟨2, prim.2, missingExpression⟩
      else
        (testPrimary host fuel prim.1 err).map fun primary => ⟨primary.1, prim.2, primary.2⟩

def testPrimary (host : TestHost) : Nat → List Text → Text → Option (Nat × Text)
  | 0, _, _ => none
  | fuel + 1, args, err =>
    if args.length ≥ 2 ∧ args.head? = some "!".toList then
      (testEvalOr host fuel args.tail err).map fun rest => (testStatus (rest.status ≠ 0), rest.err)
    else some (testOperands host args err)

end

def commandTest (host : TestHost) (args : List Text) : Option (Nat × Text) :=
  if args = [] then some (1, [])
  else
    (testEvalOr host (4 * args.length + 4) args []).map fun result =>
      if result.status ≤ 1 ∧ result.args ≠ [] then
        (2, if result.err = [] then "test: too many arguments".toList else result.err)
      else (result.status, result.err)

def commandLbracket (host : TestHost) (args : List Text) : Option (Nat × Text) :=
  if args.getLast? ≠ some "]".toList then some (2, "[: missing closing ]".toList)
  else commandTest host args.dropLast

/-! ## 2. The descent returns -/

theorem collectPrimary_append (prim args : List Text) :
    (collectPrimary prim args).1 ++ (collectPrimary prim args).2 = prim ++ args := by
  induction args generalizing prim with
  | nil => rfl
  | cons arg args ih =>
    rw [collectPrimary]
    split_ifs
    · rw [append_assoc, take_append_drop]
    · rw [ih, append_assoc]; rfl
    · rfl

theorem collectPrimary_length (args : List Text) :
    (collectPrimary [] args).1.length + (collectPrimary [] args).2.length = args.length := by
  rw [← length_append, collectPrimary_append, nil_append]

theorem head_ne {a b : Text} (h : a ≠ b) (args : List Text) : (a :: args).head? ≠ some b :=
  fun heq => h (Option.some.inj heq)

/-- A function of the parser returns, and leaves no more than so many arguments. -/
def Returns (result : Option TestResult) (n : Nat) : Prop :=
  ∃ r, result = some r ∧ r.args.length ≤ n

/-- With so much fuel, by how many arguments there are, every function of the parser returns. -/
structure EvalReturns (host : TestHost) (fuel : Nat) : Prop where
  or_ : ∀ args err, 4 * args.length + 4 ≤ fuel → Returns (testEvalOr host fuel args err) args.length
  orLoop : ∀ result, 4 * result.args.length + 1 ≤ fuel →
    Returns (testOrLoop host fuel result) result.args.length
  and_ : ∀ args err, 4 * args.length + 3 ≤ fuel →
    Returns (testEvalAnd host fuel args err) args.length
  andLoop : ∀ result, 4 * result.args.length + 1 ≤ fuel →
    Returns (testAndLoop host fuel result) result.args.length
  not_ : ∀ args err, 4 * args.length + 2 ≤ fuel →
    Returns (testEvalNot host fuel args err) args.length
  primary : ∀ args err, 4 * args.length + 1 ≤ fuel →
    (testPrimary host fuel args err).isSome = true

section Descent

variable {host : TestHost} {fuel : Nat}

theorem returns_bind {operand : Option TestResult} {next : TestResult → Option TestResult} {m n : Nat}
    (hoperand : Returns operand m) (hmn : m ≤ n)
    (hnext : ∀ r : TestResult, r.args.length ≤ m → Returns (next r) r.args.length) :
    Returns (operand.bind fun r => if r.status > 1 then some r else next r) n := by
  obtain ⟨r, rfl, hr⟩ := hoperand
  rw [bind_some]
  by_cases hstatus : r.status > 1
  · exact ⟨r, if_pos hstatus, hr.trans hmn⟩
  · rw [if_neg hstatus]
    obtain ⟨r', hr', hlength⟩ := hnext r hr
    exact ⟨r', hr', by omega⟩

theorem EvalReturns.step (ih : EvalReturns host fuel) : EvalReturns host (fuel + 1) where
  or_ args err h := by
    exact returns_bind (ih.and_ args err (by omega)) (le_refl _) fun r hr =>
      ih.orLoop r (by omega)
  orLoop result h := by
    rw [testOrLoop]
    split_ifs with hhead
    · obtain ⟨rest, hargs⟩ : ∃ rest, result.args = "-o".toList :: rest := by
        rw [head?_eq_some_iff] at hhead
        exact hhead
      rw [hargs, length_cons] at h ⊢
      exact returns_bind (ih.and_ _ _ (by rw [tail_cons]; omega))
        (by rw [tail_cons]; omega) fun r hr =>
          ih.orLoop { r with status := _ } (by rw [tail_cons] at hr; dsimp only; omega)
    · exact ⟨result, rfl, le_refl _⟩
  and_ args err h := by
    exact returns_bind (ih.not_ args err (by omega)) (le_refl _) fun r hr =>
      ih.andLoop r (by omega)
  andLoop result h := by
    rw [testAndLoop]
    split_ifs with hhead
    · obtain ⟨rest, hargs⟩ : ∃ rest, result.args = "-a".toList :: rest := by
        rw [head?_eq_some_iff] at hhead
        exact hhead
      rw [hargs, length_cons] at h ⊢
      exact returns_bind (ih.not_ _ _ (by rw [tail_cons]; omega))
        (by rw [tail_cons]; omega) fun r hr =>
          ih.andLoop { r with status := _ } (by rw [tail_cons] at hr; dsimp only; omega)
    · exact ⟨result, rfl, le_refl _⟩
  not_ args err h := by
    rw [testEvalNot]
    split_ifs with hnot hparen
    · obtain ⟨rest, rfl⟩ := head?_eq_some_iff.mp hnot
      rw [length_cons] at h ⊢
      obtain ⟨r, hr, hlength⟩ := ih.not_ rest err (by omega)
      rw [tail_cons, hr, map_some]
      refine ⟨_, rfl, ?_⟩
      split_ifs <;> exact hlength.trans (le_succ _)
    · obtain ⟨rest, rfl⟩ := head?_eq_some_iff.mp hparen
      rw [length_cons] at h ⊢
      obtain ⟨r, hr, hlength⟩ := ih.or_ rest err (by omega)
      rw [tail_cons, hr, map_some]
      refine ⟨_, rfl, ?_⟩
      split_ifs
      · exact hlength.trans (le_succ _)
      · exact hlength.trans (le_succ _)
      · exact (by simp : r.args.tail.length ≤ r.args.length).trans (hlength.trans (le_succ _))
    · have hlength := collectPrimary_length args
      by_cases hprim : (collectPrimary [] args).1 = []
      · rw [if_pos hprim]; exact ⟨_, rfl, by dsimp only; omega⟩
      · obtain ⟨primary, hprimary⟩ := isSome_iff_exists.mp
          (ih.primary (collectPrimary [] args).1 err (by omega))
        rw [if_neg hprim, hprimary, map_some]
        exact ⟨_, rfl, by dsimp only; omega⟩
  primary args err h := by
    rw [testPrimary]
    split_ifs with hnot
    · have hpos := hnot.1
      obtain ⟨r, hr, -⟩ := ih.or_ args.tail err (by rw [length_tail]; omega)
      rw [hr]
      rfl
    · rfl

theorem evalReturns (host : TestHost) (fuel : Nat) : EvalReturns host fuel := by
  induction fuel with
  | zero => exact ⟨by omega, by omega, by omega, by omega, by omega, by omega⟩
  | succ fuel ih => exact ih.step

theorem commandTest_isSome (host : TestHost) (args : List Text) :
    (commandTest host args).isSome = true := by
  unfold commandTest
  split_ifs
  · rfl
  · obtain ⟨r, hr, -⟩ := (evalReturns host _).or_ args [] (le_refl _)
    rw [hr]
    rfl

end Descent

/-! ## 3. Evaluation -/

/-- The words that the parser takes where an operand may start. -/
def specialWords : List Text := "!".toList :: "(".toList :: primaryEnd

def negate (status : Nat) : Nat := if status > 1 then status else testStatus (status ≠ 0)

def Evaluates (host : TestHost) (args : List Text) (status : Nat) (rest : List Text) : Prop :=
  ∀ fuel err, 4 * args.length + 2 ≤ fuel →
    ∃ err', testEvalNot host fuel args err = some ⟨status, rest, err'⟩

def EvaluatesAll (host : TestHost) (args : List Text) (status : Nat) (rest : List Text) : Prop :=
  ∀ fuel err, 4 * args.length + 4 ≤ fuel →
    ∃ err', testEvalOr host fuel args err = some ⟨status, rest, err'⟩

section Evaluation

variable {host : TestHost} {args rest : List Text} {status : Nat} {a : Text}

theorem primaryEnd_subset (h : a ∈ primaryEnd) : a ≠ "!".toList ∧ a ≠ "(".toList := by
  constructor <;> rintro rfl <;> revert h <;> decide

theorem Evaluates.missing (h : ∀ a ∈ args.head?, a ∈ primaryEnd) : Evaluates host args 2 args := by
  intro fuel err hfuel
  rcases fuel with _ | fuel
  · omega
  refine ⟨missingExpression, ?_⟩
  cases args with
  | nil => rfl
  | cons a args =>
    have ha : a ∈ primaryEnd := h a rfl
    have hcollect : collectPrimary [] (a :: args) = ([], a :: args) := by
      rw [collectPrimary, if_neg fun h => h.1 ha]
    rw [testEvalNot, head?_cons, if_neg fun h => (primaryEnd_subset ha).1 (Option.some.inj h),
      if_neg fun h => (primaryEnd_subset ha).2 (Option.some.inj h), hcollect]
    rfl

theorem Evaluates.not_ (h : Evaluates host args status rest) :
    Evaluates host ("!".toList :: args) (negate status) rest := by
  intro fuel err hfuel
  rcases fuel with _ | fuel
  · omega
  obtain ⟨err', heval⟩ := h fuel err (by rw [length_cons] at hfuel; omega)
  refine ⟨err', ?_⟩
  rw [testEvalNot, head?_cons, if_pos rfl, tail_cons, heval, map_some, negate]
  split_ifs <;> rfl

/-- With up to three arguments there is no look-ahead: the operands end with the first word that
    ends them. -/
theorem collectPrimary_eq (prim args : List Text) (h : prim.length + args.length ≤ 3) :
    collectPrimary prim args =
      (prim ++ args.takeWhile (· ∉ primaryEnd), args.dropWhile (· ∉ primaryEnd)) := by
  induction args generalizing prim with
  | nil => simp [collectPrimary]
  | cons arg args ih =>
    rw [length_cons] at h
    by_cases harg : arg ∈ primaryEnd
    · rw [collectPrimary, if_neg fun h => h.1 harg, takeWhile_cons_of_neg (by simpa using harg),
        dropWhile_cons_of_neg (by simpa using harg), append_nil]
    · have hahead : ¬ (prim.length = 1 ∧ (arg :: args).length ≥ 3 ∧
          args.headD [] ∈ lookAheadOperators) := by
        rintro ⟨hprim, hargs, -⟩
        rw [length_cons] at hargs
        omega
      rw [collectPrimary, if_pos ⟨harg, by omega⟩, if_neg hahead,
        ih (prim ++ [arg]) (by rw [length_append, length_singleton]; omega),
        takeWhile_cons_of_pos (by simpa using harg),
        dropWhile_cons_of_pos (by simpa using harg), append_assoc]
      rfl

theorem testOperands_status (host : TestHost) (args : List Text) (err err' : Text) :
    (testOperands host args err).1 = (testOperands host args err').1 := by
  unfold testOperands
  split
  · rfl
  · rfl
  · rfl
  · unfold testBinary
    repeat' split
    all_goals rfl
  · rfl

theorem Evaluates.operands (hlength : (a :: args).length ≤ 3) (ha : a ∉ specialWords) :
    Evaluates host (a :: args) (testOperands host (a :: args.takeWhile (· ∉ primaryEnd)) []).1
      (args.dropWhile (· ∉ primaryEnd)) := by
  intro fuel err hfuel
  obtain ⟨fuel, rfl⟩ : ∃ n, fuel = n + 2 := ⟨fuel - 2, by omega⟩
  have hnot : a ≠ "!".toList := fun h => ha (by rw [h]; decide)
  have hparen : a ≠ "(".toList := fun h => ha (by rw [h]; decide)
  have hend : a ∉ primaryEnd := fun h => ha (mem_cons_of_mem _ (mem_cons_of_mem _ h))
  have hcollect := collectPrimary_eq [] (a :: args) (by simpa using hlength)
  rw [nil_append, takeWhile_cons_of_pos (by simpa using hend),
    dropWhile_cons_of_pos (by simpa using hend)] at hcollect
  refine ⟨(testOperands host (a :: args.takeWhile (· ∉ primaryEnd)) err).2, ?_⟩
  rw [testEvalNot, head?_cons, if_neg fun h => hnot (Option.some.inj h),
    if_neg fun h => hparen (Option.some.inj h), hcollect]
  rw [if_neg (cons_ne_nil _ _), testPrimary,
    if_neg fun h => hnot (Option.some.inj (by simpa using h.2)), map_some,
    testOperands_status host _ err []]

/-! ### Operators -/

theorem Evaluates.all (h : Evaluates host args status rest)
    (hrest : status > 1 ∨ rest.head? ≠ some "-a".toList ∧ rest.head? ≠ some "-o".toList) :
    EvaluatesAll host args status rest := by
  intro fuel err hfuel
  obtain ⟨fuel, rfl⟩ : ∃ n, fuel = n + 3 := ⟨fuel - 3, by omega⟩
  obtain ⟨err', heval⟩ := h (fuel + 1) err (by omega)
  refine ⟨err', ?_⟩
  rw [testEvalOr, testEvalAnd, heval, bind_some]
  by_cases hstatus : status > 1
  · rw [if_pos hstatus, bind_some, if_pos hstatus]
  · have hhead := hrest.resolve_left hstatus
    rw [if_neg hstatus, testAndLoop, if_neg hhead.1, bind_some, if_neg hstatus, testOrLoop,
      if_neg hhead.2]

theorem Evaluates.operator (h : Evaluates host args status [a]) (hstatus : ¬ status > 1)
    (ha : a = "-a".toList ∨ a = "-o".toList) : EvaluatesAll host args 2 [] := by
  intro fuel err hfuel
  obtain ⟨fuel, rfl⟩ : ∃ n, fuel = n + 4 := ⟨fuel - 4, by omega⟩
  obtain ⟨err', heval⟩ := h (fuel + 2) err (by omega)
  have hmissing : ∀ n err, testEvalNot host (n + 1) [] err = some ⟨2, [], missingExpression⟩ :=
    fun n err => rfl
  refine ⟨missingExpression, ?_⟩
  rw [testEvalOr, testEvalAnd, heval, bind_some, if_neg hstatus, testAndLoop]
  rcases ha with rfl | rfl
  · rw [head?_cons, if_pos rfl, tail_cons, hmissing, bind_some]; rfl
  · rw [head?_cons, if_neg (by decide), bind_some, if_neg hstatus, testOrLoop,
      head?_cons, if_pos rfl, tail_cons, testEvalAnd, hmissing, bind_some]
    rfl

theorem EvaluatesAll.paren (h : EvaluatesAll host args status rest) :
    Evaluates host ("(".toList :: args)
      (if status > 1 ∨ rest.head? = some ")".toList then status else 2)
      (if status ≤ 1 ∧ rest.head? = some ")".toList then rest.tail else rest) := by
  intro fuel err hfuel
  rcases fuel with _ | fuel
  · omega
  obtain ⟨err', heval⟩ := h fuel err (by rw [length_cons] at hfuel; omega)
  rw [testEvalNot, head?_cons, if_neg (by decide), if_pos rfl, tail_cons, heval, map_some]
  by_cases hstatus : status > 1
  · rw [if_pos hstatus, if_pos (.inl hstatus), if_neg fun h => by omega]; exact ⟨err', rfl⟩
  · rw [if_neg hstatus]
    by_cases hclosed : rest.head? = some ")".toList
    · rw [if_neg (not_not_intro hclosed), if_pos (.inr hclosed), if_pos ⟨by omega, hclosed⟩]
      exact ⟨err', rfl⟩
    · rw [if_pos hclosed, if_neg (not_or.mpr ⟨hstatus, hclosed⟩), if_neg fun h => hclosed h.2]
      exact ⟨missingClosing, rfl⟩

/-! ### The command -/

def outcome (status : Nat) (rest : List Text) : Nat :=
  if status ≤ 1 ∧ rest ≠ [] then 2 else status

theorem outcome_negate (status : Nat) (rest : List Text) :
    outcome (negate status) rest = negate (outcome status rest) := by
  have htruth := testStatus_le_one (status ≠ 0)
  by_cases herror : status > 1
  · have hstop : ¬ (status ≤ 1 ∧ rest ≠ []) := fun h => by omega
    have hnegate : negate status = status := if_pos herror
    rw [hnegate, outcome, if_neg hstop, hnegate]
  · have hnegate : negate status = testStatus (status ≠ 0) := if_neg herror
    by_cases hrest : rest = []
    · have hstop : ∀ s, ¬ (s ≤ 1 ∧ rest ≠ []) := fun s h => h.2 hrest
      rw [outcome, if_neg (hstop _), outcome, if_neg (hstop _)]
    · rw [hnegate, outcome, if_pos ⟨htruth, hrest⟩, outcome, if_pos ⟨by omega, hrest⟩]; rfl

theorem EvaluatesAll.exit_status (h : EvaluatesAll host args status rest) (hne : args ≠ []) :
    (commandTest host args).map Prod.fst = some (outcome status rest) := by
  obtain ⟨err', heval⟩ := h (4 * args.length + 4) [] (le_refl _)
  rw [commandTest, if_neg hne, heval, map_some, map_some, outcome]
  split_ifs <;> rfl

/-- **The exit status**, where the parser stops at the end or in front of one last word. -/
theorem Evaluates.exit_status (h : Evaluates host args status rest) (hne : args ≠ [])
    (hrest : status > 1 ∨ rest = [] ∨ ∃ b ∈ primaryEnd, rest = [b]) :
    (commandTest host args).map Prod.fst = some (outcome status rest) := by
  rcases hrest with hstatus | rfl | ⟨b, hb, rfl⟩
  · exact (h.all (.inl hstatus)).exit_status hne
  · exact (h.all (.inr ⟨by simp, by simp⟩)).exit_status hne
  · by_cases hstatus : status > 1
    · exact (h.all (.inl hstatus)).exit_status hne
    · by_cases hoperator : b = "-a".toList ∨ b = "-o".toList
      · rw [(h.operator hstatus hoperator).exit_status hne, outcome, outcome, if_neg (by omega),
          if_pos ⟨by omega, cons_ne_nil _ _⟩]
      · rw [not_or] at hoperator
        refine (h.all (.inr ⟨?_, ?_⟩)).exit_status hne
        · exact fun heq => hoperator.1 (Option.some.inj heq)
        · exact fun heq => hoperator.2 (Option.some.inj heq)

end Evaluation

/-! ## 4. The prescribed forms -/

inductive TestForm where
  | one (a : Text)
  | negated (a : Text)
  | unary (u : UnaryPrimary) (a : Text)
  | binary (a : Text) (op : BinaryPrimary) (b : Text)
  | negatedBinary (a : Text) (op : BinaryPrimary) (b : Text)

namespace TestForm

def args : TestForm → List Text
  | one a => [a]
  | negated a => ["!".toList, a]
  | unary u a => [u.text, a]
  | binary a op b => [a, op.text, b]
  | negatedBinary a op b => ["!".toList, a, op.text, b]

/-- What POSIX prescribes. -/
def status (host : TestHost) : TestForm → Nat
  | one a => testStatus (a ≠ [])
  | negated a => testStatus (a = [])
  | unary u a => testStatus (u.holds host a)
  | binary a op b => op.status host a b
  | negatedBinary a op b => negate (op.status host a b)

end TestForm

def comparisonStatus (host : TestHost) (a : Text) (op : BinaryPrimary) (b : Text) : Nat :=
  if a ∈ primaryEnd then 2
  else if a = "!".toList then (if b ∈ primaryEnd then 2 else 0)
  else if a = "(".toList then (if b = ")".toList then 0 else 2)
  else if b ∈ primaryEnd then 2
  else op.status host a b

section Forms

variable (host : TestHost)

theorem UnaryPrimary.text_notMem (u : UnaryPrimary) : u.text ∉ specialWords := by
  cases u <;> decide

theorem BinaryPrimary.text_notMem (op : BinaryPrimary) : op.text ∉ specialWords := by
  cases op with
  | numeric relation => cases relation <;> decide
  | _ => decide

theorem UnaryPrimary.text_ne_nil (u : UnaryPrimary) : u.text ≠ [] := by
  cases u <;> decide

theorem BinaryPrimary.text_ne_nil (op : BinaryPrimary) : op.text ≠ [] := by
  cases op with
  | numeric relation => cases relation <;> decide
  | _ => decide

theorem mem_specialWords {a : Text} :
    a ∈ specialWords ↔ a = "!".toList ∨ a = "(".toList ∨ a ∈ primaryEnd := by
  rw [specialWords, mem_cons, mem_cons]

theorem evaluates_one (a : Text) :
    ∃ rest, Evaluates host [a] (if a ∈ specialWords then 2 else testStatus (a ≠ [])) rest ∧
      (a ∉ specialWords → rest = []) := by
  by_cases ha : a ∈ specialWords
  · rw [if_pos ha]
    rcases mem_specialWords.mp ha with rfl | rfl | hend
    · have hmissing : Evaluates host [] 2 [] := Evaluates.missing (by simp)
      exact ⟨[], hmissing.not_, fun _ => rfl⟩
    · have hmissing : Evaluates host [] 2 [] := Evaluates.missing (by simp)
      exact ⟨[], (hmissing.all (.inl (by decide))).paren, fun _ => rfl⟩
    · exact ⟨[a], Evaluates.missing (by simpa using hend), fun h => absurd ha h⟩
  · rw [if_neg ha]; exact ⟨[], Evaluates.operands (by simp) ha, fun _ => rfl⟩

theorem evaluates_two {op : Text} (hop : op ∉ specialWords) (hne : op ≠ []) (b : Text) :
    Evaluates host [op, b] (if b ∈ primaryEnd then 0 else testUnary host op b)
      (if b ∈ primaryEnd then [b] else []) := by
  have heval : Evaluates host [op, b] _ _ := Evaluates.operands (by simp) hop
  by_cases hb : b ∈ primaryEnd
  · rw [takeWhile_cons_of_neg (by simpa using hb), dropWhile_cons_of_neg (by simpa using hb)] at heval
    rw [if_pos hb, if_pos hb]
    have hstatus : (testOperands host [op] []).1 = 0 := by simp [testOperands, testStatus, hne]
    rw [hstatus] at heval
    exact heval
  · rw [takeWhile_cons_of_pos (by simpa using hb), dropWhile_cons_of_pos (by simpa using hb)] at heval
    rw [if_neg hb, if_neg hb]
    exact heval

theorem evaluates_three {a : Text} (ha : a ∉ specialWords) (op : BinaryPrimary) (b : Text) :
    ∃ status rest, Evaluates host [a, op.text, b] status rest ∧
      (status > 1 ∨ rest = [] ∨ ∃ b ∈ primaryEnd, rest = [b]) ∧
      outcome status rest = if b ∈ primaryEnd then 2 else op.status host a b := by
  have heval : Evaluates host [a, op.text, b] _ _ := Evaluates.operands (by simp) ha
  have hop : op.text ∉ primaryEnd := fun h => op.text_notMem (by
    rw [mem_specialWords]
    exact .inr (.inr h))
  rw [takeWhile_cons_of_pos (by simpa using hop), dropWhile_cons_of_pos (by simpa using hop)] at heval
  by_cases hb : b ∈ primaryEnd
  · rw [takeWhile_cons_of_neg (by simpa using hb), dropWhile_cons_of_neg (by simpa using hb)] at heval
    refine ⟨_, [b], heval, .inr (.inr ⟨b, hb, rfl⟩), ?_⟩
    rw [if_pos hb]
    exact if_pos ⟨testUnary_le_one host a op.text, cons_ne_nil _ _⟩
  · rw [takeWhile_cons_of_pos (by simpa using hb), dropWhile_cons_of_pos (by simpa using hb)] at heval
    refine ⟨_, [], heval, .inr (.inl rfl), ?_⟩
    rw [if_neg hb, outcome, if_neg fun h => h.2 rfl]
    exact testBinary_text host op a b []

/-- **A comparison**, whatever its operands are. -/
theorem evaluates_comparison (a : Text) (op : BinaryPrimary) (b : Text) :
    ∃ status rest, Evaluates host [a, op.text, b] status rest ∧
      (status > 1 ∨ rest = [] ∨ ∃ b ∈ primaryEnd, rest = [b]) ∧
      outcome status rest = comparisonStatus host a op b := by
  have htwo := evaluates_two host op.text_notMem op.text_ne_nil b
  rw [testUnary_binary] at htwo
  unfold comparisonStatus
  by_cases hend : a ∈ primaryEnd
  · rw [if_pos hend]
    exact ⟨2, _, Evaluates.missing (by simpa using hend), .inl (by decide), if_neg (by omega)⟩
  rw [if_neg hend]
  by_cases hnot : a = "!".toList
  · subst hnot
    by_cases hb : b ∈ primaryEnd
    · rw [if_pos hb] at htwo ⊢
      rw [if_pos hb] at htwo
      exact ⟨_, [b], htwo.not_, .inr (.inr ⟨b, hb, rfl⟩),
        if_pos ⟨by decide, cons_ne_nil _ _⟩⟩
    · rw [if_neg hb] at htwo ⊢
      rw [if_neg hb] at htwo
      exact ⟨_, [], htwo.not_, .inr (.inl rfl), if_neg fun h => h.2 rfl⟩
  rw [if_neg hnot]
  by_cases hparen : a = "(".toList
  · subst hparen
    by_cases hb : b ∈ primaryEnd
    · rw [if_pos hb, if_pos hb] at htwo
      by_cases hclose : b = ")".toList
      · subst hclose
        have hall := htwo.all (.inr ⟨by decide, by decide⟩)
        exact ⟨_, _, hall.paren, .inr (.inl rfl), rfl⟩
      · have hoperator : b = "-a".toList ∨ b = "-o".toList := by
          simp only [primaryEnd, mem_cons, not_mem_nil, or_false] at hb
          tauto
        have hall := htwo.operator (by decide) hoperator
        rw [if_neg hclose]
        exact ⟨_, _, hall.paren, .inl (by decide), rfl⟩
    · rw [if_neg hb, if_neg hb] at htwo
      have hall := htwo.all (.inr ⟨by simp, by simp⟩)
      have hclose : b ≠ ")".toList := by rintro rfl; exact hb (by decide)
      rw [if_neg hclose]
      exact ⟨_, _, hall.paren, .inl (by decide), rfl⟩
  rw [if_neg hparen]
  refine evaluates_three host (fun h => ?_) op b
  rcases mem_specialWords.mp h with h | h | h
  · exact hnot h
  · exact hparen h
  · exact hend h

end Forms

def TestForm.result (host : TestHost) : TestForm → Nat
  | one a => if a ∈ specialWords then 2 else testStatus (a ≠ [])
  | negated a => if a ∈ specialWords then 2 else testStatus (a = [])
  | unary u a => if a ∈ primaryEnd then 2 else testStatus (u.holds host a)
  | binary a op b => comparisonStatus host a op b
  | negatedBinary a op b => negate (comparisonStatus host a op b)

theorem commandTest_status (host : TestHost) (form : TestForm) :
    (commandTest host form.args).map Prod.fst = some (form.result host) := by
  cases form with
  | one a =>
    obtain ⟨rest, heval, hrest⟩ := evaluates_one host a
    show (commandTest host [a]).map Prod.fst = some (if a ∈ specialWords then 2 else testStatus (a ≠ []))
    by_cases ha : a ∈ specialWords
    · rw [if_pos ha] at heval ⊢
      rw [heval.exit_status (cons_ne_nil _ _) (.inl (by decide)), outcome, if_neg (by omega)]
    · rw [if_neg ha, hrest ha] at heval
      rw [if_neg ha, heval.exit_status (cons_ne_nil _ _) (.inr (.inl rfl)), outcome,
        if_neg fun h => h.2 rfl]
  | negated a =>
    obtain ⟨rest, heval, hrest⟩ := evaluates_one host a
    show (commandTest host ["!".toList, a]).map Prod.fst =
      some (if a ∈ specialWords then 2 else testStatus (a = []))
    by_cases ha : a ∈ specialWords
    · rw [if_pos ha] at heval ⊢
      rw [heval.not_.exit_status (cons_ne_nil _ _) (.inl (by decide)), outcome_negate, outcome,
        if_neg (by omega)]
      rfl
    · rw [if_neg ha, hrest ha] at heval
      rw [if_neg ha, heval.not_.exit_status (cons_ne_nil _ _) (.inr (.inl rfl)),
        outcome_negate, outcome, if_neg fun h => h.2 rfl]
      by_cases hnil : a = [] <;> simp [hnil, negate, testStatus]
  | unary u a =>
    have heval := evaluates_two host u.text_notMem u.text_ne_nil a
    show (commandTest host [u.text, a]).map Prod.fst =
      some (if a ∈ primaryEnd then 2 else testStatus (u.holds host a))
    by_cases ha : a ∈ primaryEnd
    · rw [if_pos ha, if_pos ha] at heval
      rw [if_pos ha, heval.exit_status (cons_ne_nil _ _) (.inr (.inr ⟨a, ha, rfl⟩)), outcome,
        if_pos ⟨by decide, cons_ne_nil _ _⟩]
    · rw [if_neg ha, if_neg ha, testUnary_text] at heval
      rw [if_neg ha, heval.exit_status (cons_ne_nil _ _) (.inr (.inl rfl)), outcome,
        if_neg fun h => h.2 rfl]
  | binary a op b =>
    obtain ⟨status, rest, heval, hrest, hstatus⟩ := evaluates_comparison host a op b
    exact (heval.exit_status (cons_ne_nil _ _) hrest).trans (congrArg some hstatus)
  | negatedBinary a op b =>
    obtain ⟨status, rest, heval, hrest, hstatus⟩ := evaluates_comparison host a op b
    have hnegated : negate status > 1 ∨ rest = [] ∨ ∃ b ∈ primaryEnd, rest = [b] := by
      refine hrest.imp_left fun h => ?_
      rwa [negate, if_pos h]
    refine (heval.not_.exit_status (cons_ne_nil _ _) hnegated).trans ?_
    rw [outcome_negate, hstatus]
    rfl

theorem commandLbracket_append (host : TestHost) (args : List Text) :
    commandLbracket host (args ++ ["]".toList]) = commandTest host args := by
  rw [commandLbracket, getLast?_concat, if_neg fun h => h rfl, dropLast_concat]

/-! ## 5. The law -/

structure TestLaw (host : TestHost) (form : TestForm) : Prop where
  test : (commandTest host form.args).map Prod.fst = some (form.status host)
  bracket : (commandLbracket host (form.args ++ ["]".toList])).map Prod.fst =
    some (form.status host)

/-- The comparison is one of numbers. -/
def BinaryPrimary.IsNumeric (op : BinaryPrimary) : Prop := ∃ relation, op = numeric relation

/-- Where the operands of a comparison are words of the parser, it is right only if an error anyway,
    or by chance. -/
def ComparisonKept (host : TestHost) (a : Text) (op : BinaryPrimary) (b : Text) : Prop :=
  if a ∈ primaryEnd then op.IsNumeric
  else if a = "!".toList then
    (if b ∈ primaryEnd then op.IsNumeric else op.status host a b = 0)
  else if a = "(".toList then
    (if b = ")".toList then op.status host a b = 0 else op.IsNumeric)
  else b ∈ primaryEnd → op.IsNumeric

def TestForm.Kept (host : TestHost) : TestForm → Prop
  | one a => a ∉ specialWords
  | negated a => a ∉ specialWords
  | unary _ a => a ∉ primaryEnd
  | binary a op b => ComparisonKept host a op b
  | negatedBinary a op b => ComparisonKept host a op b

section Law

variable {host : TestHost} {a b : Text} {op : BinaryPrimary}

theorem parseTestInteger_special (h : a ∈ specialWords) : parseTestInteger a = none := by
  rcases mem_specialWords.mp h with rfl | rfl | h
  · rfl
  · rfl
  · simp only [primaryEnd, mem_cons, not_mem_nil, or_false] at h
    rcases h with rfl | rfl | rfl <;> rfl

theorem BinaryPrimary.status_error (h : a ∈ specialWords ∨ b ∈ specialWords) :
    op.status host a b = 2 ↔ op.IsNumeric := by
  constructor
  · intro herror
    have htruth : ∀ holds, testStatus holds ≠ 2 := fun holds heq => by
      have hle := testStatus_le_one holds
      omega
    cases op with
    | numeric relation => exact ⟨relation, rfl⟩
    | _ => exact absurd herror (htruth _)
  · rintro ⟨relation, rfl⟩
    rw [status]
    rcases h with ha | hb
    · rw [parseTestInteger_special ha]
    · rw [parseTestInteger_special hb]; cases parseTestInteger a <;> rfl

theorem comparisonStatus_iff :
    comparisonStatus host a op b = op.status host a b ↔ ComparisonKept host a op b := by
  have hend : ∀ {a}, a ∈ primaryEnd → a ∈ specialWords := fun h =>
    mem_specialWords.mpr (.inr (.inr h))
  unfold comparisonStatus ComparisonKept
  by_cases ha : a ∈ primaryEnd
  · rw [if_pos ha, if_pos ha, eq_comm]; exact BinaryPrimary.status_error (.inl (hend ha))
  rw [if_neg ha, if_neg ha]
  by_cases hnot : a = "!".toList
  · rw [if_pos hnot, if_pos hnot]
    by_cases hb : b ∈ primaryEnd
    · rw [if_pos hb, if_pos hb, eq_comm]; exact BinaryPrimary.status_error (.inr (hend hb))
    · rw [if_neg hb, if_neg hb, eq_comm]
  rw [if_neg hnot, if_neg hnot]
  by_cases hparen : a = "(".toList
  · rw [if_pos hparen, if_pos hparen]
    by_cases hb : b = ")".toList
    · rw [if_pos hb, if_pos hb, eq_comm]
    · rw [if_neg hb, if_neg hb, eq_comm]
      exact BinaryPrimary.status_error (.inl (mem_specialWords.mpr (.inr (.inl hparen))))
  rw [if_neg hparen, if_neg hparen]
  by_cases hb : b ∈ primaryEnd
  · rw [if_pos hb, eq_comm, BinaryPrimary.status_error (.inr (hend hb))]
    exact ⟨fun h _ => h, fun h => h hb⟩
  · rw [if_neg hb]; exact iff_of_true rfl fun h => absurd h hb

theorem BinaryPrimary.status_le_two : op.status host a b ≤ 2 := by
  have htruth : ∀ holds, testStatus holds ≤ 2 := fun holds => (testStatus_le_one holds).trans (by decide)
  cases op with
  | numeric relation =>
    rw [status]
    split
    · exact htruth _
    · exact le_refl 2
  | _ => exact htruth _

theorem comparisonStatus_le_two : comparisonStatus host a op b ≤ 2 := by
  have hstatus : op.status host a b ≤ 2 := BinaryPrimary.status_le_two
  unfold comparisonStatus
  split_ifs <;> omega

theorem negate_eq_negate {s s' : Nat} (h : s ≤ 2) (h' : s' ≤ 2) :
    negate s = negate s' ↔ s = s' := by
  have hall : ∀ s s' : Fin 3, negate s = negate s' ↔ s = s' := by decide
  have hs := hall ⟨s, by omega⟩ ⟨s', by omega⟩
  rwa [Fin.mk.injEq] at hs

theorem ite_error_iff {p : Prop} [Decidable p] {s : Nat} (h : s ≤ 1) :
    (if p then 2 else s) = s ↔ ¬ p := by
  split_ifs with hp
  · exact iff_of_false (by omega) (not_not_intro hp)
  · exact iff_of_true rfl hp

end Law

/-- **The commands decide a form as prescribed exactly if its operands are kept.** -/
theorem testLaw_iff (host : TestHost) (form : TestForm) : TestLaw host form ↔ form.Kept host := by
  have hlaw : TestLaw host form ↔ form.result host = form.status host := by
    have htest := commandTest_status host form
    constructor
    · intro h; exact Option.some.inj (htest.symm.trans h.test)
    · intro h
      rw [h] at htest
      exact ⟨htest, by rw [commandLbracket_append]; exact htest⟩
  rw [hlaw]
  cases form with
  | one a =>
    show (if a ∈ specialWords then 2 else testStatus (a ≠ [])) = testStatus (a ≠ []) ↔ a ∉ specialWords
    exact ite_error_iff (testStatus_le_one _)
  | negated a =>
    show (if a ∈ specialWords then 2 else testStatus (a = [])) = testStatus (a = []) ↔ a ∉ specialWords
    exact ite_error_iff (testStatus_le_one _)
  | unary u a =>
    show (if a ∈ primaryEnd then 2 else testStatus (u.holds host a)) = testStatus (u.holds host a) ↔
      a ∉ primaryEnd
    exact ite_error_iff (testStatus_le_one _)
  | binary a op b => exact comparisonStatus_iff
  | negatedBinary a op b =>
    show negate (comparisonStatus host a op b) = negate (op.status host a b) ↔
      ComparisonKept host a op b
    rw [negate_eq_negate comparisonStatus_le_two BinaryPrimary.status_le_two]
    exact comparisonStatus_iff

def emptyHost : TestHost where
  stat := fun _ => none
  lstat := fun _ => none
  access := fun _ _ => false
  geteuid := 0
  getegid := 0
  isatty := fun _ => false

/-- `[ "!" ]` is an error, and `[ "!" = x ]` is true. -/
theorem not_testLaw : ¬ TestLaw emptyHost (.one "!".toList) ∧
    ¬ TestLaw emptyHost (.binary "!".toList .equal "x".toList) := by
  constructor
  · intro h; exact absurd h.test (by decide)
  · intro h; exact absurd h.test (by decide)

end Arksh
