/-
  Subject: `[[ ... ]]` against evaluation from the left that stops as soon as the value is known.

  The loop of `double_bracket_eval_or` looks at the status of its first operand only: where an
  error comes to a later one with the scan in front of a `||`, the next operand is evaluated, and
  its status is the result. The scan stands behind the primary that fails if it is the first of
  its `&&` chain, and else behind the chain; and it stays there while the error leaves
  parentheses.
-/
import Arksh.Shell.DoubleBracket
import Arksh.Lib.BoolTree

namespace Arksh

open CText BoolTree List Option

/-! ## 1. Primaries and trees -/

def ClosedWords : Nat → List Text → Prop
  | depth, [] => depth = 0
  | depth, word :: words =>
    ¬ (depth = 0 ∧ word ∈ condEnd) ∧ ClosedWords (wordDepth depth word) words

structure CondPrimary where
  first : Text
  more : List Text
  first_notMem : first ∉ condSpecial
  closed : ClosedWords 0 more
  length_le : more.length ≤ 15

def CondPrimary.words (p : CondPrimary) : List Text := p.first :: p.more

def condWords : Words Text where
  not_ := "!".toList
  and_ := "&&".toList
  or_ := "||".toList
  open_ := "(".toList
  close := ")".toList

def condArgs (t : BoolTree.Tree CondPrimary) : List Text := t.write condWords CondPrimary.words

/-- Truth, falsehood or an error. -/
def outcomeOfStatus (status : Nat) : Option Bool :=
  if status = 0 then some true else if status = 2 then none else some false

def outcomeStatus : Option Bool → Nat
  | some holds => testStatus holds
  | none => 2

def primaryOutcome (host : PatternHost) (p : CondPrimary) (st : CondState) :
    Option Bool × CondState :=
  (outcomeOfStatus (evaluatePrimary host p.words st).1, (evaluatePrimary host p.words st).2)

/-- What a tree should do: evaluate what it needs, from the left. -/
def shortCircuit (host : PatternHost) (t : BoolTree.Tree CondPrimary) (st : CondState) :
    Option Bool × CondState := t.run (primaryOutcome host) st

def EndsCond (rest : List Text) : Prop := ∀ a ∈ rest.head?, a ∈ condEnd

variable {depth n : Nat}

section Words

variable {rest words prim : List Text} {a : Text}

theorem condArgs_conj (left right : BoolTree.Tree CondPrimary) (rest : List Text) :
    condArgs (.conj left right) ++ rest = condArgs left ++ "&&".toList :: (condArgs right ++ rest) :=
  BoolTree.Tree.write_conj_append condWords CondPrimary.words left right rest

theorem condArgs_disj (left right : BoolTree.Tree CondPrimary) (rest : List Text) :
    condArgs (.disj left right) ++ rest = condArgs left ++ "||".toList :: (condArgs right ++ rest) :=
  BoolTree.Tree.write_disj_append condWords CondPrimary.words left right rest

theorem condArgs_group (t : BoolTree.Tree CondPrimary) (rest : List Text) :
    condArgs (.group t) ++ rest = "(".toList :: (condArgs t ++ ")".toList :: rest) :=
  BoolTree.Tree.write_group_append condWords CondPrimary.words t rest

theorem condArgs_neg (t : BoolTree.Tree CondPrimary) (rest : List Text) :
    condArgs (.neg t) ++ rest = "!".toList :: (condArgs t ++ rest) := rfl

theorem condArgs_ne_nil (t : BoolTree.Tree CondPrimary) : condArgs t ≠ [] :=
  t.write_ne_nil fun _ => cons_ne_nil _ _

theorem endsCond_cons (h : a ∈ condEnd) (args : List Text) : EndsCond (a :: args) := by
  intro b hb
  cases hb
  exact h

theorem mem_condSpecial : a ∈ condSpecial ↔ a = "!".toList ∨ a = "(".toList ∨ a ∈ condEnd := by
  rw [condSpecial, mem_cons, mem_cons]

theorem CondPrimary.first_ne (p : CondPrimary) :
    p.first ≠ "!".toList ∧ p.first ≠ "(".toList ∧ p.first ∉ condEnd := by
  have hfirst := p.first_notMem
  rwa [mem_condSpecial, not_or, not_or] at hfirst

theorem CondPrimary.head_ne (p : CondPrimary) (rest : List Text) :
    (p.words ++ rest).head? ≠ some "!".toList ∧ (p.words ++ rest).head? ≠ some "(".toList :=
  ⟨fun h => p.first_ne.1 (Option.some.inj h), fun h => p.first_ne.2.1 (Option.some.inj h)⟩

theorem CondPrimary.closed_words (p : CondPrimary) : ClosedWords 0 p.words := by
  have hfirst := p.first_ne
  have hdepth : wordDepth 0 p.first = 0 := by
    rw [wordDepth, if_neg hfirst.2.1, if_neg fun h => absurd h.2 (Nat.lt_irrefl 0)]
  refine ⟨fun h => hfirst.2.2 h.2, ?_⟩
  rw [hdepth]
  exact p.closed

theorem skipWords_closed (h : ClosedWords depth words) (hrest : EndsCond rest) :
    skipWords depth (words ++ rest) = rest := by
  induction words generalizing depth with
  | nil =>
    rw [show depth = 0 from h, nil_append]
    cases rest with
    | nil => rfl
    | cons a rest => rw [skipWords, if_pos ⟨rfl, hrest a rfl⟩]
  | cons word words ih => rw [cons_append, skipWords, if_neg h.1, ih h.2]

theorem collectWords_closed (h : ClosedWords depth words)
    (hlength : prim.length + words.length ≤ 16) (hrest : EndsCond rest) :
    collectWords depth prim (words ++ rest) = (prim ++ words, rest) := by
  induction words generalizing depth prim with
  | nil =>
    rw [show depth = 0 from h, nil_append, append_nil]
    cases rest with
    | nil => rfl
    | cons a rest => rw [collectWords, if_neg fun h => h.2 ⟨rfl, hrest a rfl⟩]
  | cons word words ih =>
    rw [length_cons] at hlength
    rw [cons_append, collectWords, if_pos ⟨by omega, h.1⟩,
      ih h.2 (by rw [length_append, length_singleton]; omega), append_assoc]
    rfl

theorem collectWords_ne_nil (depth : Nat) (hprim : prim ≠ []) (args : List Text) :
    (collectWords depth prim args).1 ≠ [] := by
  induction args generalizing depth prim with
  | nil => exact hprim
  | cons word args ih =>
    rw [collectWords]
    split_ifs
    · exact ih _ (append_ne_nil_of_left_ne_nil hprim _)
    · exact hprim

theorem outcomeStatus_outcome {s : Nat} (h : s ≤ 2) : outcomeStatus (outcomeOfStatus s) = s := by
  obtain rfl | rfl | rfl : s = 0 ∨ s = 1 ∨ s = 2 := by omega
  · rfl
  · rfl
  · rfl

end Words

/-! ## 2. A tree is skipped -/

def FactorSkipped (t : BoolTree.Tree CondPrimary) : Prop :=
  ∀ rest fuel err, EndsCond rest → 4 * (condArgs t ++ rest).length + 2 ≤ fuel →
    skipPrimary fuel (condArgs t ++ rest) err = some ⟨false, rest, err⟩

def TermSkipped (t : BoolTree.Tree CondPrimary) : Prop :=
  ∀ rest fuel err, EndsCond rest → 4 * (condArgs t ++ rest).length + 3 ≤ fuel →
    ∃ fuel', 4 * rest.length + 1 ≤ fuel' ∧
      skipAnd fuel (condArgs t ++ rest) err = skipAndLoop fuel' ⟨false, rest, err⟩

def AnySkipped (t : BoolTree.Tree CondPrimary) : Prop :=
  ∀ rest fuel err, EndsCond rest → rest.head? ≠ some "&&".toList →
    4 * (condArgs t ++ rest).length + 4 ≤ fuel →
    ∃ fuel', 4 * rest.length + 1 ≤ fuel' ∧
      skipOr fuel (condArgs t ++ rest) err = skipOrLoop fuel' ⟨false, rest, err⟩

section Skip

variable {t left right : BoolTree.Tree CondPrimary} {fuel : Nat} {r : SkipResult} {rest : List Text} {err : Text}

theorem skipAndLoop_stop (h : r.args.head? ≠ some "&&".toList) :
    skipAndLoop (fuel + 1) r = some r := by
  rw [skipAndLoop, if_neg h]

theorem skipOrLoop_stop (h : r.args.head? ≠ some "||".toList) : skipOrLoop (fuel + 1) r = some r := by
  rw [skipOrLoop, if_neg h]

theorem FactorSkipped.term (h : FactorSkipped t) : TermSkipped t := by
  intro rest fuel err hrest hfuel
  rcases fuel with _ | fuel
  · omega
  have hskip := h rest fuel err hrest (by omega)
  rw [length_append] at hfuel
  refine ⟨fuel, by omega, ?_⟩
  rw [skipAnd, hskip]
  rfl

theorem TermSkipped.whole (h : TermSkipped t) (hrest : EndsCond rest)
    (hhead : rest.head? ≠ some "&&".toList) (hfuel : 4 * (condArgs t ++ rest).length + 3 ≤ fuel) :
    skipAnd fuel (condArgs t ++ rest) err = some ⟨false, rest, err⟩ := by
  obtain ⟨fuel', hfuel', hskip⟩ := h rest fuel err hrest hfuel
  rcases fuel' with _ | fuel'
  · omega
  rw [hskip, skipAndLoop_stop hhead]

theorem TermSkipped.any (h : TermSkipped t) : AnySkipped t := by
  intro rest fuel err hrest hhead hfuel
  rcases fuel with _ | fuel
  · omega
  have hskip := @TermSkipped.whole t fuel rest err h hrest hhead (by omega)
  rw [length_append] at hfuel
  refine ⟨fuel, by omega, ?_⟩
  rw [skipOr, hskip]
  rfl

theorem TermSkipped.conj (hleft : TermSkipped left) (hright : FactorSkipped right) :
    TermSkipped (.conj left right) := by
  intro rest fuel err hrest hfuel
  rw [condArgs_conj] at hfuel ⊢
  obtain ⟨fuel₁, hfuel₁, hskip⟩ := hleft _ fuel err (endsCond_cons (by decide) _) hfuel
  rw [length_cons] at hfuel₁
  rcases fuel₁ with _ | fuel₁
  · omega
  rw [hskip, skipAndLoop, head?_cons, if_pos rfl, tail_cons, hright rest fuel₁ err hrest (by omega)]
  rw [length_append] at hfuel₁
  exact ⟨fuel₁, by omega, rfl⟩

theorem AnySkipped.disj (hleft : AnySkipped left) (hright : TermSkipped right) :
    AnySkipped (.disj left right) := by
  intro rest fuel err hrest hhead hfuel
  rw [condArgs_disj] at hfuel ⊢
  obtain ⟨fuel₁, hfuel₁, hskip⟩ :=
    hleft _ fuel err (endsCond_cons (by decide) _) (head_ne (by decide) _) hfuel
  rw [length_cons] at hfuel₁
  rcases fuel₁ with _ | fuel₁
  · omega
  rw [hskip, skipOrLoop, head?_cons, if_pos rfl, tail_cons, hright.whole hrest hhead (by omega)]
  rw [length_append] at hfuel₁
  exact ⟨fuel₁, by omega, rfl⟩

theorem FactorSkipped.leaf (p : CondPrimary) : FactorSkipped (.leaf p) := by
  intro rest fuel err hrest hfuel
  rcases fuel with _ | fuel
  · omega
  have hargs : condArgs (.leaf p) ++ rest = p.words ++ rest := rfl
  have hne : p.words ++ rest ≠ [] := cons_ne_nil _ _
  rw [hargs, skipPrimary, if_neg hne, if_neg (p.head_ne rest).1, if_neg (p.head_ne rest).2,
    skipWords_closed p.closed_words hrest]

theorem FactorSkipped.neg (h : FactorSkipped t) : FactorSkipped (.neg t) := by
  intro rest fuel err hrest hfuel
  rw [condArgs_neg, length_cons] at hfuel
  rcases fuel with _ | fuel
  · omega
  exact h rest fuel err hrest (by omega)

theorem FactorSkipped.group (h : AnySkipped t) : FactorSkipped (.group t) := by
  intro rest fuel err hrest hfuel
  rw [condArgs_group, length_cons] at hfuel
  rcases fuel with _ | fuel
  · omega
  obtain ⟨fuel', hfuel', hskip⟩ :=
    h (")".toList :: rest) fuel err (endsCond_cons (by decide) rest)
      (head_ne (by decide) rest) (by omega)
  rcases fuel' with _ | fuel'
  · omega
  have hhead : (")".toList :: rest).head? ≠ some "||".toList := head_ne (by decide) rest
  rw [condArgs_group, skipPrimary, if_neg (cons_ne_nil _ _), head?_cons, if_neg (by decide),
    if_pos rfl, tail_cons, hskip, skipOrLoop_stop hhead, map_some]
  rfl

/-- **Every tree is skipped**, at the levels where it can stand. -/
theorem treeSkipped (t : BoolTree.Tree CondPrimary) :
    (t.Respects .factor → FactorSkipped t) ∧ (t.Respects .term → TermSkipped t) ∧
      (t.Respects .any → AnySkipped t) :=
  BoolTree.Tree.level_rule FactorSkipped.leaf FactorSkipped.neg FactorSkipped.group FactorSkipped.term
    (fun _ => TermSkipped.conj) TermSkipped.any (fun _ => AnySkipped.disj) t

end Skip

/-! ## 3. Where an error leaves the scan -/

/-- The scan stands in front of a `&&`, and in front of a `||` or, behind the `&&` chain, will. -/
structure Stop where
  and_ : Bool
  or_ : Bool
  deriving DecidableEq

/-- Where the scan stands behind the error of a tree, if `stop` is where it stands behind the tree;
    nothing where the loop of `double_bracket_eval_or` goes on. -/
def errorStop (host : PatternHost) : BoolTree.Tree CondPrimary → Stop → CondState → Option Stop
  | .leaf _, stop, _ => some stop
  | .neg t, stop, st => errorStop host t stop st
  | .conj left right, stop, st =>
    if (shortCircuit host left st).1 = none then errorStop host left { stop with and_ := true } st
    else
      -- the loop of `double_bracket_eval_and` skips the rest of its chain
      (errorStop host right stop (shortCircuit host left st).2).map fun s => { s with and_ := false }
  | .disj left right, stop, st =>
    if (shortCircuit host left st).1 = none then errorStop host left ⟨false, true⟩ st
    else
      (errorStop host right stop (shortCircuit host left st).2).bind fun s =>
        if s = ⟨false, true⟩ then none else some s
  | .group t, _, st => errorStop host t ⟨false, false⟩ st

inductive Stands : Stop → List Text → Prop where
  | nil : Stands ⟨false, false⟩ []
  | close (rest : List Text) : Stands ⟨false, false⟩ (")".toList :: rest)
  | or_ {t : BoolTree.Tree CondPrimary} {stop : Stop} {rest : List Text} : t.Respects .term →
      Stands stop rest → Stands ⟨false, true⟩ ("||".toList :: (condArgs t ++ rest))
  | and_ {t : BoolTree.Tree CondPrimary} {stop : Stop} {rest : List Text} : t.Respects .factor →
      Stands stop rest → Stands { stop with and_ := true } ("&&".toList :: (condArgs t ++ rest))

variable {t : BoolTree.Tree CondPrimary}

section Standing

variable {host : PatternHost} {stop : Stop} {rest args : List Text} {fuel : Nat} {r : CondResult}

section

variable (h : Stands stop rest)
include h

theorem Stands.ends : EndsCond rest := by
  cases h with
  | nil => simp [EndsCond]
  | close rest => exact endsCond_cons (by decide) rest
  | or_ ht hrest | and_ ht hrest => exact endsCond_cons (by decide) _

theorem Stands.head_ne_and (hand : stop.and_ = false) : rest.head? ≠ some "&&".toList := by
  cases h with
  | nil => simp
  | close rest => exact head_ne (by decide) rest
  | or_ ht hrest => exact head_ne (by decide) _
  | and_ ht hrest => exact absurd hand (by simp)

theorem Stands.head_ne_or (hor : stop ≠ ⟨false, true⟩) : rest.head? ≠ some "||".toList := by
  cases h with
  | nil => simp
  | close rest => exact head_ne (by decide) rest
  | or_ ht hrest => exact absurd rfl hor
  | and_ ht hrest => exact head_ne (by decide) _

end

theorem evalAndLoop_stop (h : r.args.head? ≠ some "&&".toList) :
    evalAndLoop host (fuel + 1) r = some r := by
  rw [evalAndLoop, if_neg h]

theorem evalOrLoop_stop (h : r.args.head? ≠ some "||".toList) :
    evalOrLoop host (fuel + 1) r = some r := by
  rw [evalOrLoop, if_neg h]

theorem evalAndLoop_next (hstatus : r.status = 0) (hargs : r.args = "&&".toList :: args) :
    evalAndLoop host (fuel + 1) r = (evalNot host fuel args r.state).bind (evalAndLoop host fuel) := by
  rw [evalAndLoop, hargs, head?_cons, if_pos rfl, if_neg (not_not_intro hstatus), tail_cons]

theorem evalOrLoop_next (hstatus : r.status ≠ 0) (hargs : r.args = "||".toList :: args) :
    evalOrLoop host (fuel + 1) r = (evalAnd host fuel args r.state).bind (evalOrLoop host fuel) := by
  rw [evalOrLoop, hargs, head?_cons, if_pos rfl, if_neg hstatus, tail_cons]

theorem evalAndLoop_skip (ht : t.Respects .factor) (hstatus : r.status ≠ 0)
    (hargs : r.args = "&&".toList :: (condArgs t ++ rest)) (hrest : EndsCond rest)
    (hfuel : 4 * (condArgs t ++ rest).length + 2 ≤ fuel) :
    evalAndLoop host (fuel + 1) r = evalAndLoop host fuel ⟨r.status, rest, r.state⟩ := by
  rw [evalAndLoop, hargs, head?_cons, if_pos rfl, if_pos hstatus, tail_cons,
    (treeSkipped t).1 ht rest fuel r.state.err hrest hfuel]
  rfl

theorem evalOrLoop_skip (ht : t.Respects .term) (hstatus : r.status = 0)
    (hargs : r.args = "||".toList :: (condArgs t ++ rest)) (hrest : EndsCond rest)
    (hhead : rest.head? ≠ some "&&".toList) (hfuel : 4 * (condArgs t ++ rest).length + 3 ≤ fuel) :
    evalOrLoop host (fuel + 1) r = evalOrLoop host fuel ⟨r.status, rest, r.state⟩ := by
  rw [evalOrLoop, hargs, head?_cons, if_pos rfl, if_pos hstatus, tail_cons,
    ((treeSkipped t).2.1 ht).whole hrest hhead hfuel]
  rfl

theorem Stands.skip (h : Stands stop rest) (hstatus : r.status ≠ 0) (hargs : r.args = rest)
    (hfuel : 4 * rest.length + 1 ≤ fuel) :
    ∃ rest', evalAndLoop host fuel r = some ⟨r.status, rest', r.state⟩ ∧
      Stands { stop with and_ := false } rest' := by
  have hstay : ∀ {fuel}, rest.head? ≠ some "&&".toList →
      evalAndLoop host (fuel + 1) r = some ⟨r.status, rest, r.state⟩ := fun hhead => by
    rw [evalAndLoop_stop (by rwa [hargs]), ← hargs]
  rcases fuel with _ | fuel
  · omega
  induction h generalizing r fuel with
  | nil => exact ⟨[], hstay (by simp), .nil⟩
  | close rest => exact ⟨_, hstay (head_ne (by decide) rest), .close rest⟩
  | or_ ht hrest => exact ⟨_, hstay (head_ne (by decide) _), .or_ ht hrest⟩
  | @and_ t stop rest ht hrest ih =>
    rw [length_cons] at hfuel
    rw [evalAndLoop_skip ht hstatus hargs hrest.ends (by omega)]
    rw [length_append] at hfuel
    rcases fuel with _ | fuel
    · omega
    obtain ⟨rest', heval, hstands⟩ := @ih ⟨r.status, rest, r.state⟩ hstatus rfl
      (fun hhead => evalAndLoop_stop hhead) fuel (by omega)
    exact ⟨rest', heval, hstands⟩

end Standing

/-! ### An operand is evaluated -/

section One

variable {host : PatternHost} {fuel : Nat} {args : List Text} {st : CondState}

def Records (result : Option CondResult) (k : Nat) : Prop :=
  ∃ r, result = some r ∧ k < r.state.evaluated.length

theorem Records.bind {operand : Option CondResult} {next : CondResult → Option CondResult} {k : Nat}
    (h : Records operand k) (hlength : CondReturns operand n k)
    (hnext : ∀ r : CondResult, r.args.length ≤ n →
      CondReturns (next r) r.args.length r.state.evaluated.length) :
    Records (operand.bind next) k := by
  obtain ⟨r, rfl, hk⟩ := h
  obtain ⟨r₁, hr₁, hn, -⟩ := hlength
  obtain ⟨r', hr', -, hk'⟩ := hnext r (by rwa [Option.some.inj hr₁])
  exact ⟨r', hr', by omega⟩

theorem Records.and_ (h : Records (evalNot host fuel args st) st.evaluated.length)
    (hfuel : 4 * args.length + 2 ≤ fuel) :
    Records (evalAnd host (fuel + 1) args st) st.evaluated.length := by
  exact h.bind ((condReturns host fuel).not_ args st hfuel) fun r hr =>
    condReturns_first ((condReturns host fuel).andLoop r (by omega))

theorem Records.or_ (h : Records (evalAnd host fuel args st) st.evaluated.length)
    (hfuel : 4 * args.length + 3 ≤ fuel) :
    Records (evalOr host (fuel + 1) args st) st.evaluated.length := by
  exact h.bind ((condReturns host fuel).and_ args st hfuel) fun r hr =>
    condReturns_first ((condReturns host fuel).orLoop r (by omega))

theorem records_tree (t : BoolTree.Tree CondPrimary) (rest : List Text)
    (hfuel : 4 * (condArgs t ++ rest).length + 2 ≤ fuel) :
    Records (evalNot host fuel (condArgs t ++ rest) st) st.evaluated.length := by
  induction t generalizing rest fuel with
  | leaf p =>
    rcases fuel with _ | fuel
    · omega
    have hargs : condArgs (.leaf p) ++ rest = p.words ++ rest := rfl
    have hcollect : (collectWords 0 [] (p.words ++ rest)).1 ≠ [] := by
      rw [CondPrimary.words, cons_append, collectWords,
        if_pos ⟨by simp, fun h => p.first_ne.2.2 h.2⟩]
      exact collectWords_ne_nil _ (by simp) _
    have hne : p.words ++ rest ≠ [] := cons_ne_nil _ _
    rw [hargs, evalNot, if_neg hne, if_neg (p.head_ne rest).1, if_neg (p.head_ne rest).2]
    rw [if_neg hcollect]
    exact ⟨_, rfl, by simp [evaluatePrimary]⟩
  | neg t ih =>
    rw [condArgs_neg, length_cons] at hfuel
    rcases fuel with _ | fuel
    · omega
    obtain ⟨r, hr, hk⟩ := @ih fuel rest (by omega)
    rw [condArgs_neg, evalNot, if_neg (cons_ne_nil _ _), head?_cons, if_pos rfl, tail_cons, hr]
    refine ⟨_, rfl, ?_⟩
    dsimp only
    split_ifs <;> exact hk
  | conj left right ihl ihr => rw [condArgs_conj] at hfuel ⊢; exact ihl _ hfuel
  | disj left right ihl ihr => rw [condArgs_disj] at hfuel ⊢; exact ihl _ hfuel
  | group t ih =>
    rw [condArgs_group] at hfuel ⊢
    rw [length_cons] at hfuel
    obtain ⟨fuel, rfl⟩ : ∃ n, fuel = n + 3 := ⟨fuel - 3, by omega⟩
    obtain ⟨r, hr, hk⟩ :=
      ((@ih fuel (")".toList :: rest) (by omega)).and_ (by omega)).or_ (by omega)
    rw [evalNot, if_neg (cons_ne_nil _ _), head?_cons, if_neg (by decide), if_pos rfl,
      tail_cons, hr]
    refine ⟨_, rfl, ?_⟩
    dsimp only
    split_ifs <;> exact hk

end One

/-! ## 4. Every tree is evaluated -/

/-- What comes of the error of a tree: status 2 in front of where the scan stands, or, where the
    loop goes on, one primary too many. -/
structure ErrorResult (host : PatternHost) (t : BoolTree.Tree CondPrimary) (stop : Stop) (st : CondState)
    (r : CondResult) : Prop where
  stands : ∀ s, errorStop host t stop st = some s →
    r.status = 2 ∧ r.state = (shortCircuit host t st).2 ∧ Stands s r.args
  longer : errorStop host t stop st = none →
    (shortCircuit host t st).2.evaluated.length < r.state.evaluated.length

def FactorEval (host : PatternHost) (t : BoolTree.Tree CondPrimary) : Prop :=
  ∀ stop rest fuel st, Stands stop rest → 4 * (condArgs t ++ rest).length + 2 ≤ fuel →
    ∃ r, evalNot host fuel (condArgs t ++ rest) st = some r ∧
      (∀ b, (shortCircuit host t st).1 = some b →
        r = ⟨testStatus b, rest, (shortCircuit host t st).2⟩) ∧
      ((shortCircuit host t st).1 = none → ErrorResult host t stop st r)

/-- The tree is evaluated as a term: `double_bracket_eval_and` comes to the state behind it, or to
    an error. -/
def TermEval (host : PatternHost) (t : BoolTree.Tree CondPrimary) : Prop :=
  ∀ stop rest fuel st, Stands stop rest → 4 * (condArgs t ++ rest).length + 3 ≤ fuel →
    (∀ b, (shortCircuit host t st).1 = some b → ∃ fuel', 4 * rest.length + 1 ≤ fuel' ∧
      evalAnd host fuel (condArgs t ++ rest) st =
        evalAndLoop host fuel' ⟨testStatus b, rest, (shortCircuit host t st).2⟩) ∧
    ((shortCircuit host t st).1 = none →
      ∃ r, evalAnd host fuel (condArgs t ++ rest) st = some r ∧ ErrorResult host t stop st r)

def AnyEval (host : PatternHost) (t : BoolTree.Tree CondPrimary) : Prop :=
  ∀ stop rest fuel st, Stands stop rest → stop.and_ = false →
    4 * (condArgs t ++ rest).length + 4 ≤ fuel →
    (∀ b, (shortCircuit host t st).1 = some b → ∃ fuel', 4 * rest.length + 1 ≤ fuel' ∧
      evalOr host fuel (condArgs t ++ rest) st =
        evalOrLoop host fuel' ⟨testStatus b, rest, (shortCircuit host t st).2⟩) ∧
    ((shortCircuit host t st).1 = none →
      ∃ r, evalOr host fuel (condArgs t ++ rest) st = some r ∧ ErrorResult host t stop st r)

variable {r : CondResult}

section Evaluation

variable {host : PatternHost} {t left right : BoolTree.Tree CondPrimary} {stop : Stop} {rest : List Text}
  {fuel : Nat} {st : CondState}

theorem ErrorResult.first {next : CondResult → Option CondResult} (h : ErrorResult host t stop st r)
    (hnext : CondReturns (next r) n r.state.evaluated.length) :
    ∃ r', (if r.status = 2 then some r else next r) = some r' ∧ ErrorResult host t stop st r' := by
  by_cases hstatus : r.status = 2
  · exact ⟨r, if_pos hstatus, h⟩
  · obtain ⟨r', hr', -, hk⟩ := hnext
    refine ⟨r', by rw [if_neg hstatus, hr'], fun s hs => absurd (h.stands s hs).1 hstatus, fun hs => ?_⟩
    exact (h.longer hs).trans_le hk

theorem FactorEval.term (h : FactorEval host t) : TermEval host t := by
  intro stop rest fuel st hstands hfuel
  rcases fuel with _ | fuel
  · omega
  obtain ⟨r, heval, htruth, herror⟩ := h stop rest fuel st hstands (by omega)
  have hreturns := (condReturns host fuel).not_ (condArgs t ++ rest) st (by omega)
  obtain ⟨r₁, hr₁, hlength, -⟩ := hreturns
  rw [heval] at hr₁
  cases hr₁
  rw [evalAnd, heval, bind_some]
  constructor
  · intro b hb
    rw [length_append] at hfuel
    refine ⟨fuel, by omega, ?_⟩
    rw [htruth b hb, if_neg]
    have hle := testStatus_le_one b
    exact (by omega : ¬ testStatus b = 2)
  · intro hnone; exact (herror hnone).first ((condReturns host fuel).andLoop r (by omega))

theorem TermEval.whole (h : TermEval host t) (hstands : Stands stop rest) (hand : stop.and_ = false)
    (hfuel : 4 * (condArgs t ++ rest).length + 3 ≤ fuel) :
    ∃ r, evalAnd host fuel (condArgs t ++ rest) st = some r ∧
      (∀ b, (shortCircuit host t st).1 = some b →
        r = ⟨testStatus b, rest, (shortCircuit host t st).2⟩) ∧
      ((shortCircuit host t st).1 = none → ErrorResult host t stop st r) := by
  obtain ⟨htruth, herror⟩ := h stop rest fuel st hstands hfuel
  cases hvalue : (shortCircuit host t st).1 with
  | none => obtain ⟨r, hr, hresult⟩ := herror hvalue; exact ⟨r, hr, nofun, fun _ => hresult⟩
  | some b =>
    obtain ⟨fuel', hfuel', heval⟩ := htruth b hvalue
    rcases fuel' with _ | fuel'
    · omega
    rw [evalAndLoop_stop (hstands.head_ne_and hand)] at heval
    refine ⟨_, heval, fun b' hb' => ?_, nofun⟩
    rw [Option.some.inj hb']

theorem TermEval.any (h : TermEval host t) : AnyEval host t := by
  intro stop rest fuel st hstands hand hfuel
  rcases fuel with _ | fuel
  · omega
  obtain ⟨r, heval, htruth, herror⟩ := @TermEval.whole host t stop rest fuel st h hstands hand (by omega)
  obtain ⟨r₁, hr₁, hlength, -⟩ := (condReturns host fuel).and_ (condArgs t ++ rest) st (by omega)
  rw [heval] at hr₁
  cases hr₁
  rw [evalOr, heval, bind_some]
  constructor
  · intro b hb
    rw [length_append] at hfuel
    refine ⟨fuel, by omega, ?_⟩
    rw [htruth b hb, if_neg]
    have hle := testStatus_le_one b
    exact (by omega : ¬ testStatus b = 2)
  · intro hnone; exact (herror hnone).first ((condReturns host fuel).orLoop r (by omega))

/-! ### Conjunctions and disjunctions -/

theorem shortCircuit_conj (h : (shortCircuit host left st).1 = some true) :
    shortCircuit host (.conj left right) st =
      shortCircuit host right (shortCircuit host left st).2 := if_pos h

theorem shortCircuit_conj_left (h : (shortCircuit host left st).1 ≠ some true) :
    shortCircuit host (.conj left right) st = shortCircuit host left st := if_neg h

theorem shortCircuit_disj (h : (shortCircuit host left st).1 = some false) :
    shortCircuit host (.disj left right) st =
      shortCircuit host right (shortCircuit host left st).2 := if_pos h

theorem shortCircuit_disj_left (h : (shortCircuit host left st).1 ≠ some false) :
    shortCircuit host (.disj left right) st = shortCircuit host left st := if_neg h

theorem ErrorResult.conj_left (hleft : (shortCircuit host left st).1 = none)
    (h : ErrorResult host left { stop with and_ := true } st r) :
    ErrorResult host (.conj left right) stop st r := by
  have htree : shortCircuit host (.conj left right) st = shortCircuit host left st :=
    shortCircuit_conj_left (by rw [hleft]; exact nofun)
  have hstop : errorStop host (.conj left right) stop st =
      errorStop host left { stop with and_ := true } st := if_pos hleft
  constructor
  · rw [hstop, htree]; exact h.stands
  · rw [hstop, htree]; exact h.longer

theorem ErrorResult.disj_left (hleft : (shortCircuit host left st).1 = none)
    (h : ErrorResult host left ⟨false, true⟩ st r) :
    ErrorResult host (.disj left right) stop st r := by
  have htree : shortCircuit host (.disj left right) st = shortCircuit host left st :=
    shortCircuit_disj_left (by rw [hleft]; exact nofun)
  have hstop : errorStop host (.disj left right) stop st = errorStop host left ⟨false, true⟩ st :=
    if_pos hleft
  constructor
  · rw [hstop, htree]; exact h.stands
  · rw [hstop, htree]; exact h.longer

theorem ErrorResult.conj_right (hleft : (shortCircuit host left st).1 = some true)
    (h : ErrorResult host right stop (shortCircuit host left st).2 r)
    (hfuel : 4 * r.args.length + 1 ≤ fuel) :
    ∃ r', evalAndLoop host fuel r = some r' ∧ ErrorResult host (.conj left right) stop st r' := by
  have htree : shortCircuit host (.conj left right) st =
      shortCircuit host right (shortCircuit host left st).2 := shortCircuit_conj hleft
  have hstop : errorStop host (.conj left right) stop st =
      (errorStop host right stop (shortCircuit host left st).2).map fun s => { s with and_ := false } :=
    if_neg (by rw [hleft]; exact nofun)
  cases hright : errorStop host right stop (shortCircuit host left st).2 with
  | some s =>
    obtain ⟨hstatus, hstate, hstands⟩ := h.stands s hright
    obtain ⟨rest', heval, hstands'⟩ :=
      @Stands.skip host s r.args fuel r hstands (by rw [hstatus]; decide) rfl hfuel
    refine ⟨_, heval, ⟨fun s' hs' => ?_, fun hnone => ?_⟩⟩
    · rw [hstop, hright] at hs'
      cases hs'
      exact ⟨hstatus, hstate.trans (by rw [htree]), hstands'⟩
    · rw [hstop, hright] at hnone; cases hnone
  | none =>
    obtain ⟨r', hr', -, hk⟩ := (condReturns host fuel).andLoop r hfuel
    refine ⟨r', hr', ⟨fun s' hs' => ?_, fun _ => ?_⟩⟩
    · rw [hstop, hright] at hs'; cases hs'
    · rw [htree]; exact (h.longer hright).trans_le hk

theorem ErrorResult.disj_right (hleft : (shortCircuit host left st).1 = some false)
    (h : ErrorResult host right stop (shortCircuit host left st).2 r)
    (hfuel : 4 * r.args.length + 1 ≤ fuel) :
    ∃ r', evalOrLoop host fuel r = some r' ∧ ErrorResult host (.disj left right) stop st r' := by
  have htree : shortCircuit host (.disj left right) st =
      shortCircuit host right (shortCircuit host left st).2 := shortCircuit_disj hleft
  have hstop : errorStop host (.disj left right) stop st =
      (errorStop host right stop (shortCircuit host left st).2).bind fun s =>
        if s = ⟨false, true⟩ then none else some s :=
    if_neg (by rw [hleft]; exact nofun)
  rcases fuel with _ | fuel
  · omega
  obtain ⟨r', hr', -, hk⟩ := (condReturns host (fuel + 1)).orLoop r hfuel
  cases hright : errorStop host right stop (shortCircuit host left st).2 with
  | none =>
    refine ⟨r', hr', ⟨fun s' hs' => ?_, fun _ => ?_⟩⟩
    · rw [hstop, hright] at hs'; cases hs'
    · rw [htree]; exact (h.longer hright).trans_le hk
  | some s =>
    obtain ⟨hstatus, hstate, hstands⟩ := h.stands s hright
    by_cases hor : s = ⟨false, true⟩
    · -- the next operand is evaluated, as if this one were false
      subst hor
      refine ⟨r', hr', ⟨fun s' hs' => ?_, fun _ => ?_⟩⟩
      · rw [hstop, hright, bind_some, if_pos rfl] at hs'; cases hs'
      · obtain ⟨status, args, state⟩ := r
        cases hstands with
        | @or_ t stop' rest' ht hrest =>
          rw [length_cons] at hfuel
          have hfalse : ¬ status = 0 := by rw [show status = 2 from hstatus]; decide
          rw [evalOrLoop_next hfalse rfl] at hr'
          rcases fuel with _ | fuel
          · omega
          have hone := (@records_tree host fuel state t rest' (by omega)).and_ (by omega)
          obtain ⟨r₂, hr₂, hlonger⟩ := hone.bind
            ((condReturns host (fuel + 1)).and_ _ state (by omega)) fun r₃ hr₃ =>
              (condReturns host (fuel + 1)).orLoop r₃ (by omega)
          rw [hr₂] at hr'
          cases hr'
          rw [htree, ← show state = _ from hstate]
          exact hlonger
    · refine ⟨r, evalOrLoop_stop (hstands.head_ne_or hor), ⟨fun s' hs' => ?_, fun hnone => ?_⟩⟩
      · rw [hstop, hright, bind_some, if_neg hor] at hs'
        cases hs'
        exact ⟨hstatus, hstate.trans (by rw [htree]), hstands⟩
      · rw [hstop, hright, bind_some, if_neg hor] at hnone; cases hnone

theorem TermEval.conj (hright_factor : right.Respects .factor) (hleft : TermEval host left)
    (hright : FactorEval host right) : TermEval host (.conj left right) := by
  intro stop rest fuel st hstands hfuel
  rw [condArgs_conj] at hfuel ⊢
  obtain ⟨htruth, herror⟩ := hleft _ _ fuel st (.and_ hright_factor hstands) hfuel
  cases hvalue : (shortCircuit host left st).1 with
  | none =>
    have htree := @shortCircuit_conj_left host left right st (by rw [hvalue]; exact nofun)
    obtain ⟨r, hr, hresult⟩ := herror hvalue
    refine ⟨fun b hb => ?_, fun _ => ⟨r, hr, hresult.conj_left hvalue⟩⟩
    rw [htree, hvalue] at hb
    cases hb
  | some b₁ =>
    obtain ⟨fuel₁, hfuel₁, heval⟩ := htruth b₁ hvalue
    rw [length_cons] at hfuel₁
    rcases fuel₁ with _ | fuel₁
    · omega
    rw [heval]
    cases b₁ with
    | false =>
      have htree := @shortCircuit_conj_left host left right st (by rw [hvalue]; decide)
      rw [htree, hvalue, evalAndLoop_skip hright_factor Nat.one_ne_zero rfl hstands.ends (by omega)]
      rw [length_append] at hfuel₁
      refine ⟨fun b hb => ⟨fuel₁, by omega, ?_⟩, nofun⟩
      cases hb
      rfl
    | true =>
      have htree := @shortCircuit_conj host left right st hvalue
      obtain ⟨r, hr, htruth', herror'⟩ :=
        hright stop rest fuel₁ (shortCircuit host left st).2 hstands (by omega)
      obtain ⟨r₁, hr₁, hlength, -⟩ := (condReturns host fuel₁).not_ (condArgs right ++ rest)
        (shortCircuit host left st).2 (by omega)
      rw [hr] at hr₁
      cases hr₁
      rw [evalAndLoop_next rfl rfl, hr, bind_some]
      refine ⟨fun b hb => ⟨fuel₁, ?_, ?_⟩, fun hnone => ?_⟩
      · rw [length_append] at hfuel₁; omega
      · rw [htree] at hb ⊢; rw [htruth' b hb]
      · rw [htree] at hnone; exact (herror' hnone).conj_right hvalue (by omega)

theorem AnyEval.disj (hright_term : right.Respects .term) (hleft : AnyEval host left)
    (hright : TermEval host right) : AnyEval host (.disj left right) := by
  intro stop rest fuel st hstands hand hfuel
  rw [condArgs_disj] at hfuel ⊢
  obtain ⟨htruth, herror⟩ := hleft _ _ fuel st (.or_ hright_term hstands) rfl hfuel
  cases hvalue : (shortCircuit host left st).1 with
  | none =>
    have htree := @shortCircuit_disj_left host left right st (by rw [hvalue]; exact nofun)
    obtain ⟨r, hr, hresult⟩ := herror hvalue
    refine ⟨fun b hb => ?_, fun _ => ⟨r, hr, hresult.disj_left hvalue⟩⟩
    rw [htree, hvalue] at hb
    cases hb
  | some b₁ =>
    obtain ⟨fuel₁, hfuel₁, heval⟩ := htruth b₁ hvalue
    rw [length_cons] at hfuel₁
    rcases fuel₁ with _ | fuel₁
    · omega
    rw [heval]
    cases b₁ with
    | true =>
      have htree := @shortCircuit_disj_left host left right st (by rw [hvalue]; decide)
      rw [htree, hvalue, evalOrLoop_skip hright_term rfl rfl hstands.ends
        (hstands.head_ne_and hand) (by omega)]
      rw [length_append] at hfuel₁
      refine ⟨fun b hb => ⟨fuel₁, by omega, ?_⟩, nofun⟩
      cases hb
      rfl
    | false =>
      have htree := @shortCircuit_disj host left right st hvalue
      obtain ⟨r, hr, htruth', herror'⟩ :=
        @TermEval.whole host right stop rest fuel₁ (shortCircuit host left st).2 hright hstands hand
          (by omega)
      obtain ⟨r₁, hr₁, hlength, -⟩ := (condReturns host fuel₁).and_ (condArgs right ++ rest)
        (shortCircuit host left st).2 (by omega)
      rw [hr] at hr₁
      cases hr₁
      rw [evalOrLoop_next Nat.one_ne_zero rfl, hr, bind_some]
      refine ⟨fun b hb => ⟨fuel₁, ?_, ?_⟩, fun hnone => ?_⟩
      · rw [length_append] at hfuel₁; omega
      · rw [htree] at hb ⊢; rw [htruth' b hb]
      · rw [htree] at hnone; exact (herror' hnone).disj_right hvalue (by omega)

/-! ### Factors -/

theorem FactorEval.leaf (p : CondPrimary) : FactorEval host (.leaf p) := by
  intro stop rest fuel st hstands hfuel
  rcases fuel with _ | fuel
  · omega
  have hargs : condArgs (.leaf p) ++ rest = p.words ++ rest := rfl
  have hne : p.words ++ rest ≠ [] := cons_ne_nil _ _
  have hwords : p.words ≠ [] := cons_ne_nil _ _
  have hlength : ([] : List Text).length + p.words.length ≤ 16 := by
    rw [CondPrimary.words, length_nil, length_cons]
    have hmore := p.length_le
    omega
  have heval : evalNot host (fuel + 1) (condArgs (.leaf p) ++ rest) st =
      some ⟨(evaluatePrimary host p.words st).1, rest, (evaluatePrimary host p.words st).2⟩ := by
    rw [hargs, evalNot, if_neg hne, if_neg (p.head_ne rest).1, if_neg (p.head_ne rest).2,
      collectWords_closed p.closed_words hlength hstands.ends]
    exact if_neg hwords
  have hstatus := outcomeStatus_outcome (primaryEval_le_two host p.words st.shell st.err)
  refine ⟨_, heval, fun b hb => ?_, fun hnone => ⟨fun s hs => ?_, fun hs => ?_⟩⟩
  · have houtcome : outcomeOfStatus (evaluatePrimary host p.words st).1 = some b := hb
    rw [evaluatePrimary] at houtcome
    rw [houtcome] at hstatus
    show CondResult.mk _ _ _ = CondResult.mk _ _ _
    congr 1
    exact hstatus.symm
  · have houtcome : outcomeOfStatus (evaluatePrimary host p.words st).1 = none := hnone
    rw [evaluatePrimary] at houtcome
    rw [houtcome] at hstatus
    cases hs
    exact ⟨hstatus.symm, rfl, hstands⟩
  · cases hs

theorem FactorEval.neg (h : FactorEval host t) : FactorEval host (.neg t) := by
  intro stop rest fuel st hstands hfuel
  rw [condArgs_neg, length_cons] at hfuel
  rcases fuel with _ | fuel
  · omega
  obtain ⟨r, hr, htruth, herror⟩ := h stop rest fuel st hstands (by omega)
  have htree : shortCircuit host (.neg t) st =
      ((shortCircuit host t st).1.map not, (shortCircuit host t st).2) := rfl
  rw [condArgs_neg, evalNot, if_neg (cons_ne_nil _ _), head?_cons, if_pos rfl, tail_cons, hr,
    map_some, htree]
  refine ⟨_, rfl, fun b hb => ?_, fun hnone => ?_⟩
  · obtain ⟨b₁, hb₁, rfl⟩ := map_eq_some_iff.mp hb
    rw [htruth b₁ hb₁]
    cases b₁ <;> rfl
  · have hnone' : (shortCircuit host t st).1 = none := map_eq_none_iff.mp hnone
    have hresult := herror hnone'
    refine ⟨fun s hs => ?_, fun hs => ?_⟩
    · have hstands' := hresult.stands s hs
      rw [if_pos hstands'.1]
      exact hstands'
    · have hlonger := hresult.longer hs
      split_ifs <;> exact hlonger

theorem FactorEval.group (h : AnyEval host t) : FactorEval host (.group t) := by
  intro stop rest fuel st hstands hfuel
  rw [condArgs_group, length_cons] at hfuel
  rcases fuel with _ | fuel
  · omega
  obtain ⟨htruth, herror⟩ := h _ _ fuel st (.close rest) rfl (by omega)
  rw [condArgs_group, evalNot, if_neg (cons_ne_nil _ _), head?_cons, if_neg (by decide),
    if_pos rfl, tail_cons]
  have htree : shortCircuit host (.group t) st = shortCircuit host t st := rfl
  rw [htree]
  cases hvalue : (shortCircuit host t st).1 with
  | some b =>
    obtain ⟨fuel', hfuel', heval⟩ := htruth b hvalue
    rcases fuel' with _ | fuel'
    · omega
    have hle := testStatus_le_one b
    have hhead : (")".toList :: rest).head? ≠ some "||".toList := head_ne (by decide) rest
    have hclose : (")".toList :: rest).head? = some ")".toList := rfl
    rw [heval, evalOrLoop_stop hhead, map_some]
    dsimp only
    rw [if_neg (by omega), if_neg (not_not_intro hclose)]
    refine ⟨_, rfl, fun b' hb' => ?_, fun hnone => ?_⟩
    · cases hb'; rfl
    · cases hnone
  | none =>
    obtain ⟨r, hr, hresult⟩ := herror hvalue
    rw [hr, map_some]
    refine ⟨_, rfl, fun b hb => ?_, fun _ => ⟨fun s hs => ?_, fun hs => ?_⟩⟩
    · cases hb
    · have hstands' := hresult.stands s hs
      rw [if_pos hstands'.1]
      exact hstands'
    · have hlonger := hresult.longer hs
      split_ifs <;> exact hlonger

/-- **Every tree is evaluated**, at the levels where it can stand. -/
theorem treeEval (host : PatternHost) (t : BoolTree.Tree CondPrimary) :
    (t.Respects .factor → FactorEval host t) ∧ (t.Respects .term → TermEval host t) ∧
      (t.Respects .any → AnyEval host t) :=
  BoolTree.Tree.level_rule FactorEval.leaf FactorEval.neg FactorEval.group FactorEval.term TermEval.conj
    TermEval.any AnyEval.disj t

end Evaluation

/-! ## 5. The law -/

def runDoubleBracket (host : PatternHost) (t : BoolTree.Tree CondPrimary) (sh : VarStore) :
    Option CondOutcome :=
  commandDoubleLbracket host (condArgs (t.bracket .any) ++ ["]]".toList]) sh

/-- **`[[ ... ]]` is short-circuit evaluation from the left**: only required primaries are
    evaluated, the shell is left as they leave it, and the first that fails makes the command return
    2. -/
def DoubleBracketLaw (host : PatternHost) (t : BoolTree.Tree CondPrimary) (sh : VarStore) : Prop :=
  ∃ result, runDoubleBracket host t sh = some result ∧
    result.status = outcomeStatus (shortCircuit host t ⟨sh, [], []⟩).1 ∧
    result.shell = (shortCircuit host t ⟨sh, [], []⟩).2.shell ∧
    result.evaluated = (shortCircuit host t ⟨sh, [], []⟩).2.evaluated

/-- No required primary fails, or the loop of `double_bracket_eval_or` does not go on behind the
    first that does. -/
def ErrorKept (host : PatternHost) (t : BoolTree.Tree CondPrimary) (sh : VarStore) : Prop :=
  (shortCircuit host t ⟨sh, [], []⟩).1 = none →
    errorStop host (t.bracket .any) ⟨false, false⟩ ⟨sh, [], []⟩ ≠ none

/-- **A tree is evaluated as it should be exactly if its error is kept.** -/
theorem doubleBracketLaw_iff (host : PatternHost) (t : BoolTree.Tree CondPrimary) (sh : VarStore) :
    DoubleBracketLaw host t sh ↔ ErrorKept host t sh := by
  have htree : shortCircuit host (t.bracket .any) ⟨sh, [], []⟩ = shortCircuit host t ⟨sh, [], []⟩ :=
    BoolTree.Tree.run_bracket (primaryOutcome host) t .any _
  have hnil : condArgs (t.bracket .any) ++ [] = condArgs (t.bracket .any) := append_nil _
  obtain ⟨htruth, herror⟩ := (treeEval host (t.bracket .any)).2.2 (t.bracket_respects .any) _ []
    (4 * (condArgs (t.bracket .any)).length + 4) ⟨sh, [], []⟩ .nil rfl (by rw [hnil])
  rw [hnil, htree] at htruth herror
  have hrun : runDoubleBracket host t sh =
      (evalOr host (4 * (condArgs (t.bracket .any)).length + 4) (condArgs (t.bracket .any))
        ⟨sh, [], []⟩).map CondResult.finish := by
    rw [runDoubleBracket, commandDoubleLbracket, getLast?_concat, if_neg fun h => h rfl,
      dropLast_concat, if_neg (condArgs_ne_nil _)]
  cases hvalue : (shortCircuit host t ⟨sh, [], []⟩).1 with
  | some b =>
    obtain ⟨fuel, hfuel, heval⟩ := htruth b hvalue
    rcases fuel with _ | fuel
    · omega
    have hhead : ([] : List Text).head? ≠ some "||".toList := by simp
    rw [heval, evalOrLoop_stop hhead] at hrun
    refine iff_of_true ⟨_, hrun, ?_, rfl, rfl⟩ fun hnone => ?_
    · rw [hvalue]; rfl
    · rw [hvalue] at hnone; cases hnone
  | none =>
    obtain ⟨r, hr, hresult⟩ := herror hvalue
    rw [hr, map_some] at hrun
    constructor
    · intro ⟨result, hresult', _, _, hevaluated⟩ _ hstop
      have hlonger := hresult.longer hstop
      rw [hrun] at hresult'
      cases hresult'
      rw [htree, ← hevaluated, r.finish_state.2] at hlonger
      exact Nat.lt_irrefl _ hlonger
    · intro hkept
      obtain ⟨s, hs⟩ := ne_none_iff_exists'.mp (hkept hvalue)
      obtain ⟨hstatus, hstate, -⟩ := hresult.stands s hs
      rw [htree] at hstate
      refine ⟨r.finish, hrun, ?_, ?_, ?_⟩
      · rw [hvalue]; exact CondResult.finish_error hstatus
      · rw [r.finish_state.1, hstate]
      · rw [r.finish_state.2, hstate]

/-- A shell without variables, and a host whose patterns stand for themselves. -/
def emptyStore : VarStore := ⟨.empty, .empty, [], [], noEnv⟩

def plainHost : PatternHost :=
  { emptyHost with
    fnmatch := fun pattern text => decide (pattern = text)
    Regex := Text
    regcomp := .ok
    subexpressions := fun _ => 0
    regexec := fun regex text _ => if regex = text then .found [⟨0, text.length⟩] else .noMatch }

theorem closedWords_of_forall {words : List Text} (h : ∀ word ∈ words, word ∉ condSpecial) :
    ClosedWords 0 words := by
  induction words with
  | nil => rfl
  | cons word words ih =>
    rw [forall_mem_cons] at h
    have hword := h.1
    rw [mem_condSpecial, not_or, not_or] at hword
    have hdepth : wordDepth 0 word = 0 := by
      rw [wordDepth, if_neg hword.2.1, if_neg fun hclose => absurd hclose.2 (Nat.lt_irrefl 0)]
    refine ⟨fun hend => hword.2.2 hend.2, ?_⟩
    rw [hdepth]
    exact ih h.2

def wordsPrimary (a op b : Text) (h : ∀ word ∈ [a, op, b], word ∉ condSpecial) : BoolTree.Tree CondPrimary :=
  .leaf ⟨a, [op, b], h a List.mem_cons_self,
    closedWords_of_forall fun word hword => h word (List.mem_cons_of_mem a hword), by simp⟩

def overwritten : BoolTree.Tree CondPrimary :=
  .disj (.disj (wordsPrimary "a".toList "==".toList "b".toList (by decide))
    (wordsPrimary "x".toList "-eq".toList "1".toList (by decide)))
    (wordsPrimary "c".toList "==".toList "c".toList (by decide))

/-- `[[ a == b || x -eq 1 || c == c ]]` is true. -/
theorem not_doubleBracketLaw : ¬ DoubleBracketLaw plainHost overwritten emptyStore := by
  intro ⟨result, hresult, hstatus, _⟩
  have hrun : (runDoubleBracket plainHost overwritten emptyStore).map CondOutcome.status = some 0 := rfl
  have hshould : outcomeStatus (shortCircuit plainHost overwritten ⟨emptyStore, [], []⟩).1 = 2 := rfl
  rw [hresult, map_some, hstatus, hshould] at hrun
  cases hrun

end Arksh
