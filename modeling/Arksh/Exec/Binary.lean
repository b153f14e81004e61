/-
  Subject: The evaluator of binary expressions in `src/executor.c`.

  The operators of a text are collected, every operand between them is evaluated as a line of its
  own, and two passes put them together: `*` and `/` from the left, then what is left. What
  applying an operator does is a parameter.

  Invariant of the first pass: in front of the place `j` only `+` and `-` are left, and what the
  pass makes of the rest does not depend on what is in front.
-/
import Arksh.Lib.Precedence
import Arksh.Parse.Value

namespace Arksh

open CText List

/-! ## 1. The operators of a text -/

def maxBinopTerms : Nat := 32

/-- The loop of `collect_top_level_binary_ops`, from the place `i`. -/
def collectOps : Nat → List (Char × Bool) → List (Nat × Char)
  | _, [] => []
  | i, (c, top) :: rest =>
    if top = false then collectOps (i + 1) rest
    else if c = '+' ∨ c = '*' ∨ c = '/' then (i, c) :: collectOps (i + 1) rest
    else if c = '-' then
      match rest with
      | (d, dTop) :: rest' =>
        -- `->` and `--` are passed over
        if d = '>' ∨ d = '-' then collectOps (i + 2) rest'
        else (i, '-') :: collectOps (i + 1) ((d, dTop) :: rest')
      | [] => [(i, '-')]
    else collectOps (i + 1) rest

def collectTopLevelBinaryOps (text : Text) (maxOps : Nat) : Option (List (Nat × Char)) :=
  let found := collectOps 0 (markedChars ⟨false, false⟩ text)
  if found.length > maxOps then none else some found

def copyTrimmedRange (text : Text) (start stop : Nat) : Text :=
  trimCopy arkshMaxLine ((text.drop start).take (min (stop - start) (arkshMaxLine - 1)))

/-- The operands between the operators, from the place `prev`. -/
def binarySegments (text : Text) : Nat → List (Nat × Char) → List Text
  | prev, [] => [copyTrimmedRange text prev text.length]
  | prev, (place, _) :: rest =>
    copyTrimmedRange text prev place :: binarySegments text (place + 1) rest

theorem length_binarySegments (text : Text) (prev : Nat) (found : List (Nat × Char)) :
    (binarySegments text prev found).length = found.length + 1 := by
  induction found generalizing prev with
  | nil => rfl
  | cons pair rest ih =>
    obtain ⟨place, op⟩ := pair
    show (binarySegments text (place + 1) rest).length + 1 = _
    rw [ih]
    rfl

/-! ## 2. The arrays -/

@[ext]
structure BinaryTerms (V : Type*) where
  terms : List V
  ops : List Char
  size : terms.length = ops.length + 1

variable {V E : Type*}

/-- The operator `j` is applied; what is behind it moves one place to the left. -/
def BinaryTerms.applyAt (apply : Char → V → V → Except E V) (t : BinaryTerms V) (j : Nat)
    (h : j < t.ops.length) : Except E (BinaryTerms V) :=
  have size := t.size
  (apply t.ops[j] t.terms[j] t.terms[j + 1]).map fun v =>
    { terms := (t.terms.set j v).eraseIdx (j + 1)
      ops := t.ops.eraseIdx j
      size := by
        rw [List.length_eraseIdx_of_lt (by rw [List.length_set]; omega), List.length_set,
          List.length_eraseIdx_of_lt h]
        omega }

/-- The operators of the first pass. -/
def isMulDiv (op : Char) : Bool := op = '*' || op = '/'

/-- The loop for `*` and `/`; every turn passes an operator or removes one. -/
def mulDivPass (apply : Char → V → V → Except E V) :
    Nat → Nat → BinaryTerms V → Except E (BinaryTerms V)
  | 0, _, t => .ok t
  | turns + 1, j, t =>
    if h : j < t.ops.length then
      if isMulDiv t.ops[j] then (t.applyAt apply j h).bind (mulDivPass apply turns j)
      else mulDivPass apply turns (j + 1) t
    else .ok t

/-- The loop for what is left; every turn removes an operator. -/
def addSubPass (apply : Char → V → V → Except E V) :
    Nat → BinaryTerms V → Except E (BinaryTerms V)
  | 0, t => .ok t
  | turns + 1, t =>
    if h : 0 < t.ops.length then (t.applyAt apply 0 h).bind (addSubPass apply turns)
    else .ok t

/-- Both passes; the result is `terms[0]`. -/
def reduceTerms (apply : Char → V → V → Except E V) (t : BinaryTerms V) : Except E V :=
  (mulDivPass apply t.ops.length 0 t).bind fun products =>
    (addSubPass apply products.ops.length products).map fun sum =>
      have size := sum.size
      sum.terms[0]

/-- The operands are evaluated from the left, up to one that fails. -/
def evaluateSegments (evaluateLine : Text → Except E V) : List Text → Except E (List V)
  | [] => .ok []
  | segment :: segments =>
    (evaluateLine segment).bind fun v => (evaluateSegments evaluateLine segments).map (v :: ·)

theorem length_evaluateSegments {evaluateLine : Text → Except E V} {segments : List Text}
    {terms : List V} (h : evaluateSegments evaluateLine segments = .ok terms) :
    terms.length = segments.length := by
  induction segments generalizing terms with
  | nil => cases h; rfl
  | cons segment segments ih =>
    rw [evaluateSegments] at h
    cases hv : evaluateLine segment with
    | error e => rw [hv] at h; cases h
    | ok v =>
      cases hrest : evaluateSegments evaluateLine segments with
      | error e => rw [hv, hrest] at h; cases h
      | ok rest =>
        rw [hv, hrest] at h
        cases h
        exact congrArg (· + 1) (ih hrest)

/-- `evaluate_binary_expr_iterative`, where `evaluateLine` is `evaluate_line_value_heap` and `apply`
    is `apply_binary_op`. -/
def evaluateBinaryExprIterative (evaluateLine : Text → Except String V)
    (apply : Char → V → V → Except String V) (text : Text) : Except String V :=
  match collectTopLevelBinaryOps text (maxBinopTerms - 1) with
  | none => .error "too many operators in arithmetic expression"
  | some [] => evaluateLine text
  | some found =>
    match h : evaluateSegments evaluateLine (binarySegments text 0 found) with
    | .error message => .error message
    | .ok terms =>
      reduceTerms apply
        { terms := terms
          ops := found.map Prod.snd
          size := by rw [length_evaluateSegments h, length_binarySegments, List.length_map] }

/-! ## 3. The passes over a chain -/

namespace BinaryTerms

/-- The arrays with `front` in front of the operand `v`, and `rest` behind it. -/
def ofChain (front : List (V × Char)) (v : V) (rest : List (Char × V)) : BinaryTerms V where
  terms := front.map Prod.fst ++ v :: rest.map Prod.snd
  ops := front.map Prod.snd ++ rest.map Prod.fst
  size := by
    simp only [List.length_append, List.length_map, List.length_cons]
    omega

theorem ofChain_append (front : List (V × Char)) (a : V) (op : Char) (b : V)
    (rest : List (Char × V)) :
    ofChain (front ++ [(a, op)]) b rest = ofChain front a ((op, b) :: rest) := by
  apply BinaryTerms.ext <;> simp [ofChain]

theorem length_ops_ofChain (front : List (V × Char)) (v : V) (rest : List (Char × V)) :
    (ofChain front v rest).ops.length = front.length + rest.length := by
  simp [ofChain]

theorem exists_ofChain (t : BinaryTerms V) : ∃ v rest, t = ofChain [] v rest := by
  obtain ⟨terms, ops, size⟩ := t
  cases terms with
  | nil => exact absurd size (by simp)
  | cons v terms =>
    have hlength : terms.length = ops.length := by simpa using size
    refine ⟨v, ops.zip terms, BinaryTerms.ext ?_ ?_⟩
    · show v :: terms = v :: (ops.zip terms).map Prod.snd; rw [map_snd_zip hlength.le]
    · show ops = (ops.zip terms).map Prod.fst; rw [map_fst_zip hlength.ge]

theorem applyAt_ofChain (apply : Char → V → V → Except E V) (front : List (V × Char)) (a : V)
    (op : Char) (b : V) (rest : List (Char × V))
    (h : front.length < (ofChain front a ((op, b) :: rest)).ops.length) :
    (ofChain front a ((op, b) :: rest)).applyAt apply front.length h =
      (apply op a b).map fun c => ofChain front c rest := by
  have hop : (ofChain front a ((op, b) :: rest)).ops[front.length] = op := by simp [ofChain]
  have hsize := (ofChain front a ((op, b) :: rest)).size
  have hleft : (ofChain front a ((op, b) :: rest)).terms[front.length] = a := by simp [ofChain]
  have hright : (ofChain front a ((op, b) :: rest)).terms[front.length + 1] = b := by
    simp [ofChain]
  unfold applyAt
  dsimp only
  rw [hop, hleft, hright]
  cases apply op a b with
  | error e => rfl
  | ok c =>
    refine congrArg Except.ok (BinaryTerms.ext ?_ ?_) <;> simp [ofChain, eraseIdx_append]

end BinaryTerms

variable {apply : Char → V → V → Except E V}

open BinaryTerms

/-- **The first pass, from a place with a chain behind it.** -/
theorem mulDivPass_ofChain (front : List (V × Char)) (v : V) (rest : List (Char × V)) :
    mulDivPass apply rest.length front.length (ofChain front v rest) =
      (Precedence.tightPass isMulDiv apply v rest).map fun (a, sums) => ofChain front a sums := by
  induction rest generalizing front v with
  | nil => rfl
  | cons pair rest ih =>
    obtain ⟨op, b⟩ := pair
    have hlt : front.length < (ofChain front v ((op, b) :: rest)).ops.length := by
      rw [length_ops_ofChain, length_cons]
      omega
    have hop : (ofChain front v ((op, b) :: rest)).ops[front.length] = op := by simp [ofChain]
    rw [length_cons, mulDivPass, dif_pos hlt, hop, Precedence.tightPass]
    by_cases hmul : isMulDiv op = true
    · rw [if_pos hmul, if_pos hmul, applyAt_ofChain]
      cases apply op v b with
      | error e => rfl
      | ok c => exact ih front c
    · rw [if_neg hmul, if_neg hmul, ← ofChain_append]
      have hnext := ih (front ++ [(v, op)]) b
      rw [length_append, length_singleton] at hnext
      rw [hnext]
      cases Precedence.tightPass isMulDiv apply b rest with
      | error e => rfl
      | ok p => exact congrArg Except.ok (ofChain_append front v op p.1 p.2)

/-- **The second pass.** -/
theorem addSubPass_ofChain (v : V) (rest : List (Char × V)) :
    addSubPass apply rest.length (ofChain [] v rest) =
      (Precedence.loosePass apply v rest).map fun a => ofChain [] a [] := by
  induction rest generalizing v with
  | nil => rfl
  | cons pair rest ih =>
    obtain ⟨op, b⟩ := pair
    have hlt : 0 < (ofChain [] v ((op, b) :: rest)).ops.length := by
      rw [length_ops_ofChain, length_cons]
      omega
    have happly : (ofChain [] v ((op, b) :: rest)).applyAt apply 0 hlt = _ :=
      applyAt_ofChain apply [] v op b rest hlt
    rw [length_cons, addSubPass, dif_pos hlt, Precedence.loosePass, happly]
    cases apply op v b with
    | error e => rfl
    | ok c => exact ih c

theorem reduceTerms_ofChain (v : V) (rest : List (Char × V)) :
    reduceTerms apply (ofChain [] v rest) = Precedence.passes isMulDiv apply v rest := by
  have hlength : (ofChain [] v rest).ops.length = rest.length := by
    rw [length_ops_ofChain]
    exact Nat.zero_add _
  rw [reduceTerms, Precedence.passes, hlength]
  have hfirst := @mulDivPass_ofChain V E apply [] v rest
  rw [length_nil] at hfirst
  rw [hfirst]
  cases Precedence.tightPass isMulDiv apply v rest with
  | error e => rfl
  | ok p =>
    obtain ⟨a, sums⟩ := p
    show (addSubPass apply (ofChain [] a sums).ops.length (ofChain [] a sums)).map _ = _
    have hsums : (ofChain [] a sums).ops.length = sums.length := by
      rw [length_ops_ofChain]
      exact Nat.zero_add _
    rw [hsums, addSubPass_ofChain]
    show _ = Precedence.loosePass apply a sums
    cases Precedence.loosePass apply a sums <;> rfl

/-! ## 4. The tree -/

/-- The arrays hold the operands and the operators of a tree, from the left. -/
def BinaryTerms.IsChainOf (t : BinaryTerms V) (tree : Precedence.Tree V Char) : Prop :=
  t.terms = tree.first :: tree.rest.map Prod.snd ∧ t.ops = tree.rest.map Prod.fst

theorem BinaryTerms.isChainOf_iff {t : BinaryTerms V} {tree : Precedence.Tree V Char} :
    t.IsChainOf tree ↔ t = ofChain [] tree.first tree.rest := by
  rw [BinaryTerms.ext_iff]
  rfl

theorem BinaryTerms.ofChain_inj {v w : V} {rest rest' : List (Char × V)}
    (h : ofChain [] v rest = ofChain [] w rest') : v = w ∧ rest = rest' := by
  obtain ⟨hterms, hops⟩ := BinaryTerms.ext_iff.mp h
  obtain ⟨hv, hsnd⟩ := cons.inj hterms
  have hrest : rest = (ofChain [] w rest').ops.zip (rest'.map Prod.snd) := zip_of_prod hops hsnd
  exact ⟨hv, hrest.trans (zip_of_prod rfl rfl).symm⟩

/-- **The evaluator of binary expressions evaluates the tree of its chain**: there is one in which
    `*` and `/` bind tighter and all associate to the left, the two passes give its value, and they
    fail exactly where an application inside of it does. -/
theorem reduceTerms_tree (apply : Char → V → V → Except E V) (t : BinaryTerms V) :
    ∃ tree : Precedence.Tree V Char,
      (∀ other, other.Respects isMulDiv ∧ t.IsChainOf other ↔ other = tree) ∧
      (∀ v, reduceTerms apply t = .ok v ↔ tree.eval apply = .ok v) ∧
      ((∃ e, reduceTerms apply t = .error e) ↔ tree.FailsWithin apply) := by
  obtain ⟨v, rest, rfl⟩ := t.exists_ofChain
  obtain ⟨tree, ⟨hshape, rfl, rfl⟩, hunique⟩ := Precedence.existsUnique_respects isMulDiv v rest
  refine ⟨tree, fun other => ⟨?_, ?_⟩, fun w => ?_, ?_⟩
  · rintro ⟨hother, hchain⟩
    obtain ⟨hfirst, hrest⟩ := ofChain_inj (isChainOf_iff.mp hchain)
    exact hunique other ⟨hother, hfirst.symm, hrest.symm⟩
  · rintro rfl; exact ⟨hshape, isChainOf_iff.mpr rfl⟩
  · rw [reduceTerms_ofChain]; exact Precedence.passes_ok_iff hshape
  · rw [reduceTerms_ofChain]; exact Precedence.passes_fail_iff hshape

/-! ## 5. The evaluator on the operators of a text -/

section Evaluator

variable {evaluateLine : Text → Except String V} {applyOp : Char → V → V → Except String V}
  {text : Text} {found : List (Nat × Char)}

theorem evaluateBinaryExprIterative_ok {v : V} {rest : List V}
    (hcollect : collectTopLevelBinaryOps text (maxBinopTerms - 1) = some found) (hne : found ≠ [])
    (hterms : evaluateSegments evaluateLine (binarySegments text 0 found) = .ok (v :: rest)) :
    evaluateBinaryExprIterative evaluateLine applyOp text =
      Precedence.passes isMulDiv applyOp v ((found.map Prod.snd).zip rest) := by
  have hlength := length_evaluateSegments hterms
  rw [length_binarySegments, length_cons] at hlength
  have hsize : (found.map Prod.snd).length = rest.length := by rw [length_map]; omega
  have hchain : BinaryTerms.mk (v :: rest) (found.map Prod.snd) (by rw [hsize]; rfl) =
      ofChain [] v ((found.map Prod.snd).zip rest) := by
    apply BinaryTerms.ext
    · show v :: rest = v :: ((found.map Prod.snd).zip rest).map Prod.snd; rw [map_snd_zip hsize.ge]
    · show found.map Prod.snd = ((found.map Prod.snd).zip rest).map Prod.fst
      rw [map_fst_zip hsize.le]
  rw [evaluateBinaryExprIterative, hcollect]
  split
  · rename_i hnone; cases hnone
  · rename_i hnil; exact (hne (Option.some.inj hnil)).elim
  · rename_i found' _ hsome
    obtain rfl := Option.some.inj hsome
    split
    · rename_i herror
      rw [hterms] at herror
      cases herror
    · rename_i terms hok
      obtain rfl := Except.ok.inj (hok.symm.trans hterms)
      rw [hchain, reduceTerms_ofChain]

theorem evaluateBinaryExprIterative_error {message : String}
    (hcollect : collectTopLevelBinaryOps text (maxBinopTerms - 1) = some found) (hne : found ≠ [])
    (hterms : evaluateSegments evaluateLine (binarySegments text 0 found) = .error message) :
    evaluateBinaryExprIterative evaluateLine applyOp text = .error message := by
  rw [evaluateBinaryExprIterative, hcollect]
  split
  · rename_i hnone; cases hnone
  · rename_i hnil; exact (hne (Option.some.inj hnil)).elim
  · rename_i found' _ hsome
    obtain rfl := Option.some.inj hsome
    split
    · rename_i herror
      rw [hterms] at herror
      cases herror
      rfl
    · rename_i terms hok
      rw [hterms] at hok
      cases hok

end Evaluator

end Arksh
