/-
  Subject: The parser of `evaluate_arith` on the texts of trees.

  Every level decides from one or two characters whether an operator is its own. `Stops` says of
  what stands behind a text that no level up to a given one goes on there; with it the parser reads
  a text of a tree, all of it, and computes every operand from the left.
-/
import Arksh.Expand.ArithTree
import Mathlib.Data.List.DropRight
import Mathlib.Data.List.Find

namespace Arksh

open CText Scan List

/-! ## 1. The levels -/

/-- The tables of the levels. -/
def operatorsAt : Nat → List ArithOperator
  | 3 => [ArithOp.mul.operator, ArithOp.div.operator, ArithOp.mod.operator]
  | 4 => [ArithOp.add.operator, ArithOp.sub.operator]
  | 5 => [ArithOp.shl.operator, ArithOp.shr.operator]
  | 6 => [ArithOp.le.operator, ArithOp.ge.operator, ArithOp.lt.operator, ArithOp.gt.operator]
  | 7 => [ArithOp.eq.operator, ArithOp.ne.operator]
  | 8 => [ArithOp.bitAnd.operator]
  | 9 => [ArithOp.bitXor.operator]
  | 10 => [ArithOp.bitOr.operator]
  | 11 => [ArithOp.logicalAnd.operator]
  | 12 => [ArithOp.logicalOr.operator]
  | _ => []

def levelAt (primary : ArithParser) : Nat → ArithParser
  | 0 => primary
  | 1 => arithUnary primary
  | 2 => fun t => arithPower (arithUnary primary) t.length t
  | h + 3 =>
    if h = 10 then arithTernary (levelAt primary (h + 2))
    else arithLevel (levelAt primary (h + 2)) (operatorsAt (h + 3))

def primaryAt (getVar : Text → Option Text) (depth : Nat) : ArithParser :=
  arithPrimary getVar (arithExpr getVar depth) (evaluateWith (arithExpr getVar depth))

variable {k fuel h : Nat} {w rest v t u t₁ : Text} {op : ArithOp} {next operand : ArithParser}

section

variable (primary : ArithParser)

theorem levelAt_binary (hk : k + 3 ≤ 12) :
    levelAt primary (k + 3) = arithLevel (levelAt primary (k + 2)) (operatorsAt (k + 3)) := by
  rw [levelAt, if_neg (by omega)]

theorem levelAt_operand : levelAt primary 12 = arithOperand primary := by
  iterate 10 rw [levelAt_binary _ (by decide)]
  rfl

theorem levelAt_ternary : levelAt primary 13 = arithTernary (levelAt primary 12) := by
  rw [levelAt, if_pos rfl]

end

theorem levelAt_expr (getVar : Text → Option Text) (depth : Nat) :
    levelAt (primaryAt getVar depth) 13 = arithExpr getVar (depth + 1) := by
  rw [levelAt_ternary, levelAt_operand, arithExpr, primaryAt]

/-! ## 2. White space -/

variable {c : Char}

theorem arithSkipWs_cons (hc : isspace c = false) (t : Text) :
    arithSkipWs (c :: t) = c :: t := by simp [arithSkipWs, hc]

theorem arithSkipWs_blank (hw : Blank w) (t : Text) : arithSkipWs (w ++ t) = arithSkipWs t := by
  unfold arithSkipWs
  rw [dropWhile_append_of_pos hw]

theorem arithSkipWs_idem (t : Text) : arithSkipWs (arithSkipWs t) = arithSkipWs t :=
  dropWhile_idempotent _ _

theorem arithSkipWs_length_le (t : Text) : (arithSkipWs t).length ≤ t.length :=
  (dropWhile_suffix _).length_le

/-! ## 3. What stands behind a text -/

variable {s : Text}

/-- A text that is nothing or starts with white space. -/
def Gapped (s : Text) : Prop := ∀ c ∈ s.head?, isspace c = true

theorem isPrefixOf_append {p s : Text} (hp : ∀ a ∈ p, isspace a = false) (hs : Gapped s) :
    ∀ t : Text, p.isPrefixOf (t ++ s) = p.isPrefixOf t := by
  induction p with
  | nil => intro t; simp
  | cons a p ih =>
    intro t
    cases t with
    | nil =>
      cases s with
      | nil => rfl
      | cons c s =>
        have hne : a ≠ c := by
          intro heq
          have hspace := hs c rfl
          rw [← heq, hp a mem_cons_self] at hspace
          cases hspace
        simp [List.isPrefixOf, hne]
    | cons b t =>
      simp [List.isPrefixOf, ih fun x hx => hp x (mem_cons_of_mem _ hx)]

/-- The operators have no white space, and none is ruled out by it. -/
def ArithOperator.Visible (o : ArithOperator) : Prop :=
  o.lexeme ≠ [] ∧ (∀ a ∈ o.lexeme, isspace a = false) ∧ ∀ a ∈ o.notBefore, isspace a = false

theorem operator_visible (op : ArithOp) : op.operator.Visible := by
  cases op <;> simp [ArithOp.operator, ArithOperator.Visible, isspace]

variable {o : ArithOperator}

theorem exists_of_mem_operatorsAt (h : o ∈ operatorsAt k) :
    ∃ op : ArithOp, o = op.operator ∧ op.height = k := by
  unfold operatorsAt at h
  split at h <;> simp only [mem_cons, not_mem_nil, or_false] at h
  case h_1 => rcases h with rfl | rfl | rfl <;> exact ⟨_, rfl, rfl⟩
  case h_2 => rcases h with rfl | rfl <;> exact ⟨_, rfl, rfl⟩
  case h_3 => rcases h with rfl | rfl <;> exact ⟨_, rfl, rfl⟩
  case h_4 => rcases h with rfl | rfl | rfl | rfl <;> exact ⟨_, rfl, rfl⟩
  case h_5 => rcases h with rfl | rfl <;> exact ⟨_, rfl, rfl⟩
  all_goals exact ⟨_, h, rfl⟩

theorem stands_append (ho : o.Visible) (hs : Gapped s) (t : Text) :
    o.stands (t ++ s) = o.stands t := by
  obtain ⟨-, hlexeme, hnot⟩ := ho
  unfold ArithOperator.stands
  rw [isPrefixOf_append hlexeme hs]
  cases hstands : o.lexeme.isPrefixOf t with
  | false => rfl
  | true =>
    obtain ⟨u, rfl⟩ := isPrefixOf_iff_prefix.mp hstands
    rw [append_assoc, drop_left, drop_left]
    cases u with
    | cons c u => rfl
    | nil =>
      cases s with
      | nil => rfl
      | cons c s =>
        have hspace := hs c rfl
        cases hbefore : o.notBefore with
        | none => rfl
        | some d =>
          have hd := hnot d hbefore
          have hne : c ≠ d := by
            rintro rfl
            rw [hd] at hspace
            cases hspace
          have hfirst : (some c != some d) = true := bne_iff_ne.mpr (by simp [hne])
          exact hfirst

theorem stands_gap (ho : o.Visible) (hc : isspace c = true) (l t : Text) :
    o.stands (l ++ c :: t) = o.stands (l ++ [' ']) := by
  have hgapped : Gapped (c :: t) := by simpa [Gapped] using hc
  have hspace : Gapped [' '] := by simp [Gapped, isspace]
  rw [stands_append ho hgapped, stands_append ho hspace]

theorem lexeme_stands : ∀ op : ArithOp,
    (∀ op' : ArithOp, op'.height < op.height → op'.operator.stands (op.lexeme ++ [' ']) = false) ∧
    (operatorsAt op.height).find? (·.stands (op.lexeme ++ [' '])) = some op.operator := by
  intro op
  refine ⟨fun op' => ?_, ?_⟩
  · cases op <;> cases op' <;> decide
  · cases op <;> rfl

/-- What ends an operand: white space, a closing parenthesis, or the end. -/
def Delimits (rest : Text) : Prop := ∀ c ∈ rest.head?, isspace c = true ∨ c = ')'

theorem Gapped.delimits (h : Gapped s) : Delimits s := fun c hc => .inl (h c hc)

/-- No level up to `h` goes on in front of a text. -/
structure Stops (h : Nat) (rest : Text) : Prop where
  delimits : Delimits rest
  power : ∀ t, arithSkipWs rest = '*' :: '*' :: t → h < 2
  operators : ∀ k ≤ h, ∀ o ∈ operatorsAt k, o.stands (arithSkipWs rest) = false
  question : ∀ t, arithSkipWs rest = '?' :: t → h < 13

theorem Stops.mono (hs : Stops k rest) (hle : h ≤ k) : Stops h rest where
  delimits := hs.delimits
  power t ht := lt_of_le_of_lt hle (hs.power t ht)
  operators j hj := hs.operators j (hj.trans hle)
  question t ht := lt_of_le_of_lt hle (hs.question t ht)

theorem delimits_gap (hv : Gap v) (t : Text) : Delimits (v ++ t) := by
  obtain ⟨hne, hblank⟩ := hv
  cases v with
  | nil => exact absurd rfl hne
  | cons c v =>
    intro d hd
    obtain rfl : c = d := by simpa using hd
    exact Or.inl (hblank c mem_cons_self)

theorem stands_of_head (hc : c ∈ ['?', ':', ')']) (ho : o ∈ operatorsAt k) (t : Text) :
    o.stands (c :: t) = false := by
  obtain ⟨op, rfl, -⟩ := exists_of_mem_operatorsAt ho
  simp only [mem_cons, not_mem_nil, or_false] at hc
  rcases hc with rfl | rfl | rfl <;> cases op <;> rfl

theorem stops_blank (hw : Blank w) (h : Nat) : Stops h w := by
  have hskip : arithSkipWs w = [] := by
    have happend := arithSkipWs_blank hw []
    rwa [append_nil] at happend
  constructor
  · intro c hc; exact Or.inl (hw c (mem_of_mem_head? hc))
  · intro t ht
    rw [hskip] at ht
    cases ht
  · intro k _ o ho
    obtain ⟨op, rfl, -⟩ := exists_of_mem_operatorsAt ho
    rw [hskip]
    cases op <;> rfl
  · intro t ht
    rw [hskip] at ht
    cases ht

theorem stops_paren (hw : Blank w) (h : Nat) (t : Text) : Stops h (w ++ ')' :: t) := by
  have hskip : arithSkipWs (w ++ ')' :: t) = ')' :: t := by
    rw [arithSkipWs_blank hw, arithSkipWs_cons (by decide)]
  constructor
  · intro c hc
    cases w with
    | nil =>
      obtain rfl : ')' = c := by simpa using hc
      exact Or.inr rfl
    | cons b w =>
      obtain rfl : b = c := by simpa using hc
      exact Or.inl (hw b mem_cons_self)
  · intro u hu
    rw [hskip] at hu
    cases hu
  · intro k _ o ho
    rw [hskip]
    exact stands_of_head (by decide) ho t
  · intro u hu
    rw [hskip] at hu
    cases hu

/-- **Behind the left operand of an operator no lower level goes on.** -/
theorem stops_operator (hop : op.height = h + 1) (hv : Gap v) (hw : Gap w) (t : Text) :
    Stops h (v ++ (op.lexeme ++ (w ++ t))) := by
  obtain ⟨c, w, rfl⟩ : ∃ c u, w = c :: u := exists_cons_of_ne_nil hw.1
  have hc := hw.2 c mem_cons_self
  have hskip : arithSkipWs (v ++ (op.lexeme ++ (c :: w ++ t))) = op.lexeme ++ c :: (w ++ t) := by
    rw [arithSkipWs_blank hv.2, cons_append]
    cases op <;> rfl
  constructor
  · exact delimits_gap hv _
  · intro u hu
    have hstar : c ≠ '*' := by rintro rfl; exact absurd hc (by decide)
    cases op <;> simp_all [ArithOp.lexeme, ArithOp.operator]
  · intro k hk o ho
    obtain ⟨op', rfl, rfl⟩ := exists_of_mem_operatorsAt ho
    rw [hskip, stands_gap (operator_visible op') hc]
    exact (lexeme_stands op).1 op' (by omega)
  · intro u hu
    have := op.height_bounds
    omega

theorem find_operator (op : ArithOp) (hw : Gap w) (t : Text) :
    (operatorsAt op.height).find? (·.stands (op.lexeme ++ (w ++ t))) = some op.operator := by
  obtain ⟨c, w, rfl⟩ : ∃ c u, w = c :: u := exists_cons_of_ne_nil hw.1
  have hc := hw.2 c mem_cons_self
  rw [← (lexeme_stands op).2, cons_append]
  refine find?_congr ?_
  intro o ho
  obtain ⟨op', rfl, -⟩ := exists_of_mem_operatorsAt ho
  exact stands_gap (operator_visible op') hc _ _

/-- Behind a text in front of `**`, `?` or `:` no level up to the one below goes on. -/
theorem stops_pow (hv : Gap v) (t : Text) : Stops 1 (v ++ '*' :: '*' :: t) where
  delimits := delimits_gap hv _
  power _ _ := by decide
  operators k hk o ho := by
    obtain ⟨op, -, hop⟩ := exists_of_mem_operatorsAt ho
    have hheight := op.height_bounds
    omega
  question _ _ := by decide

theorem stops_mark (hv : Gap v) (hc : c ∈ ['?', ':']) (t : Text) : Stops 12 (v ++ c :: t) := by
  have hspace : isspace c = false := by
    simp only [mem_cons, not_mem_nil, or_false] at hc
    rcases hc with rfl | rfl <;> rfl
  have hskip : arithSkipWs (v ++ c :: t) = c :: t := by
    rw [arithSkipWs_blank hv.2, arithSkipWs_cons hspace]
  constructor
  · exact delimits_gap hv _
  · intro u hu
    rw [hskip] at hu
    cases hu
    simp at hc
  · intro k _ o ho
    rw [hskip]
    exact stands_of_head (by simp only [mem_cons] at hc ⊢; tauto) ho t
  · intro _ _; decide

/-! ## 4. What a parser makes of a text -/

/-- The variables as the evaluator reads them: by the first 127 characters of their names. -/
def readEnv (getVar : Text → Option Text) (name : Text) : Int :=
  arithVarValue (getVar (copyString 128 name))

theorem inRange_readEnv (getVar : Text → Option Text) (name : Text) :
    InRange (readEnv getVar name) := by
  unfold readEnv arithVarValue
  split
  · decide
  · rename_i text _
    have hrange := strtoll_inRange text
    dsimp only
    split
    · exact hrange
    · decide

section Reading

variable (env : Text → Int) (e : ArithExpr) (rest : Text)

/-- A parser has read a tree in front of `rest`, up to white space. -/
inductive Read : Except ArithError (Int × Text) → Prop
  | ok {v : Int} {t : Text} : e.strict env = .ok v → arithSkipWs t = arithSkipWs rest →
      Read (.ok (v, t))
  | error {x : ArithError} : e.strict env = .error x → Read (.error x)

/-- A parser has read the first operand of a chain, and the loop of its level comes through the
    rest. -/
inductive LoopRead (next : ArithParser) (table : List ArithOperator) :
    Except ArithError (Int × Text) → Prop
  | ok {n : Nat} {v : Int} {t : Text} : n + (arithSkipWs rest).length ≤ t.length →
      (∀ fuel, arithLoop next table (n + fuel) v t =
        (e.strict env).bind fun v => arithLoop next table fuel v rest) →
      LoopRead next table (.ok (v, t))
  | error {x : ArithError} : e.strict env = .error x → LoopRead next table (.error x)

end Reading

theorem strict_ne_missingParen (env : Text → Int) (e : ArithExpr) (v : Int) :
    e.strict env ≠ .error (.missingParen v) := by
  have hrep (w : Int) := representable_ne_missingParen w v
  induction e with
  | num n | var dollar name => simp [ArithExpr.strict]
  | unary op e ih =>
    intro h
    rcases bind_error.mp h with h | ⟨w, -, h⟩
    · exact ih h
    · cases op <;> simp [UnaryOp.apply, hrep] at h
  | pow a b iha ihb =>
    intro h
    rcases bind_error.mp h with h | ⟨w, -, h⟩
    · exact iha h
    rcases bind_error.mp h with h | ⟨u, -, h⟩
    · exact ihb h
    have hloop : ∀ n r, powLoop w n r ≠ .error (.missingParen v) := by
      intro n
      induction n with
      | zero => intro r; simp [powLoop]
      | succ n ih =>
        intro r hr
        rcases bind_error.mp hr with hr | ⟨x, -, hr⟩
        · exact hrep _ hr
        · exact ih x hr
    unfold arithPowInt at h
    split at h
    · simp at h
    · exact hloop _ _ h
  | binary op a b iha ihb =>
    intro h
    rcases bind_error.mp h with h | ⟨w, -, h⟩
    · exact iha h
    rcases bind_error.mp h with h | ⟨u, -, h⟩
    · exact ihb h
    · exact op.apply_ne_missingParen w u v h
  | cond c t f ihc iht ihf =>
    intro h
    rcases bind_error.mp h with h | ⟨u, -, h⟩
    · exact ihc h
    rcases bind_error.mp h with h | ⟨w, -, h⟩
    · exact iht h
    exact ihf (map_error.mp h)

/-! ## 5. The loop of a level -/

variable {e : ArithExpr}

theorem arithLoop_congr {table : List ArithOperator} (h : arithSkipWs t = arithSkipWs u)
    (fuel : Nat) (v : Int) : arithLoop next table fuel v t = arithLoop next table fuel v u := by
  cases fuel <;> simp only [arithLoop, h]

theorem arithLoop_stops (hs : Stops h rest) (fuel : Nat) (v : Int) :
    arithLoop next (operatorsAt h) fuel v rest = .ok (v, arithSkipWs rest) := by
  have hnone : (operatorsAt h).find? (·.stands (arithSkipWs rest)) = none := by
    rw [find?_eq_none]
    intro o ho
    simp [hs.operators h le_rfl o ho]
  cases fuel with
  | zero => rfl
  | succ fuel => rw [arithLoop, hnone]

theorem arithLoop_operator {next : ArithParser} {op : ArithOp} {v w : Text} (hv : Gap v)
    (hw : Gap w) (fuel : Nat) (left : Int) (t : Text) :
    arithLoop next (operatorsAt op.height) (fuel + 1) left (v ++ (op.lexeme ++ (w ++ t))) =
      (next (w ++ t)).bind fun (right, t) => (op.apply left right).bind fun left =>
        arithLoop next (operatorsAt op.height) fuel left t := by
  have hskip : arithSkipWs (v ++ (op.lexeme ++ (w ++ t))) = op.lexeme ++ (w ++ t) := by
    rw [arithSkipWs_blank hv.2]
    cases op <;> rfl
  have hop : op.operator.op = op := by cases op <;> rfl
  rw [arithLoop, hskip, find_operator op hw]
  dsimp only
  rw [show op.operator.lexeme = op.lexeme from rfl, drop_left, hop]

theorem LoopRead.level {env : Text → Int} {next : ArithParser} {h : Nat} {t rest : Text}
    (hs : Stops h rest) (hread : LoopRead env e rest next (operatorsAt h) (next t)) :
    Read env e rest (arithLevel next (operatorsAt h) t) := by
  unfold arithLevel
  cases hnext : next t with
  | error x =>
    rw [hnext] at hread
    cases hread with
    | error hstrict => exact .error hstrict
  | ok r =>
    rw [hnext] at hread
    cases hread with
    | @ok n v u hlen hloop =>
      obtain ⟨fuel, hfuel⟩ : ∃ fuel, u.length = n + fuel := ⟨u.length - n, by omega⟩
      dsimp only [Except.bind]
      rw [hfuel, hloop]
      cases hstrict : e.strict env with
      | error x => exact .error hstrict
      | ok v =>
        dsimp only [Except.bind]
        rw [arithLoop_stops hs]
        exact .ok hstrict (arithSkipWs_idem rest)

/-! ## 6. One constructor at a time -/

variable {getVar : Text → Option Text}

structure ReadsAt (getVar : Text → Option Text) (h : Nat) (e : ArithExpr) (s : Text) : Prop where
  level : ∀ depth w rest, s.length ≤ depth → Blank w → Stops h rest →
    Read (readEnv getVar) e rest (levelAt (primaryAt getVar depth) h (w ++ (s ++ rest)))
  power : h = 2 → ∀ depth fuel w rest, s.length ≤ depth → s.length ≤ fuel → Blank w →
    Stops h rest →
    Read (readEnv getVar) e rest
      (arithPower (arithUnary (primaryAt getVar depth)) fuel (w ++ (s ++ rest)))
  loop : ∀ k, h = k + 3 → k + 3 ≤ 12 → ∀ depth w rest, s.length ≤ depth → Blank w →
    Stops (k + 2) rest →
    LoopRead (readEnv getVar) e rest (levelAt (primaryAt getVar depth) (k + 2))
      (operatorsAt (k + 3)) (levelAt (primaryAt getVar depth) (k + 2) (w ++ (s ++ rest)))

/-- Below the level of `**` there is one statement only. -/
theorem ReadsAt.of_level (hh : h < 2 ∨ 12 < h)
    (hlevel : ∀ depth w rest, s.length ≤ depth → Blank w → Stops h rest →
      Read (readEnv getVar) e rest (levelAt (primaryAt getVar depth) h (w ++ (s ++ rest)))) :
    ReadsAt getVar h e s where
  level := hlevel
  power heq := by omega
  loop k heq hk := by omega

theorem name_head (name : ArithName) :
    ∃ c u, name.1 = c :: u ∧ (isalpha c || c = '_') = true ∧ ∀ d ∈ name.1, isNameChar d = true := by
  obtain ⟨name, hvalid⟩ := name
  cases name with
  | nil => cases hvalid
  | cons c u =>
    simp only [isValidIdentifier, Bool.and_eq_true] at hvalid
    refine ⟨c, u, rfl, hvalid.1, ?_⟩
    intro d hd
    rcases mem_cons.mp hd with rfl | hd
    · have hfirst := hvalid.1
      simp only [Bool.or_eq_true, decide_eq_true_eq] at hfirst
      rcases hfirst with hfirst | hfirst <;> simp [isNameChar, isalnum, hfirst]
    · exact all_eq_true.mp hvalid.2 d hd

theorem ne_of_letter {d : Char} (hc : (isalpha c || c = '_') = true)
    (hd : (isalpha d || d = '_') = false) : c ≠ d := by
  rintro rfl
  rw [hc] at hd
  cases hd

theorem isspace_of_letter (hc : (isalpha c || c = '_') = true) : isspace c = false := by
  simp [isspace, ne_of_letter hc (d := ' ') rfl, ne_of_letter hc (d := '\t') rfl,
    ne_of_letter hc (d := '\n') rfl, ne_of_letter hc (d := '\x0b') rfl,
    ne_of_letter hc (d := '\x0c') rfl, ne_of_letter hc (d := '\r') rfl]

theorem Prints.head {h : Nat} (hp : Prints h e s) :
    ∃ c u, s = c :: u ∧ isspace c = false ∧ (h = 0 → unaryOperator c = none) := by
  induction hp with
  | num n =>
    cases hds : Nat.toDigits 10 n with
    | nil => exact absurd hds Nat.toDigits_ne_nil
    | cons d ds =>
      have hd : isdigit d = true := isdigit_of_mem_toDigits (n := n) (by simp [hds])
      refine ⟨d, ds, rfl, isspace_of_isdigit hd, fun _ => ?_⟩
      have hne (c : Char) (hc : isdigit c = false) : d ≠ c := by
        rintro rfl
        rw [hd] at hc
        cases hc
      simp [unaryOperator, hne '-' rfl, hne '+' rfl, hne '!' rfl, hne '~' rfl]
  | var dollar name =>
    obtain ⟨c, u, hname, hc, -⟩ := name_head name
    cases dollar with
    | true => exact ⟨'$', name.1, rfl, rfl, fun _ => rfl⟩
    | false =>
      refine ⟨c, u, by simp [hname], isspace_of_letter hc, fun _ => ?_⟩
      simp [unaryOperator, ne_of_letter hc (d := '-') rfl, ne_of_letter hc (d := '+') rfl,
        ne_of_letter hc (d := '!') rfl, ne_of_letter hc (d := '~') rfl]
  | parens => exact ⟨'(', _, rfl, rfl, fun _ => rfl⟩
  | @unary op e w s hw hp ih => refine ⟨op.char, _, rfl, ?_, fun h => by cases h⟩; cases op <;> rfl
  | pow _ _ _ _ iha _ | binary _ _ _ _ _ iha _ =>
    obtain ⟨c, u, rfl, hc, -⟩ := iha
    exact ⟨c, _, rfl, hc, fun h => by cases h⟩
  | cond _ _ _ _ _ _ _ ihc _ _ =>
    obtain ⟨c, u, rfl, hc, -⟩ := ihc
    exact ⟨c, _, rfl, hc, fun h => by cases h⟩
  | raise _ _ ih => obtain ⟨c, u, rfl, hc, -⟩ := ih; exact ⟨c, u, rfl, hc, fun h => by cases h⟩

theorem Prints.skip {h : Nat} (hp : Prints h e s) (rest : Text) :
    arithSkipWs (s ++ rest) = s ++ rest := by
  obtain ⟨c, u, rfl, hc, -⟩ := hp.head
  exact arithSkipWs_cons hc _

theorem Delimits.not_alnum (h : Delimits rest) :
    ∀ c ∈ rest.head?, isalnum c = false ∧ isNameChar c = false := by
  intro c hc
  rcases h c hc with hspace | rfl
  · simp only [isspace, Bool.or_eq_true, decide_eq_true_eq] at hspace
    rcases hspace with ((((rfl | rfl) | rfl) | rfl) | rfl) | rfl <;> exact ⟨rfl, rfl⟩
  · exact ⟨rfl, rfl⟩

section

variable (getVar : Text → Option Text)

theorem arithPrimary_char (expr : ArithParser) (evaluate : Text → Except ArithError Int)
    (ht : arithSkipWs t = c :: u) (hparen : c ≠ '(') (hdollar : c ≠ '$') :
    arithPrimary getVar expr evaluate t =
      if isalpha c || c = '_' then .ok (arithVariable getVar (c :: u))
      else if isdigit c then .ok (strtoll (c :: u))
      else .error (.failed ("unexpected character '" ++ String.singleton c
        ++ "' in arithmetic expression")) := by
  unfold arithPrimary
  rw [ht]
  split
  · rename_i heq; cases heq
  · rename_i heq
    cases heq
    exact absurd rfl hparen
  · rename_i heq
    cases heq
    exact absurd rfl hdollar
  · rename_i heq
    cases heq
    rw [if_neg hdollar]

theorem arithPrimary_dollar (expr : ArithParser) (evaluate : Text → Except ArithError Int)
    (ht : arithSkipWs t = '$' :: u) (hplain : ∀ w, u ≠ '(' :: '(' :: w) :
    arithPrimary getVar expr evaluate t = .ok (arithVariable getVar u) := by
  unfold arithPrimary
  rw [ht]
  split
  · rename_i heq; cases heq
  · rename_i heq; cases heq
  · rename_i heq; exact absurd (cons.inj heq).2 (hplain _)
  · rename_i heq
    cases heq
    exact if_pos rfl

theorem arithPrimary_paren (expr : ArithParser) (evaluate : Text → Except ArithError Int)
    (ht : arithSkipWs t = '(' :: u) :
    arithPrimary getVar expr evaluate t =
      (expr u).bind fun (v, t) =>
        match arithSkipWs t with
        | ')' :: t => .ok (v, t)
        | _ => .error (.missingParen v) := by
  unfold arithPrimary
  rw [ht]
  rfl

theorem reads_num (n : Nat) : ReadsAt getVar 0 (.num n) (Nat.toDigits 10 n) := by
  refine .of_level (Or.inl (by decide)) ?_
  intro depth w rest _ hw hs
  have hends : EndsNumeral rest := fun c hc => (hs.delimits.not_alnum c hc).1
  have hread := strtoll_toDigits n hends
  have hskip := (Prints.num n).skip rest
  cases hds : Nat.toDigits 10 n with
  | nil => exact absurd hds Nat.toDigits_ne_nil
  | cons d ds =>
    have hd : isdigit d = true := isdigit_of_mem_toDigits (n := n) (by simp [hds])
    rw [hds] at hread hskip
    rw [← arithSkipWs_blank hw] at hskip
    simp only [cons_append] at hread hskip ⊢
    have hne (c : Char) (hc : isdigit c = false) : d ≠ c := by
      rintro rfl
      rw [hd] at hc
      cases hc
    have halpha : (isalpha d || d = '_') = false := by
      by_contra h
      have hletter := Bool.eq_true_of_not_eq_false h
      simp only [isalpha, isdigit, Bool.or_eq_true, Bool.and_eq_true, decide_eq_true_eq] at hletter hd
      have hsmall : ¬ 'A' ≤ d := fun hle =>
        absurd (Char.le_trans hle hd.2) (by decide : ¬ 'A' ≤ '9')
      rcases hletter with (⟨hle, -⟩ | ⟨hle, -⟩) | rfl
      · exact hsmall (Char.le_trans (by decide : 'A' ≤ 'a') hle)
      · exact hsmall hle
      · exact absurd hd.2 (by decide)
    show Read _ _ _ (arithPrimary _ _ _ _)
    rw [arithPrimary_char _ _ _ hskip (hne '(' rfl) (hne '$' rfl), halpha, hd]
    simp only [Bool.false_eq_true, if_false, if_true, hread]
    exact .ok rfl rfl

theorem arithVariable_name (name : ArithName) (hrest : Delimits rest) :
    arithVariable getVar (name.1 ++ rest) = (readEnv getVar name.1, rest) := by
  obtain ⟨c, u, hname, -, hall⟩ := name_head name
  obtain ⟨htake, hdrop⟩ := takeWhile_append_stop hall fun c hc => (hrest.not_alnum c hc).2
  have hne : name.1 ≠ [] := by simp [hname]
  simp only [arithVariable, htake, hdrop, hne, if_false]
  rfl

theorem reads_var (dollar : Bool) (name : ArithName) :
    ReadsAt getVar 0 (.var dollar name) ((if dollar then ['$'] else []) ++ name.1) := by
  refine .of_level (Or.inl (by decide)) ?_
  intro depth w rest _ hw hs
  obtain ⟨c, u, hname, hc, -⟩ := name_head name
  have hvariable := arithVariable_name getVar name hs.delimits
  have hskip := (Prints.var dollar name).skip rest
  rw [← arithSkipWs_blank hw] at hskip
  show Read _ _ _ (arithPrimary _ _ _ _)
  cases dollar with
  | false =>
    simp only [Bool.false_eq_true, if_false, nil_append] at hskip ⊢
    rw [hname] at hvariable hskip ⊢
    simp only [cons_append] at hvariable hskip ⊢
    rw [arithPrimary_char _ _ _ hskip (ne_of_letter hc rfl) (ne_of_letter hc rfl), if_pos hc,
      hvariable, ← hname]
    exact .ok rfl rfl
  | true =>
    simp only [if_true, cons_append, nil_append] at hskip ⊢
    have hplain : ∀ u, name.1 ++ rest ≠ '(' :: '(' :: u := by
      intro u heq
      rw [hname] at heq
      exact ne_of_letter hc rfl (cons.inj heq).1
    rw [arithPrimary_dollar _ _ _ hskip hplain, hvariable]
    exact .ok rfl rfl

end

theorem reads_parens {s : Text} (hv : Blank v) (hw : Blank w) (ih : ReadsAt getVar 13 e s) :
    ReadsAt getVar 0 e ('(' :: (v ++ s ++ w ++ [')'])) := by
  refine .of_level (Or.inl (by decide)) ?_
  intro depth u rest hdepth hu hs
  simp only [length_cons, length_append] at hdepth
  rcases depth with _ | depth
  · omega
  have hinner := ih.level depth v (w ++ ')' :: rest) (by omega) hv (stops_paren hw 13 rest)
  have hskip : arithSkipWs (u ++ ('(' :: (v ++ s ++ w ++ [')']) ++ rest)) =
      '(' :: (v ++ (s ++ (w ++ ')' :: rest))) := by
    rw [arithSkipWs_blank hu, cons_append, arithSkipWs_cons (by decide)]
    simp
  rw [levelAt_expr] at hinner
  show Read _ _ _ (arithPrimary _ _ _ _)
  rw [arithPrimary_paren _ _ _ hskip]
  cases hexpr : arithExpr getVar (depth + 1) (v ++ (s ++ (w ++ ')' :: rest))) with
  | error x =>
    rw [hexpr] at hinner
    cases hinner with
    | error hstrict => exact .error hstrict
  | ok r =>
    rw [hexpr] at hinner
    cases hinner with
    | ok hstrict hrest =>
      rw [arithSkipWs_blank hw, arithSkipWs_cons (by decide)] at hrest
      dsimp only [Except.bind]
      rw [hrest]
      exact .ok hstrict rfl

theorem arithUnary_blank (hw : Blank w) (primary : ArithParser) (t : Text) :
    arithUnary primary (w ++ t) = arithUnary primary t := by
  induction w with
  | nil => rfl
  | cons c w ih =>
    have hc := hw c mem_cons_self
    rw [cons_append, arithUnary, if_pos hc]
    exact ih fun d hd => hw d (mem_cons_of_mem _ hd)

theorem reads_unary {op : UnaryOp} {s : Text} (hw : Blank w) (ih : ReadsAt getVar 1 e s) :
    ReadsAt getVar 1 (.unary op e) (op.char :: (w ++ s)) := by
  refine .of_level (Or.inl (by decide)) ?_
  intro depth u rest hdepth hu hs
  simp only [length_cons, length_append] at hdepth
  have hinner := ih.level depth w rest (by omega) hw hs
  have hop : unaryOperator op.char = some op.apply := by cases op <;> rfl
  have hspace : isspace op.char = false := by cases op <;> rfl
  show Read _ _ _ (arithUnary _ _)
  rw [arithUnary_blank hu, cons_append, arithUnary, if_neg (by simp [hspace]), hop,
    append_assoc]
  have hinner : Read (readEnv getVar) e rest
    (arithUnary (primaryAt getVar depth) (w ++ (s ++ rest))) := hinner
  cases hunary : arithUnary (primaryAt getVar depth) (w ++ (s ++ rest)) with
  | error x =>
    rw [hunary] at hinner
    cases hinner with
    | error hstrict =>
      have herror : (ArithExpr.unary op e).strict (readEnv getVar) = .error x := by
        simp [ArithExpr.strict, hstrict, Except.bind]
      cases x with
      | missingParen v => exact absurd hstrict (strict_ne_missingParen _ _ _)
      | _ => exact .error herror
  | ok r =>
    rw [hunary] at hinner
    cases hinner with
    | @ok v t hstrict hrest =>
      dsimp only [onValue]
      cases hvalue : op.apply v with
      | error x => exact .error (by simp [ArithExpr.strict, hstrict, Except.bind, hvalue])
      | ok v' => exact .ok (by simp [ArithExpr.strict, hstrict, Except.bind, hvalue]) hrest

/-! ## 7. Powers -/

theorem ReadsAt.of_power
    (hpower : ∀ depth fuel w rest, s.length ≤ depth → s.length ≤ fuel → Blank w → Stops 2 rest →
      Read (readEnv getVar) e rest
        (arithPower (arithUnary (primaryAt getVar depth)) fuel (w ++ (s ++ rest)))) :
    ReadsAt getVar 2 e s where
  level depth w rest hdepth hw hs := by
    have hfuel : s.length ≤ (w ++ (s ++ rest)).length := by simp only [length_append]; omega
    exact hpower depth _ w rest hdepth hfuel hw hs
  power _ := hpower
  loop k hk := by omega

variable {unary : ArithParser} {left cond : Int}

theorem arithPower_plain (hunary : unary t = .ok (left, t₁))
    (hplain : ∀ u, arithSkipWs t₁ ≠ '*' :: '*' :: u) :
    arithPower unary (fuel + 1) t = .ok (left, arithSkipWs t₁) := by
  rw [arithPower, hunary]
  dsimp only [Except.bind]
  split
  · rename_i u hstars; exact absurd hstars (hplain u)
  · rfl

/-- A unary operand in front of which no `**` stands. -/
theorem reads_power (hhead : Prints 1 e s) (ih : ReadsAt getVar 1 e s) : ReadsAt getVar 2 e s := by
  refine .of_power ?_
  intro depth fuel w rest hdepth hfuel hw hs
  obtain ⟨c, u, rfl, -, -⟩ := hhead.head
  obtain ⟨fuel, rfl⟩ : ∃ f, fuel = f + 1 := ⟨fuel - 1, by simp at hfuel; omega⟩
  have hinner : Read (readEnv getVar) e rest
    (arithUnary (primaryAt getVar depth) (w ++ (c :: u ++ rest))) :=
    ih.level depth w rest hdepth hw (hs.mono (by decide))
  cases hunary : arithUnary (primaryAt getVar depth) (w ++ (c :: u ++ rest)) with
  | error x =>
    rw [hunary] at hinner
    cases hinner with
    | error hstrict => rw [arithPower, hunary]; exact .error hstrict
  | ok r =>
    rw [hunary] at hinner
    cases hinner with
    | @ok v t hstrict hrest =>
      have hplain : ∀ u, arithSkipWs t ≠ '*' :: '*' :: u := by
        intro u heq
        exact absurd (hs.power u (hrest.symm.trans heq)) (by decide)
      rw [arithPower_plain hunary hplain, hrest]
      exact .ok hstrict (arithSkipWs_idem rest)

theorem arithPower_stars (hunary : unary t = .ok (left, t₁))
    (hstars : arithSkipWs t₁ = '*' :: '*' :: u) :
    arithPower unary (fuel + 1) t =
      (arithPower unary fuel u).bind fun (right, t) => (arithPowInt left right).map (·, t) := by
  rw [arithPower, hunary]
  dsimp only [Except.bind]
  rw [hstars]
  rfl

theorem reads_pow {a b : ArithExpr} {s : Text} (iha : ReadsAt getVar 1 a s) (hv : Gap v)
    (hw : Gap w) (ihb : ReadsAt getVar 2 b t) :
    ReadsAt getVar 2 (.pow a b) (s ++ (v ++ ('*' :: '*' :: (w ++ t)))) := by
  refine .of_power ?_
  intro depth fuel u rest hdepth hfuel hu hs
  simp only [length_append, length_cons] at hdepth hfuel
  rcases fuel with _ | fuel
  · omega
  have hassoc : s ++ (v ++ ('*' :: '*' :: (w ++ t))) ++ rest =
      s ++ (v ++ '*' :: '*' :: (w ++ (t ++ rest))) := by simp
  have hskip : arithSkipWs (v ++ '*' :: '*' :: (w ++ (t ++ rest))) =
      '*' :: '*' :: (w ++ (t ++ rest)) := by
    rw [arithSkipWs_blank hv.2, arithSkipWs_cons (by decide)]
  have hleft : Read (readEnv getVar) a (v ++ '*' :: '*' :: (w ++ (t ++ rest)))
      (arithUnary (primaryAt getVar depth) (u ++ (s ++ (v ++ '*' :: '*' :: (w ++ (t ++ rest)))))) :=
    iha.level depth u _ (by omega) hu (stops_pow hv _)
  have hright := ihb.power rfl depth fuel w rest (by omega) (by omega) hw.2 hs
  rw [hassoc]
  cases hunary : arithUnary (primaryAt getVar depth)
      (u ++ (s ++ (v ++ '*' :: '*' :: (w ++ (t ++ rest))))) with
  | error x =>
    rw [hunary] at hleft
    rw [arithPower, hunary]
    cases hleft with
    | error hstrict => exact .error (by simp [ArithExpr.strict, hstrict, Except.bind])
  | ok r =>
    rw [hunary] at hleft
    cases hleft with
    | @ok left t₁ hstrict hrest =>
      rw [hskip] at hrest
      rw [arithPower_stars hunary hrest]
      generalize arithPower (arithUnary (primaryAt getVar depth)) fuel (w ++ (t ++ rest)) = r
        at hright ⊢
      cases hright with
      | error hstrictb => exact .error (by simp [ArithExpr.strict, hstrict, hstrictb, Except.bind])
      | @ok right t₂ hstrictb hrest₂ =>
        dsimp only [Except.bind]
        cases hvalue : arithPowInt left right with
        | error x =>
          exact .error (by simp [ArithExpr.strict, hstrict, hstrictb, Except.bind, hvalue])
        | ok v =>
          exact .ok (by simp [ArithExpr.strict, hstrict, hstrictb, Except.bind, hvalue]) hrest₂

/-! ## 8. Chains -/

theorem ReadsAt.of_loop (hk : k + 3 ≤ 12)
    (hloop : ∀ depth w rest, s.length ≤ depth → Blank w → Stops (k + 2) rest →
      LoopRead (readEnv getVar) e rest (levelAt (primaryAt getVar depth) (k + 2))
        (operatorsAt (k + 3)) (levelAt (primaryAt getVar depth) (k + 2) (w ++ (s ++ rest)))) :
    ReadsAt getVar (k + 3) e s where
  level depth w rest hdepth hw hs := by
    rw [levelAt_binary _ hk]
    exact LoopRead.level hs (hloop depth w rest hdepth hw (hs.mono (by omega)))
  power h := by omega
  loop j hj _ := by
    obtain rfl : j = k := by omega
    exact hloop

theorem reads_operand (hk : k + 3 ≤ 12) (ih : ReadsAt getVar (k + 2) e s) :
    ReadsAt getVar (k + 3) e s := by
  refine .of_loop hk ?_
  intro depth w rest hdepth hw hs
  have hinner := ih.level depth w rest hdepth hw hs
  generalize levelAt (primaryAt getVar depth) (k + 2) (w ++ (s ++ rest)) = r at hinner ⊢
  cases hinner with
  | error hstrict => exact .error hstrict
  | @ok v t hstrict hrest =>
    refine .ok (n := 0) ?_ ?_
    · rw [← hrest, Nat.zero_add]; exact arithSkipWs_length_le t
    · intro fuel
      rw [hstrict, Nat.zero_add, arithLoop_congr hrest]
      rfl

theorem reads_binary {a b : ArithExpr} {s : Text} (hop : op.height = h + 1)
    (iha : ReadsAt getVar (h + 1) a s) (hv : Gap v) (hw : Gap w) (ihb : ReadsAt getVar h b t) :
    ReadsAt getVar (h + 1) (.binary op a b) (s ++ (v ++ (op.lexeme ++ (w ++ t)))) := by
  obtain ⟨hlow, hhigh⟩ := op.height_bounds
  obtain ⟨k, rfl⟩ : ∃ k, h = k + 2 := ⟨h - 2, by omega⟩
  refine .of_loop (by omega) ?_
  intro depth u rest hdepth hu hs
  simp only [length_append] at hdepth
  have hassoc : s ++ (v ++ (op.lexeme ++ (w ++ t))) ++ rest =
      s ++ (v ++ (op.lexeme ++ (w ++ (t ++ rest)))) := by simp
  have hlexeme : 0 < op.lexeme.length := by cases op <;> decide
  have hskip : (arithSkipWs (v ++ (op.lexeme ++ (w ++ (t ++ rest))))).length =
      op.lexeme.length + (w.length + (t.length + rest.length)) := by
    have hop' : arithSkipWs (op.lexeme ++ (w ++ (t ++ rest))) = op.lexeme ++ (w ++ (t ++ rest)) := by
      cases op <;> rfl
    rw [arithSkipWs_blank hv.2, hop']
    simp only [length_append]
  have hleft := iha.loop k rfl (by omega) depth u (v ++ (op.lexeme ++ (w ++ (t ++ rest))))
    (by omega) hu (stops_operator hop hv hw _)
  have hright := ihb.level depth w rest (by omega) hw.2 hs
  have hrestlen := arithSkipWs_length_le rest
  rw [hassoc]
  generalize levelAt (primaryAt getVar depth) (k + 2) = next at hleft hright ⊢
  generalize next (u ++ (s ++ (v ++ (op.lexeme ++ (w ++ (t ++ rest)))))) = r at hleft ⊢
  cases hleft with
  | error hstrict => exact .error (by simp [ArithExpr.strict, hstrict, Except.bind])
  | @ok n left t₁ hlen hloop =>
    refine .ok (n := n + 1) (by omega) ?_
    intro fuel
    -- the left operand takes `n` turns, then comes the turn of `op`
    have hturns := hloop (1 + fuel)
    rw [show n + 1 + fuel = n + (1 + fuel) by omega, hturns]
    cases hstrict : a.strict (readEnv getVar) with
    | error x => simp [ArithExpr.strict, hstrict, Except.bind]
    | ok leftValue =>
      have hturn := @arithLoop_operator next op v w hv hw fuel leftValue (t ++ rest)
      rw [hop] at hturn
      simp only [ArithExpr.strict, hstrict, Except.bind, Nat.add_comm 1 fuel]
      rw [hturn]
      generalize next (w ++ (t ++ rest)) = r₂ at hright ⊢
      cases hright with
      | error hstrictb => simp [hstrictb, Except.bind]
      | @ok right t₂ hstrictb hrest =>
        simp only [hstrictb, Except.bind]
        cases op.apply leftValue right with
        | error x => rfl
        | ok v => exact arithLoop_congr hrest fuel v

/-! ## 9. Conditionals -/

theorem arithTernary_single (hcond : operand t = .ok (cond, t₁))
    (hsingle : ∀ u, arithSkipWs t₁ ≠ '?' :: u) :
    arithTernary operand t = .ok (cond, arithSkipWs t₁) := by
  rw [arithTernary, hcond]
  dsimp only [Except.bind]
  split
  · rename_i u hmark; exact absurd hmark (hsingle u)
  · rfl

/-- What stands without a `?` behind it. -/
theorem reads_single (ih : ReadsAt getVar 12 e s) : ReadsAt getVar 13 e s := by
  refine .of_level (Or.inr (by decide)) ?_
  intro depth w rest hdepth hw hs
  have hinner := ih.level depth w rest hdepth hw (hs.mono (by decide))
  rw [levelAt_ternary]
  cases hoperand : levelAt (primaryAt getVar depth) 12 (w ++ (s ++ rest)) with
  | error x =>
    rw [hoperand] at hinner
    cases hinner with
    | error hstrict => rw [arithTernary, hoperand]; exact .error hstrict
  | ok r =>
    rw [hoperand] at hinner
    cases hinner with
    | @ok v t hstrict hrest =>
      have hsingle : ∀ u, arithSkipWs t ≠ '?' :: u := by
        intro u heq
        exact absurd (hs.question u (hrest.symm.trans heq)) (by decide)
      rw [arithTernary_single hoperand hsingle, hrest]
      exact .ok hstrict (arithSkipWs_idem rest)

def ternaryRest (operand : ArithParser) (cond v : Int) (t : Text) :
    Except ArithError (Int × Text) :=
  match arithSkipWs t with
  | ':' :: t => (operand t).map fun (w, t) => (if cond ≠ 0 then v else w, t)
  | _ => .error (.failed "missing ':' in ternary arithmetic expression")

theorem arithTernary_question (hcond : operand t = .ok (cond, t₁))
    (hmark : arithSkipWs t₁ = '?' :: u) :
    arithTernary operand t = (operand u).bind fun (v, t) => ternaryRest operand cond v t := by
  rw [arithTernary, hcond]
  dsimp only [Except.bind]
  rw [hmark]
  rfl

theorem ternaryRest_colon (operand : ArithParser) (cond v : Int) (hmark : arithSkipWs t = ':' :: u) :
    ternaryRest operand cond v t =
      (operand u).map fun (w, t) => (if cond ≠ 0 then v else w, t) := by
  rw [ternaryRest, hmark]
  rfl

theorem reads_cond {c t f : ArithExpr} {s s₁ s₂ v₁ w₁ : Text} (ihc : ReadsAt getVar 12 c s)
    (hv : Gap v) (hv₁ : Gap v₁) (iht : ReadsAt getVar 12 t s₁) (hw : Gap w) (hw₁ : Gap w₁)
    (ihf : ReadsAt getVar 12 f s₂) : ReadsAt getVar 13 (.cond c t f)
      (s ++ (v ++ ('?' :: (v₁ ++ (s₁ ++ (w ++ (':' :: (w₁ ++ s₂)))))))) := by
  refine .of_level (Or.inr (by decide)) ?_
  intro depth u rest hdepth hu hs
  simp only [length_append, length_cons] at hdepth
  have hassoc : s ++ (v ++ ('?' :: (v₁ ++ (s₁ ++ (w ++ (':' :: (w₁ ++ s₂))))))) ++ rest =
      s ++ (v ++ '?' :: (v₁ ++ (s₁ ++ (w ++ ':' :: (w₁ ++ (s₂ ++ rest)))))) := by simp
  have hcond := ihc.level depth u _ (by omega) hu
    (stops_mark hv (by decide : '?' ∈ ['?', ':']) (v₁ ++ (s₁ ++ (w ++ ':' :: (w₁ ++ (s₂ ++ rest))))))
  have hyes := iht.level depth v₁ _ (by omega) hv₁.2
    (stops_mark hw (by decide : ':' ∈ ['?', ':']) (w₁ ++ (s₂ ++ rest)))
  have hno := ihf.level depth w₁ rest (by omega) hw₁.2 (hs.mono (by decide))
  rw [hassoc, levelAt_ternary]
  generalize levelAt (primaryAt getVar depth) 12 = operand at hcond hyes hno ⊢
  cases hfirst : operand
      (u ++ (s ++ (v ++ '?' :: (v₁ ++ (s₁ ++ (w ++ ':' :: (w₁ ++ (s₂ ++ rest)))))))) with
  | error x =>
    rw [hfirst] at hcond
    rw [arithTernary, hfirst]
    cases hcond with
    | error hstrict => exact .error (by simp [ArithExpr.strict, hstrict, Except.bind])
  | ok r =>
    rw [hfirst] at hcond
    cases hcond with
    | @ok x t₁ hstrict hrest =>
      rw [arithSkipWs_blank hv.2, arithSkipWs_cons (by decide)] at hrest
      rw [arithTernary_question hfirst hrest]
      generalize operand (v₁ ++ (s₁ ++ (w ++ ':' :: (w₁ ++ (s₂ ++ rest))))) = r₁ at hyes ⊢
      cases hyes with
      | error hstrict₁ => exact .error (by simp [ArithExpr.strict, hstrict, hstrict₁, Except.bind])
      | @ok y t₂ hstrict₁ hrest₁ =>
        rw [arithSkipWs_blank hw.2, arithSkipWs_cons (by decide)] at hrest₁
        dsimp only [Except.bind]
        rw [ternaryRest_colon _ _ _ hrest₁]
        generalize operand (w₁ ++ (s₂ ++ rest)) = r₂ at hno ⊢
        cases hno with
        | error hstrict₂ =>
          exact .error (by
            simp [ArithExpr.strict, hstrict, hstrict₁, hstrict₂, Except.bind, Except.map])
        | @ok z t₃ hstrict₂ hrest₂ =>
          exact .ok (by
            simp [ArithExpr.strict, hstrict, hstrict₁, hstrict₂, Except.bind, Except.map]) hrest₂

/-! ## 10. All together -/

theorem reads_of_prints (getVar : Text → Option Text) (hp : Prints h e s) :
    ReadsAt getVar h e s := by
  induction hp with
  | num n => exact reads_num getVar n
  | var dollar name => exact reads_var getVar dollar name
  | parens hv _ hw ih => exact reads_parens hv hw ih
  | unary hw _ ih => exact reads_unary hw ih
  | pow _ hv hw _ iha ihb => exact reads_pow iha hv hw ihb
  | binary hop _ hv hw _ iha ihb => exact reads_binary hop iha hv hw ihb
  | cond _ hv hv₁ _ hw hw₁ _ ihc iht ihf => exact reads_cond ihc hv hv₁ iht hw hw₁ ihf
  | @raise h e s hlt hp ih =>
    match h, hlt, hp, ih with
    | 0, _, hp, ih =>
      refine .of_level (Or.inl (by decide)) ?_
      intro depth w rest hdepth hw hs
      obtain ⟨c, u, rfl, hc, hop⟩ := hp.head
      have hinner := ih.level depth [] rest hdepth blank_nil (hs.mono (by decide))
      show Read _ _ _ (arithUnary _ _)
      rw [arithUnary_blank hw, cons_append, arithUnary, if_neg (by simp [hc]), hop rfl]
      exact hinner
    | 1, _, hp, ih => exact reads_power hp ih
    | k + 2, hlt, _, ih =>
      by_cases hk : k = 10
      · subst hk; exact reads_single ih
      · exact reads_operand (by omega) ih

/-- **The evaluator computes every operand of a tree, from the left, whatever text of it is
    given.** -/
theorem evaluateArith_prints (getVar : Text → Option Text) {s : Text} (hu : Blank u)
    (hp : Prints 13 e s) (hw : Blank w) :
    evaluateArith getVar (u ++ (s ++ w)) = e.strict (readEnv getVar) := by
  have hlen : s.length ≤ (u ++ (s ++ w)).length := by simp only [length_append]; omega
  have hread := (reads_of_prints getVar hp).level _ u w hlen hu (stops_blank hw 13)
  have hskip : arithSkipWs w = [] := by
    have happend := arithSkipWs_blank hw []
    rwa [append_nil] at happend
  rw [levelAt_expr] at hread
  unfold evaluateArith evaluateWith
  generalize arithExpr getVar ((u ++ (s ++ w)).length + 1) (u ++ (s ++ w)) = r at hread ⊢
  cases hread with
  | @error x hstrict =>
    cases x with
    | missingParen v => exact absurd hstrict (strict_ne_missingParen _ _ _)
    | _ => exact hstrict.symm
  | @ok v t hstrict hrest =>
    dsimp only
    rw [hrest, hskip]
    exact hstrict.symm

end Arksh
