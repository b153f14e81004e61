/-
  Subject: Conditional expressions `a ? t : f`: the splitter of `src/parser.c` beside the one of
           `src/executor.c`.

  Both look for the first `?` outside of quotes and brackets and for the first `:` behind it. A
  conditional in the true branch has the first `:` of the line, so it is cut through; one in the
  false branch stays whole.
-/
import Arksh.Exec.Binary
import Arksh.Parse.Split
import Arksh.Parse.TopLevel

namespace Arksh

open CText Scan List Option Nat

/-! ## 1. The two splitters -/

inductive TernarySplit where
  | noTernary
  | incomplete
  | parts (condition trueBranch falseBranch : Text)
  deriving DecidableEq

def TernarySplit.ofTexts (condition trueBranch falseBranch : Text) : TernarySplit :=
  if condition = [] ∨ trueBranch = [] ∨ falseBranch = [] then .incomplete
  else .parts condition trueBranch falseBranch

/-- What `parse_value_source_text_ex` does with a conditional. -/
def parseTernary (line : Text) : TernarySplit :=
  let trimmed := trimCopy arkshMaxLine line
  match findTopLevelTernaryOperator trimmed with
  | none => .noTernary
  | some (question, colon) =>
    .ofTexts (copyTrimmedSlice trimmed 0 question) (copyTrimmedSlice trimmed (question + 1) colon)
      (copyTrimmedSlice trimmed (colon + 1) trimmed.length)

/-- The loop of `find_top_level_ternary_operator` of the executor, from the place `i`. -/
def ternaryOperatorFrom : Quote → Nat → Nat → Option Nat → Nat → Text → Option (Nat × Nat)
  | _, _, _, _, _, [] => none
  | .single, paren, bracket, question, i, c :: text =>
    ternaryOperatorFrom (if c = '\'' then .unquoted else .single) paren bracket question (i + 1) text
  | .double, paren, bracket, question, i, c :: text =>
    if c = '"' then ternaryOperatorFrom .unquoted paren bracket question (i + 1) text
    else
      match c, text with
      | '\\', _ :: text => ternaryOperatorFrom .double paren bracket question (i + 2) text
      | _, text => ternaryOperatorFrom .double paren bracket question (i + 1) text
  | .unquoted, paren, bracket, question, i, c :: text =>
    if c = '"' then ternaryOperatorFrom .double paren bracket question (i + 1) text
    else if c = '\'' then ternaryOperatorFrom .single paren bracket question (i + 1) text
    else if c = '(' then ternaryOperatorFrom .unquoted (paren + 1) bracket question (i + 1) text
    else if c = ')' ∧ paren > 0 then
      ternaryOperatorFrom .unquoted (paren - 1) bracket question (i + 1) text
    else if c = '[' then ternaryOperatorFrom .unquoted paren (bracket + 1) question (i + 1) text
    else if c = ']' ∧ bracket > 0 then
      ternaryOperatorFrom .unquoted paren (bracket - 1) question (i + 1) text
    else if paren = 0 ∧ bracket = 0 then
      match question with
      | none =>
        ternaryOperatorFrom .unquoted paren bracket (if c = '?' then some i else none) (i + 1) text
      | some question =>
        if c = ':' then some (question, i)
        else ternaryOperatorFrom .unquoted paren bracket (some question) (i + 1) text
    else ternaryOperatorFrom .unquoted paren bracket question (i + 1) text

/-- What `evaluate_expression_text` does with a conditional. -/
def evaluateTernarySplit (text : Text) : TernarySplit :=
  let trimmed := trimText (copyString arkshMaxLine text)
  match ternaryOperatorFrom .unquoted 0 0 none 0 trimmed with
  | none => .noTernary
  | some (question, colon) =>
    .ofTexts (copyTrimmedRange trimmed 0 question) (copyTrimmedRange trimmed (question + 1) colon)
      (copyTrimmedRange trimmed (colon + 1) trimmed.length)

/-! ## 2. They find the same operators -/

/-- The loop over characters of which it is known whether they are looked at. -/
def ternaryIn : Option Nat → Nat → List (Char × Bool) → Option (Nat × Nat)
  | _, _, [] => none
  | none, i, x :: rest => ternaryIn (if x = ('?', true) then some i else none) (i + 1) rest
  | some question, i, x :: rest =>
    if x = (':', true) then some (question, i) else ternaryIn (some question) (i + 1) rest

theorem ternaryIn_hidden (question : Option Nat) (i : Nat) (c : Char) (rest : List (Char × Bool)) :
    ternaryIn question i ((c, false) :: rest) = ternaryIn question (i + 1) rest := by
  cases question with
  | none | some question => rw [ternaryIn, if_neg (by simp)]

theorem ternaryIn_colon (question i : Nat) (marked : List (Char × Bool)) :
    ternaryIn (some question) i marked =
      (marked.findIdx? (· = (':', true))).map fun colon => (question, i + colon) := by
  induction marked generalizing i with
  | nil => rfl
  | cons x rest ih =>
    rw [ternaryIn, findIdx?_cons]
    by_cases hx : x = (':', true)
    · rw [if_pos hx, if_pos (decide_eq_true hx)]; rfl
    · rw [if_neg hx, if_neg (by simpa using hx), ih, Option.map_map]
      congr 1
      funext colon
      exact congrArg (Prod.mk question) (add_right_comm i 1 colon)

theorem ternaryIn_question (i : Nat) (marked : List (Char × Bool)) :
    ternaryIn none i marked = (marked.findIdx? (· = ('?', true))).bind fun question =>
      ((marked.drop (question + 1)).findIdx? (· = (':', true))).map fun colon =>
        (i + question, i + question + 1 + colon) := by
  induction marked generalizing i with
  | nil => rfl
  | cons x rest ih =>
    rw [ternaryIn, findIdx?_cons]
    by_cases hx : x = ('?', true)
    · rw [if_pos hx, if_pos (decide_eq_true hx), ternaryIn_colon]; rfl
    · rw [if_neg hx, if_neg (by simpa using hx), ih, bind_map]
      congr 1
      funext question
      rw [Function.comp_apply, drop_succ_cons]
      congr 1
      funext colon
      exact Prod.ext (by omega) (by omega)

theorem ternaryOperatorFrom_unquoted {c : Char} (hc : c ≠ '"' ∧ c ≠ '\'') (paren bracket : Nat)
    (question : Option Nat) (i : Nat) (text : Text)
    (ih : ∀ paren bracket question, ternaryOperatorFrom .unquoted paren bracket question (i + 1) text =
      ternaryIn question (i + 1) (TopScan.marked ⟨.unquoted, false, paren, bracket⟩ text)) :
    ternaryOperatorFrom .unquoted paren bracket question i (c :: text) =
      ternaryIn question i (TopScan.marked ⟨.unquoted, false, paren, bracket⟩ (c :: text)) := by
  rw [ternaryOperatorFrom.eq_def, TopScan.marked_cons]
  dsimp only
  rw [if_neg hc.1, if_neg hc.2]
  unfold TopScan.looks TopScan.next TopScan.start
  dsimp only
  rw [if_neg hc.1, if_neg hc.2]
  by_cases h1 : c = '('
  · simp [h1, ternaryIn_hidden, ih]
  by_cases h2 : c = ')' ∧ paren > 0
  · have hpos : paren ≠ 0 := by omega
    simp [h2, hpos, ternaryIn_hidden, ih]
  by_cases h3 : c = '['
  · simp [h3, ternaryIn_hidden, ih]
  by_cases h4 : c = ']' ∧ bracket > 0
  · have hpos : bracket ≠ 0 := by omega
    simp [h4, hpos, ternaryIn_hidden, ih]
  rw [if_neg h1, if_neg h2, if_neg h3, if_neg h4, if_neg h1, if_neg h2, if_neg h3, if_neg h4]
  by_cases htop : paren = 0 ∧ bracket = 0
  · obtain ⟨rfl, rfl⟩ := htop
    have hlooks : (decide (TopScan.mk .unquoted false 0 0 = ⟨.unquoted, false, 0, 0⟩) &&
        decide (c ≠ '"') && decide (c ≠ '\'') && decide (c ≠ '(') && decide (c ≠ '[')) = true := by
      simp [hc.1, hc.2, h1, h3]
    rw [if_pos ⟨rfl, rfl⟩, hlooks]
    cases question with
    | none => rw [ternaryIn, ih]; simp
    | some question => rw [ternaryIn]; simp [ih]
  · have hlooks : decide (TopScan.mk .unquoted false paren bracket = ⟨.unquoted, false, 0, 0⟩) =
        false := by simpa using htop
    rw [if_neg htop, hlooks, ih]
    exact (ternaryIn_hidden question i c _).symm

theorem ternaryIn_behind {quote quote' : Quote} {paren bracket i : Nat} {question : Option Nat}
    {c : Char} {rest : Text} (hlooks : TopScan.looks ⟨quote, false, paren, bracket⟩ c = false)
    (hnext : TopScan.next ⟨quote, false, paren, bracket⟩ c = ⟨quote', false, paren, bracket⟩) :
    ternaryIn question i (TopScan.marked ⟨quote, false, paren, bracket⟩ (c :: rest)) =
      ternaryIn question (i + 1) (TopScan.marked ⟨quote', false, paren, bracket⟩ rest) := by
  rw [TopScan.marked_cons, hlooks, ternaryIn_hidden, hnext]

theorem ternaryOperatorFrom_marked (quote : Quote) (paren bracket : Nat) (question : Option Nat)
    (i : Nat) (text : Text) : ternaryOperatorFrom quote paren bracket question i text =
      ternaryIn question i (TopScan.marked ⟨quote, false, paren, bracket⟩ text) := by
  -- an escape in double quotes takes two characters at once
  induction h : text.length using Nat.strongRecOn generalizing quote paren bracket question i text with
  | ind n ih =>
    subst h
    cases text with
    | nil =>
      cases question <;> rfl
    | cons c rest =>
      have hrest := fun quote paren bracket question i =>
        ih rest.length (lt_succ_self _) quote paren bracket question i rest rfl
      cases quote with
      | single =>
        rw [ternaryOperatorFrom, hrest]
        refine (ternaryIn_behind (by simp [TopScan.looks, TopScan.start]) ?_).symm
        by_cases hc : c = '\''
        · subst hc; rfl
        · simp [TopScan.next, hc]
      | double =>
        have hlooks : TopScan.looks ⟨.double, false, paren, bracket⟩ c = false := by
          simp [TopScan.looks, TopScan.start]
        by_cases hquote : c = '"'
        · subst hquote
          exact (hrest _ _ _ _ _).trans (ternaryIn_behind hlooks rfl).symm
        by_cases hescape : c = '\\'
        · subst hescape
          rw [TopScan.marked_cons, hlooks, ternaryIn_hidden]
          cases rest with
          | nil => exact (hrest .double paren bracket question (i + 1)).trans (by cases question <;> rfl)
          | cons d rest =>
            -- a backslash and the character behind it
            have hlt : rest.length < ('\\' :: d :: rest).length :=
              (lt_succ_self _).trans (lt_succ_self _)
            have hread := ih rest.length hlt .double paren bracket question (i + 2) rest rfl
            exact hread.trans (ternaryIn_hidden question (i + 1) d _).symm
        · have hread : ternaryOperatorFrom .double paren bracket question i (c :: rest) =
              ternaryOperatorFrom .double paren bracket question (i + 1) rest := by
            rw [ternaryOperatorFrom, if_neg hquote]
            exact fun _ _ hc _ => hescape hc
          rw [hread, hrest]
          exact (ternaryIn_behind hlooks (by simp [TopScan.next, hquote, hescape])).symm
      | unquoted =>
        by_cases hdouble : c = '"'
        · subst hdouble
          exact (hrest .double _ _ _ _).trans (ternaryIn_behind (by simp [TopScan.looks]) rfl).symm
        by_cases hsingle : c = '\''
        · subst hsingle
          exact (hrest .single _ _ _ _).trans (ternaryIn_behind (by simp [TopScan.looks]) rfl).symm
        · exact ternaryOperatorFrom_unquoted ⟨hdouble, hsingle⟩ paren bracket question i rest
            fun paren bracket question => hrest _ paren bracket question _

/-- **The executor finds what the parser finds.** -/
theorem ternaryOperatorFrom_eq (text : Text) :
    ternaryOperatorFrom .unquoted 0 0 none 0 text = findTopLevelTernaryOperator text := by
  rw [ternaryOperatorFrom_marked, ternaryIn_question, findTopLevelTernaryOperator, markedChars_eq]
  simp only [zero_add]
  rfl

theorem ternarySplit_agree {text : Text} (h : text.length < arkshMaxLine) :
    evaluateTernarySplit text = parseTernary text := by
  have htrim : trimCopy arkshMaxLine text = trimText (copyString arkshMaxLine text) := by
    rw [trimCopy, copyString_of_lt h, copyString_of_lt ((trimText_length_le _).trans_lt h)]
  rw [evaluateTernarySplit, parseTernary, htrim, ternaryOperatorFrom_eq]
  rfl

/-! ## 3. Conditionals as they are written -/

/-- A value expression without a `?` or `:` of its own: what is between quotes or brackets does not
    count. -/
structure ValueOperand where
  text : Text
  nonempty : text ≠ []
  trimmed : trimText text = text
  closed : ClosedText text
  plain : ∀ x ∈ markedChars ⟨false, false⟩ text, x ≠ ('?', true) ∧ x ≠ (':', true)

inductive Conditional where
  | operand (operand : ValueOperand)
  | cond (condition : ValueOperand) (trueBranch falseBranch : Conditional)

namespace Conditional

def text : Conditional → Text
  | operand o => o.text
  | cond a t f => a.text ++ (" ? ".toList ++ (t.text ++ (" : ".toList ++ f.text)))

def IsOperand : Conditional → Prop
  | operand _ => True
  | cond _ _ _ => False

def TernaryLaw (a : ValueOperand) (t f : Conditional) : Prop :=
  parseTernary (cond a t f).text = .parts a.text t.text f.text ∧
    evaluateTernarySplit (cond a t f).text = .parts a.text t.text f.text

def TernaryFits (a : ValueOperand) (t f : Conditional) : Prop :=
  t.IsOperand ∧ (cond a t f).text.length < arkshMaxLine

end Conditional

namespace Conditional

theorem text_ne_nil (x : Conditional) : x.text ≠ [] := by
  cases x with
  | operand o => exact o.nonempty
  | cond a t f => exact append_ne_nil_of_left_ne_nil a.nonempty _

theorem trimText_text (x : Conditional) : trimText x.text = x.text := by
  induction x with
  | operand o => exact o.trimmed
  | cond a t f iht ihf =>
    have hbetween := trimText_between (" ? ".toList ++ (t.text ++ " : ".toList)) a.trimmed ihf
      a.nonempty f.text_ne_nil
    rw [append_assoc, append_assoc] at hbetween
    exact hbetween

theorem question_closed : ClosedText " ? ".toList := by decide

theorem colon_closed : ClosedText " : ".toList := by decide

theorem text_closed (x : Conditional) : ClosedText x.text := by
  induction x with
  | operand o => exact o.closed
  | cond a t f iht ihf =>
    exact a.closed.append (question_closed.append (iht.append (colon_closed.append ihf)))

theorem markedChars_text (a : ValueOperand) (t f : Conditional) :
    markedChars ⟨false, false⟩ (cond a t f).text = markedChars ⟨false, false⟩ a.text ++
      ([(' ', true), ('?', true), (' ', true)] ++ (markedChars ⟨false, false⟩ t.text ++
        ([(' ', true), (':', true), (' ', true)] ++ markedChars ⟨false, false⟩ f.text))) := by
  have hquestion : markedChars ⟨false, false⟩ " ? ".toList =
      [(' ', true), ('?', true), (' ', true)] := by decide
  have hcolon : markedChars ⟨false, false⟩ " : ".toList =
      [(' ', true), (':', true), (' ', true)] := by decide
  rw [text, markedChars_append a.closed, markedChars_append question_closed,
    markedChars_append t.text_closed, markedChars_append colon_closed, hquestion, hcolon]

end Conditional

/-! ## 4. Where a conditional is split -/

theorem length_markedChars (text : Text) :
    (markedChars ⟨false, false⟩ text).length = text.length := by
  rw [markedChars_eq, TopScan.length_marked]

def Conditional.firstColon (t : Conditional) : Option Nat :=
  (markedChars ⟨false, false⟩ t.text).findIdx? (· = (':', true))

variable {t f : Conditional}

theorem Conditional.firstColon_operand (h : t.IsOperand) : t.firstColon = none := by
  cases t with
  | operand o =>
    rw [firstColon, findIdx?_eq_none_iff]
    exact fun x hx => decide_eq_false (o.plain x hx).2
  | cond a t f => exact h.elim

theorem Conditional.firstColon_cond (h : ¬ t.IsOperand) :
    ∃ colon, t.firstColon = some colon ∧ colon < t.text.length := by
  cases t with
  | operand o => exact (h trivial).elim
  | cond a t f =>
    cases hcolon : (cond a t f).firstColon with
    | none =>
      rw [firstColon, findIdx?_eq_none_iff] at hcolon
      have hmem : (':', true) ∈ markedChars ⟨false, false⟩ (cond a t f).text := by
        rw [markedChars_text]
        simp
      exact absurd (hcolon _ hmem) (by decide)
    | some colon =>
      obtain ⟨hlt, -⟩ := findIdx?_eq_some_iff_getElem.mp hcolon
      rw [length_markedChars] at hlt
      exact ⟨colon, rfl, hlt⟩

theorem Conditional.findTopLevelTernaryOperator_text (a : ValueOperand) (t f : Conditional) :
    findTopLevelTernaryOperator (cond a t f).text =
      some (a.text.length + 1, a.text.length + 3 + (t.firstColon.getD (t.text.length + 1))) := by
  have hlen := length_markedChars a.text
  have hquestion : (markedChars ⟨false, false⟩ (cond a t f).text).findIdx? (· = ('?', true)) =
      some (a.text.length + 1) := by
    have hnone : (markedChars ⟨false, false⟩ a.text).findIdx? (· = ('?', true)) = none := by
      rw [findIdx?_eq_none_iff]
      exact fun x hx => decide_eq_false (a.plain x hx).1
    rw [markedChars_text, findIdx?_append, hnone, none_or, findIdx?_append, hlen]
    show some (1 + a.text.length) = _
    rw [add_comm]
  have hrest : (markedChars ⟨false, false⟩ (cond a t f).text).drop (a.text.length + 1 + 1) =
      (' ', true) :: (markedChars ⟨false, false⟩ t.text ++
        ([(' ', true), (':', true), (' ', true)] ++ markedChars ⟨false, false⟩ f.text)) := by
    rw [markedChars_text, add_assoc, ← hlen, drop_length_add_append]
    rfl
  rw [findTopLevelTernaryOperator, hquestion, bind_some, hrest, findIdx?_cons, if_neg (by decide),
    findIdx?_append, ← firstColon]
  cases hcolon : t.firstColon with
  | none =>
    rw [none_or, findIdx?_append, length_markedChars]
    show some (_, a.text.length + 1 + 1 + (1 + t.text.length + 1)) = some (_, a.text.length + 3 + _)
    congr 2
    show _ = a.text.length + 3 + (t.text.length + 1)
    omega
  | some colon =>
    show some (_, a.text.length + 1 + 1 + (colon + 1)) = some (_, a.text.length + 3 + colon)
    congr 2
    omega

theorem findTopLevelTernaryOperator_take {text : Text} {n question colon : Nat}
    (h : findTopLevelTernaryOperator (text.take n) = some (question, colon)) :
    findTopLevelTernaryOperator text = some (question, colon) ∧ colon < (text.take n).length := by
  obtain ⟨behind, hbehind⟩ : ∃ behind, markedChars ⟨false, false⟩ text =
      markedChars ⟨false, false⟩ (text.take n) ++ behind := by
    refine ⟨TopScan.marked (TopScan.start.after (text.take n)) (text.drop n), ?_⟩
    rw [markedChars_eq, markedChars_eq, ← TopScan.marked_append, take_append_drop]
  have hlen := length_markedChars (text.take n)
  obtain ⟨q, hq, hrest⟩ := bind_eq_some_iff.mp h
  obtain ⟨c, hc, hpair⟩ := map_eq_some_iff.mp hrest
  obtain ⟨rfl, rfl⟩ := Prod.mk.inj hpair
  obtain ⟨hclt, -⟩ := findIdx?_eq_some_iff_getElem.mp hc
  rw [length_drop] at hclt
  refine ⟨?_, by omega⟩
  rw [findTopLevelTernaryOperator, hbehind, findIdx?_append, hq, some_or, bind_some,
    drop_append_of_le_length (by omega), findIdx?_append, hc, some_or, map_some]

/-! ## 5. The law -/

theorem TernarySplit.ofTexts_parts {x y z c t f : Text} (h : ofTexts x y z = .parts c t f) :
    x = c ∧ y = t ∧ z = f := by
  rw [ofTexts] at h
  split at h
  · cases h
  · cases h; exact ⟨rfl, rfl, rfl⟩

theorem parseTernary_parts {line condition trueBranch falseBranch : Text}
    (h : parseTernary line = .parts condition trueBranch falseBranch) : ∃ question colon,
      findTopLevelTernaryOperator (trimCopy arkshMaxLine line) = some (question, colon) ∧
      copyTrimmedSlice (trimCopy arkshMaxLine line) (question + 1) colon = trueBranch ∧
      copyTrimmedSlice (trimCopy arkshMaxLine line) (colon + 1)
        (trimCopy arkshMaxLine line).length = falseBranch := by
  rw [parseTernary] at h
  split at h
  · cases h
  · rename_i question colon hfind
    obtain ⟨-, htrue, hfalse⟩ := TernarySplit.ofTexts_parts h
    exact ⟨question, colon, hfind, htrue, hfalse⟩

namespace Conditional

section

variable (a : ValueOperand)

theorem length_text (t f : Conditional) :
    (cond a t f).text.length = a.text.length + t.text.length + f.text.length + 6 := by
  have h1 : (" ? ".toList).length = 3 := rfl
  have h2 : (" : ".toList).length = 3 := rfl
  rw [text, length_append, length_append, length_append, length_append, h1, h2]
  omega

/-- What stands behind the `?`. -/
theorem drop_question (t f : Conditional) :
    (cond a t f).text.drop (a.text.length + 2) = ' ' :: (t.text ++ (" : ".toList ++ f.text)) := by
  rw [text, drop_length_add_append]
  rfl

theorem drop_colon (t f : Conditional) :
    (cond a t f).text.drop (a.text.length + 3 + (t.text.length + 1) + 1) = ' ' :: f.text := by
  have hplace : a.text.length + 3 + (t.text.length + 1) + 1 =
      (a.text.length + 2) + (1 + (t.text.length + 2)) := by omega
  rw [hplace, ← drop_drop, drop_question, add_comm 1, drop_succ_cons, drop_length_add_append]
  rfl

end

theorem fits_of_split {a : ValueOperand}
    (h : parseTernary (cond a t f).text = .parts a.text t.text f.text) : TernaryFits a t f := by
  have hmax : arkshMaxLine = 2048 := rfl
  have htrim : trimCopy arkshMaxLine (cond a t f).text = (cond a t f).text.take 2047 := by
    rw [trimCopy, trimText_text]
    rfl
  obtain ⟨question, colon, hfind, htrue, hfalse⟩ := parseTernary_parts h
  rw [htrim] at hfind htrue hfalse
  obtain ⟨hfound, hcolon⟩ := findTopLevelTernaryOperator_take hfind
  have hfits : ((cond a t f).text.take 2047).length < arkshMaxLine := by rw [length_take]; omega
  rw [findTopLevelTernaryOperator_text] at hfound
  obtain ⟨rfl, rfl⟩ := Prod.mk.inj (Option.some.inj hfound)
  rw [copyTrimmedSlice_eq hfits hcolon.le] at htrue
  rw [copyTrimmedSlice_eq hfits le_rfl, take_of_length_le (by rw [length_drop]),
    drop_take] at hfalse
  have hlen := length_text a t f
  have hoperand : t.IsOperand := by
    by_contra hcond
    obtain ⟨place, hplace, hlt⟩ := firstColon_cond hcond
    rw [hplace] at htrue
    -- the text up to the first colon is shorter than the true branch
    rw [drop_take, take_take, drop_question] at htrue
    have hshort := congrArg List.length htrue
    have hcut : ∀ n m, n ≤ place + 1 →
        (trimText (List.take (min n m) (' ' :: (t.text ++ (" : ".toList ++ f.text))))).length <
          t.text.length := by
      intro n m hn
      cases hk : min n m with
      | zero => exact lt_of_le_of_lt (zero_le _) hlt
      | succ k =>
        refine (length_trimText_blank _).trans_lt ?_
        rw [length_take]
        omega
    have := hcut (a.text.length + 3 + (some place).getD (t.text.length + 1) - (a.text.length + 1 + 1))
      (2047 - (a.text.length + 1 + 1)) (by
        show a.text.length + 3 + place - _ ≤ _
        omega)
    omega
  refine ⟨hoperand, ?_⟩
  by_contra hlong
  rw [firstColon_operand hoperand] at hfalse hcolon
  rw [getD_none] at hfalse hcolon
  rw [drop_colon] at hfalse
  have hshort := congrArg List.length hfalse
  cases hk : 2047 - (a.text.length + 3 + (t.text.length + 1) + 1) with
  | zero =>
    rw [hk] at hshort
    have hpos := length_pos_iff.mpr f.text_ne_nil
    have : (trimText (List.take 0 (' ' :: f.text))).length = 0 := rfl
    omega
  | succ k =>
    rw [hk, take_succ_cons] at hshort
    have hcut := length_trimText_blank (f.text.take k)
    rw [length_take] at hcut
    omega

theorem split_of_fits {a : ValueOperand} (h : TernaryFits a t f) :
    parseTernary (cond a t f).text = .parts a.text t.text f.text := by
  obtain ⟨hoperand, hfits⟩ := h
  have htrim : trimCopy arkshMaxLine (cond a t f).text = (cond a t f).text := by
    rw [trimCopy, trimText_text]
    exact copyString_of_lt hfits
  have hlen := length_text a t f
  have hfind := findTopLevelTernaryOperator_text a t f
  rw [firstColon_operand hoperand, getD_none] at hfind
  have hcondition : copyTrimmedSlice (cond a t f).text 0 (a.text.length + 1) = a.text := by
    rw [copyTrimmedSlice_eq hfits (by omega), drop_zero, Nat.sub_zero, text, take_length_add_append]
    show trimText (a.text ++ [' ']) = _
    rw [trimText_concat_blank, a.trimmed]
  have htrue : copyTrimmedSlice (cond a t f).text (a.text.length + 1 + 1)
      (a.text.length + 3 + (t.text.length + 1)) = t.text := by
    have hwidth : a.text.length + 3 + (t.text.length + 1) - (a.text.length + 1 + 1) =
        (t.text.length + 1) + 1 := by omega
    rw [copyTrimmedSlice_eq hfits (by omega), hwidth, drop_question, take_succ_cons,
      take_length_add_append]
    show trimText (' ' :: (t.text ++ [' '])) = _
    rw [trimText_cons_blank, trimText_concat_blank, trimText_text]
  have hfalse : copyTrimmedSlice (cond a t f).text (a.text.length + 3 + (t.text.length + 1) + 1)
      (cond a t f).text.length = f.text := by
    rw [copyTrimmedSlice_eq hfits le_rfl, take_of_length_le (by rw [length_drop]),
      drop_colon, trimText_cons_blank, trimText_text]
  rw [parseTernary, htrim, hfind]
  dsimp only
  rw [hcondition, htrue, hfalse, TernarySplit.ofTexts, if_neg]
  rintro (hnil | hnil | hnil)
  · exact a.nonempty hnil
  · exact t.text_ne_nil hnil
  · exact f.text_ne_nil hnil

/-- **A conditional is split where C splits it exactly where its true branch is none and the text
    fits**, and the executor splits as the parser does. -/
theorem ternaryLaw_iff (a : ValueOperand) (t f : Conditional)
    (text : {text : Text // text.length < arkshMaxLine}) : (TernaryLaw a t f ↔ TernaryFits a t f) ∧
      evaluateTernarySplit text.1 = parseTernary text.1 := by
  refine ⟨⟨fun law => fits_of_split law.1, fun fits => ?_⟩, ternarySplit_agree text.2⟩
  have hsplit := split_of_fits fits
  exact ⟨hsplit, (ternarySplit_agree fits.2).trans hsplit⟩

def digitOperand (n : Fin 10) : ValueOperand where
  text := [Nat.digitChar n]
  nonempty := List.cons_ne_nil _ _
  trimmed := by revert n; decide
  closed := by revert n; decide
  plain := by revert n; decide

/-- `1 ? 2 ? 3 : 4 : 5` has the true branch `2 ? 3` and the false branch `4 : 5`. -/
theorem not_ternaryLaw_nested : ¬ TernaryLaw (digitOperand 1)
    (cond (digitOperand 2) (operand (digitOperand 3)) (operand (digitOperand 4)))
    (operand (digitOperand 5)) := by
  intro law
  have hsplit := law.1
  revert hsplit
  decide

end Conditional

end Arksh
