/-
  Subject: What the parsers of `evaluate_arith` read of a text: brackets that they close, and
           nothing that depends on what stands far behind.
-/
import Arksh.Expand.ArithNested
import Arksh.Expand.ArithReads
import Arksh.Lib.Brackets

namespace Arksh

open CText Scan Brackets List Bool Nat

/-! ## 1. What is read -/

variable {o : ArithOperator} {rest : Text} {next operand : ArithParser}

/-- `rest` is left of `t`, and what was read shows no question mark behind `k` open parentheses or
    more. -/
def ReadsClear (k : Nat) (t rest : Text) : Prop :=
  ∃ read, t = read ++ rest ∧ Clear '(' ')' '?' k read

variable {k : Nat} {t u : Text}

theorem ReadsClear.trans {v : Text} (h : ReadsClear k t u) (h' : ReadsClear k u v) :
    ReadsClear k t v := by
  obtain ⟨a, rfl, ha⟩ := h
  obtain ⟨b, rfl, hb⟩ := h'
  exact ⟨a ++ b, (append_assoc a b v).symm, ha.append hb⟩

theorem ReadsClear.mono {j : Nat} (h : ReadsClear j t rest) (hle : j ≤ k) :
    ReadsClear k t rest := by
  obtain ⟨a, rfl, ha⟩ := h
  exact ⟨a, rfl, ha.mono hle⟩

theorem ReadsClear.length_le (h : ReadsClear k t rest) : rest.length ≤ t.length := by
  obtain ⟨a, rfl, -⟩ := h
  simp

theorem ReadsClear.bare (h : ReadsClear 0 t rest) :
    Brackets.bare '(' ')' '?' 0 t = Brackets.bare '(' ')' '?' 0 rest := by
  obtain ⟨a, rfl, ha⟩ := h
  exact ha 0 le_rfl rest

variable {c : Char}

theorem isspace_plain (h : isspace c = true) : c ≠ '(' ∧ c ≠ ')' ∧ c ≠ '?' := by
  refine ⟨?_, ?_, ?_⟩
  all_goals
    rintro rfl
    exact absurd h (by decide)

theorem isNameChar_plain (h : isNameChar c = true) : c ≠ '(' ∧ c ≠ ')' ∧ c ≠ '?' := by
  refine ⟨?_, ?_, ?_⟩
  all_goals
    rintro rfl
    exact absurd h (by decide)

theorem isNameChar_of_isalnum (h : isalnum c = true) : isNameChar c = true := by
  simp [isNameChar, h]

theorem reads_run {p : Char → Bool} (hp : ∀ c, p c = true → c ≠ '(' ∧ c ≠ ')' ∧ c ≠ '?')
    (t : Text) : ReadsClear 0 t (t.dropWhile p) :=
  ⟨t.takeWhile p, takeWhile_append_dropWhile.symm,
    clear_of_forall fun _ hc => hp _ (mem_takeWhile_imp hc)⟩

theorem reads_skipWs (t : Text) : ReadsClear 0 t (arithSkipWs t) :=
  reads_run (fun _ => isspace_plain) t

theorem reads_cons (hc : c ≠ '(' ∧ c ≠ ')' ∧ c ≠ '?') (t : Text) : ReadsClear 0 (c :: t) t := by
  refine ⟨[c], rfl, clear_of_forall ?_⟩
  intro d hd
  rw [mem_singleton.mp hd]
  exact hc

theorem reads_of_skipWs (h : arithSkipWs t = c :: u) (hc : c ≠ '(' ∧ c ≠ ')' ∧ c ≠ '?') :
    ReadsClear 0 t u := by
  have hskip := reads_skipWs t
  rw [h] at hskip
  exact hskip.trans (reads_cons hc u)

def ArithParser.Reads (k : Nat) (p : ArithParser) : Prop :=
  ∀ ⦃t v rest⦄, p t = .ok (v, rest) → ReadsClear k t rest

theorem operator_plain (ho : o ∈ operatorsAt k) : ∀ c ∈ o.lexeme, c ≠ '(' ∧ c ≠ ')' ∧ c ≠ '?' := by
  obtain ⟨op, rfl, -⟩ := exists_of_mem_operatorsAt ho
  cases op <;> simp [ArithOp.operator]

theorem stands_reads (h : o.stands t = true) (hplain : ∀ c ∈ o.lexeme, c ≠ '(' ∧ c ≠ ')' ∧ c ≠ '?') :
    ReadsClear 0 t (t.drop o.lexeme.length) := by
  unfold ArithOperator.stands at h
  rw [and_eq_true] at h
  obtain ⟨u, rfl⟩ := isPrefixOf_iff_prefix.mp h.1
  rw [drop_left]
  exact ⟨o.lexeme, rfl, clear_of_forall hplain⟩

theorem arithLoop_reads (hnext : next.Reads 0) (k : Nat) (fuel : Nat) :
    ∀ left, (arithLoop next (operatorsAt k) fuel left).Reads 0 := by
  induction fuel with
  | zero =>
    intro left t v rest h
    cases h
    exact reads_skipWs t
  | succ fuel ih =>
    intro left t v rest h
    rw [arithLoop] at h
    split at h
    · rename_i o hfind
      obtain ⟨⟨right, u⟩, hright, h⟩ := bind_ok.mp h
      obtain ⟨left', _, h⟩ := bind_ok.mp h
      have hplain := operator_plain (mem_of_find?_eq_some hfind)
      have hfound := find?_some hfind
      have hstands := stands_reads hfound hplain
      exact (reads_skipWs t).trans (hstands.trans ((hnext hright).trans (ih left' h)))
    · cases h; exact reads_skipWs t

theorem unaryOperator_plain {f : Int → Except ArithError Int} (h : unaryOperator c = some f) :
    c ≠ '(' ∧ c ≠ ')' ∧ c ≠ '?' := by
  refine ⟨?_, ?_, ?_⟩
  all_goals
    rintro rfl
    cases h

variable {primary expr : ArithParser}

theorem arithUnary_reads (hprimary : primary.Reads 0) : (arithUnary primary).Reads 0 := by
  intro t
  induction t with
  | nil => intro v rest h; exact hprimary h
  | cons c t ih =>
    intro v rest h
    rw [arithUnary] at h
    split at h
    · rename_i hspace; exact (reads_cons (isspace_plain hspace) t).trans (ih h)
    split at h
    · rename_i hop
      obtain ⟨w, hw⟩ := onValue_ok h
      exact (reads_cons (unaryOperator_plain hop) t).trans (ih hw)
    · exact hprimary h

theorem arithPower_reads {unary : ArithParser} (hunary : unary.Reads 0) (fuel : Nat) :
    (arithPower unary fuel).Reads 0 := by
  induction fuel with
  | zero =>
    intro t v rest h
    obtain ⟨⟨left, u⟩, hleft, h⟩ := map_ok.mp h
    cases h
    exact (hunary hleft).trans (reads_skipWs u)
  | succ fuel ih =>
    intro t v rest h
    obtain ⟨⟨left, u⟩, hleft, h⟩ := bind_ok.mp h
    have hread := hunary hleft
    dsimp only at h
    split at h
    · rename_i u' hskip
      obtain ⟨⟨right, w⟩, hright, h⟩ := bind_ok.mp h
      obtain ⟨_, _, h⟩ := map_ok.mp h
      cases h
      have hfirst := hread.trans (reads_of_skipWs hskip (by decide))
      exact hfirst.trans ((reads_cons (by decide) u').trans (ih hright))
    · cases h; exact hread.trans (reads_skipWs u)

theorem levelAt_reads (hprimary : primary.Reads 0) : ∀ h ≤ 12, (levelAt primary h).Reads 0
  | 0, _ => hprimary
  | 1, _ => arithUnary_reads hprimary
  | 2, _ => fun _ _ _ h => arithPower_reads (arithUnary_reads hprimary) _ h
  | k + 3, hk => by
    intro t v rest h
    rw [levelAt_binary primary hk] at h
    obtain ⟨⟨left, u⟩, hleft, h⟩ := bind_ok.mp h
    have hread := levelAt_reads hprimary (k + 2) (by omega) hleft
    exact hread.trans (arithLoop_reads (levelAt_reads hprimary (k + 2) (by omega)) _ _ left h)

theorem arithTernary_reads (hoperand : operand.Reads 0) : (arithTernary operand).Reads 1 := by
  intro t v rest h
  obtain ⟨⟨cond, u⟩, hcond, h⟩ := bind_ok.mp h
  have hfirst := (hoperand hcond).mono (zero_le 1)
  dsimp only at h
  split at h
  · rename_i u' hskip
    obtain ⟨⟨x, w⟩, hx, h⟩ := bind_ok.mp h
    have hquestion : ReadsClear 1 u u' := by
      have hread := (reads_skipWs u).mono (zero_le 1)
      rw [hskip] at hread
      exact hread.trans ⟨['?'], rfl, clear_inside (by simp)⟩
    split at h
    · rename_i w' hskip
      obtain ⟨⟨y, z⟩, hy, h⟩ := map_ok.mp h
      cases h
      have hrest := (hoperand hx).trans ((reads_of_skipWs hskip (by decide)).trans (hoperand hy))
      exact hfirst.trans (hquestion.trans (hrest.mono (zero_le 1)))
    · cases h
  · cases h; exact hfirst.trans ((reads_skipWs u).mono (zero_le 1))

theorem reads_brackets (h : ReadsClear (k + 1) t (')' :: rest)) : ReadsClear k ('(' :: t) rest := by
  obtain ⟨a, rfl, ha⟩ := h
  exact ⟨'(' :: (a ++ [')']), by simp, ha.brackets (by decide)⟩

def WholeReads (evaluate : Text → Except ArithError Int) : Prop :=
  ∀ ⦃t v⦄, evaluate t = .ok v → ReadsClear 1 t []

theorem evaluateWith_reads (hexpr : expr.Reads 1) : WholeReads (evaluateWith expr) := by
  intro t v h
  obtain ⟨u, hok, hnil⟩ := evaluateWith_ok.mp h
  have hblank := (reads_skipWs u).mono (zero_le 1)
  rw [hnil] at hblank
  exact (hexpr hok).trans hblank

theorem reads_expansion {inner : Text} (hscan : nestedScan 0 t = some (inner, rest))
    (hinner : ReadsClear 1 inner []) : ReadsClear 0 ('$' :: '(' :: '(' :: t) rest := by
  obtain ⟨a, ha, hclear⟩ := hinner
  rw [append_nil] at ha
  subst ha
  rw [nestedScan_split hscan]
  have hone : ReadsClear 2 (inner ++ ')' :: ')' :: rest) (')' :: ')' :: rest) :=
    ⟨inner, rfl, hclear.mono (by decide)⟩
  exact (reads_cons (by decide) _).trans (reads_brackets (reads_brackets hone))

variable {getVar : Text → Option Text}

theorem arithPrimary_reads {evaluate : Text → Except ArithError Int} (hexpr : expr.Reads 1)
    (hevaluate : WholeReads evaluate) : (arithPrimary getVar expr evaluate).Reads 0 := by
  intro t v rest h
  refine (reads_skipWs t).trans ?_
  unfold arithPrimary at h
  split at h
  · cases h
  · -- a parenthesised expression
    rename_i u hskip
    rw [hskip]
    obtain ⟨⟨w, u'⟩, hw, h⟩ := bind_ok.mp h
    dsimp only at h
    split at h
    · rename_i u'' hskip
      cases h
      have hread := (reads_skipWs u').mono (zero_le 1)
      rw [hskip] at hread
      exact reads_brackets ((hexpr hw).trans hread)
    · cases h
  · -- a nested expansion
    rename_i u hskip
    obtain ⟨⟨inner, u'⟩, hscan, h⟩ := bind_ok.mp h
    obtain ⟨w, hw, h⟩ := map_ok.mp h
    cases h
    rw [hskip]
    exact reads_expansion (arithParseNestedExpansion_ok hscan) (hevaluate hw)
  · -- a name or a number
    rename_i c u _ hne hskip
    rw [hskip]
    split at h
    · rename_i hc
      cases h
      subst hc
      exact (reads_cons (by decide) u).trans (reads_run (fun _ => isNameChar_plain) u)
    split at h
    · cases h; exact reads_run (fun _ => isNameChar_plain) (c :: u)
    split at h
    · rename_i hdigit
      obtain ⟨seg, hsplit, hseg⟩ := strtoll_reads hdigit u
      rw [hsplit, Except.ok.inj h]
      refine ⟨seg, rfl, clear_of_forall fun d hd => ?_⟩
      exact isNameChar_plain (isNameChar_of_isalnum (hseg d hd))
    · cases h

/-- **What an expression reads shows no question mark inside of parentheses.** -/
theorem arithExpr_reads (getVar : Text → Option Text) (depth : Nat) :
    (arithExpr getVar depth).Reads 1 := by
  induction depth with
  | zero => intro t v rest h; cases h
  | succ depth ih =>
    have hprimary : (primaryAt getVar depth).Reads 0 :=
      arithPrimary_reads ih (evaluateWith_reads ih)
    exact arithTernary_reads (levelAt_reads hprimary 12 le_rfl)

theorem primaryAt_reads (getVar : Text → Option Text) (depth : Nat) :
    (primaryAt getVar depth).Reads 0 :=
  arithPrimary_reads (arithExpr_reads getVar depth)
    (evaluateWith_reads (arithExpr_reads getVar depth))

/-! ## 2. What stands behind -/

variable {s : Text}

theorem arithSkipWs_append (ht : arithSkipWs t ≠ []) (s : Text) :
    arithSkipWs (t ++ s) = arithSkipWs t ++ s := by
  have hempty : (t.dropWhile isspace).isEmpty = false := by
    rw [eq_false_iff]
    exact mt isEmpty_iff.mp ht
  unfold arithSkipWs
  rw [dropWhile_append, hempty]
  rfl

theorem arithSkipWs_append_nil (ht : arithSkipWs t = []) (s : Text) :
    arithSkipWs (t ++ s) = arithSkipWs s := by
  unfold arithSkipWs at ht ⊢
  rw [dropWhile_append, ht]
  rfl

theorem arithSkipWs_append_cons (ht : arithSkipWs t = c :: u) (s : Text) :
    arithSkipWs (t ++ s) = c :: (u ++ s) := by
  rw [arithSkipWs_append (by rw [ht]; exact cons_ne_nil c u), ht]
  rfl

theorem arithSkipWs_skip_append (t s : Text) :
    arithSkipWs (arithSkipWs t ++ s) = arithSkipWs (t ++ s) := by
  by_cases ht : arithSkipWs t = []
  · rw [ht, arithSkipWs_append_nil ht]; rfl
  · have hskip : arithSkipWs (arithSkipWs t) ≠ [] := by rwa [arithSkipWs_idem]
    rw [arithSkipWs_append hskip, arithSkipWs_append ht, arithSkipWs_idem]

theorem find_append (hs : Gapped s) (k : Nat) (t : Text) :
    (operatorsAt k).find? (·.stands (t ++ s)) = (operatorsAt k).find? (·.stands t) := by
  refine find?_congr ?_
  intro o ho
  obtain ⟨op, rfl, -⟩ := exists_of_mem_operatorsAt ho
  exact stands_append (operator_visible op) hs t

/-! ## 3. What is read with more behind it -/

variable {p q : ArithParser}

/-- `q` reads the value that `p` reads, and as much, when `s` stands behind the text. -/
def ArithParser.Extends (s : Text) (p q : ArithParser) : Prop :=
  ∀ ⦃t v rest u⦄, p t = .ok (v, rest) → arithSkipWs u = arithSkipWs (t ++ s) →
    ∃ rest', q u = .ok (v, rest') ∧ arithSkipWs rest' = arithSkipWs (rest ++ s)

/-- Nothing is read where there is white space only. -/
def ArithParser.NeedsText (p : ArithParser) : Prop :=
  ∀ ⦃t v rest⦄, p t = .ok (v, rest) → arithSkipWs t ≠ []

theorem arithUnary_skipWs (primary : ArithParser) (t : Text) :
    arithUnary primary t = arithUnary primary (arithSkipWs t) := by
  have hblank : Blank (t.takeWhile isspace) := fun _ hc => mem_takeWhile_imp hc
  have hsplit : t = t.takeWhile isspace ++ arithSkipWs t := takeWhile_append_dropWhile.symm
  calc arithUnary primary t
      = arithUnary primary (t.takeWhile isspace ++ arithSkipWs t) := congrArg _ hsplit
    _ = arithUnary primary (arithSkipWs t) := arithUnary_blank hblank primary _

theorem arithUnary_needsText (h : primary.NeedsText) : (arithUnary primary).NeedsText := by
  intro t v rest hread hnil
  rw [arithUnary_skipWs, hnil] at hread
  exact h hread rfl

theorem arithUnary_extends (hneeds : p.NeedsText) (h : p.Extends s q) :
    (arithUnary p).Extends s (arithUnary q) := by
  intro t
  induction t with
  | nil => intro v rest u hread _; exact absurd rfl (hneeds hread)
  | cons c t ih =>
    intro v rest u hread hu
    rw [arithUnary] at hread
    split at hread
    · rename_i hspace
      have hskip : arithSkipWs (c :: t ++ s) = arithSkipWs (t ++ s) := dropWhile_cons_of_pos hspace
      exact ih hread (hu.trans hskip)
    rename_i hspace
    have hskip : arithSkipWs u = c :: (t ++ s) :=
      hu.trans (arithSkipWs_cons (eq_false_iff.mpr hspace) _)
    rw [arithUnary_skipWs, hskip, arithUnary, if_neg hspace]
    split at hread
    · obtain ⟨w, hw⟩ := onValue_ok hread
      obtain ⟨rest', hright, hrest⟩ := ih hw rfl
      rw [hw] at hread
      obtain ⟨x, hx, heq⟩ := map_ok.mp hread
      cases heq
      refine ⟨rest', ?_, hrest⟩
      rw [hright]
      exact map_ok.mpr ⟨v, hx, rfl⟩
    · exact h hread rfl

/-- No `**` stands where none stood before. -/
theorem not_stars_append (hs : Gapped s) (hstop : ∀ u, arithSkipWs s ≠ '*' :: '*' :: u)
    (ht : ∀ u, arithSkipWs t ≠ '*' :: '*' :: u) : ∀ u, arithSkipWs (t ++ s) ≠ '*' :: '*' :: u := by
  intro u heq
  by_cases hnil : arithSkipWs t = []
  · rw [arithSkipWs_append_nil hnil] at heq; exact hstop u heq
  rw [arithSkipWs_append hnil] at heq
  match hskip : arithSkipWs t, heq with
  | [], _ => exact hnil hskip
  | [_], heq =>
    have hstar := hs '*' (by rw [show s = '*' :: u from (cons.inj heq).2]; rfl)
    exact absurd hstar (by decide)
  | a :: b :: w, heq => obtain ⟨rfl, rfl, -⟩ := heq; exact ht w hskip

theorem arithPower_extends (hs : Gapped s) (hstop : ∀ u, arithSkipWs s ≠ '*' :: '*' :: u)
    (hp : p.Reads 0) (hq : q.Reads 0) (hpneeds : p.NeedsText) (hqneeds : q.NeedsText)
    (h : p.Extends s q) (n : Nat) :
    ∀ m t v rest u, arithPower p n t = .ok (v, rest) → t.length ≤ n → u.length ≤ m →
      arithSkipWs u = arithSkipWs (t ++ s) →
      ∃ rest', arithPower q m u = .ok (v, rest') ∧ arithSkipWs rest' = arithSkipWs (rest ++ s) := by
  induction n with
  | zero =>
    intro m t v rest u hread hn _ _
    obtain ⟨⟨left, r⟩, hleft, -⟩ := map_ok.mp hread
    rw [length_eq_zero_iff.mp (le_zero.mp hn)] at hleft
    exact absurd rfl (hpneeds hleft)
  | succ n ih =>
    intro m t v rest u hread hn hm hu
    have hread' := hread
    obtain ⟨⟨left, r⟩, hleft, -⟩ := bind_ok.mp hread'
    obtain ⟨r', hleft', hr'⟩ := h hleft hu
    have hr := (hp hleft).length_le
    have hlen := (hq hleft').length_le
    obtain ⟨m, rfl⟩ : ∃ k, m = k + 1 := by
      cases u with
      | nil => exact absurd rfl (hqneeds hleft')
      | cons c u => exact ⟨m - 1, by simp at hm; omega⟩
    by_cases hstars : ∃ w, arithSkipWs r = '*' :: '*' :: w
    · obtain ⟨w, hw⟩ := hstars
      have hw' : arithSkipWs r' = '*' :: '*' :: (w ++ s) := hr'.trans (arithSkipWs_append_cons hw s)
      have hle := arithSkipWs_length_le r
      have hle' := arithSkipWs_length_le r'
      rw [hw] at hle
      rw [hw'] at hle'
      simp only [length_cons] at hle hle'
      rw [arithPower_stars hleft hw] at hread
      obtain ⟨⟨right, x⟩, hright, hread⟩ := bind_ok.mp hread
      obtain ⟨y, hpow, heq⟩ := map_ok.mp hread
      cases heq
      obtain ⟨x', hright', hx'⟩ := ih m w right rest (w ++ s) hright (by omega) (by omega) rfl
      refine ⟨x', ?_, hx'⟩
      rw [arithPower_stars hleft' hw', hright']
      exact map_ok.mpr ⟨v, hpow, rfl⟩
    · have hplain : ∀ w, arithSkipWs r ≠ '*' :: '*' :: w := not_exists.mp hstars
      rw [arithPower_plain hleft hplain] at hread
      cases hread
      refine ⟨arithSkipWs r', arithPower_plain hleft' ?_, ?_⟩
      · rw [hr']; exact not_stars_append hs hstop hplain
      · rw [arithSkipWs_idem, hr', arithSkipWs_skip_append]

theorem stands_nil (ho : o ∈ operatorsAt k) : o.stands [] = false := by
  obtain ⟨op, rfl, -⟩ := exists_of_mem_operatorsAt ho
  cases op <;> rfl

theorem stands_split (ho : o ∈ operatorsAt k) (h : o.stands t = true) :
    ∃ u, t = o.lexeme ++ u ∧ 0 < o.lexeme.length := by
  obtain ⟨op, rfl, -⟩ := exists_of_mem_operatorsAt ho
  unfold ArithOperator.stands at h
  rw [and_eq_true] at h
  obtain ⟨u, rfl⟩ := isPrefixOf_iff_prefix.mp h.1
  exact ⟨u, rfl, length_pos_iff.mpr (operator_visible op).1⟩

theorem arithLoop_found {table : List ArithOperator} {fuel : Nat} {left : Int} {w : Text}
    (hfind : table.find? (·.stands (arithSkipWs t)) = some o) (hw : arithSkipWs t = o.lexeme ++ w) :
    arithLoop next table (fuel + 1) left t =
      (next w).bind fun (right, t) =>
        (o.op.apply left right).bind fun left => arithLoop next table fuel left t := by
  rw [arithLoop, hfind]
  dsimp only
  rw [hw, drop_left]

theorem arithLoop_extends (hs : Gapped s)
    (hstop : ∀ o ∈ operatorsAt k, o.stands (arithSkipWs s) = false) (hp : p.Reads 0)
    (hq : q.Reads 0) (h : p.Extends s q) (n : Nat) :
    ∀ m left t v rest u, arithLoop p (operatorsAt k) n left t = .ok (v, rest) →
      t.length ≤ n → u.length ≤ m → arithSkipWs u = arithSkipWs (t ++ s) →
      ∃ rest', arithLoop q (operatorsAt k) m left u = .ok (v, rest') ∧
        arithSkipWs rest' = arithSkipWs (rest ++ s) := by
  -- where no operator stands, the loop ends with more text, too
  have hends : ∀ m left t u, (operatorsAt k).find? (·.stands (arithSkipWs t)) = none →
      arithSkipWs u = arithSkipWs (t ++ s) →
      arithLoop q (operatorsAt k) m left u = .ok (left, arithSkipWs (t ++ s)) := by
    intro m left t u hnone hu
    have hnone' : (operatorsAt k).find? (·.stands (arithSkipWs u)) = none := by
      rw [hu]
      by_cases hnil : arithSkipWs t = []
      · rw [arithSkipWs_append_nil hnil]; exact find?_eq_none.mpr fun o ho => by simp [hstop o ho]
      · rw [arithSkipWs_append hnil, find_append hs]; exact hnone
    cases m with
    | zero => exact congrArg (fun r => Except.ok (left, r)) hu
    | succ m => rw [arithLoop, hnone']; exact congrArg (fun r => Except.ok (left, r)) hu
  have hskip : ∀ t : Text,
      arithSkipWs (arithSkipWs (t ++ s)) = arithSkipWs (arithSkipWs t ++ s) := by
    intro t
    rw [arithSkipWs_idem, arithSkipWs_skip_append]
  induction n with
  | zero =>
    intro m left t v rest u hread hn _ hu
    cases length_eq_zero_iff.mp (le_zero.mp hn)
    cases hread
    refine ⟨_, hends m left [] u ?_ hu, hskip []⟩
    exact find?_eq_none.mpr fun o ho => by simp [arithSkipWs, stands_nil ho]
  | succ n ih =>
    intro m left t v rest u hread hn hm hu
    rw [arithLoop] at hread
    split at hread
    · rename_i o hfind
      have ho := mem_of_find?_eq_some hfind
      have hfound := find?_some hfind
      have hne : arithSkipWs t ≠ [] := by
        intro hnil
        rw [hnil] at hfound
        exact absurd hfound (by simp [stands_nil ho])
      have hu' := hu.trans (arithSkipWs_append hne s)
      obtain ⟨w, hw, hlexeme⟩ := stands_split ho hfound
      have hlen := arithSkipWs_length_le t
      have hlen' := arithSkipWs_length_le u
      rw [hu', hw] at hlen'
      rw [hw] at hlen
      simp only [length_append] at hlen hlen'
      rcases m with _ | m
      · omega
      rw [hw, drop_left] at hread
      obtain ⟨⟨right, r⟩, hright, hread⟩ := bind_ok.mp hread
      obtain ⟨left', hleft', hread⟩ := bind_ok.mp hread
      obtain ⟨r', hright', hr'⟩ := h hright (u := w ++ s) rfl
      have hr := (hp hright).length_le
      have hrlen := (hq hright').length_le
      simp only [length_append] at hrlen
      obtain ⟨rest', hloop, hrest⟩ := ih m left' r v rest r' hread (by omega) (by omega) hr'
      refine ⟨rest', ?_, hrest⟩
      have hfind' : (operatorsAt k).find? (·.stands (arithSkipWs u)) = some o := by
        rw [hu', find_append hs]
        exact hfind
      have hw' : arithSkipWs u = o.lexeme ++ (w ++ s) := by rw [hu', hw, append_assoc]
      rw [arithLoop_found hfind' hw', hright']
      dsimp only [Except.bind]
      rw [hleft']
      exact hloop
    · rename_i hnone
      cases hread
      exact ⟨_, hends m left t u hnone hu, hskip t⟩

structure PrimaryExtends (s : Text) (p q : ArithParser) : Prop where
  reads : p.Reads 0
  reads' : q.Reads 0
  needsText : p.NeedsText
  needsText' : q.NeedsText
  extends_ : p.Extends s q

theorem levelAt_extends (hs : Gapped s) (hstop : Stops 12 s) (h : PrimaryExtends s p q) :
    ∀ k ≤ 12, (levelAt p k).Extends s (levelAt q k)
  | 0, _ => h.extends_
  | 1, _ => arithUnary_extends h.needsText h.extends_
  | 2, _ => by
    intro t v rest u hread hu
    have hstars : ∀ w, arithSkipWs s ≠ '*' :: '*' :: w :=
      fun w hw => absurd (hstop.power w hw) (by decide)
    have hunary := arithUnary_extends h.needsText h.extends_
    exact arithPower_extends hs hstars (arithUnary_reads h.reads) (arithUnary_reads h.reads')
      (arithUnary_needsText h.needsText) (arithUnary_needsText h.needsText') hunary
      t.length u.length t v rest u hread le_rfl le_rfl hu
  | k + 3, hk => by
    intro t v rest u hread hu
    have hnext := levelAt_extends hs hstop h (k + 2) (by omega)
    have hp := levelAt_reads h.reads (k + 2) (by omega)
    have hq := levelAt_reads h.reads' (k + 2) (by omega)
    rw [levelAt_binary _ hk] at hread ⊢
    obtain ⟨⟨left, r⟩, hleft, hloop⟩ := bind_ok.mp hread
    obtain ⟨r', hleft', hr'⟩ := hnext hleft hu
    obtain ⟨rest', hloop', hrest⟩ := arithLoop_extends hs (hstop.operators (k + 3) hk) hp hq hnext
      r.length r'.length left r v rest r' hloop le_rfl le_rfl hr'
    exact ⟨rest', bind_ok.mpr ⟨_, hleft', hloop'⟩, hrest⟩

/-! ## 4. Conditionals and primaries -/

/-- So does `q`, if something stands behind it, or nothing that goes on with a question mark is
    added. -/
def ArithParser.ExtendsInside (s : Text) (p q : ArithParser) : Prop :=
  ∀ ⦃t v rest u⦄, p t = .ok (v, rest) → arithSkipWs u = arithSkipWs (t ++ s) →
    (arithSkipWs rest ≠ [] ∨ ∀ w, arithSkipWs s ≠ '?' :: w) →
    ∃ rest', q u = .ok (v, rest') ∧ arithSkipWs rest' = arithSkipWs (rest ++ s)

theorem arithTernary_ok {cond v : Int} {t₁ : Text} (hcond : operand t = .ok (cond, t₁))
    (hmark : arithSkipWs t₁ = '?' :: u) (h : arithTernary operand t = .ok (v, rest)) :
    ∃ x t₂ w y, operand u = .ok (x, t₂) ∧ arithSkipWs t₂ = ':' :: w ∧ operand w = .ok (y, rest) ∧
      v = if cond ≠ 0 then x else y := by
  rw [arithTernary_question hcond hmark] at h
  obtain ⟨⟨x, t₂⟩, hx, h⟩ := bind_ok.mp h
  dsimp only [ternaryRest] at h
  split at h
  · rename_i w hcolon
    obtain ⟨⟨y, z⟩, hy, heq⟩ := map_ok.mp h
    cases heq
    exact ⟨x, t₂, w, y, hx, hcolon, hy, rfl⟩
  · cases h

theorem arithTernary_extends (h : p.Extends s q) :
    ArithParser.ExtendsInside s (arithTernary p) (arithTernary q) := by
  intro t v rest u hread hu hend
  have hread' := hread
  obtain ⟨⟨cond, r⟩, hcond, -⟩ := bind_ok.mp hread'
  obtain ⟨r', hcond', hr'⟩ := h hcond hu
  by_cases hquestion : ∃ w, arithSkipWs r = '?' :: w
  · obtain ⟨w, hw⟩ := hquestion
    obtain ⟨x, t₂, w₂, y, hx, hcolon, hy, rfl⟩ := arithTernary_ok hcond hw hread
    have hw' := hr'.trans (arithSkipWs_append_cons hw s)
    obtain ⟨t₂', hx', ht₂'⟩ := h hx (u := w ++ s) rfl
    have hcolon' := ht₂'.trans (arithSkipWs_append_cons hcolon s)
    obtain ⟨rest', hy', hrest'⟩ := h hy (u := w₂ ++ s) rfl
    refine ⟨rest', ?_, hrest'⟩
    rw [arithTernary_question hcond' hw', hx']
    dsimp only [Except.bind]
    rw [ternaryRest_colon _ _ _ hcolon', hy']
    rfl
  · have hsingle : ∀ w, arithSkipWs r ≠ '?' :: w := not_exists.mp hquestion
    rw [arithTernary_single hcond hsingle] at hread
    cases hread
    refine ⟨arithSkipWs r', arithTernary_single hcond' ?_, ?_⟩
    · intro w hw
      rw [hr'] at hw
      by_cases hnil : arithSkipWs r = []
      · rw [arithSkipWs_append_nil hnil] at hw
        rcases hend with hend | hend
        · exact hend (by rw [arithSkipWs_idem, hnil])
        · exact hend w hw
      · rw [arithSkipWs_append hnil] at hw
        cases hr : arithSkipWs r with
        | nil => exact hnil hr
        | cons c r₁ =>
          rw [hr] at hw
          rw [(cons.inj hw).1] at hr
          exact hsingle r₁ hr
    · rw [arithSkipWs_idem, hr', arithSkipWs_skip_append]

theorem evaluateWith_extends (h : p.ExtendsInside [] q) {v : Int} (heval : evaluateWith p t = .ok v) :
    evaluateWith q t = .ok v := by
  obtain ⟨rest, hread, hnil⟩ := evaluateWith_ok.mp heval
  have hu : arithSkipWs t = arithSkipWs (t ++ []) := by rw [append_nil]
  obtain ⟨rest', hread', hrest⟩ := h hread hu (.inr fun w hw => by cases hw)
  rw [append_nil, hnil] at hrest
  exact evaluateWith_ok.mpr ⟨rest', hread', hrest⟩

section

variable (getVar : Text → Option Text)

theorem arithPrimary_needsText (expr : ArithParser) (evaluate : Text → Except ArithError Int) :
    ArithParser.NeedsText (arithPrimary getVar expr evaluate) := by
  intro t v rest h hnil
  unfold arithPrimary at h
  rw [hnil] at h
  cases h

theorem arithPrimary_nested (expr : ArithParser) (evaluate : Text → Except ArithError Int)
    (ht : arithSkipWs t = '$' :: '(' :: '(' :: u) :
    arithPrimary getVar expr evaluate t =
      (arithParseNestedExpansion u).bind fun (nested, t) => (evaluate nested).map (·, t) := by
  unfold arithPrimary
  rw [ht]
  rfl

theorem arithVariable_append (hs : Gapped s) (t : Text) :
    arithVariable getVar (t ++ s) =
      ((arithVariable getVar t).1, (arithVariable getVar t).2 ++ s) := by
  obtain ⟨htake, hdrop⟩ := run_append (fun c hc => (hs.delimits.not_alnum c hc).2) t
  unfold arithVariable
  rw [htake, hdrop]

end

/-- No `((` stands where none stood before. -/
theorem not_parens_append (hs : Gapped s) (ht : ∀ w, t ≠ '(' :: '(' :: w) :
    ∀ w, t ++ s ≠ '(' :: '(' :: w := by
  intro w heq
  have hspace : ∀ u, s ≠ '(' :: u := by rintro u rfl; exact absurd (hs '(' rfl) (by decide)
  match t, ht, heq with
  | [], _, heq => exact hspace _ heq
  | [_], _, heq => exact hspace _ (cons.inj heq).2
  | a :: b :: t, ht, heq => obtain ⟨rfl, rfl, -⟩ := heq; exact ht t rfl

theorem arithPrimary_extends (hs : Gapped s) {e f : Text → Except ArithError Int}
    (h : p.ExtendsInside s q) (heval : ∀ t v, e t = .ok v → f t = .ok v) :
    (arithPrimary getVar p e).Extends s (arithPrimary getVar q f) := by
  intro t v rest u hread hu
  have hread' := hread
  unfold arithPrimary at hread'
  split at hread'
  · cases hread'
  · -- a parenthesised expression
    rename_i t₁ hskip
    obtain ⟨⟨w, t₂⟩, hw, hread'⟩ := bind_ok.mp hread'
    dsimp only at hread'
    split at hread'
    · rename_i t₃ hclose
      cases hread'
      have hseen : arithSkipWs t₂ ≠ [] := by simp [hclose]
      obtain ⟨t₂', hw', ht₂'⟩ := h hw (u := t₁ ++ s) rfl (.inl hseen)
      rw [arithSkipWs_append_cons hclose] at ht₂'
      refine ⟨rest ++ s, ?_, rfl⟩
      rw [arithPrimary_paren getVar q f (hu.trans (arithSkipWs_append_cons hskip s)), hw']
      dsimp only [Except.bind]
      rw [ht₂']
      rfl
    · cases hread'
  · -- a nested expansion
    rename_i t₁ hskip
    obtain ⟨⟨inner, t₂⟩, hscan, hread'⟩ := bind_ok.mp hread'
    obtain ⟨w, hw, heq⟩ := map_ok.mp hread'
    cases heq
    have hfound := nestedScan_append s (arithParseNestedExpansion_ok hscan)
    have hu' : arithSkipWs u = '$' :: '(' :: '(' :: (t₁ ++ s) :=
      hu.trans (arithSkipWs_append_cons hskip s)
    refine ⟨rest ++ s, ?_, rfl⟩
    rw [arithPrimary_nested getVar q f hu', arithParseNestedExpansion, hfound]
    dsimp only [Except.bind]
    rw [heval inner v hw]
    rfl
  · -- a name or a number
    rename_i c t₁ hparen hnested hskip
    have hu' := hu.trans (arithSkipWs_append_cons hskip s)
    have hvariable := arithVariable_append getVar hs
    by_cases hdollar : c = '$'
    · subst hdollar
      cases hread'
      have hplain := not_parens_append hs (t := t₁) fun w hw => hnested w rfl hw
      exact ⟨_, (arithPrimary_dollar getVar q f hu' hplain).trans (congrArg _ (hvariable t₁)), rfl⟩
    rw [if_neg hdollar] at hread'
    have hopen : c ≠ '(' := by rintro rfl; exact hparen rfl
    rw [arithPrimary_char getVar q f hu' hopen hdollar]
    split at hread'
    · rename_i hletter
      cases hread'
      exact ⟨_, (if_pos hletter).trans (congrArg _ (hvariable (c :: t₁))), rfl⟩
    rename_i hletter
    split at hread'
    · rename_i hdigit
      have hnumeral := strtoll_append (fun c hc => (hs.delimits.not_alnum c hc).1) hdigit
        (Except.ok.inj hread')
      refine ⟨rest ++ s, ?_, rfl⟩
      rw [if_neg hletter, if_pos hdigit, hnumeral]
    · cases hread'

theorem primaryAt_extends (getVar : Text → Option Text) {d d' : Nat}
    (h : ∀ s, Gapped s → Stops 12 s →
      ArithParser.ExtendsInside s (arithExpr getVar d) (arithExpr getVar d')) (hs : Gapped s)
    (hstop : Stops 12 s) :
    PrimaryExtends s (primaryAt getVar d) (primaryAt getVar d') where
  reads := primaryAt_reads getVar d
  reads' := primaryAt_reads getVar d'
  needsText := arithPrimary_needsText getVar _ _
  needsText' := arithPrimary_needsText getVar _ _
  extends_ := by
    have hnil : Gapped [] := by simp [Gapped]
    refine arithPrimary_extends hs (h s hs hstop) ?_
    intro t v heval
    exact evaluateWith_extends (h [] hnil (stops_blank blank_nil 12)) heval

/-- **With more text behind a gap, and more parentheses allowed, an expression is read as
    before.** -/
theorem arithExpr_extends (getVar : Text → Option Text) (d : Nat) :
    ∀ d' s, d ≤ d' → Gapped s → Stops 12 s →
      ArithParser.ExtendsInside s (arithExpr getVar d) (arithExpr getVar d') := by
  induction d with
  | zero => intro d' s _ _ _ t v rest u h; cases h
  | succ d ih =>
    intro d' s hle hs hstop
    rcases d' with _ | d'
    · omega
    have hinner := fun s => ih d' s (by omega)
    have hprimary := primaryAt_extends getVar hinner hs hstop
    exact arithTernary_extends (levelAt_extends hs hstop hprimary 12 le_rfl)

end Arksh
