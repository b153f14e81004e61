/-
  Subject: Expansions inside of expansions: what `evaluate_arith` says about the `$((` of its
           text.

  `arith_parse_nested_expansion` counts `$((` and `))`; the evaluator calls it wherever it meets
  a `$((` in front of an operand. `NestedClosed` says that it would find every end.
-/
import Arksh.Expand.Arith

namespace Arksh

open CText Scan List Option

/-! ## 1. Where nested expansions end -/

variable {t inner rest : Text} {c : Char} {depth : Nat} {next : ArithParser} {v : Int}

theorem nestedScan_plain {t : Text} (depth : Nat) (hopen : ∀ u, c = '$' → t ≠ '(' :: '(' :: u)
    (hclose : ∀ u, c = ')' → t ≠ ')' :: u) :
    nestedScan depth (c :: t) = (nestedScan depth t).map fun (inner, rest) => (c :: inner, rest) :=
  nestedScan.eq_4 depth c t (fun u hc ht => hopen u hc ht) (fun u _ hc ht => hclose u hc ht)
    (fun _ u _ hc ht => hclose u hc ht)

/-- **Induction over a search that finds the end**, with the shape of what it finds. -/
theorem nestedScan_found {motive : Nat → Text → Text → Prop} {rest : Text}
    (opens : ∀ depth t inner, nestedScan (depth + 1) t = some (inner, rest) →
      motive (depth + 1) t inner →
      motive depth ('$' :: '(' :: '(' :: t) ('$' :: '(' :: '(' :: inner))
    (ends : motive 0 (')' :: ')' :: rest) [])
    (closes : ∀ depth t inner, nestedScan depth t = some (inner, rest) → motive depth t inner →
      motive (depth + 1) (')' :: ')' :: t) (')' :: ')' :: inner))
    (plain : ∀ depth c t inner, (∀ u, c = '$' → t ≠ '(' :: '(' :: u) →
      (∀ u, c = ')' → t ≠ ')' :: u) → nestedScan depth t = some (inner, rest) →
      motive depth t inner → motive depth (c :: t) (c :: inner)) {t inner : Text}
    (h : nestedScan depth t = some (inner, rest)) : motive depth t inner := by
  fun_induction nestedScan depth t generalizing inner with
  | case1 depth t ih =>
    obtain ⟨⟨inner', rest'⟩, hscan, heq⟩ := map_eq_some_iff.mp h
    cases heq
    exact opens depth t inner' hscan (ih hscan)
  | case2 t => cases h; exact ends
  | case3 depth t ih =>
    obtain ⟨⟨inner', rest'⟩, hscan, heq⟩ := map_eq_some_iff.mp h
    cases heq
    exact closes depth t inner' hscan (ih hscan)
  | case4 depth c t hopen hzero hsucc ih =>
    obtain ⟨⟨inner', rest'⟩, hscan, heq⟩ := map_eq_some_iff.mp h
    cases heq
    refine plain depth c t inner' hopen ?_ hscan (ih hscan)
    intro u hc ht
    cases depth with
    | zero => exact hzero u rfl hc ht
    | succ depth => exact hsucc depth u rfl hc ht
  | case5 => cases h

theorem nestedScan_split (h : nestedScan depth t = some (inner, rest)) :
    t = inner ++ ')' :: ')' :: rest := by
  refine nestedScan_found (motive := fun _ t inner => t = inner ++ ')' :: ')' :: rest)
    ?_ rfl ?_ ?_ h
  · intro _ t inner _ ih
    rw [ih]
    rfl
  · intro _ t inner _ ih
    rw [ih]
    rfl
  · intro _ c t inner _ _ _ ih
    rw [ih]
    rfl

theorem nestedScan_append (s : Text) (h : nestedScan depth t = some (inner, rest)) :
    nestedScan depth (t ++ s) = some (inner, rest ++ s) := by
  refine nestedScan_found
    (motive := fun depth t inner => nestedScan depth (t ++ s) = some (inner, rest ++ s))
    ?_ rfl ?_ ?_ h
  · intro depth t inner _ ih
    show (nestedScan (depth + 1) (t ++ s)).map _ = _
    rw [ih]
    rfl
  · intro depth t inner _ ih
    show (nestedScan depth (t ++ s)).map _ = _
    rw [ih]
    rfl
  · intro depth c t inner hopen hclose hscan ih
    -- at least two characters stand behind `c`, so `s` does not matter here
    have hsplit := nestedScan_split hscan
    rw [cons_append, nestedScan_plain, ih]
    · rfl
    · intro u hc ht
      match t, hsplit, hopen, ht with
      | [_], hsplit, _, _ => exact absurd (congrArg List.length hsplit) (by simp; omega)
      | a :: b :: t, _, hopen, ht => cases ht; exact hopen t hc rfl
    · intro u hc ht
      match t, hsplit, hclose, ht with
      | a :: t, _, hclose, ht => cases ht; exact hclose t hc rfl

theorem nestedScan_inner (h : nestedScan depth t = some (inner, rest)) :
    ∀ k < depth, (nestedScan k inner).isSome = true := by
  refine nestedScan_found
    (motive := fun depth _ inner => ∀ k < depth, (nestedScan k inner).isSome = true)
    ?_ ?_ ?_ ?_ h
  · intro depth t inner _ ih k hk
    show ((nestedScan (k + 1) inner).map _).isSome = true
    rw [isSome_map]
    exact ih (k + 1) (Nat.succ_lt_succ hk)
  · intro k hk; exact absurd hk (Nat.not_lt_zero k)
  · intro depth t inner _ ih k hk
    cases k with
    | zero => rfl
    | succ k =>
      show ((nestedScan k inner).map _).isSome = true
      rw [isSome_map]
      exact ih k (Nat.lt_of_succ_lt_succ hk)
  · intro depth c t inner hopen hclose hscan ih k hk
    obtain rfl := nestedScan_split hscan
    rw [nestedScan_plain, isSome_map]
    · exact ih k hk
    · intro u hc ht; exact hopen (u ++ ')' :: ')' :: rest) hc (by rw [ht]; rfl)
    · intro u hc ht; exact hclose (u ++ ')' :: ')' :: rest) hc (by rw [ht]; rfl)

/-- Every `$((` of the text has an end that the search finds. -/
def NestedClosed (t : Text) : Prop :=
  ∀ u, ('$' :: '(' :: '(' :: u) <:+ t → (nestedScan 0 u).isSome = true

theorem nestedClosed_nil : NestedClosed [] := by
  intro u h
  cases suffix_nil.mp h

theorem nestedClosed_cons {t : Text} : NestedClosed (c :: t) ↔
      (∀ u, c = '$' → t = '(' :: '(' :: u → (nestedScan 0 u).isSome = true) ∧ NestedClosed t := by
  constructor
  · intro h
    refine ⟨?_, fun u hu => h u (hu.trans (suffix_cons c t))⟩
    intro u hc ht
    rw [hc, ht] at h
    exact h u suffix_rfl
  · intro ⟨hhead, htail⟩ u hu
    rcases suffix_cons_iff.mp hu with heq | hu
    · obtain ⟨hc, ht⟩ := cons.inj heq; exact hhead u hc.symm ht.symm
    · exact htail u hu

/-- A character that is not the head of a `$((`. -/
theorem nestedClosed_cons_plain {t : Text} (h : ∀ u, c = '$' → t ≠ '(' :: '(' :: u) :
    NestedClosed (c :: t) ↔ NestedClosed t := by
  rw [nestedClosed_cons]
  exact ⟨fun hc => hc.2, fun hc => ⟨fun u hd ht => absurd ht (h u hd), hc⟩⟩

theorem nestedClosed_skip {seg t : Text} (h : '$' ∉ seg) :
    NestedClosed (seg ++ t) ↔ NestedClosed t := by
  induction seg with
  | nil => rfl
  | cons c seg ih =>
    rw [mem_cons, not_or] at h
    rw [cons_append, nestedClosed_cons_plain fun _ hc => absurd hc.symm h.1]
    exact ih h.2

theorem nestedClosed_skip_class {p : Char → Bool} (hp : p '$' = false) (t : Text) :
    NestedClosed t ↔ NestedClosed (t.dropWhile p) := by
  have h := @nestedClosed_skip (t.takeWhile p) (t.dropWhile p) ?_
  · rw [takeWhile_append_dropWhile] at h; exact h
  · intro hmem
    have := mem_takeWhile_imp hmem
    rw [hp] at this
    cases this

theorem nestedClosed_found (h : nestedScan depth t = some (inner, rest)) : NestedClosed inner := by
  refine nestedScan_found (motive := fun _ _ inner => NestedClosed inner) ?_ nestedClosed_nil ?_ ?_ h
  · intro depth t inner hscan ih
    refine nestedClosed_cons.mpr ⟨?_, (@nestedClosed_skip ['(', '('] _ (by decide)).mpr ih⟩
    intro u _ hu
    cases hu
    exact nestedScan_inner hscan 0 (Nat.succ_pos depth)
  · intro depth t inner _ ih; exact (@nestedClosed_skip [')', ')'] _ (by decide)).mpr ih
  · intro depth c t inner hopen _ hscan ih
    refine (nestedClosed_cons_plain ?_).mpr ih
    intro u hc hu
    rw [nestedScan_split hscan] at hopen
    exact hopen (u ++ ')' :: ')' :: rest) hc (by rw [hu]; rfl)

theorem nestedClosed_append {a s : Text} (ha : NestedClosed a) (hs : s.head? ≠ some '(') :
    NestedClosed (a ++ s) ↔ NestedClosed s := by
  induction a with
  | nil => rfl
  | cons c a ih =>
    obtain ⟨hhead, htail⟩ := nestedClosed_cons.mp ha
    rw [cons_append, nestedClosed_cons, ih htail]
    refine ⟨fun h => h.2, fun h => ⟨?_, h⟩⟩
    intro u hc hu
    match a, hhead, hu with
    | [], _, hu =>
      rw [nil_append] at hu
      rw [hu] at hs
      exact absurd rfl hs
    | [_], _, hu =>
      rw [singleton_append] at hu
      rw [(cons.inj hu).2] at hs
      exact absurd rfl hs
    | x :: y :: a, hhead, hu =>
      cases hu
      obtain ⟨⟨inner, rest⟩, hscan⟩ := isSome_iff_exists.mp (hhead a hc rfl)
      show (nestedScan 0 (a ++ s)).isSome = true
      rw [nestedScan_append s hscan]
      rfl

/-! ## 2. What the evaluator says about them -/

variable {f : Int → Except ArithError Int}

/-- A parser reads closed expansions only, and misses the end of one only where there is none. -/
structure ArithParser.Sound (p : ArithParser) : Prop where
  ok : ∀ {t v rest}, p t = .ok (v, rest) → (NestedClosed t ↔ NestedClosed rest)
  failed : ∀ {t}, p t = .error .unterminated → ¬ NestedClosed t

theorem nestedClosed_skipWs (t : Text) : NestedClosed t ↔ NestedClosed (arithSkipWs t) :=
  nestedClosed_skip_class (by decide) t

theorem nestedClosed_of_skipWs {t u : Text} (h : arithSkipWs t = c :: u) (hc : c ≠ '$') :
    NestedClosed t ↔ NestedClosed u := by
  rw [nestedClosed_skipWs, h]
  exact nestedClosed_cons_plain fun _ hd => absurd hd hc

theorem ArithOperator.stands_closed {o : ArithOperator} {t : Text} (h : o.stands t = true) :
    NestedClosed t ↔ NestedClosed (t.drop o.lexeme.length) := by
  unfold ArithOperator.stands at h
  rw [Bool.and_eq_true] at h
  obtain ⟨u, rfl⟩ := List.isPrefixOf_iff_prefix.mp h.1
  rw [drop_left]
  exact nestedClosed_skip o.plain

theorem arithLoop_sound (hnext : next.Sound) (table : List ArithOperator) (fuel : Nat) :
    ∀ left, (arithLoop next table fuel left).Sound := by
  induction fuel with
  | zero =>
    intro left
    refine ⟨?_, ?_⟩
    · intro t v rest h
      cases h
      exact nestedClosed_skipWs t
    · intro t h; cases h
  | succ fuel ih =>
    intro left
    refine ⟨?_, ?_⟩
    · intro t v rest h
      rw [arithLoop] at h
      split at h
      · rename_i o hfind
        obtain ⟨⟨right, u⟩, hright, h⟩ := bind_ok.mp h
        obtain ⟨left', _, h⟩ := bind_ok.mp h
        have hstands := find?_some hfind
        rw [nestedClosed_skipWs, ArithOperator.stands_closed hstands, hnext.ok hright]
        exact (ih left').ok h
      · cases h; exact nestedClosed_skipWs t
    · intro t h
      rw [arithLoop] at h
      split at h
      · rename_i o hfind
        have hstands := find?_some hfind
        rw [nestedClosed_skipWs, ArithOperator.stands_closed hstands]
        rcases bind_error.mp h with h | ⟨⟨right, u⟩, hright, h⟩
        · exact hnext.failed h
        rw [hnext.ok hright]
        rcases bind_error.mp h with h | ⟨left', _, h⟩
        · exact absurd h (o.op.apply_ne_unterminated _ _)
        · exact (ih left').failed h
      · cases h

theorem arithLevel_sound (hnext : next.Sound) (table : List ArithOperator) :
    (arithLevel next table).Sound := by
  refine ⟨?_, ?_⟩
  · intro t v rest h
    obtain ⟨⟨left, u⟩, hleft, h⟩ := bind_ok.mp h
    rw [hnext.ok hleft]
    exact (arithLoop_sound hnext table _ left).ok h
  · intro t h
    rcases bind_error.mp h with h | ⟨⟨left, u⟩, hleft, h⟩
    · exact hnext.failed h
    · rw [hnext.ok hleft]; exact (arithLoop_sound hnext table _ left).failed h

variable {r : Except ArithError (Int × Text)}

theorem onValue_ok {rest : Text} (h : onValue f r = .ok (v, rest)) : ∃ w, r = .ok (w, rest) := by
  unfold onValue at h
  split at h
  · rename_i w t
    obtain ⟨a, -, ha⟩ := map_ok.mp h
    cases ha
    exact ⟨w, rfl⟩
  · obtain ⟨_, _, h⟩ := bind_ok.mp h; cases h
  · cases h

theorem onValue_unterminated (hf : ∀ v, f v ≠ .error .unterminated)
    (h : onValue f r = .error .unterminated) : r = .error .unterminated := by
  unfold onValue at h
  split at h
  · exact absurd (map_error.mp h) (hf _)
  · rcases bind_error.mp h with h | ⟨_, _, h⟩
    · exact absurd h (hf _)
    · cases h
  · exact h

theorem unaryOperator_some (h : unaryOperator c = some f) :
    c ≠ '$' ∧ ∀ v, f v ≠ .error .unterminated := by
  unfold unaryOperator at h
  split at h
  · rename_i hc
    cases h
    exact ⟨by rw [hc]; decide, fun v => representable_ne_unterminated (-v)⟩
  split at h
  · rename_i hc
    cases h
    exact ⟨by rw [hc]; decide, fun v hv => by cases hv⟩
  split at h
  · rename_i hc
    cases h
    exact ⟨by rw [hc]; decide, fun v hv => by cases hv⟩
  split at h
  · rename_i hc
    cases h
    exact ⟨by rw [hc]; decide, fun v hv => by cases hv⟩
  · cases h

theorem nestedClosed_cons_ne (t : Text) (hc : c ≠ '$') : NestedClosed (c :: t) ↔ NestedClosed t :=
  nestedClosed_cons_plain fun _ hd => absurd hd hc

theorem isspace_ne_dollar (h : isspace c = true) : c ≠ '$' := by
  intro hc
  rw [hc] at h
  exact absurd h (by decide)

variable {primary expr : ArithParser}

theorem arithUnary_sound (hprimary : primary.Sound) : (arithUnary primary).Sound := by
  refine ⟨?_, ?_⟩
  · intro t
    induction t with
    | nil => intro v rest h; exact hprimary.ok h
    | cons c t ih =>
      intro v rest h
      rw [arithUnary] at h
      split at h
      · rename_i hspace
        rw [nestedClosed_cons_ne t (isspace_ne_dollar hspace)]
        exact ih h
      split at h
      · rename_i hop
        obtain ⟨w, hw⟩ := onValue_ok h
        rw [nestedClosed_cons_ne t (unaryOperator_some hop).1]
        exact ih hw
      · exact hprimary.ok h
  · intro t
    induction t with
    | nil => intro h; exact hprimary.failed h
    | cons c t ih =>
      intro h
      rw [arithUnary] at h
      split at h
      · rename_i hspace
        rw [nestedClosed_cons_ne t (isspace_ne_dollar hspace)]
        exact ih h
      split at h
      · rename_i hop
        rw [nestedClosed_cons_ne t (unaryOperator_some hop).1]
        exact ih (onValue_unterminated (unaryOperator_some hop).2 h)
      · exact hprimary.failed h

theorem arithPower_sound {unary : ArithParser} (hunary : unary.Sound) (fuel : Nat) :
    (arithPower unary fuel).Sound := by
  induction fuel with
  | zero =>
    refine ⟨?_, ?_⟩
    · intro t v rest h
      obtain ⟨⟨left, u⟩, hleft, h⟩ := map_ok.mp h
      cases h
      rw [hunary.ok hleft]
      exact nestedClosed_skipWs u
    · intro t h; exact hunary.failed (map_error.mp h)
  | succ fuel ih =>
    refine ⟨?_, ?_⟩
    · intro t v rest h
      obtain ⟨⟨left, u⟩, hleft, h⟩ := bind_ok.mp h
      rw [hunary.ok hleft]
      dsimp only at h
      split at h
      · rename_i u' hskip
        obtain ⟨⟨right, w⟩, hright, h⟩ := bind_ok.mp h
        obtain ⟨_, _, h⟩ := map_ok.mp h
        cases h
        rw [nestedClosed_of_skipWs hskip (by decide), nestedClosed_cons_ne u' (by decide)]
        exact ih.ok hright
      · cases h; exact nestedClosed_skipWs u
    · intro t h
      rcases bind_error.mp h with h | ⟨⟨left, u⟩, hleft, h⟩
      · exact hunary.failed h
      rw [hunary.ok hleft]
      dsimp only at h
      split at h
      · rename_i u' hskip
        rw [nestedClosed_of_skipWs hskip (by decide), nestedClosed_cons_ne u' (by decide)]
        rcases bind_error.mp h with h | ⟨⟨right, w⟩, _, h⟩
        · exact ih.failed h
        · exact absurd (map_error.mp h) (arithPowInt_ne_unterminated left right)
      · cases h

theorem arithOperand_sound (hprimary : primary.Sound) : (arithOperand primary).Sound := by
  have hpower : ArithParser.Sound fun t => arithPower (arithUnary primary) t.length t :=
    ⟨(arithPower_sound (arithUnary_sound hprimary) _).ok,
      (arithPower_sound (arithUnary_sound hprimary) _).failed⟩
  -- one step for each of the ten levels
  iterate 10 refine arithLevel_sound ?_ _
  exact hpower

theorem arithTernary_sound {operand : ArithParser} (hoperand : operand.Sound) :
    (arithTernary operand).Sound := by
  refine ⟨?_, ?_⟩
  · intro t v rest h
    obtain ⟨⟨cond, u⟩, hcond, h⟩ := bind_ok.mp h
    rw [hoperand.ok hcond]
    dsimp only at h
    split at h
    · rename_i u' hskip
      obtain ⟨⟨x, w⟩, hx, h⟩ := bind_ok.mp h
      rw [nestedClosed_of_skipWs hskip (by decide), hoperand.ok hx]
      split at h
      · rename_i w' hskip
        obtain ⟨⟨y, z⟩, hy, h⟩ := map_ok.mp h
        cases h
        rw [nestedClosed_of_skipWs hskip (by decide)]
        exact hoperand.ok hy
      · cases h
    · cases h; exact nestedClosed_skipWs u
  · intro t h
    rcases bind_error.mp h with h | ⟨⟨cond, u⟩, hcond, h⟩
    · exact hoperand.failed h
    rw [hoperand.ok hcond]
    dsimp only at h
    split at h
    · rename_i u' hskip
      rw [nestedClosed_of_skipWs hskip (by decide)]
      rcases bind_error.mp h with h | ⟨⟨x, w⟩, hx, h⟩
      · exact hoperand.failed h
      rw [hoperand.ok hx]
      split at h
      · rename_i w' hskip
        rw [nestedClosed_of_skipWs hskip (by decide)]
        exact hoperand.failed (map_error.mp h)
      · cases h
    · cases h

structure EvaluatorSound (evaluate : Text → Except ArithError Int) : Prop where
  ok : ∀ {t v}, evaluate t = .ok v → NestedClosed t
  failed : ∀ {t}, evaluate t = .error .unterminated → ¬ NestedClosed t

theorem evaluateWith_ok {t : Text} :
    evaluateWith expr t = .ok v ↔ ∃ rest, expr t = .ok (v, rest) ∧ arithSkipWs rest = [] := by
  unfold evaluateWith
  constructor
  · intro h
    split at h
    · cases h
    · cases h
    · rename_i x rest hread
      split at h
      · rename_i hnil
        cases h
        exact ⟨rest, hread, hnil⟩
      · cases h
  · intro ⟨rest, hread, hnil⟩
    rw [hread]
    dsimp only
    rw [hnil]

theorem evaluateWith_sound (hexpr : expr.Sound) : EvaluatorSound (evaluateWith expr) := by
  refine ⟨?_, ?_⟩
  · intro t v h
    obtain ⟨u, hok, hnil⟩ := evaluateWith_ok.mp h
    rw [hexpr.ok hok, nestedClosed_skipWs, hnil]
    exact nestedClosed_nil
  · intro t h
    unfold evaluateWith at h
    split at h
    · cases h
    · rename_i e herr
      cases h
      exact hexpr.failed herr
    · split at h <;> cases h

theorem arithVariable_closed (getVar : Text → Option Text) (t : Text) :
    NestedClosed t ↔ NestedClosed (arithVariable getVar t).2 :=
  nestedClosed_skip_class (by decide) t

theorem nestedClosed_expansion (hscan : nestedScan 0 t = some (inner, rest)) :
    NestedClosed ('$' :: '(' :: '(' :: t) ↔ NestedClosed rest := by
  have hclosed := nestedClosed_found hscan
  have hsplit := nestedScan_split hscan
  rw [nestedClosed_cons]
  have htail : NestedClosed ('(' :: '(' :: t) ↔ NestedClosed rest := by
    rw [nestedClosed_cons_ne _ (by decide), nestedClosed_cons_ne _ (by decide), hsplit,
      nestedClosed_append hclosed (by simp), nestedClosed_cons_ne _ (by decide),
      nestedClosed_cons_ne _ (by decide)]
  rw [htail]
  refine ⟨fun h => h.2, fun h => ⟨?_, h⟩⟩
  intro u _ hu
  cases hu
  rw [hscan]
  rfl

theorem arithParseNestedExpansion_ok (h : arithParseNestedExpansion t = .ok (inner, rest)) :
    nestedScan 0 t = some (inner, rest) := by
  unfold arithParseNestedExpansion at h
  split at h
  · rename_i hfound
    cases h
    exact hfound
  · cases h

theorem arithPrimary_sound {getVar : Text → Option Text} {evaluate : Text → Except ArithError Int}
    (hexpr : expr.Sound) (hevaluate : EvaluatorSound evaluate) :
    (arithPrimary getVar expr evaluate).Sound := by
  refine ⟨?_, ?_⟩
  · intro t v rest h
    rw [nestedClosed_skipWs]
    unfold arithPrimary at h
    split at h
    · cases h
    · -- a parenthesised expression
      rename_i u hskip
      rw [hskip, nestedClosed_cons_ne u (by decide)]
      obtain ⟨⟨w, u'⟩, hw, h⟩ := bind_ok.mp h
      rw [hexpr.ok hw]
      dsimp only at h
      split at h
      · rename_i u'' hskip
        cases h
        exact nestedClosed_of_skipWs hskip (by decide)
      · cases h
    · -- a nested expansion
      rename_i u hskip
      obtain ⟨⟨inner, u'⟩, hscan, h⟩ := bind_ok.mp h
      obtain ⟨_, _, h⟩ := map_ok.mp h
      cases h
      rw [hskip]
      exact nestedClosed_expansion (arithParseNestedExpansion_ok hscan)
    · -- a name or a number
      rename_i c u _ hne hskip
      rw [hskip]
      split at h
      · rename_i hc
        cases h
        rw [nestedClosed_cons_plain]
        · exact arithVariable_closed getVar u
        · intro w hd hu; exact hne w hd hu
      split at h
      · cases h; exact arithVariable_closed getVar (c :: u)
      split at h
      · rename_i hdigit
        obtain ⟨seg, hsplit, hseg⟩ := strtoll_reads hdigit u
        have hdollar : '$' ∉ seg := by intro hmem; exact absurd (hseg '$' hmem) (by decide)
        rw [hsplit, Except.ok.inj h]
        exact nestedClosed_skip hdollar
      · cases h
  · intro t h
    rw [nestedClosed_skipWs]
    unfold arithPrimary at h
    split at h
    · cases h
    · rename_i u hskip
      rw [hskip, nestedClosed_cons_ne u (by decide)]
      rcases bind_error.mp h with h | ⟨⟨w, u'⟩, _, h⟩
      · exact hexpr.failed h
      · dsimp only at h
        split at h <;> cases h
    · rename_i u hskip
      rw [hskip]
      intro hclosed
      rcases bind_error.mp h with h | ⟨⟨inner, u'⟩, hscan, h⟩
      · have hsome := (nestedClosed_cons.mp hclosed).1 u rfl rfl
        unfold arithParseNestedExpansion at h
        split at h
        · cases h
        · rename_i hnone
          rw [hnone] at hsome
          cases hsome
      · have hfound := arithParseNestedExpansion_ok hscan
        exact hevaluate.failed (map_error.mp h) (nestedClosed_found hfound)
    · split at h
      · cases h
      split at h
      · cases h
      split at h <;> cases h

theorem arithExpr_sound (getVar : Text → Option Text) (depth : Nat) :
    (arithExpr getVar depth).Sound := by
  induction depth with
  | zero => exact ⟨(nomatch ·), (nomatch ·)⟩
  | succ depth ih =>
    exact arithTernary_sound (arithOperand_sound (arithPrimary_sound ih (evaluateWith_sound ih)))

/-- **A text that has a value holds no `$((` without its end, and where an end is missed there is
    none.** -/
theorem evaluateArith_closed (getVar : Text → Option Text) :
    EvaluatorSound (evaluateArith getVar) := by
  refine ⟨?_, ?_⟩
  · intro t v h; exact (evaluateWith_sound (arithExpr_sound getVar _)).ok h
  · intro t h; exact (evaluateWith_sound (arithExpr_sound getVar _)).failed h

end Arksh
