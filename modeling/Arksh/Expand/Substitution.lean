/-
  Subject: Where the expander finds the end of `$((...))` and of `$(...)`.

  `parse_arith_expansion` counts parentheses, one by one and without looking at quotes;
  `parse_command_substitution` follows quotes, escapes and nested substitutions, but no plain
  parentheses. Each is compared with a grammar.
-/
import Arksh.Expand.Word
import Arksh.Lib.Brackets

namespace Arksh

open CText Scan Brackets List

/-! ## 1. Arithmetic expansions -/

theorem copyString_append {buf : Text} {c : Char} (h : buf.length + 1 < arkshMaxOutput) :
    copyString arkshMaxOutput (buf ++ [c]) = buf ++ [c] :=
  copyString_of_lt (by rw [length_append]; exact h)

variable {rest command : Text} {e : Char}

theorem arithExpansion_closes :
    ∀ (e : Text) (depth : Nat) (expr : Text), Closes '(' ')' depth e →
      expr.length + e.length < arkshMaxOutput →
      arithExpansionScanner.run ⟨depth, expr⟩ (e ++ ')' :: ')' :: rest) =
        .ok (⟨0, expr ++ e⟩, rest) := by
  intro e
  induction e with
  | nil =>
    intro depth expr hcl _
    obtain rfl := closes_nil.mp hcl
    rw [append_nil]
    rfl
  | cons c e ih =>
    intro depth expr hcl hlen
    rw [length_cons] at hlen
    have hkeep := @copyString_append expr c (by omega)
    -- one turn, whatever the new depth is
    have hturn : ∀ depth', arithExpansionStep ⟨depth, expr⟩ c (e ++ ')' :: ')' :: rest) =
          .ok (.more ⟨depth', expr ++ [c]⟩ (e ++ ')' :: ')' :: rest)) →
        Closes '(' ')' depth' e →
        arithExpansionScanner.run ⟨depth, expr⟩ (c :: e ++ ')' :: ')' :: rest) =
          .ok (⟨0, expr ++ c :: e⟩, rest) := by
      intro depth' hstep hcl'
      rw [cons_append, arithExpansionScanner.run_more hstep,
        ih depth' (expr ++ [c]) hcl' (by rw [length_append, length_singleton]; omega),
        append_assoc]
      rfl
    by_cases hopen : c = '('
    · subst hopen
      refine hturn (depth + 1) ?_ ((closes_open (by decide)).mp hcl)
      rw [← hkeep]
      rfl
    by_cases hclose : c = ')'
    · subst hclose
      cases depth with
      | zero => exact absurd hcl (not_closes_close (by decide))
      | succ depth =>
        refine hturn depth ?_ ((closes_close (by decide)).mp hcl)
        rw [← hkeep]
        rfl
    · refine hturn depth ?_ ((closes_other hopen hclose).mp hcl)
      unfold arithExpansionStep
      rw [if_neg hopen, if_neg hclose, ← hkeep]
      rfl

variable {t : Text}

theorem arithExpansion_ok {s s' : ArithExpansionState}
    (h : arithExpansionScanner.run s t = .ok (s', rest)) :
    ∃ e, t = e ++ ')' :: ')' :: rest ∧ Closes '(' ')' s.depth e ∧
      (s.expr.length + e.length < arkshMaxOutput → s'.expr = s.expr ++ e) := by
  refine arithExpansionScanner.run_ok
    (motive := fun s t => ∃ e, t = e ++ ')' :: ')' :: rest ∧ Closes '(' ')' s.depth e ∧
      (s.expr.length + e.length < arkshMaxOutput → s'.expr = s.expr ++ e)) ?_ ?_ ?_ h
  · intro _ s hend; cases hend
  · intro s c t hstep
    obtain ⟨rfl, hdepth, rfl, rfl⟩ := arithExpansionStep_stop hstep
    refine ⟨[], rfl, ?_, ?_⟩
    · rw [hdepth]; exact closes_nil.mpr rfl
    · intro _; rw [append_nil]
  · intro s c t s₁ t₁ hstep _ ih
    obtain ⟨e, ht, hcl, hexpr⟩ := ih
    have hmore := arithExpansionStep_more hstep
    rw [hmore] at ht hstep
    -- what the turn does to the depth is what the character does to the count
    have hturn : ∀ depth', s₁ = s.take c depth' → (Closes '(' ')' depth' e →
          Closes '(' ')' s.depth (c :: e)) →
        ∃ e, c :: t = e ++ ')' :: ')' :: rest ∧ Closes '(' ')' s.depth e ∧
          (s.expr.length + e.length < arkshMaxOutput → s'.expr = s.expr ++ e) := by
      intro depth' hs₁ hcount
      subst hs₁
      refine ⟨c :: e, congrArg (c :: ·) ht, hcount hcl, ?_⟩
      intro hlen
      rw [length_cons] at hlen
      have hkeep := @copyString_append s.expr c (by omega)
      have heq : (s.take c depth').expr = s.expr ++ [c] := hkeep
      rw [heq, length_append, length_singleton] at hexpr
      rw [hexpr (by omega), append_assoc]
      rfl
    change arithExpansionStep s c t = _ at hstep
    unfold arithExpansionStep at hstep
    split at hstep
    · rename_i hc
      cases hstep
      rw [hc] at hturn ⊢
      exact hturn (s.depth + 1) rfl (closes_open (by decide)).mpr
    split at hstep
    · rename_i hc
      split at hstep
      · rename_i hdepth
        cases hstep
        rw [hc] at hturn ⊢
        refine hturn (s.depth - 1) rfl ?_
        intro hcl
        obtain ⟨d, hd⟩ := Nat.exists_eq_succ_of_ne_zero (Nat.pos_iff_ne_zero.mp hdepth)
        rw [hd] at hcl ⊢
        exact (closes_close (by decide)).mpr hcl
      · split at hstep <;> cases hstep
    · rename_i hopen hclose
      cases hstep
      exact hturn s.depth rfl (closes_other hopen hclose).mpr

/-- **An arithmetic expansion ends behind a text with balanced parentheses.** -/
theorem parseArithExpansion_iff {t expr rest : Text} (hlen : t.length < arkshMaxOutput) :
    parseArithExpansion t = .ok (expr, rest) ↔
      t = expr ++ ')' :: ')' :: rest ∧ Balanced '(' ')' expr := by
  constructor
  · intro h
    obtain ⟨⟨s, u⟩, hrun, h⟩ := map_ok.mp h
    cases h
    obtain ⟨e, ht, hcl, hexpr⟩ := arithExpansion_ok hrun
    have hexpr : s.expr = e := by
      have hle := congrArg List.length ht
      rw [length_append] at hle
      exact hexpr (by rw [length_nil]; omega)
    rw [hexpr]
    exact ⟨ht, hcl⟩
  · intro ⟨ht, hbal⟩
    have hle := congrArg List.length ht
    rw [length_append] at hle
    unfold parseArithExpansion
    rw [ht, arithExpansion_closes expr 0 [] hbal (by rw [length_nil]; omega)]
    rfl

/-! ## 2. Command substitutions -/

inductive DoubleBody : Text → Prop where
  | nil : DoubleBody []
  | plain {c : Char} {t : Text} (h₁ : c ≠ '"') (h₂ : c ≠ '\\') (rest : DoubleBody t) :
      DoubleBody (c :: t)
  | escape {e : Char} {t : Text} (rest : DoubleBody t) : DoubleBody ('\\' :: e :: t)

/-- A text between `$(` and `)`: quoted parts, escapes and other substitutions are whole, and other
    parentheses are characters. -/
inductive CommandBody : Text → Prop where
  | nil : CommandBody []
  | plain {c : Char} {t : Text} (h₁ : c ≠ '\'') (h₂ : c ≠ '"') (h₃ : c ≠ '\\') (h₄ : c ≠ ')')
      (h₅ : ¬ (c = '$' ∧ t.head? = some '(')) (rest : CommandBody t) : CommandBody (c :: t)
  | escape {e : Char} {t : Text} (rest : CommandBody t) : CommandBody ('\\' :: e :: t)
  | single {u t : Text} (hu : '\'' ∉ u) (rest : CommandBody t) :
      CommandBody ('\'' :: (u ++ '\'' :: t))
  | double {u t : Text} (hu : DoubleBody u) (rest : CommandBody t) :
      CommandBody ('"' :: (u ++ '"' :: t))
  | nested {a t : Text} (ha : CommandBody a) (rest : CommandBody t) :
      CommandBody ('$' :: '(' :: (a ++ ')' :: t))

variable {s : SubstitutionState}

theorem SubstitutionState.append_fits {cs : Text}
    (h : s.command.length + cs.length < arkshMaxOutput) :
    s.append cs = .ok { s with command := s.command ++ cs } := by
  unfold append
  rw [appendText_eq_some.mpr ⟨h, rfl⟩]

variable {c : Char} {quote : Quote} {depth : Nat}

theorem SubstitutionState.take_fits (h : s.command.length + 1 < arkshMaxOutput) :
    s.take c quote depth rest = .ok (.more ⟨depth, quote, s.command ++ [c]⟩ rest) := by
  unfold take
  rw [SubstitutionState.append_fits h]
  rfl

theorem SubstitutionState.escape_fits {s : SubstitutionState} {e : Char} {rest : Text}
    (h : s.command.length + 2 < arkshMaxOutput) :
    s.escape (e :: rest) = .ok (.more ⟨s.depth, s.quote, s.command ++ ['\\', e]⟩ rest) := by
  unfold escape
  dsimp only
  rw [SubstitutionState.append_fits h]
  rfl

theorem substitution_take {depth' : Nat} {quote' : Quote}
    (hstep : substitutionStep ⟨depth, quote, command⟩ c rest =
      SubstitutionState.take ⟨depth, quote, command⟩ c quote' depth' rest)
    (hroom : command.length + 1 < arkshMaxOutput) :
    substitutionScanner.run ⟨depth, quote, command⟩ (c :: rest) =
      substitutionScanner.run ⟨depth', quote', command ++ [c]⟩ rest :=
  substitutionScanner.run_more (hstep.trans (SubstitutionState.take_fits hroom))

theorem substitution_escape (hquote : quote ≠ .single) (hroom : command.length + 2 < arkshMaxOutput) :
    substitutionScanner.run ⟨depth, quote, command⟩ ('\\' :: e :: rest) =
      substitutionScanner.run ⟨depth, quote, command ++ ['\\', e]⟩ rest := by
  have hescape := @SubstitutionState.escape_fits ⟨depth, quote, command⟩ e rest hroom
  refine substitutionScanner.run_more (Eq.trans ?_ hescape)
  cases quote with
  | unquoted | double => rfl
  | single => exact absurd rfl hquote

theorem substitution_single :
    ∀ (u command : Text), '\'' ∉ u → command.length + u.length + 1 < arkshMaxOutput →
      substitutionScanner.run ⟨depth, .single, command⟩ (u ++ '\'' :: rest) =
        substitutionScanner.run ⟨depth, .unquoted, command ++ u ++ ['\'']⟩ rest := by
  intro u
  induction u with
  | nil =>
    intro command _ hlen
    rw [append_nil, nil_append]
    exact substitution_take rfl (by simpa using hlen)
  | cons c u ih =>
    intro command hu hlen
    rw [mem_cons, not_or] at hu
    rw [length_cons] at hlen
    have hstep : substitutionStep ⟨depth, .single, command⟩ c (u ++ '\'' :: rest) =
        SubstitutionState.take ⟨depth, .single, command⟩ c .single depth (u ++ '\'' :: rest) := by
      simp only [substitutionStep]
      rw [if_neg fun hc => hu.1 hc.symm]
    rw [cons_append, substitution_take hstep (by omega),
      ih _ hu.2 (by rw [length_append, length_singleton]; omega), append_assoc command]
    rfl

theorem substitution_double {u : Text} (hu : DoubleBody u) :
    ∀ command : Text, command.length + u.length + 1 < arkshMaxOutput →
      substitutionScanner.run ⟨depth, .double, command⟩ (u ++ '"' :: rest) =
        substitutionScanner.run ⟨depth, .unquoted, command ++ u ++ ['"']⟩ rest := by
  induction hu with
  | nil =>
    intro command hlen
    rw [append_nil, nil_append]
    exact substitution_take rfl (by simpa using hlen)
  | @plain c u h₁ h₂ _ ih =>
    intro command hlen
    rw [length_cons] at hlen
    have hstep : substitutionStep ⟨depth, .double, command⟩ c (u ++ '"' :: rest) =
        SubstitutionState.take ⟨depth, .double, command⟩ c .double depth (u ++ '"' :: rest) := by
      simp only [substitutionStep]
      rw [if_neg h₂, if_neg h₁]
    rw [cons_append, substitution_take hstep (by omega),
      ih _ (by rw [length_append, length_singleton]; omega), append_assoc command]
    rfl
  | @escape e u _ ih =>
    intro command hlen
    rw [length_cons, length_cons] at hlen
    rw [cons_append, cons_append, substitution_escape (by decide) (by omega),
      ih _ (by rw [length_append]; simp only [List.length]; omega), append_assoc command]
    rfl

/-- **At any depth a body is read to its end**, if what follows turns its last dollar into no
    substitution. -/
theorem substitution_body {b : Text} (hb : CommandBody b) :
    ∀ (depth : Nat) (command rest : Text), rest.head? ≠ some '(' →
      command.length + b.length < arkshMaxOutput →
      substitutionScanner.run ⟨depth, .unquoted, command⟩ (b ++ rest) =
        substitutionScanner.run ⟨depth, .unquoted, command ++ b⟩ rest := by
  induction hb with
  | nil => intro depth command rest _ _; rw [append_nil, nil_append]
  | @plain c t h₁ h₂ h₃ h₄ h₅ _ ih =>
    intro depth command rest hrest hlen
    rw [length_cons] at hlen
    have hhead : ¬ (c = '$' ∧ (t ++ rest).head? = some '(') := by
      intro ⟨hc, hh⟩
      cases t with
      | nil => exact hrest hh
      | cons d t => exact h₅ ⟨hc, hh⟩
    have hstep : substitutionStep ⟨depth, .unquoted, command⟩ c (t ++ rest) =
        SubstitutionState.take ⟨depth, .unquoted, command⟩ c .unquoted depth (t ++ rest) := by
      simp only [substitutionStep]
      rw [if_neg h₁, if_neg h₂, if_neg h₃, if_neg hhead, if_neg h₄]
    rw [cons_append, substitution_take hstep (by omega),
      ih depth _ rest hrest (by rw [length_append, length_singleton]; omega), append_assoc]
    rfl
  | @escape e t _ ih =>
    intro depth command rest hrest hlen
    rw [length_cons, length_cons] at hlen
    rw [cons_append, cons_append, substitution_escape (by decide) (by omega),
      ih depth _ rest hrest (by rw [length_append]; simp only [List.length]; omega), append_assoc]
    rfl
  | @single u t hu _ ih =>
    intro depth command rest hrest hlen
    simp only [length_cons, length_append] at hlen
    rw [cons_append, append_assoc, cons_append, substitution_take rfl (by omega),
      substitution_single u _ hu (by rw [length_append, length_singleton]; omega),
      ih depth _ rest hrest (by simp only [length_append, length_singleton]; omega)]
    simp only [append_assoc, cons_append, nil_append]
  | @double u t hu _ ih =>
    intro depth command rest hrest hlen
    simp only [length_cons, length_append] at hlen
    rw [cons_append, append_assoc, cons_append, substitution_take rfl (by omega),
      substitution_double hu _ (by rw [length_append, length_singleton]; omega),
      ih depth _ rest hrest (by simp only [length_append, length_singleton]; omega)]
    simp only [append_assoc, cons_append, nil_append]
  | @nested a t _ _ iha iht =>
    intro depth command rest hrest hlen
    simp only [length_cons, length_append] at hlen
    -- the dollar opens, the parenthesis is read, and the body ends one depth down
    rw [cons_append, cons_append, append_assoc, cons_append, substitution_take rfl (by omega),
      substitution_take rfl (by rw [length_append, length_singleton]; omega),
      iha (depth + 1) _ _ (by simp) (by simp only [length_append, length_singleton]; omega),
      substitution_take rfl (by simp only [length_append, length_singleton]; omega),
      iht depth _ rest hrest (by simp only [length_append, length_singleton]; omega)]
    simp only [append_assoc, cons_append, nil_append]

def Completes : Quote → Text → Prop
  | .unquoted, t => CommandBody t
  | .single, t => ∃ u v, t = u ++ '\'' :: v ∧ '\'' ∉ u ∧ CommandBody v
  | .double, t => ∃ u v, t = u ++ '"' :: v ∧ DoubleBody u ∧ CommandBody v

def ClosesSubstitutions (quote : Quote) : Nat → Text → Text → Prop
  | 0, t, rest => ∃ a, t = a ++ ')' :: rest ∧ Completes quote a
  | depth + 1, t, rest =>
    ∃ a b, t = a ++ ')' :: b ∧ Completes quote a ∧ ClosesSubstitutions .unquoted depth b rest

theorem ClosesSubstitutions.cons {quote quote' : Quote} {front t rest : Text}
    (hstep : ∀ a, a <+: t → Completes quote' a → Completes quote (front ++ a)) :
    ∀ {depth : Nat}, ClosesSubstitutions quote' depth t rest →
      ClosesSubstitutions quote depth (front ++ t) rest := by
  intro depth h
  cases depth with
  | zero =>
    obtain ⟨a, rfl, ha⟩ := h
    exact ⟨front ++ a, (append_assoc _ _ _).symm, hstep a (prefix_append _ _) ha⟩
  | succ depth =>
    obtain ⟨a, b, rfl, ha, hb⟩ := h
    exact ⟨front ++ a, b, (append_assoc _ _ _).symm, hstep a (prefix_append _ _) ha, hb⟩

theorem completes_double_cons (h₁ : c ≠ '"') (h₂ : c ≠ '\\') (h : Completes .double t) :
    Completes .double (c :: t) := by
  obtain ⟨u, v, rfl, hu, hv⟩ := h
  exact ⟨c :: u, v, rfl, .plain h₁ h₂ hu, hv⟩

theorem completes_double_escape (h : Completes .double t) : Completes .double ('\\' :: e :: t) := by
  obtain ⟨u, v, rfl, hu, hv⟩ := h
  exact ⟨'\\' :: e :: u, v, rfl, .escape hu, hv⟩

theorem completes_single_cons (h₁ : c ≠ '\'') (h : Completes .single t) :
    Completes .single (c :: t) := by
  obtain ⟨u, v, rfl, hu, hv⟩ := h
  refine ⟨c :: u, v, rfl, ?_, hv⟩
  rw [mem_cons, not_or]
  exact ⟨h₁.symm, hu⟩

theorem closesSubstitutions_nest (h : ClosesSubstitutions .unquoted (depth + 1) ('(' :: t) rest) :
    ClosesSubstitutions .unquoted depth ('$' :: '(' :: t) rest := by
  obtain ⟨a, b, hsplit, ha, hb⟩ := h
  cases a with
  | nil =>
    cases hsplit
  | cons c a =>
    rw [cons_append] at hsplit
    obtain ⟨rfl, rfl⟩ := cons.inj hsplit
    have hbody : CommandBody a := by
      cases ha with
      | plain _ _ _ _ _ rest => exact rest
    have heq : '$' :: '(' :: (a ++ ')' :: b) = ('$' :: '(' :: (a ++ [')'])) ++ b := by
      simp only [cons_append, append_assoc, nil_append]
    rw [heq]
    refine ClosesSubstitutions.cons ?_ hb
    intro b' _ hb'
    have hnest := CommandBody.nested hbody hb'
    rw [show ('$' :: '(' :: (a ++ [')'])) ++ b' = '$' :: '(' :: (a ++ ')' :: b') by
      simp only [cons_append, append_assoc, nil_append]]
    exact hnest

theorem substitutionStep_closes {s₁ : SubstitutionState} {t₁ : Text}
    (hstep : substitutionStep s c t = .ok (.more s₁ t₁))
    (h : ClosesSubstitutions s₁.quote s₁.depth t₁ rest) :
    ClosesSubstitutions s.quote s.depth (c :: t) rest := by
  have htake : ∀ {q d}, s.take c q d t = .ok (.more s₁ t₁) → s₁.quote = q ∧ s₁.depth = d ∧ t₁ = t := by
    intro q d htake
    obtain ⟨command, hturn⟩ := SubstitutionState.take_ok htake
    cases hturn
    exact ⟨rfl, rfl, rfl⟩
  -- a turn that stays in this substitution
  have hcons : ∀ {q}, s.take c q s.depth t = .ok (.more s₁ t₁) →
      (∀ a, a <+: t → Completes q a → Completes s.quote (c :: a)) →
      ClosesSubstitutions s.quote s.depth (c :: t) rest := by
    intro q hq hcompletes
    obtain ⟨hquote, hdepth, rfl⟩ := htake hq
    rw [hquote, hdepth] at h
    exact @ClosesSubstitutions.cons _ _ [c] _ _ hcompletes _ h
  have hescape : c = '\\' → s.escape t = .ok (.more s₁ t₁) → s.quote ≠ .single →
      ClosesSubstitutions s.quote s.depth (c :: t) rest := by
    intro hc hesc hquote
    obtain ⟨e, u, command, rfl, hturn⟩ := SubstitutionState.escape_ok hesc
    cases hturn
    rw [hc]
    refine @ClosesSubstitutions.cons _ _ ['\\', e] _ _ ?_ _ h
    intro a _ ha
    cases hq : s.quote with
    | unquoted => rw [hq] at ha; exact CommandBody.escape ha
    | single => exact absurd hq hquote
    | double => rw [hq] at ha; exact completes_double_escape ha
  unfold substitutionStep at hstep
  split at hstep
  · rename_i hquote
    rw [hquote] at hcons hescape ⊢
    split at hstep
    · rename_i hc
      refine hcons hstep ?_
      intro a _ ⟨u, v, ha, hu, hv⟩
      rw [ha, hc]
      exact CommandBody.single hu hv
    split at hstep
    · rename_i hc
      refine hcons hstep ?_
      intro a _ ⟨u, v, ha, hu, hv⟩
      rw [ha, hc]
      exact CommandBody.double hu hv
    split at hstep
    · rename_i hc; exact hescape hc hstep (by decide)
    split at hstep
    · -- a substitution opens
      rename_i hc
      obtain ⟨hq, hd, rfl⟩ := htake hstep
      obtain ⟨u, rfl⟩ := head?_eq_some_iff.mp hc.2
      rw [hq, hd] at h
      rw [hc.1]
      exact closesSubstitutions_nest h
    rename_i hsingle hdouble hback hopen
    split at hstep
    · -- one that is open inside is closed
      rename_i hc
      split at hstep
      · cases hstep
      · rename_i depth hdepth
        obtain ⟨hq, hd, rfl⟩ := htake hstep
        rw [hq, hd] at h
        rw [hdepth, hc]
        exact ⟨[], t₁, rfl, CommandBody.nil, h⟩
    · rename_i hclose
      refine hcons hstep ?_
      intro a hprefix ha
      refine CommandBody.plain hsingle hdouble hback hclose ?_ ha
      intro ⟨hc, hhead⟩
      obtain ⟨u, rfl⟩ := head?_eq_some_iff.mp hhead
      obtain ⟨v, rfl⟩ := hprefix
      exact hopen ⟨hc, rfl⟩
  · rename_i hquote
    rw [hquote] at hcons ⊢
    refine hcons hstep ?_
    intro a _ ha
    split at ha
    · rename_i hc
      rw [hc]
      exact ⟨[], a, rfl, not_mem_nil, ha⟩
    · rename_i hc; exact completes_single_cons hc ha
  · rename_i hquote
    rw [hquote] at hcons hescape ⊢
    split at hstep
    · rename_i hc; exact hescape hc hstep (by decide)
    · rename_i hback
      refine hcons hstep ?_
      intro a _ ha
      split at ha
      · rename_i hc
        rw [hc]
        exact ⟨[], a, rfl, DoubleBody.nil, ha⟩
      · rename_i hc; exact completes_double_cons hc hback ha

theorem parseCommandSubstitution_reads (h : parseCommandSubstitution t = .ok (command, rest)) :
    ∃ b, t = b ++ ')' :: rest ∧ CommandBody b := by
  obtain ⟨⟨s', u⟩, hrun, h⟩ := map_ok.mp h
  cases h
  have hcloses : ClosesSubstitutions .unquoted 0 t rest := by
    refine substitutionScanner.run_ok
      (motive := fun s t => ClosesSubstitutions s.quote s.depth t rest) ?_ ?_ ?_ hrun
    · intro _ s hend; cases hend
    · intro s c t hstep
      obtain ⟨rfl, hdepth, hquote, rfl, rfl⟩ := substitutionStep_stop hstep
      rw [hdepth, hquote]
      exact ⟨[], rfl, CommandBody.nil⟩
    · intro s c t s₁ t₁ hstep _ ih; exact substitutionStep_closes hstep ih
  exact hcloses

/-- **A body is read to the parenthesis behind it.** -/
theorem parseCommandSubstitution_of_body {b rest : Text} (hb : CommandBody b)
    (hlen : b.length < arkshMaxOutput) :
    parseCommandSubstitution (b ++ ')' :: rest) = .ok (b, rest) := by
  unfold parseCommandSubstitution
  rw [substitution_body hb 0 [] _ (by simp) (by rw [length_nil]; omega),
    substitutionScanner.run_stop rfl]
  rfl

end Arksh
