/-
  Subject: Where the lexer and the expander agree on the end of quotes and expansions.

  `WellDelimited` is the grammar of the words that the expander can read to their end: quotes and
  escapes as the lexer has them, but `$(`, `$((` and `${` also between double quotes, and between
  `$((` and `))` the parentheses balanced one by one. The lexer accepts words outside of it.
-/
import Arksh.Expand.ArithNested
import Arksh.Expand.Substitution
import Arksh.Shell.LexLine

namespace Arksh

open CText Scan Brackets List

/-! ## 1. Words -/

inductive WellDelimited : Quote → Text → Prop where
  | done : WellDelimited .unquoted []
  | openSingle {t : Text} (rest : WellDelimited .single t) : WellDelimited .unquoted ('\'' :: t)
  | inSingle {c : Char} {t : Text} (h : c ≠ '\'') (rest : WellDelimited .single t) :
      WellDelimited .single (c :: t)
  | closeSingle {t : Text} (rest : WellDelimited .unquoted t) : WellDelimited .single ('\'' :: t)
  | openDouble {t : Text} (rest : WellDelimited .double t) : WellDelimited .unquoted ('"' :: t)
  | closeDouble {t : Text} (rest : WellDelimited .unquoted t) : WellDelimited .double ('"' :: t)
  | escape {q : Quote} {e : Char} {t : Text} (hq : q ≠ .single) (rest : WellDelimited q t) :
      WellDelimited q ('\\' :: e :: t)
  | plain {q : Quote} {c : Char} {t : Text} (hq : q ≠ .single) (h₁ : c ≠ '"') (h₂ : c ≠ '\\')
      (h₃ : c ≠ '$') (h₄ : q = .unquoted → c ≠ '\'') (rest : WellDelimited q t) :
      WellDelimited q (c :: t)
  | arith {q : Quote} {e t : Text} (hq : q ≠ .single) (hbal : Balanced '(' ')' e)
      (hnested : NestedClosed e) (rest : WellDelimited q t) :
      WellDelimited q ('$' :: '(' :: '(' :: (e ++ ')' :: ')' :: t))
  | command {q : Quote} {b t : Text} (hq : q ≠ .single) (hb : CommandBody b)
      (hhead : b.head? ≠ some '(') (rest : WellDelimited q t) :
      WellDelimited q ('$' :: '(' :: (b ++ ')' :: t))
  | braces {q : Quote} {u t : Text} (hq : q ≠ .single) (hend : BracesEnd u t)
      (rest : WellDelimited q t) : WellDelimited q ('$' :: '{' :: u)
  | special {q : Quote} {c : Char} {t : Text} (hq : q ≠ .single)
      (hc : (isSpecialParameter c || isdigit c) = true) (rest : WellDelimited q t) :
      WellDelimited q ('$' :: c :: t)
  | dollar {q : Quote} {t : Text} (hq : q ≠ .single)
      (hhead : ∀ c, t.head? = some c →
        c ≠ '(' ∧ c ≠ '{' ∧ (isSpecialParameter c || isdigit c) = false)
      (rest : WellDelimited q t) : WellDelimited q ('$' :: t)

def Piece.quoteAfter (quote : Quote) : Piece → Quote
  | .openQuote q => q
  | .closeQuote => .unquoted
  | _ => quote

/-- The search for nested expansions finds all their ends. -/
def Piece.Closed : Piece → Prop
  | .arith expr => NestedClosed expr
  | _ => True

variable {c : Char}

theorem nameChar_plain (h : isNameChar c = true) : c ≠ '"' ∧ c ≠ '\\' ∧ c ≠ '$' ∧ c ≠ '\'' := by
  refine ⟨?_, ?_, ?_, ?_⟩
  all_goals
    intro hc
    rw [hc] at h
    exact absurd h (by decide)

variable {q : Quote}

theorem wellDelimited_name (hq : q ≠ .single) (t : Text) :
    WellDelimited q t ↔ WellDelimited q (t.dropWhile isNameChar) := by
  induction t with
  | nil => rfl
  | cons c t ih =>
    by_cases hc : isNameChar c = true
    · rw [dropWhile_cons_of_pos hc, ← ih]
      obtain ⟨h₁, h₂, h₃, h₄⟩ := nameChar_plain hc
      constructor
      · intro h
        cases h with
        | plain _ _ _ _ _ rest => exact rest
        | openSingle => exact absurd rfl h₄
        | inSingle | closeSingle => exact absurd rfl hq
        | openDouble | closeDouble => exact absurd rfl h₁
        | escape => exact absurd rfl h₂
        | arith | command | braces | special | dollar => exact absurd rfl h₃
      · exact .plain hq h₁ h₂ h₃ fun _ => h₄
    · rw [dropWhile_cons_of_neg hc]

/-! ## 2. The reader of pieces -/

variable {t : Text} {piece : Piece}

theorem wellDelimited_of_readDollar {t' : Text} (hq : q ≠ .single)
    (h : readDollar t = .ok (piece, t')) (hlen : t.length < arkshMaxOutput) (hclosed : piece.Closed)
    (hrest : WellDelimited q t') : WellDelimited q ('$' :: t) := by
  unfold readDollar at h
  split at h
  · rename_i t
    obtain ⟨⟨expr, u⟩, hread, h⟩ := map_ok.mp h
    cases h
    rw [length_cons, length_cons] at hlen
    obtain ⟨rfl, hbal⟩ := (parseArithExpansion_iff (by omega)).mp hread
    exact .arith hq hbal hclosed hrest
  · rename_i t hne
    obtain ⟨⟨text, u⟩, hread, h⟩ := map_ok.mp h
    cases h
    obtain ⟨b, rfl, hb⟩ := parseCommandSubstitution_reads hread
    refine .command hq hb ?_ hrest
    intro hhead
    obtain ⟨v, rfl⟩ := head?_eq_some_iff.mp hhead
    exact hne _ rfl
  · rename_i hne₂ hne₁
    obtain ⟨⟨parameter, u⟩, hread, h⟩ := map_ok.mp h
    cases h
    unfold readParameter at hread
    split at hread
    · cases hread; exact .dollar hq (fun c hc => nomatch hc) hrest
    rename_i c t
    split at hread
    · rename_i hc
      cases hread
      exact .special hq hc hrest
    rename_i hspecial
    split at hread
    · rename_i hc
      obtain ⟨⟨b, v⟩, hb, hread⟩ := map_ok.mp hread
      cases hread
      rw [hc]
      exact .braces hq (parseBraces_reads hb) hrest
    rename_i hbrace
    have hhead : ∀ d, (c :: t).head? = some d →
        d ≠ '(' ∧ d ≠ '{' ∧ (isSpecialParameter d || isdigit d) = false := by
      intro d hd
      obtain rfl := Option.some.inj hd
      refine ⟨?_, hbrace, Bool.eq_false_iff.mpr hspecial⟩
      intro hc
      exact hne₁ t (by rw [hc])
    split at hread
    · dsimp only at hread
      split at hread
      · cases hread
      · cases hread; exact .dollar hq hhead ((wellDelimited_name hq _).mpr hrest)
    · cases hread; exact .dollar hq hhead hrest

theorem wellDelimited_of_readPiece {t' : Text} (h : readPiece q c t = .ok (piece, t'))
    (hlen : t.length < arkshMaxOutput) (hclosed : piece.Closed)
    (hrest : WellDelimited (piece.quoteAfter q) t') : WellDelimited q (c :: t) := by
  have hescape : ∀ {e : DelimiterError} {kept : Char → Text}, q ≠ .single →
      readEscape e kept t = .ok (piece, t') → WellDelimited q ('\\' :: t) := by
    intro e kept hq h
    cases t with
    | nil => cases h
    | cons d u => cases h; exact .escape hq hrest
  -- a dollar never changes the quote
  have hdollar : q ≠ .single → readDollar t = .ok (piece, t') → WellDelimited q ('$' :: t) := by
    intro hq h
    refine wellDelimited_of_readDollar hq h hlen hclosed ?_
    have hquote : piece.quoteAfter q = q := by
      unfold readDollar at h
      split at h <;>
      · obtain ⟨_, _, h⟩ := map_ok.mp h
        cases h
        rfl
    rw [hquote] at hrest
    exact hrest
  cases q with
  | unquoted =>
    simp only [readPiece] at h
    split at h
    · rename_i hc
      cases h
      rw [hc]
      exact .openSingle hrest
    rename_i hsingle
    split at h
    · rename_i hc
      cases h
      rw [hc]
      exact .openDouble hrest
    rename_i hdouble
    split at h
    · rename_i hc
      rw [hc]
      exact hescape (by decide) h
    rename_i hback
    split at h
    · rename_i hc
      cases h
      rw [hc.1]
      exact .plain (by decide) (by decide) (by decide) (by decide) (fun _ => by decide) hrest
    split at h
    · rename_i hc
      rw [hc]
      exact hdollar (by decide) h
    · rename_i hd
      cases h
      exact .plain (by decide) hdouble hback hd (fun _ => hsingle) hrest
  | single =>
    simp only [readPiece] at h
    split at h
    · rename_i hc
      cases h
      rw [hc]
      exact .closeSingle hrest
    · rename_i hc
      cases h
      exact .inSingle hc hrest
  | double =>
    simp only [readPiece] at h
    split at h
    · rename_i hc
      cases h
      rw [hc]
      exact .closeDouble hrest
    rename_i hdouble
    split at h
    · rename_i hc
      rw [hc]
      exact hescape (by decide) h
    rename_i hback
    split at h
    · rename_i hc
      rw [hc]
      exact hdollar (by decide) h
    · rename_i hd
      cases h
      exact .plain (by decide) hdouble hback hd (fun hq => absurd hq (by decide)) hrest

/-- What is in the grammar is read, or refused for another reason than a missing end. -/
def Reads (q : Quote) (c : Char) (t : Text) : Prop :=
  (∃ message, readPiece q c t = .error (.refused message)) ∨
    ∃ piece t', readPiece q c t = .ok (piece, t') ∧ piece.Closed ∧
      WellDelimited (piece.quoteAfter q) t'

theorem readPiece_dollar (hq : q ≠ .single) (t : Text) : readPiece q '$' t = readDollar t := by
  cases q with
  | single => exact absurd rfl hq
  | unquoted | double => rfl

theorem reads_of_readDollar {q : Quote} (hq : q ≠ .single) {t t' : Text} {piece : Piece}
    (h : readDollar t = .ok (piece, t')) (hclosed : piece.Closed)
    (hquote : piece.quoteAfter q = q) (hrest : WellDelimited q t') : Reads q '$' t := by
  refine Or.inr ⟨piece, t', ?_, hclosed, ?_⟩
  · rw [readPiece_dollar hq]; exact h
  · rw [hquote]; exact hrest

theorem readDollar_parameter (h : t.head? ≠ some '(') :
    readDollar t = (readParameter t).map fun (parameter, rest) => (.parameter parameter, rest) := by
  unfold readDollar
  split
  · exact absurd rfl h
  · exact absurd rfl h
  · rfl

theorem readPiece_of_wellDelimited (h : WellDelimited q (c :: t)) (hlen : t.length < arkshMaxOutput) :
    Reads q c t := by
  cases h with
  | openSingle rest => exact Or.inr ⟨.openQuote .single, t, rfl, trivial, rest⟩
  | inSingle hc rest =>
    refine Or.inr ⟨.escaped [c], t, ?_, trivial, rest⟩
    simp only [readPiece]
    rw [if_neg hc]
  | closeSingle rest => exact Or.inr ⟨.closeQuote, t, rfl, trivial, rest⟩
  | openDouble rest => exact Or.inr ⟨.openQuote .double, t, rfl, trivial, rest⟩
  | closeDouble rest => exact Or.inr ⟨.closeQuote, t, rfl, trivial, rest⟩
  | @escape _ e u hq rest =>
    cases q with
    | single => exact absurd rfl hq
    | unquoted | double => exact Or.inr ⟨_, u, rfl, trivial, rest⟩
  | plain hq h₁ h₂ h₃ h₄ rest =>
    cases q with
    | single => exact absurd rfl hq
    | unquoted =>
      by_cases htilde : c = '~' ∧ (t = [] ∨ t.head? = some '/')
      · refine Or.inr ⟨.tilde, t, ?_, trivial, rest⟩
        simp only [readPiece]
        rw [if_neg (h₄ rfl), if_neg h₁, if_neg h₂, if_pos htilde]
      · refine Or.inr ⟨.plain c, t, ?_, trivial, rest⟩
        simp only [readPiece]
        rw [if_neg (h₄ rfl), if_neg h₁, if_neg h₂, if_neg htilde, if_neg h₃]
    | double =>
      refine Or.inr ⟨.plain c, t, ?_, trivial, rest⟩
      simp only [readPiece]
      rw [if_neg h₁, if_neg h₂, if_neg h₃]
  | @arith _ e u hq hbal hnested rest =>
    rw [length_cons, length_cons] at hlen
    have hread := (@parseArithExpansion_iff _ _ u (by omega)).mpr ⟨rfl, hbal⟩
    refine @reads_of_readDollar _ hq _ _ (.arith e) ?_ hnested rfl rest
    show (parseArithExpansion _).map _ = _
    rw [hread]
    rfl
  | @command _ b u hq hb hhead rest =>
    rw [length_cons, length_append] at hlen
    have hread := @parseCommandSubstitution_of_body _ u hb (by omega)
    refine @reads_of_readDollar _ hq _ _ (.command b) ?_ trivial rfl rest
    unfold readDollar
    split
    · rename_i v heq
      cases b with
      | nil =>
        cases heq
      | cons d b => cases heq; exact absurd rfl hhead
    · rename_i v _ heq
      cases heq
      rw [hread]
      rfl
    · rename_i hne; exact absurd rfl (hne _)
  | @braces _ u v hq hend rest =>
    have hparameter := readDollar_parameter (t := '{' :: u) (by simp)
    rcases parseBraces_of_end hend with ⟨b, hb⟩ | ⟨message, hrefused⟩
    · refine @reads_of_readDollar _ hq _ _ (.parameter (.braces b)) ?_ trivial rfl rest
      show ((parseBraces u).map _).map _ = _
      rw [hb]
      rfl
    · refine Or.inl ⟨message, ?_⟩
      rw [readPiece_dollar hq, hparameter]
      show ((parseBraces u).map _).map _ = _
      rw [hrefused]
      rfl
  | @special _ d u hq hd rest =>
    refine @reads_of_readDollar _ hq _ _ (.parameter (.single d)) ?_ trivial rfl rest
    rw [readDollar_parameter]
    · unfold readParameter
      dsimp only
      rw [if_pos hd]
      rfl
    · intro hhead
      cases hhead
      exact absurd hd (by decide)
  | dollar hq hhead rest =>
    have hparameter : readDollar t = _ := readDollar_parameter fun hp => (hhead '(' hp).1 rfl
    cases t with
    | nil => exact reads_of_readDollar hq hparameter trivial rfl rest
    | cons d u =>
      obtain ⟨-, hbrace, hspecial⟩ := hhead d rfl
      unfold readParameter at hparameter
      dsimp only at hparameter
      rw [if_neg (Bool.eq_false_iff.mp hspecial), if_neg hbrace] at hparameter
      split at hparameter
      · split at hparameter
        · refine Or.inl ⟨"environment variable name too long", ?_⟩
          rw [readPiece_dollar hq]
          exact hparameter
        · exact reads_of_readDollar hq hparameter trivial rfl ((wellDelimited_name hq _).mp rest)
      · exact reads_of_readDollar hq hparameter trivial rfl rest

/-! ## 3. The expansion of a word -/

def ExpandError.IsDelimiter (e : ExpandError) : Prop := ∃ d, e = .delimiter d

variable {σ : Type} {s s' : Expansion σ} {cs : Text} {mode : ArkshExpandMode}

theorem Expansion.append_ok {text : Text} {allowGlob split : Bool}
    (h : s.append text allowGlob split = .ok s') : s'.quote = s.quote := by
  unfold append at h
  split at h
  · cases h
  split at h
  · cases h
  · cases h; rfl

variable {e : ExpandError}

theorem Expansion.append_error {text : Text} {allowGlob split : Bool}
    (h : s.append text allowGlob split = .error e) : ¬ e.IsDelimiter := by
  intro ⟨d, hd⟩
  unfold append at h
  split at h
  · rw [hd] at h; cases h
  split at h
  · rw [hd] at h; cases h
  · cases h

theorem Expansion.appendEscaped_ok :
    ∀ {s s' : Expansion σ}, s.appendEscaped cs = .ok s' → s'.quote = s.quote := by
  induction cs with
  | nil =>
    intro s s' h
    cases h
    rfl
  | cons c cs ih =>
    intro s s' h
    obtain ⟨s₁, h₁, h⟩ := bind_ok.mp h
    rw [ih h, Expansion.append_ok h₁]

theorem Expansion.appendEscaped_error :
    ∀ {s : Expansion σ}, s.appendEscaped cs = .error e → ¬ e.IsDelimiter := by
  induction cs with
  | nil => intro s h; cases h
  | cons c cs ih =>
    intro s h
    rcases bind_error.mp h with h | ⟨s₁, _, h⟩
    · exact Expansion.append_error h
    · exact ih h

variable {view : ShellView σ}

theorem Parameter.value_error {shell : σ} {parameter : Parameter}
    (h : parameter.value view shell = .error e) : ¬ e.IsDelimiter := by
  have hlookup : ∀ {b : Braces} {e}, b.lookup view shell = .error e → ¬ e.IsDelimiter := by
    intro b e h ⟨d, hd⟩
    rw [hd] at h
    unfold Braces.lookup at h
    split at h
    · split at h
      · cases h
      split at h
      · cases h
      · unfold renderAssocValue at h
        split at h
        · cases h
        split at h
        · cases h
        split at h <;> cases h
    · cases h
  intro ⟨d, hd⟩
  rw [hd] at h
  cases parameter with
  | single | dollar => cases h
  | name varName =>
    unfold value at h
    dsimp only at h
    split at h
    · cases h
    split at h <;> cases h
  | braces b =>
    rcases bind_error.mp h with h | ⟨⟨found, count⟩, _, h⟩
    · exact hlookup h ⟨d, rfl⟩
    dsimp only at h
    split at h
    · split at h <;> cases h
    split at h
    · split at h <;> cases h
    · split at h
      · cases h
      · split at h <;> cases h
      · cases h
      · split at h <;> cases h
      · cases h
      · cases h
      · split at h <;> cases h

theorem Expansion.apply_ok (h : s.apply view mode piece = .ok s') :
    s'.quote = piece.quoteAfter s.quote ∧ piece.Closed := by
  cases piece with
  | openQuote q | closeQuote => cases h; exact ⟨rfl, trivial⟩
  | plain c => exact ⟨Expansion.append_ok h, trivial⟩
  | escaped cs => exact ⟨Expansion.appendEscaped_ok h, trivial⟩
  | tilde =>
    unfold apply at h
    dsimp only at h
    split at h <;> exact ⟨Expansion.append_ok h, trivial⟩
  | arith expr =>
    unfold apply at h
    dsimp only at h
    split at h
    · cases h
    · rename_i v hv; exact ⟨Expansion.append_ok h, (evaluateArith_closed _).ok hv⟩
  | command text =>
    have hquote := @Expansion.append_ok _ { s with shell := (view.executeCommand s.shell text).2 }
      s' _ _ _ h
    exact ⟨hquote, trivial⟩
  | parameter parameter =>
    obtain ⟨⟨text, shell⟩, _, h⟩ := bind_ok.mp h
    have hquote := @Expansion.append_ok _ { s with shell } s' _ _ _ h
    exact ⟨hquote, trivial⟩

theorem Expansion.apply_error (h : s.apply view mode piece = .error e) (he : e.IsDelimiter) :
    ¬ piece.Closed := by
  cases piece with
  | openQuote q | closeQuote => cases h
  | plain c => exact absurd he (Expansion.append_error h)
  | escaped cs => exact absurd he (Expansion.appendEscaped_error h)
  | tilde =>
    unfold apply at h
    dsimp only at h
    split at h <;> exact absurd he (Expansion.append_error h)
  | arith expr =>
    unfold apply at h
    dsimp only at h
    split at h
    · rename_i a ha
      obtain ⟨d, hd⟩ := he
      rw [hd] at h
      cases a with
      | unterminated => exact (evaluateArith_closed _).failed ha
      | missingParen v | failed message | undefined => cases h
    · exact absurd he (Expansion.append_error h)
  | command text => exact absurd he (Expansion.append_error h)
  | parameter parameter =>
    rcases bind_error.mp h with h | ⟨⟨text, shell⟩, _, h⟩
    · exact absurd he (Parameter.value_error h)
    · exact absurd he (Expansion.append_error h)

/-- A piece is refused for another reason than a missing end (a name too long, an unset variable, a
    division by zero, a full buffer), and those in front of it are expanded. -/
inductive RefusedFirst (view : ShellView σ) (mode : ArkshExpandMode) : Expansion σ → Text → Prop where
  | read {s : Expansion σ} {c : Char} {t : Text} {e : ExpandError}
      (h : readPiece s.quote c t = .error e) (he : ¬ e.IsDelimiter) :
      RefusedFirst view mode s (c :: t)
  | apply {s : Expansion σ} {c : Char} {t t' : Text} {piece : Piece} {e : ExpandError}
      (h : readPiece s.quote c t = .ok (piece, t')) (happly : s.apply view mode piece = .error e)
      (he : ¬ e.IsDelimiter) : RefusedFirst view mode s (c :: t)
  | later {s s' : Expansion σ} {c : Char} {t t' : Text} {piece : Piece}
      (h : readPiece s.quote c t = .ok (piece, t')) (happly : s.apply view mode piece = .ok s')
      (rest : RefusedFirst view mode s' t') : RefusedFirst view mode s (c :: t)

section Refused

variable {view : ShellView σ} {mode : ArkshExpandMode} {s s' : Expansion σ} {c : Char}
  {t t' : Text} {piece : Piece} {e : ExpandError}

theorem refusedFirst_of_readError (hread : readPiece s.quote c t = .error e) :
    RefusedFirst view mode s (c :: t) ↔ ¬ e.IsDelimiter := by
  refine ⟨fun h => ?_, .read hread⟩
  cases h with
  | read h he =>
    rw [hread] at h
    cases h
    exact he
  | apply h | later h => rw [hread] at h; cases h

theorem refusedFirst_of_applyError (hread : readPiece s.quote c t = .ok (piece, t'))
    (happly : s.apply view mode piece = .error e) :
    RefusedFirst view mode s (c :: t) ↔ ¬ e.IsDelimiter := by
  refine ⟨fun h => ?_, .apply hread happly⟩
  cases h with
  | read h => rw [hread] at h; cases h
  | apply h happly' he =>
    rw [hread] at h
    cases h
    rw [happly] at happly'
    cases happly'
    exact he
  | later h happly' =>
    rw [hread] at h
    cases h
    rw [happly] at happly'
    cases happly'

theorem refusedFirst_of_apply (hread : readPiece s.quote c t = .ok (piece, t'))
    (happly : s.apply view mode piece = .ok s') :
    RefusedFirst view mode s (c :: t) ↔ RefusedFirst view mode s' t' := by
  refine ⟨fun h => ?_, .later hread happly⟩
  cases h with
  | read h => rw [hread] at h; cases h
  | apply h happly' =>
    rw [hread] at h
    cases h
    rw [happly] at happly'
    cases happly'
  | later h happly' rest =>
    rw [hread] at h
    cases h
    rw [happly] at happly'
    cases happly'
    exact rest

theorem not_delimiter_iff {α : Type} :
    (∀ d, (.error e : Except ExpandError α) ≠ .error (.delimiter d)) ↔ ¬ e.IsDelimiter := by
  constructor
  · rintro h ⟨d, rfl⟩; exact h d rfl
  · intro he d h
    cases h
    exact he ⟨d, rfl⟩

theorem not_wellDelimited_of_readError (hread : readPiece s.quote c t = .error e)
    (hlen : (c :: t).length < arkshMaxOutput) (he : e.IsDelimiter) :
    ¬ WellDelimited s.quote (c :: t) := by
  obtain ⟨d, rfl⟩ := he
  rw [length_cons] at hlen
  intro h
  rcases readPiece_of_wellDelimited h (by omega) with ⟨m, hm⟩ | ⟨_, _, hok, _⟩
  · rw [hread] at hm; cases hm
  · rw [hread] at hok; cases hok

theorem wellDelimited_read (hread : readPiece s.quote c t = .ok (piece, t'))
    (hlen : (c :: t).length < arkshMaxOutput) (h : WellDelimited s.quote (c :: t)) :
    piece.Closed ∧ WellDelimited (piece.quoteAfter s.quote) t' := by
  rw [length_cons] at hlen
  rcases readPiece_of_wellDelimited h (by omega) with ⟨m, hm⟩ | ⟨_, _, hok, hclosed, hrest⟩
  · rw [hread] at hm; cases hm
  · rw [hread] at hok
    cases hok
    exact ⟨hclosed, hrest⟩

theorem expandScanner_nil : (∀ d, (expandScanner view mode).run s [] ≠ .error (.delimiter d)) ↔
      WellDelimited s.quote [] ∨ RefusedFirst view mode s [] := by
  show (∀ d, (if s.quote = .unquoted then _ else _ : Except ExpandError (Expansion σ)).map _ ≠ _) ↔ _
  by_cases hq : s.quote = .unquoted
  · rw [if_pos hq, hq]; exact ⟨fun _ => Or.inl .done, fun _ d h => by cases h⟩
  · rw [if_neg hq]
    constructor
    · intro h; exact absurd rfl (h .quotedToken)
    · rintro (h | h)
      · generalize hquote : s.quote = q at h hq
        cases h
        exact absurd rfl hq
      · cases h

end Refused

/-- No end is missed exactly where the rest is in the grammar, or refused for another reason. -/
theorem expandScanner_delimited (view : ShellView σ) (mode : ArkshExpandMode) (n : Nat) :
    ∀ (s : Expansion σ) (t : Text), t.length ≤ n → t.length < arkshMaxOutput →
      ((∀ d, (expandScanner view mode).run s t ≠ .error (.delimiter d)) ↔
        WellDelimited s.quote t ∨ RefusedFirst view mode s t) := by
  induction n with
  | zero =>
    intro s t hn _
    obtain rfl : t = [] := eq_nil_of_length_eq_zero (by omega)
    exact expandScanner_nil
  | succ n ih =>
    intro s t hn hlen
    cases t with
    | nil => exact expandScanner_nil
    | cons c t =>
      have hstep : (expandScanner view mode).step s c t =
          (readPiece s.quote c t).bind fun read =>
            (s.apply view mode read.1).map fun s => .more s read.2 := rfl
      cases hread : readPiece s.quote c t with
      | error e =>
        rw [hread] at hstep
        rw [(expandScanner view mode).run_error hstep, not_delimiter_iff,
          refusedFirst_of_readError hread]
        refine ⟨Or.inr, ?_⟩
        rintro (hgrammar | he)
        · exact fun he => not_wellDelimited_of_readError hread hlen he hgrammar
        · exact he
      | ok read =>
        obtain ⟨piece, t'⟩ := read
        rw [hread] at hstep
        have hle := readPiece_length hread
        cases happly : s.apply view mode piece with
        | error e =>
          have herr : (expandScanner view mode).step s c t = .error e := by
            rw [hstep]
            show (s.apply view mode piece).map _ = _
            rw [happly]
            rfl
          rw [(expandScanner view mode).run_error herr, not_delimiter_iff,
            refusedFirst_of_applyError hread happly]
          refine ⟨Or.inr, ?_⟩
          rintro (hgrammar | he)
          · intro he
            exact Expansion.apply_error happly he (wellDelimited_read hread hlen hgrammar).1
          · exact he
        | ok s' =>
          have hok : (expandScanner view mode).step s c t = .ok (.more s' t') := by
            rw [hstep]
            show (s.apply view mode piece).map _ = _
            rw [happly]
            rfl
          obtain ⟨hquote, hclosed⟩ := Expansion.apply_ok happly
          rw [length_cons] at hn
          have hlength := hlen
          rw [length_cons] at hlength
          rw [(expandScanner view mode).run_more hok, ih s' t' (by omega) (by omega), hquote,
            refusedFirst_of_apply hread happly]
          refine or_congr_left ⟨fun hrest => ?_, fun hgrammar => ?_⟩
          · exact wellDelimited_of_readPiece hread (by omega) hclosed hrest
          · exact (wellDelimited_read hread hlen hgrammar).2

def WordsExpand (view : ShellView σ) (shell : σ) (mode : ArkshExpandMode) (line : Text) : Prop :=
  ∀ stream, arkshLexLine line = .ok stream → ∀ token ∈ stream.tokens, token.kind = .word →
    ∀ d, expandRawToken view shell mode token.raw.1 ≠ .error (.delimiter d)

/-- **The words of a line miss no end exactly where each is in the grammar of the expander, or
    refused for another reason first.** -/
theorem wordsExpand_iff (view : ShellView σ) (shell : σ) (mode : ArkshExpandMode) (line : Text) :
    WordsExpand view shell mode line ↔
      ∀ stream, arkshLexLine line = .ok stream → ∀ token ∈ stream.tokens, token.kind = .word →
        WellDelimited .unquoted token.raw.1 ∨ RefusedFirst view mode (.start shell) token.raw.1 := by
  have hword : ∀ token : ArkshToken,
      (∀ d, expandRawToken view shell mode token.raw.1 ≠ .error (.delimiter d)) ↔
        WellDelimited .unquoted token.raw.1 ∨ RefusedFirst view mode (.start shell) token.raw.1 := by
    intro token
    have hshort : token.raw.1.length < arkshMaxOutput := token.raw.2.trans (by decide)
    have hrun := expandScanner_delimited view mode _ (.start shell) token.raw.1 (Nat.le_refl _) hshort
    have heq : ∀ d, expandRawToken view shell mode token.raw.1 = .error (.delimiter d) ↔
        (expandScanner view mode).run (.start shell) token.raw.1 = .error (.delimiter d) :=
      fun d => map_error
    exact (forall_congr' fun d => not_congr (heq d)).trans hrun
  constructor
  · intro h stream hstream token htoken hkind
    exact (hword token).mp (h stream hstream token htoken hkind)
  · intro h stream hstream token htoken hkind
    exact (hword token).mpr (h stream hstream token htoken hkind)

def blankView : ShellView Unit where
  lastStatus _ := 0
  shellPid _ := 1
  lastBgPid _ := -1
  parentPid _ := 0
  processId _ := 1
  currentSourceLine _ := 0
  functionName _ := none
  currentSourcePath _ := []
  programPath _ := "arksh".toList
  optNounset _ := false
  positional _ := []
  getVar _ _ := none
  setVar _ _ _ := ()
  assocBinding _ _ := none
  executeCommand _ _ := ([], ())

/-- `echo $((2*(3+4)))`: the lexer ends the word at the first two adjacent parentheses. -/
theorem not_wordsExpand_parens :
    ¬ WordsExpand blankView () .command "echo $((2*(3+4)))".toList := by
  intro h
  have hlex : ((arkshLexLine "echo $((2*(3+4)))".toList).toOption.map fun stream =>
      stream.tokens.map fun token => (token.kind, token.raw.1)) =
      some [(.word, "echo".toList), (.word, "$((2*(3+4))".toList), (.rparen, [')']), (.eof, [])] := by
    decide
  obtain ⟨stream, hok, htokens⟩ := Option.map_eq_some_iff.mp hlex
  have hmem : (ArkshTokenKind.word, "$((2*(3+4))".toList) ∈
      stream.tokens.map fun token => (token.kind, token.raw.1) := by
    rw [htokens]
    exact mem_cons_of_mem _ mem_cons_self
  obtain ⟨token, htoken, heq⟩ := mem_map.mp hmem
  obtain ⟨hkind, hraw⟩ := Prod.mk.inj heq
  have hline : arkshLexLine "echo $((2*(3+4)))".toList = .ok stream := by
    cases hres : arkshLexLine "echo $((2*(3+4)))".toList with
    | error e => rw [hres] at hok; cases hok
    | ok stream' =>
      rw [hres] at hok
      cases hok
      rfl
  refine h stream hline token htoken hkind .unmatchedParen ?_
  rw [hraw]
  rfl

end Arksh
