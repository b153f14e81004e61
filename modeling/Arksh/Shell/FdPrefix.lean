/-
  Subject: Descriptor numbers in front of redirections, in `src/lexer.c`.

  The scanner of words asks at every character whether a token starts there, and a digit that
  stands in front of `<` or `>` does start one: `foo2>bar` is the word `foo` and the redirection
  of descriptor 2. The reference is the same lexer in which a digit of a word is a character like
  any other.
-/
import Mathlib.Data.List.Pairwise
import Arksh.Lib.Decimal
import Arksh.Shell.LexLine

namespace Arksh

open CText Scan List Option Bool Nat

/-! ## 1. Words that keep their digits -/

/-- `digit`: the last character is a digit outside of quotes and expansions, and not escaped. -/
structure PosixWordState where
  word : WordState
  digit : Bool

def ofWordTurn (digit : Bool) : Turn WordState → Turn PosixWordState
  | .more word rest => .more ⟨word, false⟩ rest
  | .stop word rest => .stop ⟨word, digit⟩ rest

def posixWordStep (s : PosixWordState) (c : Char) (rest : Text) :
    Except String (Turn PosixWordState) :=
  if isdigit c then (s.word.bufs.push [c]).map fun bufs => .more ⟨⟨true, bufs⟩, true⟩ rest
  else (wordStep false s.word c rest).map (ofWordTurn s.digit)

variable {s s' : PosixWordState} {c : Char} {rest text : Text} {start : Nat} {token : ArkshToken}
  {digit : Bool} {kind : ArkshTokenKind}

theorem posixWordStep_reads {turn : Turn PosixWordState} (h : posixWordStep s c rest = .ok turn) :
    turn.Reads (fun s => s.word.seen) s c rest := by
  unfold posixWordStep at h
  split at h
  · obtain ⟨bufs, hb, h⟩ := map_ok.mp h
    cases h
    exact Turn.Reads.one (Buffers.push_seen hb)
  · obtain ⟨turn', hturn, h⟩ := map_ok.mp h
    have hreads := wordStep_reads hturn
    cases turn' with
    | more word rest | stop word rest => cases h; exact hreads

def posixWordScanner : Scanner PosixWordState String where
  step := posixWordStep
  atEnd s := .ok s
  shortens h := (posixWordStep_reads h).shortens

/-- A word, whether it ends in such a digit, and what is left of the line. -/
def posixScanWordToken (text : Text) (start : Nat) : Except String (ArkshToken × Bool × Text) :=
  (posixWordScanner.run ⟨⟨false, default⟩, false⟩ text).bind fun (s, rest) =>
    if s.word.sawAny then .ok (⟨.word, s.word.bufs.cooked, s.word.bufs.raw, start⟩, s.digit, rest)
    else .error ("invalid token at position " ++ toString start)

/-! ## 2. Lines -/

variable {t t' : Text}

/-- The lexer comes to a word, and reads it outside of `[[` and `]]`. -/
def LexState.atPlainWord (s : LexState) (text : Text) : Bool :=
  !(text.head?.any isspace) && !s.flags.inDoubleBracket &&
    !(s.flags.commandWordAllowed && !s.flags.pendingRedirectTarget && opensDoubleBracket text) &&
    (matchFdRedirectionToken text).isNone && !startsProcessSubstitution text &&
    (findOperator operators text).isNone

/-- With what is left of the line behind each word that ends in a digit. -/
structure PosixLexState where
  lex : LexState
  behindDigits : List Text

def ofLexTurn (behindDigits : List Text) : Turn LexState → Turn PosixLexState
  | .more lex rest => .more ⟨lex, behindDigits⟩ rest
  | .stop lex rest => .stop ⟨lex, behindDigits⟩ rest

def posixLexStep (s : PosixLexState) (c : Char) (rest : Text) :
    Except String (Turn PosixLexState) :=
  if s.lex.atPlainWord (c :: rest) then
    (posixScanWordToken (c :: rest) (s.lex.len - (c :: rest).length)).bind
      fun (token, digit, rest) =>
        (s.lex.stream.push token).map fun stream =>
          .more
            { lex := { s.lex with flags := s.lex.flags.word, stream }
              behindDigits := if digit then s.behindDigits ++ [rest] else s.behindDigits }
            rest
  else (lexStep s.lex c rest).map (ofLexTurn s.behindDigits)

/-- The text begins with `<` or `>`. -/
def startsRedirection (text : Text) : Bool :=
  match text with
  | '<' :: _ => true
  | '>' :: _ => true
  | _ => false

theorem posixWordScanner_took (h : posixWordScanner.run s t = .ok (s', t')) :
    Took (fun s => s.word.seen) s t s' t' := by
  refine posixWordScanner.run_took ?_ posixWordStep_reads h
  intro s s' hend
  cases hend
  rfl

/-! ## 3. The two scanners of words -/

theorem matchFd_isSome (text : Text) : (matchFdRedirectionToken text).isSome =
      (text.head?.any isdigit && startsRedirection (text.dropWhile isdigit)) := by
  cases text with
  | nil => rfl
  | cons d rest =>
    rw [matchFdRedirectionToken]
    by_cases hd : isdigit d = true
    · rw [if_pos hd]
      simp only [head?_cons, any_some, hd, Bool.true_and]
      unfold startsRedirection
      rcases (d :: rest).dropWhile isdigit with _ | ⟨e, _ | ⟨f, t⟩⟩
      · rfl
      · split <;> simp_all
      · split <;> simp_all
    · rw [if_neg hd]; simp [hd]

theorem startsRedirection_cases (h : startsRedirection text = true) :
    ∃ c rest, text = c :: rest ∧ (c = '<' ∨ c = '>') := by
  unfold startsRedirection at h
  split at h
  · exact ⟨_, _, rfl, .inl rfl⟩
  · exact ⟨_, _, rfl, .inr rfl⟩
  · cases h

theorem wordStep_digit {s : WordState} (hc : isdigit c = true) :
    wordStep false s c rest =
      if (matchFdRedirectionToken (c :: rest)).isSome then .ok (.stop s (c :: rest))
      else (s.bufs.push [c]).bind fun bufs => .ok (.more ⟨true, bufs⟩ rest) := by
  have hne : ∀ e : Char, isdigit e = false → c ≠ e := by
    rintro e he rfl
    rw [hc] at he
    cases he
  have hspecial : isSpecialTokenStart (c :: rest) = (matchFdRedirectionToken (c :: rest)).isSome := by
    unfold isSpecialTokenStart
    cases hm : (matchFdRedirectionToken (c :: rest)).isSome with
    | true => rw [Bool.true_or]
    | false =>
      -- `2>` is such a redirection too
      have htwo : ∀ tail, c :: rest ≠ '2' :: '>' :: tail := by
        intro tail he
        rw [he, matchFd_isSome] at hm
        cases hm
      split
      case h_7 he => exact absurd he (htwo _)
      case h_8 he => exact absurd he (htwo _)
      case h_9 he => exact absurd he (htwo _)
      case h_12 he =>
        obtain ⟨rfl, rfl⟩ := cons.inj he
        simp [hne '|' (by decide), hne '&' (by decide), hne ';' (by decide), hne '<' (by decide),
          hne '>' (by decide), hne '(' (by decide), hne ')' (by decide), hne ',' (by decide)]
      case h_13 he => cases he
      all_goals
        rename_i he
        exact absurd (cons.inj he).1 (hne _ (by decide))
  unfold wordStep
  split
  · exact absurd rfl (hne '$' (by decide))
  · exact absurd rfl (hne '$' (by decide))
  · rw [if_neg (by rw [isspace_of_isdigit hc]; exact false_ne_true)]
    simp only [endsWord, Bool.false_eq_true, if_false, hspecial]
    rw [if_neg (hne '\\' (by decide)),
      if_neg (not_or.mpr ⟨hne '\'' (by decide), hne '"' (by decide)⟩)]

theorem posixWordStep_other (hc : ¬ isdigit c = true) {turn : Turn WordState}
    (h : wordStep false s.word c rest = .ok turn) :
    posixWordStep s c rest = .ok (ofWordTurn s.digit turn) := by
  rw [posixWordStep, if_neg hc, h]
  rfl

theorem wordStep_redirection {s : WordState} (hc : c = '<' ∨ c = '>') :
    wordStep false s c rest = .ok (.stop s (c :: rest)) := by
  have hspecial : isSpecialTokenStart (c :: rest) = true := by
    unfold isSpecialTokenStart
    rw [or_eq_true]
    refine Or.inr ?_
    split
    case h_12 he =>
      obtain ⟨rfl, rfl⟩ := cons.inj he
      rcases hc with rfl | rfl <;> rfl
    case h_13 he => cases he
    all_goals rfl
  unfold wordStep
  split
  · rcases hc with hc | hc <;> cases hc
  · rcases hc with hc | hc <;> cases hc
  · have hspace : ¬ isspace c = true := by rcases hc with rfl | rfl <;> decide
    rw [if_neg hspace]
    simp only [endsWord, Bool.false_eq_true, if_false, hspecial, if_true]

theorem posixWordScanner_digits {w : WordState}
    (h : posixWordScanner.run ⟨w, true⟩ t = .ok (s', t'))
    (ht : startsRedirection (t.dropWhile isdigit) = true) :
    s'.digit = true ∧ startsRedirection t' = true := by
  induction t generalizing w with
  | nil => cases ht
  | cons c t ih =>
    by_cases hc : isdigit c = true
    · rw [dropWhile_cons_of_pos hc] at ht
      rw [posixWordScanner.run_cons] at h
      split at h
      · cases h
      · rename_i s₁ t₁ hstep
        change posixWordStep _ _ _ = _ at hstep
        rw [posixWordStep, if_pos hc] at hstep
        obtain ⟨bufs, -, hturn⟩ := map_ok.mp hstep
        cases hturn
      · rename_i s₁ t₁ hstep
        change posixWordStep _ _ _ = _ at hstep
        rw [posixWordStep, if_pos hc] at hstep
        obtain ⟨bufs, -, hturn⟩ := map_ok.mp hstep
        cases hturn
        exact ih h ht
    · rw [dropWhile_cons_of_neg hc] at ht
      obtain ⟨e, rest, he, hredirection⟩ := startsRedirection_cases ht
      obtain ⟨rfl, rfl⟩ := cons.inj he
      rw [posixWordScanner.run_stop
        (posixWordStep_other (s := ⟨w, true⟩) hc (wordStep_redirection hredirection))] at h
      cases h
      exact ⟨rfl, ht⟩

/-- **A word of the reference with no digit in front of a redirection is a word of the source.** -/
theorem wordScanner_of_posix (h : posixWordScanner.run s t = .ok (s', t'))
    (hend : s'.digit = true → startsRedirection t' = false) :
    (wordScanner false).run s.word t = .ok (s'.word, t') := by
  refine posixWordScanner.run_ok
    (motive := fun s t => (wordScanner false).run s.word t = .ok (s'.word, t')) ?_ ?_ ?_ h
  · intro hnil s hs
    cases hs
    rw [hnil]
    rfl
  · intro s c t hstep
    change posixWordStep s c t = _ at hstep
    unfold posixWordStep at hstep
    split at hstep
    · obtain ⟨bufs, -, hturn⟩ := map_ok.mp hstep; cases hturn
    · obtain ⟨turn, hturn, hmap⟩ := map_ok.mp hstep
      cases turn with
      | more word rest => cases hmap
      | stop word rest => cases hmap; exact (wordScanner false).run_stop hturn
  · intro s c t s₁ t₁ hstep hrun ih
    change posixWordStep s c t = _ at hstep
    unfold posixWordStep at hstep
    split at hstep
    · rename_i hc
      obtain ⟨bufs, hpush, hturn⟩ := map_ok.mp hstep
      cases hturn
      have hm : ¬ (matchFdRedirectionToken (c :: t)).isSome = true := by
        intro hm
        rw [matchFd_isSome, and_eq_true, dropWhile_cons_of_pos hc] at hm
        obtain ⟨hdigit, hredirection⟩ := posixWordScanner_digits hrun hm.2
        rw [hend hdigit] at hredirection
        cases hredirection
      have hsource : wordStep false s.word c t = .ok (.more ⟨true, bufs⟩ t) := by
        rw [wordStep_digit hc, if_neg hm, hpush]
        rfl
      rw [(wordScanner false).run_more hsource]
      exact ih
    · obtain ⟨turn, hturn, hmap⟩ := map_ok.mp hstep
      cases turn with
      | stop word rest => cases hmap
      | more word rest =>
        cases hmap
        rw [(wordScanner false).run_more hturn]
        exact ih

/-- **A word of the source that stops in front of no descriptor number is a word of the
    reference.** -/
theorem posixWordScanner_of_source {w w' : WordState}
    (h : (wordScanner false).run w t = .ok (w', t')) (hend : matchFdRedirectionToken t' = none)
    (digit : Bool) (hdigit : digit = true → startsRedirection t = false) :
    ∃ digit', posixWordScanner.run ⟨w, digit⟩ t = .ok (⟨w', digit'⟩, t') ∧
      (digit' = true → startsRedirection t' = false) := by
  refine (wordScanner false).run_ok
    (motive := fun w t => ∀ digit : Bool, (digit = true → startsRedirection t = false) →
      ∃ digit', posixWordScanner.run ⟨w, digit⟩ t = .ok (⟨w', digit'⟩, t') ∧
        (digit' = true → startsRedirection t' = false)) ?_ ?_ ?_ h digit hdigit
  · intro hnil w hw digit _
    cases hw
    refine ⟨digit, ?_, ?_⟩
    · rw [hnil]; rfl
    · intro _
      rw [hnil]
      rfl
  · intro w c t hstep digit hdigit
    change wordStep false w c t = _ at hstep
    obtain ⟨rfl, rfl⟩ := wordStep_stop hstep
    have hc : ¬ isdigit c = true := by
      intro hc
      rw [wordStep_digit hc, hend] at hstep
      obtain ⟨bufs, -, hturn⟩ := bind_ok.mp hstep
      cases hturn
    exact ⟨digit, posixWordScanner.run_stop (posixWordStep_other (s := ⟨w', digit⟩) hc hstep),
      hdigit⟩
  · intro w c t w₁ t₁ hstep _ ih digit _
    change wordStep false w c t = _ at hstep
    by_cases hc : isdigit c = true
    · rw [wordStep_digit hc] at hstep
      split at hstep
      · cases hstep
      · rename_i hm
        obtain ⟨bufs, hpush, hturn⟩ := bind_ok.mp hstep
        cases hturn
        obtain ⟨digit', hrun, hdigit'⟩ := ih true fun _ => by
          rw [matchFd_isSome, dropWhile_cons_of_pos hc] at hm
          cases t with
          | nil => rfl
          | cons e t =>
            cases hr : startsRedirection (e :: t) with
            | false => rfl
            | true =>
              have he : ¬ isdigit e = true := by
                obtain ⟨_, _, heq, hredirection⟩ := startsRedirection_cases hr
                obtain ⟨rfl, rfl⟩ := cons.inj heq
                rcases hredirection with rfl | rfl <;> decide
              rw [dropWhile_cons_of_neg he, hr, Bool.and_true] at hm
              exact absurd hc hm
        refine ⟨digit', ?_, hdigit'⟩
        rw [@Scanner.run_more _ _ _ ⟨⟨true, bufs⟩, true⟩ _ t _ posixWordScanner]
        · exact hrun
        · show posixWordStep _ _ _ = _
          rw [posixWordStep, if_pos hc, hpush]
          rfl
    · obtain ⟨digit', hrun, hdigit'⟩ := ih false fun h => nomatch h
      refine ⟨digit', ?_, hdigit'⟩
      rw [posixWordScanner.run_more (posixWordStep_other (s := ⟨w, digit⟩) hc hstep)]
      exact hrun

theorem scanWordToken_of_posix (h : posixScanWordToken text start = .ok (token, digit, rest))
    (hend : digit = true → startsRedirection rest = false) :
    scanWordToken false text start = .ok (token, rest) := by
  obtain ⟨⟨s, t⟩, hrun, h⟩ := bind_ok.mp h
  dsimp only at h
  split at h
  · rename_i hsaw
    cases h
    show ((wordScanner false).run _ _).bind _ = _
    rw [wordScanner_of_posix hrun hend]
    exact if_pos hsaw
  · cases h

theorem posixScanWordToken_of_source (h : scanWordToken false text start = .ok (token, rest))
    (hend : matchFdRedirectionToken rest = none) :
    ∃ digit, posixScanWordToken text start = .ok (token, digit, rest) ∧
      (digit = true → startsRedirection rest = false) := by
  obtain ⟨⟨w, t⟩, hrun, h⟩ := bind_ok.mp h
  dsimp only at h
  split at h
  · rename_i hsaw
    cases h
    obtain ⟨digit, hposix, hdigit⟩ := posixWordScanner_of_source hrun hend false fun h => nomatch h
    refine ⟨digit, ?_, hdigit⟩
    show (posixWordScanner.run _ _).bind _ = _
    rw [hposix]
    exact if_pos hsaw
  · cases h

/-! ## 4. The two lexers -/

theorem posixScanWordToken_took (h : posixScanWordToken text start = .ok (token, digit, rest)) :
    TokenRead .word text start token rest := by
  obtain ⟨⟨s, t⟩, hrun, h⟩ := bind_ok.mp h
  dsimp only at h
  split at h
  · rename_i hsaw
    cases h
    obtain ⟨seg, rfl, hseg⟩ := posixWordScanner_took hrun
    have hraw : s.word.bufs.raw.1 = seg := hseg
    refine ⟨rfl, rfl, by rw [hraw], ?_⟩
    have hread := @Scanner.run_flag _ _ _ _ _ _ posixWordScanner (fun s => s.word.sawAny) ?_ ?_ hrun hsaw
    · rcases hread with hfalse | hlt
      · cases hfalse
      · intro hnil
        rw [← hraw, hnil] at hlt
        exact absurd hlt (lt_irrefl _)
    · intro s s' hend
      cases hend
      rfl
    · intro s c t s' t' hstep
      change posixWordStep s c t = _ at hstep
      unfold posixWordStep at hstep
      split at hstep
      · obtain ⟨bufs, -, hturn⟩ := map_ok.mp hstep; cases hturn
      · obtain ⟨turn, hturn, hmap⟩ := map_ok.mp hstep
        cases turn with
        | more word rest => cases hmap
        | stop word rest =>
          cases hmap
          obtain ⟨rfl, rfl⟩ := wordStep_stop hturn
          exact ⟨rfl, Nat.le_refl _⟩
  · cases h

theorem LexState.token_ok {s : LexState} {scanned : Except String (ArkshToken × Text)}
    {flags : LexFlags} {turn : Turn LexState} :
    s.token scanned flags = .ok turn ↔ ∃ token rest stream, scanned = .ok (token, rest) ∧
      s.stream.push token = .ok stream ∧ turn = .more { s with flags, stream } rest := by
  unfold LexState.token
  constructor
  · intro h
    split at h
    · obtain ⟨⟨token, rest⟩, hscan, h⟩ := bind_ok.mp h
      obtain ⟨stream, hpush, h⟩ := map_ok.mp h
      exact ⟨token, rest, stream, hscan, hpush, h.symm⟩
    · cases h
  · rintro ⟨token, rest, stream, hscan, hpush, rfl⟩
    have hroom : s.stream.tokens.length < arkshMaxLexerTokens := by
      unfold ArkshTokenStream.push at hpush
      split at hpush
      · assumption
      · cases hpush
    rw [if_pos hroom, hscan]
    show (s.stream.push token).map _ = _
    rw [hpush]
    rfl

theorem lexStep_plainWord {s : LexState} (h : s.atPlainWord (c :: rest) = true) :
    s.flags.inDoubleBracket = false ∧ lexStep s c rest =
        s.token (scanWordToken false (c :: rest) (s.len - (c :: rest).length)) s.flags.word := by
  simp only [LexState.atPlainWord, and_eq_true, not_eq_true', head?_cons,
    any_some, isNone_iff_eq_none] at h
  obtain ⟨⟨⟨⟨⟨hspace, hbracket⟩, hopen⟩, hfd⟩, hprocess⟩, hoperator⟩ := h
  refine ⟨hbracket, ?_⟩
  unfold lexStep
  simp only [hspace, hbracket, hopen, hfd, hprocess, hoperator, Bool.false_eq_true, if_false]

theorem posixLexStep_plainWord {s : PosixLexState} {turn : Turn PosixLexState}
    (hat : s.lex.atPlainWord (c :: rest) = true) :
    posixLexStep s c rest = .ok turn ↔ ∃ token digit behind stream,
      posixScanWordToken (c :: rest) (s.lex.len - (c :: rest).length) =
        .ok (token, digit, behind) ∧
      s.lex.stream.push token = .ok stream ∧
      turn = .more
        { lex := { s.lex with flags := s.lex.flags.word, stream }
          behindDigits := if digit then s.behindDigits ++ [behind] else s.behindDigits } behind := by
  rw [posixLexStep, if_pos hat]
  constructor
  · intro h
    obtain ⟨⟨token, digit, behind⟩, hscan, h⟩ := bind_ok.mp h
    obtain ⟨stream, hpush, h⟩ := map_ok.mp h
    exact ⟨token, digit, behind, stream, hscan, hpush, h.symm⟩
  · rintro ⟨token, digit, behind, stream, hscan, hpush, rfl⟩
    rw [hscan]
    show (s.lex.stream.push token).map _ = _
    rw [hpush]
    rfl

theorem posixLexStep_shortens {s s' : PosixLexState} {c : Char} {t t' : Text}
    (h : posixLexStep s c t = .ok (.more s' t')) : t'.length ≤ t.length := by
  by_cases hat : s.lex.atPlainWord (c :: t) = true
  · obtain ⟨token, digit, behind, stream, hscan, -, hturn⟩ := (posixLexStep_plainWord hat).mp h
    cases hturn
    have hread := posixScanWordToken_took hscan
    have hlen := congrArg List.length hread.text_eq
    have hpos := List.length_pos_iff.mpr hread.raw_ne
    rw [List.length_cons, List.length_append] at hlen
    omega
  · rw [posixLexStep, if_neg hat] at h
    obtain ⟨turn, hturn, hmap⟩ := map_ok.mp h
    cases turn with
    | more lex rest => cases hmap; exact lexScanner.shortens hturn
    | stop lex rest => cases hmap

def posixLexScanner : Scanner PosixLexState String where
  step := posixLexStep
  atEnd s := (lexScanner.atEnd s.lex).map fun lex => ⟨lex, s.behindDigits⟩
  shortens := posixLexStep_shortens

/-- A line as the reference reads it: its tokens, and what is behind each word that ends in a
    digit. -/
def posixLexLine (line : Text) : Except String (ArkshTokenStream × List Text) :=
  (posixLexScanner.run ⟨⟨line.length, ⟨false, true, false⟩, ⟨[], Nat.zero_le _⟩⟩, []⟩ line).map
    fun (s, _) => (s.lex.stream, s.behindDigits)

/-- **The lexer reads as the reference does, where no word ends in a digit in front of a
    redirection.** -/
theorem lexScanner_of_posix {s s' : PosixLexState} (h : posixLexScanner.run s t = .ok (s', t')) :
    (∀ behind ∈ s.behindDigits, behind ∈ s'.behindDigits) ∧
      ((∀ behind ∈ s'.behindDigits, startsRedirection behind = false) →
        lexScanner.run s.lex t = .ok (s'.lex, t')) := by
  refine posixLexScanner.run_ok
    (motive := fun s t => (∀ behind ∈ s.behindDigits, behind ∈ s'.behindDigits) ∧
      ((∀ behind ∈ s'.behindDigits, startsRedirection behind = false) →
        lexScanner.run s.lex t = .ok (s'.lex, t'))) ?_ ?_ ?_ h
  · intro hnil s hend
    obtain ⟨lex, hlex, heq⟩ := map_ok.mp hend
    cases heq
    refine ⟨fun _ hb => hb, fun _ => ?_⟩
    rw [lexScanner.run_nil, hlex, hnil]
    rfl
  · intro s c t hstep
    change posixLexStep s c t = _ at hstep
    by_cases hat : s.lex.atPlainWord (c :: t) = true
    · obtain ⟨_, _, _, _, _, _, hturn⟩ := (posixLexStep_plainWord hat).mp hstep; cases hturn
    · rw [posixLexStep, if_neg hat] at hstep
      obtain ⟨turn, hturn, hmap⟩ := map_ok.mp hstep
      cases turn with
      | more lex rest => cases hmap
      | stop lex rest => cases hmap; exact ⟨fun _ hb => hb, fun _ => lexScanner.run_stop hturn⟩
  · intro s c t s₁ t₁ hstep _ ih
    obtain ⟨hmono, hrun⟩ := ih
    change posixLexStep s c t = _ at hstep
    by_cases hat : s.lex.atPlainWord (c :: t) = true
    · obtain ⟨token, digit, behind, stream, hscan, hpush, hturn⟩ :=
        (posixLexStep_plainWord hat).mp hstep
      cases hturn
      refine ⟨fun b hb => hmono b ?_, fun hclear => ?_⟩
      · show b ∈ if digit then _ else _
        split
        · exact mem_append_left _ hb
        · exact hb
      · -- the word is a word of the source
        have hword := scanWordToken_of_posix hscan fun hdigit => hclear t₁ (hmono t₁ (by
          show t₁ ∈ if digit then _ else _
          rw [if_pos hdigit]
          exact mem_append_right _ (mem_singleton_self _)))
        have hsource : lexStep s.lex c t =
            .ok (.more { s.lex with flags := s.lex.flags.word, stream } t₁) := by
          rw [(lexStep_plainWord hat).2]
          exact LexState.token_ok.mpr ⟨token, t₁, stream, hword, hpush, rfl⟩
        rw [lexScanner.run_more hsource]
        exact hrun hclear
    · rw [posixLexStep, if_neg hat] at hstep
      obtain ⟨turn, hturn, hmap⟩ := map_ok.mp hstep
      cases turn with
      | stop lex rest => cases hmap
      | more lex rest =>
        cases hmap
        refine ⟨hmono, fun hclear => ?_⟩
        rw [lexScanner.run_more hturn]
        exact hrun hclear

/-! ## 5. Descriptor numbers -/

def ArkshTokenKind.isFdRedirection (kind : ArkshTokenKind) : Bool :=
  kind = .redirectFdIn || kind = .redirectFdOut || kind = .redirectFdAppend ||
    kind = .redirectDupIn || kind = .redirectDupOut

def ArkshTokenKind.isOperand (kind : ArkshTokenKind) : Bool :=
  kind = .word || kind = .string || kind = .procSubstIn || kind = .procSubstOut

def ArkshToken.stop (token : ArkshToken) : Nat := token.position + token.raw.1.length

theorem lexScanner_prefix {s s' : LexState} (h : lexScanner.run s t = .ok (s', t'))
    (hlen : t.length ≤ s.len) : ∀ token ∈ s.stream.tokens, token ∈ s'.stream.tokens := by
  obtain ⟨tokens, hstream, -⟩ := lexScanner_tiles h hlen
  intro token htoken
  rw [hstream, append_assoc]
  exact mem_append_left _ htoken

theorem matchFd_kind {length : Nat} (h : matchFdRedirectionToken text = some (kind, length)) :
    kind.isFdRedirection = true := by
  unfold matchFdRedirectionToken at h
  split at h
  · cases h
  split at h
  · dsimp only at h
    split at h <;> cases h <;> rfl
  · cases h

theorem lexScanner_fdRedirection {s s' : LexState} (h : lexScanner.run s t = .ok (s', t'))
    (hlen : t.length ≤ s.len) (hbracket : s.flags.inDoubleBracket = false)
    (hm : (matchFdRedirectionToken t).isSome = true) :
    ∃ token ∈ s'.stream.tokens, token.kind.isFdRedirection = true ∧
      token.position = s.len - t.length := by
  cases t with
  | nil => cases hm
  | cons c rest =>
    have hc : isdigit c = true := by rw [matchFd_isSome, and_eq_true] at hm; exact hm.1
    have hopen : opensDoubleBracket (c :: rest) = false := by
      unfold opensDoubleBracket
      split
      case h_3 => rfl
      all_goals
        rename_i heq
        obtain ⟨rfl, -⟩ := cons.inj heq
        exact absurd hc (by decide)
    obtain ⟨⟨kind, length⟩, hmatch⟩ := isSome_iff_exists.mp hm
    have hstep : lexScanner.step s c rest =
        s.fdRedirection kind length (c :: rest) (s.len - (c :: rest).length) := by
      show lexStep s c rest = _
      unfold lexStep
      simp only [isspace_of_isdigit hc, hbracket, hopen, Bool.and_false, Bool.false_eq_true,
        if_false, hmatch]
    have happend : ∀ {turn}, lexScanner.step s c rest = .ok turn → ∃ token rest' stream,
        token.kind = kind ∧ token.position = s.len - (c :: rest).length ∧
          s.stream.push token = .ok stream ∧
          turn = .more { s with flags := s.flags.target, stream } rest' := by
      intro turn hturn
      rw [hstep, LexState.fdRedirection] at hturn
      split at hturn
      · obtain ⟨token, rest', stream, htoken, hpush, rfl⟩ := LexState.token_ok.mp hturn
        cases htoken
        exact ⟨_, _, stream, rfl, rfl, hpush, rfl⟩
      · cases hturn
    rw [lexScanner.run_cons] at h
    split at h
    · cases h
    · rename_i hturn
      obtain ⟨_, _, _, _, _, _, heq⟩ := happend hturn
      cases heq
    · rename_i s₁ t₁ hturn
      obtain ⟨token, rest', stream, hkind, hpos, hpush, heq⟩ := happend hturn
      cases heq
      have hshort := lexScanner.shortens hturn
      rw [length_cons] at hlen
      refine ⟨token, lexScanner_prefix h (by show t₁.length ≤ s.len; omega) token ?_, ?_, hpos⟩
      · rw [show (LexState.mk s.len s.flags.target stream).stream.tokens = stream.tokens from rfl,
          ArkshTokenStream.push_tokens hpush]
        exact mem_append_right _ (mem_singleton_self token)
      · rw [hkind]; exact matchFd_kind hmatch

/-- **The reference reads as the lexer does, where no operand stops in front of a descriptor
    number.** -/
theorem posixLexScanner_of_source {s s' : LexState} (h : lexScanner.run s t = .ok (s', t'))
    (hlen : t.length ≤ s.len)
    (halone : ∀ a ∈ s'.stream.tokens, ∀ b ∈ s'.stream.tokens, a.kind.isOperand = true →
      b.kind.isFdRedirection = true → b.position ≠ a.stop) (behindDigits : List Text)
    (hclear : ∀ behind ∈ behindDigits, startsRedirection behind = false) :
    ∃ behindDigits', posixLexScanner.run ⟨s, behindDigits⟩ t = .ok (⟨s', behindDigits'⟩, t') ∧
      ∀ behind ∈ behindDigits', startsRedirection behind = false := by
  refine lexScanner.run_ok
    (motive := fun s t => t.length ≤ s.len → ∀ behindDigits : List Text,
      (∀ behind ∈ behindDigits, startsRedirection behind = false) →
      ∃ behindDigits', posixLexScanner.run ⟨s, behindDigits⟩ t =
          .ok (⟨s', behindDigits'⟩, t') ∧
        ∀ behind ∈ behindDigits', startsRedirection behind = false) ?_ ?_ ?_ h hlen
    behindDigits hclear
  · intro hnil s hend _ behindDigits hclear
    refine ⟨behindDigits, ?_, hclear⟩
    rw [hnil, posixLexScanner.run_nil]
    show ((lexScanner.atEnd s).map _).map _ = _
    rw [hend]
    rfl
  · intro s c t hstep
    rcases lexStep_cases hstep with ⟨-, hturn⟩ | ⟨_, _, _, _, _, -, hturn, -⟩ <;> cases hturn
  · intro s c t s₁ t₁ hstep hrun ih hlen behindDigits hclear
    change lexStep s c t = _ at hstep
    have hshort := lexScanner.shortens (show lexScanner.step s c t = _ from hstep)
    by_cases hat : s.atPlainWord (c :: t) = true
    · obtain ⟨hbracket, hword⟩ := lexStep_plainWord hat
      rw [hword] at hstep
      obtain ⟨token, rest, stream, hscan, hpush, hturn⟩ := LexState.token_ok.mp hstep
      cases hturn
      have hread := scanWordToken_took hscan
      have htext := congrArg List.length hread.text_eq
      rw [length_append, length_cons] at htext
      rw [length_cons] at hlen
      have hlen₁ : t₁.length ≤ s.len := by omega
      have hmem : token ∈ s'.stream.tokens := by
        refine lexScanner_prefix hrun hlen₁ token ?_
        rw [show (LexState.mk s.len s.flags.word stream).stream.tokens = stream.tokens from rfl,
          ArkshTokenStream.push_tokens hpush]
        exact mem_append_right _ (mem_singleton_self token)
      -- a number that stands behind the word would be the next token
      have hend : matchFdRedirectionToken t₁ = none := by
        by_contra hne
        have hflags : s.flags.word.inDoubleBracket = false := by
          unfold LexFlags.word
          split <;> exact hbracket
        obtain ⟨fd, hfd, hkind, hpos⟩ := lexScanner_fdRedirection hrun hlen₁ hflags
          (isSome_iff_ne_none.mpr hne)
        refine halone token hmem fd hfd (by rw [hread.kind_eq]; rfl) hkind ?_
        have hpos₁ : fd.position = s.len - t₁.length := hpos
        rw [hpos₁, ArkshToken.stop, hread.position_eq, length_cons]
        omega
      obtain ⟨digit, hposix, hdigit⟩ := posixScanWordToken_of_source hscan hend
      obtain ⟨behindDigits', hrun', hclear'⟩ := ih hlen₁
        (if digit then behindDigits ++ [t₁] else behindDigits) (by
          intro behind hbehind
          split at hbehind
          · rename_i hd
            rcases mem_append.mp hbehind with hb | hb
            · exact hclear behind hb
            · rw [mem_singleton.mp hb]; exact hdigit hd
          · exact hclear behind hbehind)
      refine ⟨behindDigits', ?_, hclear'⟩
      rw [posixLexScanner.run_more ((posixLexStep_plainWord (s := ⟨s, behindDigits⟩) hat).mpr
        ⟨token, digit, t₁, stream, hposix, hpush, rfl⟩)]
      exact hrun'
    · have hlen₁ : t₁.length ≤ s₁.len := by
        rw [length_cons] at hlen
        rcases lexStep_cases hstep with ⟨-, hturn⟩ | ⟨_, _, _, _, _, -, hturn, -⟩
        · cases hturn; omega
        · cases hturn
          show _ ≤ s.len
          omega
      obtain ⟨behindDigits', hrun', hclear'⟩ := ih hlen₁ behindDigits hclear
      refine ⟨behindDigits', ?_, hclear'⟩
      have hposix : posixLexScanner.step ⟨s, behindDigits⟩ c t =
          .ok (.more ⟨s₁, behindDigits⟩ t₁) := by
        show posixLexStep _ c t = _
        rw [posixLexStep, if_neg hat, hstep]
        rfl
      rw [posixLexScanner.run_more hposix]
      exact hrun'

/-! ## 6. The law -/

def StandsAlone (line : Text) (tokens : List ArkshToken) (token : ArkshToken) : Prop :=
  token.position = 0 ∨
    (∃ c, (line)[token.position - 1]? = some c ∧ isspace c = true ∧
      ∀ a ∈ tokens, ¬ (a.position < token.position ∧ token.position ≤ a.stop)) ∨
    ∃ a ∈ tokens, a.kind.isOperand = false ∧ a.raw.1 ≠ [] ∧ a.stop = token.position

/-- Descriptor numbers are numbers of their own, and digits that end a longer word stay part of
    it. -/
structure FdPrefixLaw (line : Text) (stream : ArkshTokenStream) : Prop where
  alone : ∀ token ∈ stream.tokens, token.kind.isFdRedirection = true →
    StandsAlone line stream.tokens token
  words : ∃ behindDigits, posixLexLine line = .ok (stream, behindDigits)

variable {line : Text} {stream : ArkshTokenStream}

theorem lexLine_tiles (h : arkshLexLine line = .ok stream) : ∃ tokens,
      stream.tokens = tokens ++ [⟨.eof, default, default, line.length⟩] ∧
        TokenTiles 0 line tokens := by
  obtain ⟨⟨s, t⟩, hrun, h⟩ := map_ok.mp h
  obtain rfl : s.stream = stream := h
  obtain ⟨tokens, hstream, htiles, -⟩ := lexScanner_tiles hrun (Nat.le_refl _)
  rw [show (LexState.mk line.length _ _).len - line.length = 0 from Nat.sub_self _] at htiles
  exact ⟨tokens, hstream, htiles⟩

theorem tiles_ordered {tokens : List ArkshToken} (h : TokenTiles 0 line tokens) {a b : ArkshToken}
    (ha : a ∈ tokens) (hb : b ∈ tokens) (hne : a ≠ b) :
    a.stop ≤ b.position ∨ b.stop ≤ a.position := by
  have hpair : tokens.Pairwise fun a b => a.stop ≤ b.position ∨ b.stop ≤ a.position :=
    h.pairwise.imp Or.inl
  have : Std.Symm fun a b : ArkshToken => a.stop ≤ b.position ∨ b.stop ≤ a.position :=
    ⟨fun _ _ => Or.symm⟩
  exact hpair.forall ha hb hne

theorem standsAlone_iff (h : arkshLexLine line = .ok stream) (htoken : token ∈ stream.tokens)
    (heof : token.kind ≠ .eof) :
    StandsAlone line stream.tokens token ↔
      ∀ a ∈ stream.tokens, a.kind.isOperand = true → token.position ≠ a.stop := by
  obtain ⟨tokens, hstream, htiles⟩ := lexLine_tiles h
  have hmem : ∀ a ∈ stream.tokens, a ∈ tokens ∨ (a.kind = .eof ∧ a.raw.1 = [] ∧
      a.position = line.length) := by
    intro a ha
    rw [hstream, mem_append, mem_singleton] at ha
    rcases ha with ha | rfl
    · exact .inl ha
    · exact .inr ⟨rfl, rfl, rfl⟩
  have hin : token ∈ tokens := (hmem token htoken).resolve_right fun ⟨hkind, _⟩ => heof hkind
  have hpos {a : ArkshToken} (ha : a ∈ tokens) : a.position < a.stop := by
    have hraw := length_pos_iff.mpr (htiles.seg_ne_nil a ha)
    unfold ArkshToken.stop
    omega
  constructor
  · intro halone a ha hoperand heq
    have ha' : a ∈ tokens := (hmem a ha).resolve_right fun ⟨hkind, _⟩ => by
      rw [hkind] at hoperand
      cases hoperand
    have hapos := hpos ha'
    rcases halone with hzero | ⟨c, -, -, hout⟩ | ⟨b, hb, hoperator, hraw, hstop⟩
    · omega
    · exact hout a ha ⟨by omega, by omega⟩
    · have hb' : b ∈ tokens := (hmem b hb).resolve_right fun ⟨_, hnil, _⟩ => hraw hnil
      have hbpos := hpos hb'
      have hne : a ≠ b := by
        rintro rfl
        rw [hoperand] at hoperator
        cases hoperator
      rcases tiles_ordered htiles ha' hb' hne with hle | hle <;> omega
  · intro hnone
    by_cases hzero : token.position = 0
    · exact .inl hzero
    refine .inr ?_
    by_cases hcovered : ∃ p ∈ tokens, p.position < token.position ∧ token.position ≤ p.stop
    · obtain ⟨p, hp, hlt, hle⟩ := hcovered
      have hne : p ≠ token := by rintro rfl; omega
      have htpos := hpos hin
      have hstop : p.stop = token.position := by
        rcases tiles_ordered htiles hp hin hne with h | h <;> omega
      have hp' : p ∈ stream.tokens := by rw [hstream]; exact mem_append_left _ hp
      refine .inr ⟨p, hp', ?_, htiles.seg_ne_nil p hp, hstop⟩
      rw [← not_eq_true]
      exact fun hoperand => hnone p hp' hoperand hstop.symm
    · have hbound := htiles.bounds token hin
      have hlt : token.position - 1 < line.length := by omega
      refine .inl ⟨(line)[token.position - 1], getElem?_eq_getElem hlt, ?_, ?_⟩
      · refine htiles.uncovered (token.position - 1) _ (getElem?_eq_getElem hlt) fun p hp => ?_
        by_contra hcover
        refine hcovered ⟨p, hp, ?_⟩
        unfold ArkshToken.stop
        omega
      · rintro a ha ⟨hlt', hle⟩
        rcases hmem a ha with ha | ⟨-, -, hapos⟩
        · exact hcovered ⟨a, ha, hlt', hle⟩
        · omega

theorem isFdRedirection_ne_eof (h : kind.isFdRedirection = true) : kind ≠ .eof := by
  rintro rfl
  cases h

/-- **The law of descriptor numbers holds iff, as the reference reads the line, no word that ends in
    a digit outside of quotes stands in front of `<` or `>`, and every descriptor number stands
    alone.** -/
theorem fdPrefixLaw_iff {line : Text} {stream : ArkshTokenStream}
    (h : arkshLexLine line = .ok stream) :
    FdPrefixLaw line stream ↔ ∃ posix behindDigits, posixLexLine line = .ok (posix, behindDigits) ∧
      (∀ behind ∈ behindDigits, startsRedirection behind = false) ∧
      ∀ token ∈ posix.tokens, token.kind.isFdRedirection = true →
        StandsAlone line posix.tokens token := by
  constructor
  · intro law
    obtain ⟨⟨s, t⟩, hrun, hs⟩ := map_ok.mp h
    obtain rfl : s.stream = stream := hs
    have halone : ∀ a ∈ s.stream.tokens, ∀ b ∈ s.stream.tokens, a.kind.isOperand = true →
        b.kind.isFdRedirection = true → b.position ≠ a.stop := by
      intro a ha b hb hoperand hfd
      exact (standsAlone_iff h hb (isFdRedirection_ne_eof hfd)).mp (law.alone b hb hfd) a ha
        hoperand
    obtain ⟨behindDigits, hposix, hclear⟩ := posixLexScanner_of_source hrun (Nat.le_refl _) halone
      [] (fun _ hb => nomatch hb)
    refine ⟨s.stream, behindDigits, ?_, hclear, law.alone⟩
    rw [posixLexLine, hposix]
    rfl
  · rintro ⟨posix, behindDigits, hposix, hclear, halone⟩
    have hsource : arkshLexLine line = .ok posix := by
      obtain ⟨⟨s, t⟩, hrun, hs⟩ := map_ok.mp hposix
      cases hs
      rw [arkshLexLine, (lexScanner_of_posix hrun).2 hclear]
      rfl
    obtain rfl : stream = posix := by
      rw [h] at hsource
      exact Except.ok.inj hsource
    exact ⟨halone, behindDigits, hposix⟩

/-- The words of a line, as the source and as the reference read them. -/
def lineTexts (line : Text) : Option (List Text) :=
  (arkshLexLine line).toOption.map fun stream => stream.tokens.map fun token => token.raw.1

def posixLineTexts (line : Text) : Option (List Text) :=
  (posixLexLine line).toOption.map fun result => result.1.tokens.map fun token => token.raw.1

theorem fdPrefixLaw_iff_blank : ∃ stream, arkshLexLine "echo foo 2>bar".toList = .ok stream ∧
    FdPrefixLaw "echo foo 2>bar".toList stream := by
  have hok : (arkshLexLine "echo foo 2>bar".toList).isOk = true := by decide +kernel
  have hposix : (posixLexLine "echo foo 2>bar".toList).toOption.any (fun read =>
      read.2.all (startsRedirection · = false) && read.1.tokens.all fun token =>
        !token.kind.isFdRedirection || (("echo foo 2>bar".toList)[token.position - 1]?.any isspace &&
          read.1.tokens.all fun a => !(a.position < token.position && token.position ≤ a.stop))) =
      true := by decide +kernel
  cases h : arkshLexLine "echo foo 2>bar".toList with
  | error e => rw [h] at hok; cases hok
  | ok stream =>
    refine ⟨stream, rfl, (fdPrefixLaw_iff h).mpr ?_⟩
    cases hread : posixLexLine "echo foo 2>bar".toList with
    | error e => rw [hread] at hposix; cases hposix
    | ok read =>
      obtain ⟨posix, behindDigits⟩ := read
      rw [hread] at hposix
      obtain ⟨hdigits, htokens⟩ := Bool.and_eq_true_iff.mp hposix
      refine ⟨posix, behindDigits, rfl, fun behind hbehind => ?_, fun token htoken hfd => ?_⟩
      · exact of_decide_eq_true (all_eq_true.mp hdigits behind hbehind)
      · have htoken' := all_eq_true.mp htokens token htoken
        rw [hfd, Bool.not_true, Bool.false_or, Bool.and_eq_true, Option.any_eq_true] at htoken'
        obtain ⟨⟨c, hc, hspace⟩, hout⟩ := htoken'
        refine .inr (.inl ⟨c, hc, hspace, fun a ha => ?_⟩)
        simpa [or_iff_not_imp_left] using all_eq_true.mp hout a ha

/-- `echo foo2>bar` is not read as the word `foo2` and a plain redirection. -/
theorem not_fdPrefixLaw_word : ¬ ∀ line stream, arkshLexLine line = .ok stream →
    FdPrefixLaw line stream := fun h => by
  have hsource : lineTexts "echo foo2>bar".toList =
      some ["echo".toList, "foo".toList, "2>".toList, "bar".toList, []] := by decide
  have hposix : posixLineTexts "echo foo2>bar".toList =
      some ["echo".toList, "foo2".toList, ">".toList, "bar".toList, []] := by decide
  obtain ⟨stream, hstream, htexts⟩ := toOption_map_some hsource
  obtain ⟨behindDigits, hread⟩ := (h _ stream hstream).words
  rw [posixLineTexts, hread] at hposix
  change some (stream.tokens.map _) = _ at hposix
  rw [htexts] at hposix
  revert hposix
  decide

end Arksh
