/-
  Subject: `execute_case_command` of `src/executor.c`: which branch of a `case` is run.

  The patterns of a branch are cut at the pipes of the lexer. Of the quotes of an alternative only a
  pair around all of it is taken off, and what was between them is a pattern again.
-/
import Arksh.Exec.Binary
import Arksh.Exec.CasePatternLaw
import Arksh.Parse.Split
import Arksh.Shell.SourceQuote

namespace Arksh

open CText Scan Wildcard List Bool Nat

/-! ## 1. The code -/

def alternativesLoop (patternsText : Text) (segmentStart : Nat) (patterns : List Text) :
    List ArkshToken → Option (List Text)
  | [] => some patterns
  | token :: tokens =>
    if token.kind = .shellPipe ∨ token.kind = .eof then
      if patterns.length ≥ arkshMaxCaseBranches then none
      else
        let stop := if token.kind = .eof then patternsText.length else token.position
        let pattern := stripMatchingQuotes (copyTrimmedRange patternsText segmentStart stop)
        let patterns := if pattern ≠ [] then patterns ++ [pattern] else patterns
        if token.kind = .eof then some patterns
        else
          alternativesLoop patternsText (token.position + token.raw.1.length) patterns tokens
    else alternativesLoop patternsText segmentStart patterns tokens

def splitCasePatternAlternatives (patternsText : Text) : Option (List Text) :=
  match arkshLexLine patternsText with
  | .error _ =>
    let pattern := stripMatchingQuotes (copyTrimmedRange patternsText 0 patternsText.length)
    some (if pattern = [] then [] else [pattern])
  | .ok stream => alternativesLoop patternsText 0 [] stream.tokens

def caseBranchMatches (patternsText switchText : Text) : Bool :=
  match splitCasePatternAlternatives patternsText with
  | none => false
  | some patterns => patterns.any fun pattern => shellPatternMatches pattern switchText

/-- What the command calls, over the states `σ` of the shell and its values `V`. -/
structure CaseHost (σ V : Type) where
  evaluateSwitchOperand : Text → σ → Except Text V × σ
  render : V → Option Text
  executeLine : Text → σ → (Int × Text) × σ

section Execute

variable {σ V : Type} (host : CaseHost σ V)

/-- The status and the output of a branch that is selected. -/
def runBranch (branch : ArkshCaseBranchNode) (shell : σ) : (Int × Text) × σ :=
  if branch.body = [] then ((0, []), shell) else host.executeLine branch.body shell

/-- The loop of `execute_case_command`. -/
def branchLoop (rendered : Text) (shell : σ) : List ArkshCaseBranchNode → (Int × Text) × σ
  | [] => ((0, []), shell)
  | branch :: branches =>
    if caseBranchMatches branch.patterns rendered then runBranch host branch shell
    else branchLoop rendered shell branches

def executeCaseCommand (command : ArkshCaseCommandNode) (shell : σ) : (Int × Text) × σ :=
  match host.evaluateSwitchOperand command.expression shell with
  | (.error out, shell) => ((1, out), shell)
  | (.ok caseValue, shell) =>
    match host.render caseValue with
    | none => ((1, "unable to render case expression".toList), shell)
    | some rendered => branchLoop host rendered shell command.branches

end Execute

/-! ## 2. What `case` is for -/

/-- White space that is not quoted. -/
def isBlankChar (t : PatternToken) : Bool := isspace t.1 && !t.2

/-- An alternative without the white space around it. -/
def trimChars (ts : List PatternToken) : List PatternToken :=
  (ts.dropWhile isBlankChar).rdropWhile isBlankChar

/-- A piece between two pipes that is not empty. -/
def isAlternative (piece : Text) : Bool := !piece.all isspace

def caseAlternatives (patternsText : Text) : List (List PatternToken) :=
  ((cutPipes .bare patternsText).filter isAlternative).map fun piece =>
    trimChars (sourceChars .bare piece)

def BranchSelected (subject : Text) (branch : ArkshCaseBranchNode) : Prop :=
  ∃ alternative ∈ caseAlternatives branch.patterns,
    Matches (readItems posixBracket alternative) subject

def CaseCommandLaw {σ V : Type} (host : CaseHost σ V) (command : ArkshCaseCommandNode)
    (subject : Text) : Prop :=
  ∀ shell shell' value,
    host.evaluateSwitchOperand command.expression shell = (.ok value, shell') →
    host.render value = some subject → (∀ c ∈ subject, TextByte c) →
    (∀ before branch behind, command.branches = before ++ branch :: behind →
      BranchSelected subject branch → (∀ b ∈ before, ¬ BranchSelected subject b) →
      executeCaseCommand host command shell = runBranch host branch shell') ∧
    ((∀ b ∈ command.branches, ¬ BranchSelected subject b) →
      executeCaseCommand host command shell = ((0, []), shell'))

/-- Nothing in the alternative depends on what is quoted: no quotes, or one pair around all of it
    and nothing special between them. -/
inductive PlainAlternative (piece : Text) : Prop
  | bare (quotes : ∀ t ∈ patternChars piece, t.2 = false → t.1 ≠ '\'' ∧ t.1 ≠ '"')
      (blank : ∀ t ∈ (trimChars (patternChars piece)).getLast?, isspace t.1 = false)
  | single (inner : Text) (eq : trimText piece = '\'' :: inner ++ ['\'']) (nonempty : inner ≠ [])
      (plain : ∀ t ∈ patternChars inner, t.2 = false ∧ t.1 ∉ ['\'', '*', '?', '['])
  | double (inner : Text) (eq : trimText piece = '"' :: inner ++ ['"']) (nonempty : inner ≠ [])
      (plain : ∀ t ∈ patternChars inner, t.2 = false → t.1 ∉ ['"', '\\', '*', '?', '['])

def AlternativeSelected (subject piece : Text) : Prop :=
  isAlternative piece = true ∧
    Matches (readItems posixBracket (trimChars (sourceChars .bare piece))) subject

def piecePattern (piece : Text) : Text := stripMatchingQuotes (trimText piece)

structure PlainPatterns (subject patternsText : Text) : Prop where
  /-- A pipe is a token of its own, or there is none. -/
  pipes : match arkshLexLine patternsText with
    | .error _ => cutPipes .bare patternsText = [patternsText]
    | .ok stream => ∀ token ∈ stream.tokens, token.kind ≠ .shellPipe →
        cutPipes .bare token.raw.1 = [token.raw.1]
  /-- There is room for the alternatives. -/
  room : ((cutPipes .bare patternsText).dropLast.filter (piecePattern · ≠ [])).length <
    arkshMaxCaseBranches
  /-- Up to the one that is selected they are plain, and their brackets are read as the shell reads
      them. -/
  alternatives : ∀ before piece behind, cutPipes .bare patternsText = before ++ piece :: behind →
    (∀ p ∈ before, ¬ AlternativeSelected subject p) → isAlternative piece = true →
      PlainAlternative piece ∧
        (ReadAlike (trimChars (sourceChars .bare piece)) ∨
          (MatchesNothing codeBracket (trimChars (sourceChars .bare piece)) ∧
            MatchesNothing posixBracket (trimChars (sourceChars .bare piece))))

/-! ## 3. An alternative -/

variable {c quote : Char} {ts : List PatternToken}

section Alternative

variable {piece text front back : Text}

theorem isspace_ne {d : Char} (h : isspace c = true) (hd : isspace d = false) : c ≠ d := by
  rintro rfl
  rw [h] at hd
  cases hd

theorem isAlternative_iff : isAlternative piece = true ↔ trimText piece ≠ [] := by
  obtain ⟨front, back, hsplit, hfront, hback⟩ := trimText_split piece
  have hall : piece.all isspace = true ↔ trimText piece = [] := by
    constructor
    · intro h
      have hdrop : piece.dropWhile isspace = [] := dropWhile_eq_nil_iff.mpr (all_eq_true.mp h)
      rw [trimText, hdrop]
      rfl
    · intro h
      rw [h, nil_append] at hsplit
      rw [hsplit, all_append, all_eq_true.mpr hfront, all_eq_true.mpr hback]
      rfl
  rw [isAlternative, not_eq_true', ← not_eq_true, hall]

theorem patternChars_blanks (h : ∀ c ∈ front, isspace c = true) (text : Text) :
    patternChars (front ++ text) = front.map (·, false) ++ patternChars text := by
  induction front with
  | nil => rfl
  | cons c front ih =>
    have hc : c ≠ '\\' := isspace_ne (h c mem_cons_self) rfl
    rw [cons_append, patternChars_cons hc, ih fun d hd => h d (mem_cons_of_mem _ hd)]
    rfl

theorem patternChars_behind (text : Text) (hc : c ≠ '\\') (back : Text) :
    patternChars (text ++ c :: back) = patternChars text ++ (c, false) :: patternChars back ∨
      ∃ ts, patternChars (text ++ c :: back) = ts ++ (c, true) :: patternChars back ∧
        patternChars text = ts ++ [('\\', false)] := by
  induction text using patternChars.induct with
  | case1 d text ih =>
    rcases ih with ih | ⟨ts, ih, htext⟩
    · exact .inl (congrArg ((d, true) :: ·) ih)
    · exact .inr ⟨(d, true) :: ts, congrArg ((d, true) :: ·) ih, congrArg ((d, true) :: ·) htext⟩
  | case2 d text hescape ih =>
    by_cases hd : d = '\\'
    · subst hd
      cases text with
      | nil => exact .inr ⟨[], rfl, rfl⟩
      | cons e text => exact absurd rfl (hescape e text rfl)
    · rw [cons_append, patternChars_cons hd, patternChars_cons hd]
      rcases ih with ih | ⟨ts, ih, htext⟩
      · exact .inl (congrArg ((d, false) :: ·) ih)
      · exact .inr ⟨(d, false) :: ts, congrArg ((d, false) :: ·) ih,
          congrArg ((d, false) :: ·) htext⟩
  | case3 => exact .inl (patternChars_cons hc back)

theorem patternChars_head? {t : PatternToken} (h : (patternChars text).head? = some t)
    (ht : t.2 = false) : text.head? = some t.1 := by
  unfold patternChars at h
  split at h
  · cases h; cases ht
  · cases h; rfl
  · cases h

theorem patternChars_ne_nil (h : text ≠ []) : patternChars text ≠ [] := by
  unfold patternChars
  split
  · exact cons_ne_nil _ _
  · exact cons_ne_nil _ _
  · exact absurd rfl h

theorem patternChars_getLast? (text : Text) :
    (patternChars text).getLast?.map Prod.fst = text.getLast? := by
  induction text using patternChars.induct with
  | case1 c text ih =>
    cases text with
    | nil => rfl
    | cons d text =>
      show ((c, true) :: patternChars (d :: text)).getLast?.map Prod.fst =
        ('\\' :: c :: d :: text).getLast?
      rw [getLast?_cons_of_ne_nil (patternChars_ne_nil (cons_ne_nil _ _)), ih]
      rfl
  | case2 c text hescape ih =>
    have hchars : patternChars (c :: text) = (c, false) :: patternChars text := by
      rw [patternChars]
      exact hescape
    rw [hchars]
    cases text with
    | nil => rfl
    | cons d text => rw [getLast?_cons_of_ne_nil (patternChars_ne_nil (cons_ne_nil _ _)), ih]; rfl
  | case3 => rfl

theorem trimChars_eq {front middle back : List PatternToken}
    (hfront : ∀ t ∈ front, isBlankChar t = true) (hback : ∀ t ∈ back, isBlankChar t = true)
    (hne : middle ≠ []) (hhead : ∀ t ∈ middle.head?, isBlankChar t = false)
    (hlast : ∀ t ∈ middle.getLast?, isBlankChar t = false) :
    trimChars (front ++ (middle ++ back)) = middle := by
  have hdrop : (front ++ (middle ++ back)).dropWhile isBlankChar = middle ++ back := by
    rw [dropWhile_append_of_pos hfront]
    obtain ⟨t, ts, rfl⟩ := exists_cons_of_ne_nil hne
    refine dropWhile_cons_of_neg ?_
    rw [hhead t rfl]
    exact false_ne_true
  have hrdrop : (middle ++ back).rdropWhile isBlankChar = middle.rdropWhile isBlankChar := by
    rw [List.rdropWhile, List.rdropWhile, reverse_append, dropWhile_append_of_pos]
    intro t ht
    exact hback t (mem_reverse.mp ht)
  have hmiddle : middle.rdropWhile isBlankChar = middle := by
    rw [rdropWhile_eq_self_iff]
    intro hne'
    rw [hlast _ (getLast?_eq_some_getLast hne')]
    exact false_ne_true
  rw [trimChars, hdrop, hrdrop, hmiddle]

theorem isBlankChar_map (h : ∀ c ∈ front, isspace c = true) :
    ∀ t ∈ front.map (·, false), isBlankChar t = true := by
  intro t ht
  obtain ⟨c, hc, rfl⟩ := mem_map.mp ht
  show (isspace c && !false) = true
  rw [h c hc]
  rfl

/-- **Where nothing quoted stands at the end, the alternative is trimmed as its text is.** -/
theorem trimChars_patternChars (hne : trimText piece ≠ [])
    (hblank : ∀ t ∈ (trimChars (patternChars piece)).getLast?, isspace t.1 = false) :
    trimChars (patternChars piece) = patternChars (trimText piece) := by
  obtain ⟨front, back, hsplit, hfront, hback⟩ := trimText_split piece
  obtain ⟨hfirst, hend⟩ := trimText_self_iff.mp (trimText_trimText piece)
  generalize trimText piece = word at *
  have hhead : ∀ t ∈ (patternChars word).head?, isBlankChar t = false := by
    intro t ht
    cases hquoted : t.2 with
    | true => simp [isBlankChar, hquoted]
    | false => rw [isBlankChar, hfirst t.1 (patternChars_head? ht hquoted)]; rfl
  have hlast : ∀ t ∈ (patternChars word).getLast?, isBlankChar t = false := by
    intro t ht
    have hmap := patternChars_getLast? word
    rw [Option.mem_def.mp ht] at hmap
    rw [isBlankChar, hend t.1 hmap.symm]
    rfl
  rw [hsplit, patternChars_blanks hfront] at hblank ⊢
  cases back with
  | nil =>
    rw [append_nil] at hblank ⊢
    have hnothing : ∀ t ∈ ([] : List PatternToken), isBlankChar t = true := by simp
    have htrim := trimChars_eq (isBlankChar_map hfront) hnothing (patternChars_ne_nil hne) hhead hlast
    rwa [append_nil] at htrim
  | cons c back =>
    have hc : isspace c = true := hback c mem_cons_self
    have hback' : ∀ d ∈ back, isspace d = true := fun d hd => hback d (mem_cons_of_mem _ hd)
    have hblanks : patternChars back = back.map (·, false) := by
      have h := patternChars_blanks hback' []
      rwa [append_nil, patternChars, append_nil] at h
    rcases patternChars_behind word (isspace_ne hc rfl) back with hplain | ⟨ts, hquoted, hword⟩
    · rw [hplain, hblanks] at hblank ⊢
      exact trimChars_eq (isBlankChar_map hfront) (isBlankChar_map hback)
        (patternChars_ne_nil hne) hhead hlast
    · -- the first blank behind the text is quoted
      have htrim : trimChars (front.map (·, false) ++ patternChars (word ++ c :: back)) =
          ts ++ [(c, true)] := by
        rw [hquoted, hblanks, append_cons ts]
        refine trimChars_eq (isBlankChar_map hfront) (isBlankChar_map hback') (by simp) ?_ ?_
        · intro t ht
          cases ts with
          | nil => cases ht; simp [isBlankChar]
          | cons u ts =>
            refine hhead t ?_
            rw [hword]
            exact ht
        · intro t ht
          rw [Option.mem_def, getLast?_concat] at ht
          cases ht
          simp [isBlankChar]
      rw [htrim] at hblank
      have hspace := hblank (c, true) (by simp)
      rw [hc] at hspace
      cases hspace

theorem readItems_plain (reader : BracketReader) (h : ∀ t ∈ ts, t.2 = false → t.1 ∉ ['*', '?', '[']) :
    readItems reader ts = ts.map fun t => .set (· = t.1) := by
  induction ts with
  | nil => rw [readItems]; rfl
  | cons t ts ih =>
    have ht := h t mem_cons_self
    have hplain : t ≠ ('*', false) ∧ t ≠ ('?', false) ∧ t ≠ ('[', false) := by
      refine ⟨?_, ?_, ?_⟩
      · rintro rfl; exact ht rfl (by decide)
      · rintro rfl; exact ht rfl (by decide)
      · rintro rfl; exact ht rfl (by decide)
    rw [readItems_literal reader ts hplain, ih fun u hu => h u (mem_cons_of_mem _ hu)]
    rfl

theorem sourceChars_blanks (hfront : ∀ c ∈ front, isspace c = true)
    (hback : ∀ c ∈ back, isspace c = true) (hmode : SourceMode.bare.behind text = .bare) :
    sourceChars .bare (front ++ (text ++ back)) =
      front.map (·, false) ++ (sourceChars .bare text ++ back.map (·, false)) := by
  have hblanks : ∀ blanks : Text, (∀ c ∈ blanks, isspace c = true) →
      sourceChars .bare blanks = blanks.map (·, false) ∧
        SourceMode.bare.behind blanks = .bare := by
    intro blanks hblank
    have hchars : patternChars blanks = blanks.map (·, false) := by
      have h := patternChars_blanks hblank []
      rwa [append_nil, patternChars, append_nil] at h
    refine ⟨?_, behind_bare fun c hc => ?_⟩
    · rw [← hchars]
      refine sourceChars_bare fun t ht _ => ?_
      rw [hchars] at ht
      obtain ⟨c, hc, rfl⟩ := mem_map.mp ht
      exact ⟨isspace_ne (hblank c hc) rfl, isspace_ne (hblank c hc) rfl⟩
    · exact ⟨isspace_ne (hblank c hc) rfl, isspace_ne (hblank c hc) rfl,
        isspace_ne (hblank c hc) rfl⟩
  obtain ⟨hfrontChars, hfrontMode⟩ := hblanks front hfront
  rw [sourceChars_append (by rw [hfrontMode]; rfl), hfrontChars, hfrontMode,
    sourceChars_append (by rw [hmode]; rfl), hmode, (hblanks back hback).1]

theorem trimChars_quoted (hfront : ∀ c ∈ front, isspace c = true)
    (hback : ∀ c ∈ back, isspace c = true) (hne : ts ≠ []) (hquoted : ∀ t ∈ ts, t.2 = true) :
    trimChars (front.map (·, false) ++ (ts ++ back.map (·, false))) = ts := by
  have hblank : ∀ t ∈ ts, isBlankChar t = false := by intro t ht; simp [isBlankChar, hquoted t ht]
  refine trimChars_eq (isBlankChar_map hfront) (isBlankChar_map hback) hne ?_ ?_
  · intro t ht; exact hblank t (mem_of_mem_head? ht)
  · intro t ht; exact hblank t (mem_of_mem_getLast? ht)

theorem stripMatchingQuotes_quoted (hquote : quote = '"' ∨ quote = '\'') (inner : Text) :
    stripMatchingQuotes (quote :: inner ++ [quote]) = inner := by
  have hisQuoted : isQuotedText (quote :: inner ++ [quote]) = true := by
    have hlast : (quote :: inner ++ [quote]).getLast? = some quote := getLast?_concat
    have hlength : 2 ≤ (quote :: inner ++ [quote]).length := by simp
    rw [isQuotedText, hlast, decide_eq_true hlength]
    rcases hquote with rfl | rfl <;> rfl
  rw [stripMatchingQuotes, if_pos hisQuoted]
  show (inner ++ [quote]).dropLast = inner
  exact dropLast_concat

theorem stripMatchingQuotes_bare
    (h : ∀ t ∈ patternChars text, t.2 = false → t.1 ≠ '\'' ∧ t.1 ≠ '"') :
    stripMatchingQuotes text = text := by
  have hhead : ∀ c, text.head? = some c → c ≠ '\'' ∧ c ≠ '"' := by
    intro c hc
    cases text with
    | nil => cases hc
    | cons d text =>
      cases hc
      by_cases hbackslash : c = '\\'
      · subst hbackslash; decide
      · exact h (c, false) (by rw [patternChars_cons hbackslash]; exact mem_cons_self) rfl
  have hnot : isQuotedText text = false := by
    rw [← not_eq_true]
    intro hquoted
    simp only [isQuotedText, and_eq_true, or_eq_true, decide_eq_true_eq] at hquoted
    rcases hquoted with ⟨-, ⟨hdouble, -⟩ | ⟨hsingle, -⟩⟩
    · exact (hhead _ hdouble).2 rfl
    · exact (hhead _ hsingle).1 rfl
  rw [stripMatchingQuotes, hnot]
  rfl

theorem patternChars_unquoted (h : ∀ t ∈ patternChars text, t.2 = false) :
    patternChars text = text.map (·, false) := by
  induction text using patternChars.induct with
  | case1 c text ih => cases h (c, true) mem_cons_self
  | case2 c text hescape ih =>
    have hchars : patternChars (c :: text) = (c, false) :: patternChars text := by
      rw [patternChars]
      exact hescape
    rw [hchars] at h ⊢
    rw [ih fun t ht => h t (mem_cons_of_mem _ ht)]
    rfl
  | case3 => rfl

theorem reads_quoted {inner : Text} (hquote : quote = '"' ∨ quote = '\'')
    (heq : trimText piece = quote :: inner ++ [quote]) (hne : inner ≠ [])
    (hchars : sourceChars .bare (quote :: inner ++ [quote]) =
      (patternChars inner).map fun t => (t.1, true))
    (hmode : SourceMode.bare.behind (quote :: inner ++ [quote]) = .bare)
    (hplain : ∀ t ∈ patternChars inner, t.2 = false → t.1 ∉ ['*', '?', '[']) :
    piecePattern piece ≠ [] ∧ ∀ reader, readItems reader (patternChars (piecePattern piece)) =
      readItems reader (trimChars (sourceChars .bare piece)) := by
  obtain ⟨front, back, hsplit, hfront, hback⟩ := trimText_split piece
  rw [piecePattern, heq, stripMatchingQuotes_quoted hquote]
  refine ⟨hne, fun reader => ?_⟩
  have hquoted : ∀ t ∈ (patternChars inner).map (fun t => (t.1, true)), t.2 = true := by
    intro t ht
    obtain ⟨u, -, rfl⟩ := mem_map.mp ht
    rfl
  have htokens : (patternChars inner).map (fun t => (t.1, true)) ≠ [] := by
    rw [ne_eq, map_eq_nil_iff]
    exact patternChars_ne_nil hne
  rw [hsplit, heq, sourceChars_blanks hfront hback hmode, hchars,
    trimChars_quoted hfront hback htokens hquoted, readItems_plain reader hplain,
    readItems_plain reader fun t ht hfalse => ?_, map_map]
  · rfl
  · rw [hquoted t ht] at hfalse; cases hfalse

theorem PlainAlternative.reads (h : PlainAlternative piece) (hpiece : isAlternative piece = true) :
    piecePattern piece ≠ [] ∧ ∀ reader, readItems reader (patternChars (piecePattern piece)) =
      readItems reader (trimChars (sourceChars .bare piece)) := by
  cases h with
  | bare quotes blank =>
    have hne := isAlternative_iff.mp hpiece
    have htrim := trimChars_patternChars hne blank
    have hstrip : stripMatchingQuotes (trimText piece) = trimText piece := by
      refine stripMatchingQuotes_bare fun t ht => quotes t ?_
      rw [← htrim] at ht
      exact (dropWhile_suffix _).subset ((List.rdropWhile_prefix _ _).subset ht)
    rw [piecePattern, hstrip, sourceChars_bare quotes, htrim]
    exact ⟨hne, fun reader => rfl⟩
  | single inner eq nonempty plain =>
    have hunquoted := patternChars_unquoted fun t ht => (plain t ht).1
    have hquote : '\'' ∉ inner := by
      intro hmem
      have hchar : ('\'', false) ∈ patternChars inner := by
        rw [hunquoted]
        exact mem_map_of_mem hmem
      exact (plain _ hchar).2 (by decide)
    obtain ⟨hchars, hmode⟩ := sourceChars_single hquote
    refine reads_quoted (.inr rfl) eq nonempty ?_ ?_ fun t ht _ hspecial => ?_
    · show sourceChars .single (inner ++ ['\'']) = _
      rw [sourceChars_append (by rw [hmode]; rfl), hmode, hchars, hunquoted, map_map]
      exact append_nil _
    · show SourceMode.single.behind (inner ++ ['\'']) = .bare
      rw [SourceMode.behind_append, hmode]
      rfl
    · exact (plain t ht).2 (mem_cons_of_mem _ hspecial)
  | double inner eq nonempty plain =>
    have hmarks : ∀ t ∈ patternChars inner, t.2 = false → t.1 ≠ '"' ∧ t.1 ≠ '\\' := by
      intro t ht hfalse
      have hnot := plain t ht hfalse
      exact ⟨fun h => hnot (by rw [h]; decide), fun h => hnot (by rw [h]; decide)⟩
    obtain ⟨hchars, hmode⟩ := sourceChars_double hmarks
    refine reads_quoted (.inl rfl) eq nonempty ?_ ?_ fun t ht hfalse hspecial => ?_
    · show sourceChars .double (inner ++ ['"']) = _
      rw [sourceChars_append (by rw [hmode]; rfl), hmode, hchars]
      exact append_nil _
    · show SourceMode.double.behind (inner ++ ['"']) = .bare
      rw [SourceMode.behind_append, hmode]
      rfl
    · exact plain t ht hfalse (mem_cons_of_mem _ (mem_cons_of_mem _ hspecial))

end Alternative

/-! ## 4. The pieces of the code -/

section Pieces

variable {patternsText subject : Text} {start : Nat} {patterns : List Text}
  {branch : ArkshCaseBranchNode}

/-- The loop over the pieces instead of the tokens. -/
def takePieces (patterns : List Text) : List Text → Option (List Text)
  | [] => some patterns
  | piece :: pieces =>
    if patterns.length ≥ arkshMaxCaseBranches then none
    else takePieces
      (if piecePattern piece ≠ [] then patterns ++ [piecePattern piece] else patterns) pieces

theorem copyTrimmedRange_eq (hfits : patternsText.length < arkshMaxLine) {stop : Nat}
    (hstop : stop ≤ patternsText.length) : copyTrimmedRange patternsText start stop =
      trimText ((patternsText.drop start).take (stop - start)) :=
  copyTrimmedSlice_eq hfits hstop

theorem alternativesLoop_tiles {pos : Nat} {text front : Text} {tokens : List ArkshToken}
    {eof : ArkshToken} (htiles : TokenTiles pos text tokens)
    (hfits : patternsText.length < arkshMaxLine) (heof : eof.kind = .eof)
    (hkinds : ∀ token ∈ tokens, token.kind ≠ .eof) (hwhole : ∀ token ∈ tokens, WholeToken token)
    (hpipe : ∀ token ∈ tokens, token.kind = .shellPipe → token.raw.1 = ['|'])
    (hother : ∀ token ∈ tokens, token.kind ≠ .shellPipe →
      cutPipes .bare token.raw.1 = [token.raw.1]) (htext : patternsText = front ++ text)
    (hpos : front.length = pos) (hstart : start ≤ pos) :
    alternativesLoop patternsText start patterns (tokens ++ [eof]) =
      takePieces patterns ((cutPipes .bare text).modifyHead (front.drop start ++ ·)) := by
  induction htiles generalizing front start patterns with
  | done pos =>
    rw [append_nil] at htext
    have hrange : copyTrimmedRange patternsText start patternsText.length =
        trimText (front.drop start) := by
      rw [copyTrimmedRange_eq hfits (Nat.le_refl _), htext, take_of_length_le]
      rw [length_drop]
    rw [nil_append, alternativesLoop, if_pos (.inr heof), if_pos heof, if_pos heof, hrange,
      cutPipes, modifyHead_cons, append_nil, takePieces]
    rfl
  | @gap pos a text tokens hspace _ ih =>
    have hcut : cutPipes .bare (a :: text) = (cutPipes .bare text).modifyHead (a :: ·) := by
      have hblank : a ≠ '|' := isspace_ne hspace rfl
      rw [cutPipes, if_neg (fun h => hblank h.2), next_bare (isspace_ne hspace rfl)
        (isspace_ne hspace rfl) (isspace_ne hspace rfl)]
    have hdrop : (front ++ [a]).drop start = front.drop start ++ [a] :=
      drop_append_of_le_length (by omega)
    have htext' : patternsText = (front ++ [a]) ++ text := by rw [htext, append_assoc]; rfl
    rw [ih hkinds hwhole hpipe hother htext' (by simpa using hpos) (by omega), hcut, modifyHead_modifyHead, hdrop]
    simp [Function.comp_def]
  | @piece token text tokens hne _ ih =>
    have hkinds' := fun t ht => hkinds t (mem_cons_of_mem _ ht)
    have hwhole' := fun t ht => hwhole t (mem_cons_of_mem _ ht)
    have hpipe' := fun t ht => hpipe t (mem_cons_of_mem _ ht)
    have hother' := fun t ht => hother t (mem_cons_of_mem _ ht)
    have hnotEof : token.kind ≠ .eof := hkinds token mem_cons_self
    have htext' : patternsText = (front ++ token.raw.1) ++ text := by
      rw [htext, append_assoc]
    have hpos' : (front ++ token.raw.1).length = token.position + token.raw.1.length := by
      rw [length_append, hpos]
    rw [cons_append, alternativesLoop]
    by_cases hkind : token.kind = .shellPipe
    · have hraw := hpipe token mem_cons_self hkind
      have hcut : cutPipes .bare (token.raw.1 ++ text) = [] :: cutPipes .bare text := by
        rw [hraw, singleton_append, cutPipes, if_pos ⟨rfl, rfl⟩]
      have hstop : token.position ≤ patternsText.length := by rw [htext', length_append]; omega
      have hrange : copyTrimmedRange patternsText start token.position =
          trimText (front.drop start) := by
        rw [copyTrimmedRange_eq hfits hstop, htext, drop_append_of_le_length (by omega),
          take_append_of_le_length (by rw [length_drop]; omega), take_of_length_le]
        rw [length_drop]
        omega
      have hdrop : (front ++ token.raw.1).drop (token.position + token.raw.1.length) = [] := by
        rw [← hpos', drop_length]
      rw [if_pos (.inl hkind), hcut, modifyHead_cons, append_nil, takePieces]
      by_cases hroom : patterns.length ≥ arkshMaxCaseBranches
      · rw [if_pos hroom, if_pos hroom]
      rw [if_neg hroom, if_neg hroom, if_neg hnotEof, if_neg hnotEof,
        hrange, ih hkinds' hwhole' hpipe' hother' htext' hpos' (Nat.le_refl _), hdrop]
      show takePieces _ ((cutPipes .bare text).modifyHead id) = _
      rw [modifyHead_id]
      rfl
    · have hnot : ¬ (token.kind = .shellPipe ∨ token.kind = .eof) := by
        rintro (h | h)
        · exact hkind h
        · exact hnotEof h
      have hcut : cutPipes .bare (token.raw.1 ++ text) = _ :=
        cutPipes_append (hother token mem_cons_self hkind)
      have hmode : SourceMode.bare.behind token.raw.1 = .bare := hwhole token mem_cons_self
      have hdrop : (front ++ token.raw.1).drop start = front.drop start ++ token.raw.1 :=
        drop_append_of_le_length (by omega)
      rw [if_neg hnot, ih hkinds' hwhole' hpipe' hother' htext' hpos' (by omega), hcut, hmode,
        modifyHead_modifyHead, hdrop]
      simp [Function.comp_def]

theorem takePieces_eq {pieces : List Text} (hpieces : pieces ≠ [])
    (hroom : patterns.length + (pieces.dropLast.filter (piecePattern · ≠ [])).length <
      arkshMaxCaseBranches) :
    takePieces patterns pieces =
      some (patterns ++ (pieces.filter (piecePattern · ≠ [])).map piecePattern) := by
  induction pieces generalizing patterns with
  | nil => exact absurd rfl hpieces
  | cons piece pieces ih =>
    rw [takePieces, if_neg (by omega)]
    have hnext : (if piecePattern piece ≠ [] then patterns ++ [piecePattern piece] else patterns) =
        patterns ++ ([piece].filter (piecePattern · ≠ [])).map piecePattern := by
      by_cases hne : piecePattern piece = []
      · simp [hne]
      · simp [hne]
    rw [hnext]
    cases pieces with
    | nil => rfl
    | cons next pieces =>
      have hcount : (([piece] ++ (next :: pieces).dropLast).filter (piecePattern · ≠ [])).length <
          arkshMaxCaseBranches - patterns.length := by
        have h := hroom
        rw [dropLast_cons_cons] at h
        exact Nat.lt_sub_iff_add_lt'.mpr h
      rw [filter_append, length_append] at hcount
      rw [ih (cons_ne_nil _ _) ?_]
      · rw [append_assoc, ← map_append, ← filter_append]; rfl
      · rw [length_append, length_map]
        omega

theorem splitCasePatternAlternatives_eq (h : PlainPatterns subject patternsText)
    (hfits : patternsText.length < arkshMaxLine) : splitCasePatternAlternatives patternsText =
      some (((cutPipes .bare patternsText).filter (piecePattern · ≠ [])).map piecePattern) := by
  have hpipes := h.pipes
  rw [splitCasePatternAlternatives]
  cases hlex : arkshLexLine patternsText with
  | error message =>
    rw [hlex] at hpipes
    have hcut : cutPipes .bare patternsText = [patternsText] := hpipes
    have hrange : copyTrimmedRange patternsText 0 patternsText.length = trimText patternsText := by
      rw [copyTrimmedRange_eq hfits (Nat.le_refl _), drop_zero, Nat.sub_zero, take_length]
    rw [hcut, hrange]
    change some (if piecePattern patternsText = [] then [] else [piecePattern patternsText]) = _
    by_cases hne : piecePattern patternsText = []
    · simp [hne]
    · simp [hne]
  | ok stream =>
    rw [hlex] at hpipes
    obtain ⟨⟨s, t⟩, hrun, hstream⟩ := map_ok.mp hlex
    obtain rfl : s.stream = stream := hstream
    obtain ⟨tokens, htokens, htiles, hkinds⟩ := lexScanner_tiles hrun (Nat.le_refl _)
    rw [show (LexState.mk patternsText.length _ _).len - patternsText.length = 0 from
      Nat.sub_self _] at htiles
    have hmem : ∀ token ∈ tokens, token ∈ s.stream.tokens := fun token htoken => by
      rw [htokens]
      exact mem_append_left _ htoken
    have hloop : alternativesLoop patternsText 0 []
        (tokens ++ [⟨.eof, default, default, patternsText.length⟩]) =
        takePieces [] ((cutPipes .bare patternsText).modifyHead (([] : Text).drop 0 ++ ·)) :=
      alternativesLoop_tiles htiles hfits rfl hkinds
        (fun token htoken => lexLine_whole hlex token (hmem token htoken))
        (fun token htoken => lexLine_pipe hlex token (hmem token htoken))
        (fun token htoken => hpipes token (hmem token htoken)) rfl rfl (Nat.le_refl _)
    show alternativesLoop patternsText 0 [] s.stream.tokens = _
    rw [htokens]
    refine hloop.trans ?_
    show takePieces [] ((cutPipes .bare patternsText).modifyHead id) = _
    rw [modifyHead_id, id, takePieces_eq (cutPipes_ne_nil _ _) ?_]
    · rfl
    · rw [length_nil, zero_add]; exact h.room

theorem exists_iff_of_first {α : Type} {p q : α → Prop} {xs : List α}
    (h : ∀ before x behind, xs = before ++ x :: behind → (∀ y ∈ before, ¬ q y) → (p x ↔ q x)) :
    (∃ x ∈ xs, p x) ↔ ∃ x ∈ xs, q x := by
  induction xs with
  | nil => simp
  | cons x xs ih =>
    have hx : p x ↔ q x := h [] x xs rfl (by simp)
    rw [exists_mem_cons_iff, exists_mem_cons_iff, hx]
    refine or_congr_right' fun hnot => ih fun before y behind heq hbefore => ?_
    refine h (x :: before) y behind (congrArg (x :: ·) heq) fun z hz => ?_
    rcases mem_cons.mp hz with rfl | hz
    · exact hnot
    · exact hbefore z hz

theorem branchSelected_iff :
    BranchSelected subject branch ↔
      ∃ piece ∈ cutPipes .bare branch.patterns, AlternativeSelected subject piece := by
  constructor
  · rintro ⟨alternative, halternative, hmatches⟩
    obtain ⟨piece, hpiece, rfl⟩ := mem_map.mp halternative
    exact ⟨piece, (mem_filter.mp hpiece).1, (mem_filter.mp hpiece).2, hmatches⟩
  · rintro ⟨piece, hpiece, halternative, hmatches⟩
    exact ⟨_, mem_map_of_mem (mem_filter.mpr ⟨hpiece, halternative⟩), hmatches⟩

theorem caseBranchMatches_iff (h : PlainPatterns subject branch.patterns)
    (hfits : branch.patterns.length < arkshMaxLine) (hsubject : ∀ c ∈ subject, TextByte c) :
    caseBranchMatches branch.patterns subject = true ↔ BranchSelected subject branch := by
  have hcode : caseBranchMatches branch.patterns subject = true ↔
      ∃ piece ∈ cutPipes .bare branch.patterns, piecePattern piece ≠ [] ∧
        shellPatternMatches (piecePattern piece) subject = true := by
    rw [caseBranchMatches, splitCasePatternAlternatives_eq h hfits]
    show List.any _ _ = true ↔ _
    rw [any_map, any_filter, any_eq_true]
    simp
  rw [hcode, branchSelected_iff]
  refine exists_iff_of_first fun before piece behind heq hbefore => ?_
  rw [AlternativeSelected]
  by_cases halternative : isAlternative piece = true
  · obtain ⟨hplain, hbrackets⟩ := h.alternatives before piece behind heq hbefore halternative
    obtain ⟨hne, hreads⟩ := hplain.reads halternative
    rw [shellPatternMatches_iff, hreads codeBracket, and_iff_right hne, and_iff_right halternative]
    exact (sameLanguage_iff _).mpr hbrackets subject hsubject
  · have hnone : piecePattern piece = [] := by
      rw [piecePattern, not_not.mp fun hne => halternative (isAlternative_iff.mpr hne)]
      rfl
    exact iff_of_false (fun h => h.1 hnone) fun h => halternative h.1

end Pieces

/-! ## 5. The command -/

def echoHost : CaseHost Unit Text where
  evaluateSwitchOperand text shell := (.ok text, shell)
  render := some
  executeLine line shell := ((0, line), shell)

theorem alternativeSelected_star : AlternativeSelected "cd".toList "c*".toList := by
  have hchars : trimChars (sourceChars .bare "c*".toList) = [('c', false), ('*', false)] := by decide
  refine ⟨by decide, ?_⟩
  rw [hchars, readItems_literal posixBracket _ (by decide), readItems_cons, if_pos (by decide)]
  refine ⟨'c', ['d'], rfl, rfl, ['d'], [], rfl, ?_⟩
  rw [readItems]
  rfl

end Arksh
