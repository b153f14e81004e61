/-
  Subject: The pattern matcher of `case`: `case_char_class_matches` and `shell_pattern_matches` of
           `src/executor.c`.

  The matcher reads a pattern from left to right as stars and sets of bytes. Its bracket expressions
  end at the first `]` behind their negation, and one that does not end matches nothing.
-/
import Arksh.Expand.WordPattern
import Arksh.Lib.Wildcard

namespace Arksh

open CText Wildcard List Nat

/-! ## 1. The code -/

def signedChar (c : Char) : Int := if c.toNat < 128 then c.toNat else c.toNat - 256

/-- A character of a bracket expression, without the backslash in front of it, and the rest. -/
def classChar : Text → Option (Char × Text)
  | '\\' :: c :: pattern => some (c, pattern)
  | c :: pattern => some (c, pattern)
  | [] => none

def classElement (pattern : Text) : Option (Char × Char × Text) :=
  match classChar pattern with
  | none => none
  | some (start, rest) =>
    match rest with
    | '-' :: c :: more =>
      if c = ']' then some (start, start, rest)
      else (classChar (c :: more)).map fun p => (start, p.1, p.2)
    | _ => some (start, start, rest)

variable {pattern rest : Text} {c textChar d : Char}

theorem classChar_length (h : classChar pattern = some (c, rest)) :
    rest.length < pattern.length := by
  unfold classChar at h
  split at h
  · cases h
    simp only [length_cons]
    omega
  · cases h; exact lt_succ_self _
  · cases h

theorem classElement_length {start stop : Char}
    (h : classElement pattern = some (start, stop, rest)) : rest.length < pattern.length := by
  unfold classElement at h
  split at h
  · cases h
  · next c more hchar =>
    have hlt := classChar_length hchar
    split at h
    · next d behind =>
      split_ifs at h
      · cases h; exact hlt
      · obtain ⟨⟨e, last⟩, hend, heq⟩ := Option.map_eq_some_iff.mp h
        cases heq
        have hlt' : last.length < (d :: behind).length := classChar_length hend
        show last.length < pattern.length
        simp only [length_cons] at hlt hlt'
        omega
    · cases h; exact hlt

/-- The loop of `case_char_class_matches`: whether the byte was met, and the pattern behind it. -/
def classLoop (textChar : Char) (matched : Bool) (pattern : Text) : Option (Bool × Text) :=
  match pattern with
  | [] => none
  | c :: more =>
    if c = ']' then some (matched, more)
    else
      match _h : classElement (c :: more) with
      | none => none
      | some (start, stop, rest) =>
        classLoop textChar (matched || (signedChar textChar ≥ signedChar start &&
          signedChar textChar ≤ signedChar stop)) rest
termination_by pattern.length
decreasing_by exact classElement_length ‹_›

/-- `case_char_class_matches`, behind the opening bracket. -/
def caseCharClassMatches (pattern : Text) (textChar : Char) : Option Text :=
  let negate := pattern.head? = some '!' ∨ pattern.head? = some '^'
  match classLoop textChar false (if negate then pattern.tail else pattern) with
  | none => none
  | some (matched, rest) => if matched != decide negate then some rest else none

theorem classLoop_length {matched matched' : Bool}
    (h : classLoop textChar matched pattern = some (matched', rest)) :
    rest.length < pattern.length := by
  induction matched, pattern using classLoop.induct textChar with
  | case1 matched => rw [classLoop] at h; cases h
  | case2 matched more =>
    rw [classLoop, if_pos rfl] at h
    cases h
    exact lt_succ_self _
  | case3 matched c more hclose helement =>
    rw [classLoop, if_neg hclose] at h
    split at h
    · cases h
    · next heq =>
      rw [helement] at heq
      cases heq
  | case4 matched c more hclose start stop behind helement ih =>
    rw [classLoop, if_neg hclose] at h
    split at h
    · cases h
    · next heq =>
      rw [helement] at heq
      cases heq
      exact (ih h).trans (classElement_length helement)

theorem caseCharClassMatches_length (h : caseCharClassMatches pattern textChar = some rest) :
    rest.length < pattern.length := by
  unfold caseCharClassMatches at h
  dsimp only at h
  split at h
  · cases h
  · next matched behind hloop =>
    have hlt := classLoop_length hloop
    split_ifs at h hlt
    · cases h; exact hlt.trans_le (by simp)
    · cases h; exact hlt

def shellPatternMatches (pattern text : Text) : Bool :=
  match pattern, text with
  | [], text => text = []
  | '*' :: pattern, text =>
    let rest := pattern.dropWhile (· = '*')
    if rest = [] then true
    else text.tails.any fun text => shellPatternMatches rest text
  | _ :: _, [] => false
  | '?' :: pattern, _ :: text => shellPatternMatches pattern text
  | '[' :: pattern, c :: text =>
    match _h : caseCharClassMatches pattern c with
    | none => false
    | some rest => shellPatternMatches rest text
  | '\\' :: d :: pattern, c :: text => d = c && shellPatternMatches pattern text
  | d :: pattern, c :: text => d = c && shellPatternMatches pattern text
termination_by pattern.length
decreasing_by
  · simp only [List.length_cons]
    have hle := (List.dropWhile_suffix (fun c => decide (c = '*')) (l := pattern)).length_le
    omega
  · simp only [List.length_cons]; omega
  · have hlt := caseCharClassMatches_length ‹_›
    simp only [List.length_cons]
    omega
  · simp only [List.length_cons]; omega
  · simp only [List.length_cons]; omega

/-! ## 2. Readings of a pattern -/

abbrev PatternToken := Char × Bool

def closing : PatternToken := (']', false)

def splitNegation : List PatternToken → Bool × List PatternToken
  | t :: ts => if t = ('!', false) ∨ t = ('^', false) then (true, ts) else (false, t :: ts)
  | [] => (false, [])

def classRanges : List PatternToken → List (Char × Char)
  | (a, _) :: ('-', false) :: (b, _) :: ts => (a, b) :: classRanges ts
  | (a, _) :: ts => (a, a) :: classRanges ts
  | [] => []

/-- A byte is in one of the ranges, or else in none. -/
def classHolds (value : Char → Int) (negate : Bool) (ranges : List (Char × Char)) (c : Char) :
    Bool :=
  (ranges.any fun r => value c ≥ value r.1 && value c ≤ value r.2) != negate

structure BracketReader where
  read : List PatternToken → (Char → Prop) × List PatternToken
  length_le : ∀ ts, (read ts).2.length ≤ ts.length

def readItems (reader : BracketReader) : List PatternToken → List (Item Char)
  | [] => []
  | t :: ts =>
    if t = ('*', false) then .star :: readItems reader ts
    else if t = ('?', false) then .set (fun _ => True) :: readItems reader ts
    else if t = ('[', false) then .set (reader.read ts).1 :: readItems reader (reader.read ts).2
    else .set (· = t.1) :: readItems reader ts
termination_by ts => ts.length
decreasing_by
  · exact Nat.lt_succ_self _
  · exact Nat.lt_succ_self _
  · exact Nat.lt_succ_of_le (reader.length_le ts)
  · exact Nat.lt_succ_self _

theorem splitNegation_length (ts : List PatternToken) :
    (splitNegation ts).2.length ≤ ts.length := by
  unfold splitNegation
  split
  · split_ifs
    · exact le_succ _
    · exact le_refl _
  · exact le_refl _

def codeBracket : BracketReader where
  read ts :=
    let p := splitNegation ts
    match p.2.dropWhile (· ≠ closing) with
    | [] => (fun _ => False, [])
    | _ :: rest =>
      (fun c => classHolds signedChar p.1 (classRanges (p.2.takeWhile (· ≠ closing))) c = true, rest)
  length_le ts := by
    have hneg := splitNegation_length ts
    have hle := (List.dropWhile_suffix (fun t => decide (t ≠ closing))
      (l := (splitNegation ts).2)).length_le
    dsimp only
    split
    · exact Nat.zero_le _
    · next t rest heq =>
      rw [heq, List.length_cons] at hle
      show rest.length ≤ ts.length
      omega

/-! ## 3. Bracket expressions of the matcher -/

variable {ts : List PatternToken}

section Class

variable {pattern rest : Text} {c : Char} {negate : Bool}

theorem patternChars_escape (c : Char) (pattern : Text) :
    patternChars ('\\' :: c :: pattern) = (c, true) :: patternChars pattern := rfl

theorem classChar_tokens (h : classChar pattern = some (c, rest)) :
    ∃ quoted, patternChars pattern = (c, quoted) :: patternChars rest ∧
      (quoted = false → pattern = c :: rest) := by
  unfold classChar at h
  split at h
  · cases h; exact ⟨true, rfl, fun hq => by cases hq⟩
  · next d more hnot =>
    cases h
    refine ⟨false, ?_, fun _ => rfl⟩
    rw [patternChars]
    intro e behind heq hmore
    exact hnot e behind heq hmore
  · cases h

theorem classChar_cons (c : Char) (pattern : Text) : classChar (c :: pattern) ≠ none := by
  unfold classChar
  split <;> simp_all

theorem patternChars_hyphen {t : PatternToken} (h : patternChars pattern = ('-', false) :: t :: ts) :
    ∃ c more, pattern = '-' :: c :: more := by
  cases pattern with
  | nil => cases h
  | cons c pattern =>
    by_cases hc : c = '\\'
    · subst hc
      cases pattern with
      | nil | cons d pattern => cases h
    · rw [patternChars_cons hc] at h
      cases pattern with
      | nil => cases h
      | cons d pattern =>
        have hhyphen : c = '-' := congrArg Prod.fst (cons.inj h).1
        exact ⟨d, pattern, by rw [hhyphen]⟩

theorem classRanges_single (c : Char) (quoted : Bool) (h : ∀ t ts', ts ≠ ('-', false) :: t :: ts') :
    classRanges ((c, quoted) :: ts) = (c, c) :: classRanges ts := by
  rw [classRanges]
  intro b quoted' ts' heq
  exact h (b, quoted') ts' heq

theorem classElement_tokens {start stop : Char} {more : Text} (hd : d ≠ ']')
    (h : classElement (d :: more) = some (start, stop, rest)) :
    ∃ ts, patternChars (d :: more) = ts ++ patternChars rest ∧ closing ∉ ts ∧
      ∀ body behind, patternChars rest = body ++ behind → closing ∉ body →
        classRanges (ts ++ body) = (start, stop) :: classRanges body := by
  unfold classElement at h
  split at h
  · cases h
  · next c after hchar =>
    obtain ⟨quoted, htokens, hquoted⟩ := classChar_tokens hchar
    have hopen : (c, quoted) ≠ closing := by
      intro heq
      have hc : c = ']' := congrArg Prod.fst heq
      have hq : quoted = false := congrArg Prod.snd heq
      have hcons := hquoted hq
      rw [hc] at hcons
      exact hd (cons.inj hcons).1
    have hsingle : closing ∉ [(c, quoted)] := fun hmem => hopen (mem_singleton.mp hmem).symm
    split at h
    · next e behind =>
      split_ifs at h with he
      · -- a hyphen in front of the bracket that closes is an element of its own
        cases h
        refine ⟨[(start, quoted)], htokens, hsingle, fun body behind' hbody hclosed => ?_⟩
        refine classRanges_single start quoted fun t ts' heq => hclosed ?_
        change body = _ at heq
        rw [patternChars_cons (by decide), he, patternChars_cons (by decide), heq] at hbody
        have ht : (']', false) = t := (cons.inj (cons.inj hbody).2).1
        rw [heq, ← ht]
        exact mem_cons_of_mem _ mem_cons_self
      · obtain ⟨⟨e', last⟩, hend, heq⟩ := Option.map_eq_some_iff.mp h
        cases heq
        obtain ⟨quoted', htokens', hquoted'⟩ := classChar_tokens hend
        refine ⟨[(start, quoted), ('-', false), (e', quoted')], ?_, ?_, fun body _ _ _ => rfl⟩
        · rw [htokens, patternChars_cons (by decide), htokens']; rfl
        · have hopen' : (e', quoted') ≠ closing := by
            intro heq
            have hcons := hquoted' (congrArg Prod.snd heq)
            exact he ((cons.inj hcons).1.trans (congrArg Prod.fst heq))
          intro hmem
          simp only [mem_cons, not_mem_nil, or_false] at hmem
          rcases hmem with heq | heq | heq
          · exact hopen heq.symm
          · exact absurd heq (by decide)
          · exact hopen' heq.symm
    · next hnot =>
      cases h
      refine ⟨[(start, quoted)], htokens, hsingle, fun body behind hbody _ => ?_⟩
      refine classRanges_single start quoted fun t ts' heq => ?_
      change body = _ at heq
      rw [heq] at hbody
      obtain ⟨e, last, hrest⟩ := patternChars_hyphen hbody
      exact hnot e last hrest

theorem classElement_ne_none (c : Char) (pattern : Text) : classElement (c :: pattern) ≠ none := by
  unfold classElement
  split
  · next h => exact absurd h (classChar_cons c pattern)
  · split
    · split_ifs
      · exact Option.some_ne_none _
      · rw [ne_eq, Option.map_eq_none_iff]; exact classChar_cons _ _
    · exact Option.some_ne_none _

def inRanges (ranges : List (Char × Char)) (textChar : Char) : Bool :=
  ranges.any fun r => signedChar textChar ≥ signedChar r.1 && signedChar textChar ≤ signedChar r.2

/-- **The loop goes to the first closing bracket.** -/
theorem classLoop_tokens (textChar : Char) (matched : Bool) (pattern : Text) :
    (closing ∉ patternChars pattern → classLoop textChar matched pattern = none) ∧
      ∀ body behind, patternChars pattern = body ++ closing :: behind → closing ∉ body →
        ∃ rest, classLoop textChar matched pattern =
            some (matched || inRanges (classRanges body) textChar, rest) ∧
          patternChars rest = behind := by
  induction matched, pattern using classLoop.induct textChar with
  | case1 matched =>
    refine ⟨fun _ => by rw [classLoop], fun body behind htokens _ => ?_⟩
    exact absurd htokens (by simp [patternChars])
  | case2 matched more =>
    have htokens : patternChars (']' :: more) = closing :: patternChars more :=
      patternChars_cons (by decide) more
    refine ⟨fun hnot => absurd (by rw [htokens]; exact mem_cons_self) hnot,
      fun body behind hbody hclosed => ?_⟩
    rw [htokens] at hbody
    rcases body with _ | ⟨t, body⟩
    · refine ⟨more, ?_, (cons.inj hbody).2⟩
      rw [classLoop, if_pos rfl]
      simp [classRanges, inRanges]
    · have ht := (cons.inj hbody).1; exact absurd (by rw [ht]; exact mem_cons_self) hclosed
  | case3 matched c more hclose helement => exact absurd helement (classElement_ne_none c more)
  | case4 matched c more hclose start stop rest helement ih =>
    obtain ⟨ts, htokens, hts, hranges⟩ := classElement_tokens hclose helement
    have hstep : classLoop textChar matched (c :: more) =
        classLoop textChar (matched || (signedChar textChar ≥ signedChar start &&
          signedChar textChar ≤ signedChar stop)) rest := by
      rw [classLoop, if_neg hclose]
      split
      · next heq =>
        rw [helement] at heq
        cases heq
      · next heq =>
        rw [helement] at heq
        cases heq
        rfl
    rw [hstep, htokens]
    refine ⟨fun hnot => ih.1 fun hmem => hnot (mem_append_right _ hmem),
      fun body behind hbody hclosed => ?_⟩
    -- the element stands in front of the closing bracket
    obtain ⟨body', rfl, hrest⟩ : ∃ body', body = ts ++ body' ∧
        patternChars rest = body' ++ closing :: behind := by
      rcases append_eq_append_iff.mp hbody with ⟨l, rfl, hl⟩ | ⟨l, rfl, hl⟩
      · exact ⟨l, rfl, hl⟩
      · cases l with
        | nil => exact ⟨[], by simp, by simpa using hl.symm⟩
        | cons t l => have ht := (cons.inj hl).1; exact absurd (by rw [ht]; simp) hts
    have hclosed' : closing ∉ body' := fun hmem => hclosed (mem_append_right _ hmem)
    obtain ⟨last, hloop, hlast⟩ := ih.2 body' behind hrest hclosed'
    refine ⟨last, ?_, hlast⟩
    rw [hloop, hranges body' _ hrest hclosed']
    simp only [inRanges, any_cons, Bool.or_assoc]

theorem splitNegation_tokens (pattern : Text) : splitNegation (patternChars pattern) =
      (decide (pattern.head? = some '!' ∨ pattern.head? = some '^'),
        patternChars (if pattern.head? = some '!' ∨ pattern.head? = some '^' then pattern.tail
          else pattern)) := by
  cases pattern with
  | nil => rfl
  | cons c pattern =>
    by_cases hneg : c = '!' ∨ c = '^'
    · have hc : c ≠ '\\' := by rintro rfl; exact absurd hneg (by decide)
      have htoken : (c, false) = ('!', false) ∨ (c, false) = ('^', false) :=
        hneg.imp (congrArg (·, false)) (congrArg (·, false))
      have hhead : (c :: pattern).head? = some '!' ∨ (c :: pattern).head? = some '^' :=
        hneg.imp (congrArg some) (congrArg some)
      rw [patternChars_cons hc, splitNegation, if_pos htoken, if_pos hhead, decide_eq_true hhead]
      rfl
    · have hhead : ¬ ((c :: pattern).head? = some '!' ∨ (c :: pattern).head? = some '^') :=
        fun h => hneg (h.imp Option.some.inj Option.some.inj)
      rw [if_neg hhead, decide_eq_false hhead]
      obtain ⟨quoted, d, rest, hchar⟩ : ∃ quoted d rest,
          patternChars (c :: pattern) = (d, quoted) :: rest ∧ (quoted = false → d = c) := by
        obtain ⟨⟨d, rest⟩, hd⟩ := Option.ne_none_iff_exists'.mp (classChar_cons c pattern)
        obtain ⟨quoted, htokens, hquoted⟩ := classChar_tokens hd
        exact ⟨quoted, d, _, htokens, fun h => (cons.inj (hquoted h)).1.symm⟩
      have htoken : ¬ ((d, quoted) = ('!', false) ∨ (d, quoted) = ('^', false)) := by
        rintro (h | h)
        · exact hneg (.inl ((hchar.2 (congrArg Prod.snd h)).symm.trans (congrArg Prod.fst h)))
        · exact hneg (.inr ((hchar.2 (congrArg Prod.snd h)).symm.trans (congrArg Prod.fst h)))
      rw [hchar.1, splitNegation, if_neg htoken]

theorem takeWhile_closing {body behind : List PatternToken} (h : ts = body ++ closing :: behind)
    (hclosed : closing ∉ body) :
    ts.takeWhile (· ≠ closing) = body ∧ ts.dropWhile (· ≠ closing) = closing :: behind := by
  have hall : ∀ t ∈ body, decide (t ≠ closing) = true := fun t ht =>
    decide_eq_true fun heq => hclosed (heq ▸ ht)
  rw [h, takeWhile_append_of_pos hall, dropWhile_append_of_pos hall]
  simp

theorem codeBracket_open {ts' : List PatternToken} (h : splitNegation ts = (negate, ts'))
    (hopen : closing ∉ ts') : codeBracket.read ts = (fun _ => False, []) := by
  have hdrop : ts'.dropWhile (· ≠ closing) = [] := by
    rw [dropWhile_eq_nil_iff]
    intro t ht
    exact decide_eq_true fun heq => hopen (heq ▸ ht)
  rw [codeBracket]
  dsimp only
  rw [h, hdrop]

theorem codeBracket_closed {body behind : List PatternToken}
    (h : splitNegation ts = (negate, body ++ closing :: behind)) (hclosed : closing ∉ body) :
    codeBracket.read ts =
      (fun c => classHolds signedChar negate (classRanges body) c = true, behind) := by
  have hfirst : body ++ closing :: behind = body ++ closing :: behind := rfl
  obtain ⟨htake, hdrop⟩ := takeWhile_closing hfirst hclosed
  rw [codeBracket]
  dsimp only
  rw [h, hdrop, htake]

/-- **A bracket expression is read as its set.** -/
theorem caseCharClassMatches_tokens (pattern : Text) (textChar : Char) :
    ((codeBracket.read (patternChars pattern)).1 textChar →
      ∃ rest, caseCharClassMatches pattern textChar = some rest ∧
        patternChars rest = (codeBracket.read (patternChars pattern)).2) ∧
      (¬ (codeBracket.read (patternChars pattern)).1 textChar →
        caseCharClassMatches pattern textChar = none) := by
  have hsplit := splitNegation_tokens pattern
  generalize hnegate : decide (pattern.head? = some '!' ∨ pattern.head? = some '^') = negate
    at hsplit
  generalize hinner : (if pattern.head? = some '!' ∨ pattern.head? = some '^' then pattern.tail
    else pattern) = inner at hsplit
  have hcode : caseCharClassMatches pattern textChar =
      match classLoop textChar false inner with
      | none => none
      | some (matched, rest) => if matched != negate then some rest else none := by
    rw [caseCharClassMatches]
    rw [hinner, hnegate]
  obtain ⟨hnone, hsome⟩ := classLoop_tokens textChar false inner
  by_cases hmem : closing ∈ patternChars inner
  · obtain ⟨body, behind, htokens, hclosed⟩ := eq_append_cons_of_mem hmem
    obtain ⟨rest, hloop, hrest⟩ := hsome body behind htokens hclosed
    rw [htokens] at hsplit
    rw [codeBracket_closed hsplit hclosed, hcode, hloop]
    have hholds : (inRanges (classRanges body) textChar != negate) =
        classHolds signedChar negate (classRanges body) textChar := rfl
    constructor
    · intro h; exact ⟨rest, if_pos h, hrest⟩
    · intro h; exact if_neg h
  · rw [codeBracket_open hsplit hmem, hcode, hnone hmem]; exact ⟨fun h => h.elim, fun _ => rfl⟩

end Class

/-! ## 4. The matcher -/

variable {items : List (Item Char)}

section Matcher

theorem readItems_cons (reader : BracketReader) (t : PatternToken) (ts : List PatternToken) :
    readItems reader (t :: ts) = if t = ('*', false) then .star :: readItems reader ts
      else if t = ('?', false) then .set (fun _ => True) :: readItems reader ts
      else if t = ('[', false) then .set (reader.read ts).1 :: readItems reader (reader.read ts).2
      else .set (· = t.1) :: readItems reader ts := by
  rw [readItems]

theorem readItems_literal (reader : BracketReader) {t : PatternToken} (ts : List PatternToken)
    (h : t ≠ ('*', false) ∧ t ≠ ('?', false) ∧ t ≠ ('[', false)) :
    readItems reader (t :: ts) = .set (· = t.1) :: readItems reader ts := by
  rw [readItems_cons, if_neg h.1, if_neg h.2.1, if_neg h.2.2]

theorem matches_star_star {s : Text} :
    Matches (.star :: .star :: items) s ↔ Matches (.star :: items) s := by
  constructor
  · rintro ⟨front, back, rfl, front', back', rfl, h⟩
    exact ⟨front ++ front', back', by rw [append_assoc], h⟩
  · rintro ⟨front, back, rfl, h⟩; exact ⟨front, back, rfl, [], back, rfl, h⟩

theorem matches_dropStars (reader : BracketReader) (pattern s : Text) :
    Matches (.star :: readItems reader (patternChars pattern)) s ↔
      Matches (.star :: readItems reader (patternChars (pattern.dropWhile (· = '*')))) s := by
  induction pattern with
  | nil => rfl
  | cons c pattern ih =>
    by_cases hc : c = '*'
    · subst hc
      rw [dropWhile_cons_of_pos (by decide), patternChars_cons (by decide), readItems_cons,
        if_pos rfl, matches_star_star, ih]
    · rw [dropWhile_cons_of_neg (by simpa using hc)]

theorem readItems_set (reader : BracketReader) (hc : c ≠ '*') (pattern : Text) :
    ∃ S items, readItems reader (patternChars (c :: pattern)) = .set S :: items := by
  obtain ⟨t, ts, htokens, ht⟩ : ∃ t ts, patternChars (c :: pattern) = t :: ts ∧
      t ≠ ('*', false) := by
    obtain ⟨⟨d, rest⟩, hd⟩ := Option.ne_none_iff_exists'.mp (classChar_cons c pattern)
    obtain ⟨quoted, htokens, hquoted⟩ := classChar_tokens hd
    refine ⟨(d, quoted), _, htokens, fun heq => hc ?_⟩
    exact (cons.inj (hquoted (congrArg Prod.snd heq))).1.trans (congrArg Prod.fst heq)
  rw [htokens, readItems_cons, if_neg ht]
  split_ifs <;> exact ⟨_, _, rfl⟩

variable {text : Text}

theorem matches_set_cons {S : Char → Prop} :
    Matches (.set S :: items) (c :: text) ↔ S c ∧ Matches items text := by
  constructor
  · rintro ⟨a, rest, heq, ha, h⟩
    obtain ⟨rfl, rfl⟩ := cons.inj heq
    exact ⟨ha, h⟩
  · rintro ⟨hc, h⟩; exact ⟨c, text, rfl, hc, h⟩

theorem literal_iff {quoted : Bool}
    (ht : (d, quoted) ≠ ('*', false) ∧ (d, quoted) ≠ ('?', false) ∧ (d, quoted) ≠ ('[', false))
    (ih : shellPatternMatches pattern text = true ↔
      Matches (readItems codeBracket (patternChars pattern)) text) :
    (d = c && shellPatternMatches pattern text) = true ↔
      Matches (readItems codeBracket ((d, quoted) :: patternChars pattern)) (c :: text) := by
  rw [readItems_literal codeBracket _ ht, matches_set_cons, Bool.and_eq_true, ih,
    decide_eq_true_iff, eq_comm]

/-- **The matcher accepts the language of the items that it reads.** -/
theorem shellPatternMatches_iff (pattern text : Text) : shellPatternMatches pattern text = true ↔
    Matches (readItems codeBracket (patternChars pattern)) text := by
  induction pattern, text using shellPatternMatches.induct with
  | case1 text =>
    rw [shellPatternMatches, decide_eq_true_iff]
    show _ ↔ Matches (readItems codeBracket []) text
    rw [readItems]
    rfl
  | case2 pattern text rest hrest =>
    have hstars := matches_dropStars codeBracket pattern text
    have hnil : pattern.dropWhile (· = '*') = [] := hrest
    rw [hnil] at hstars
    rw [patternChars_cons (by decide), readItems_cons, if_pos rfl, hstars, shellPatternMatches]
    rw [if_pos hnil]
    refine iff_of_true rfl ⟨text, [], by rw [append_nil], ?_⟩
    show Matches (readItems codeBracket []) []
    rw [readItems]
    rfl
  | case3 pattern text rest hrest ih =>
    have hne : ¬ pattern.dropWhile (· = '*') = [] := hrest
    rw [patternChars_cons (by decide), readItems_cons, if_pos rfl, matches_dropStars,
      shellPatternMatches]
    rw [if_neg hne, any_eq_true]
    constructor
    · rintro ⟨back, hback, hmatch⟩
      obtain ⟨front, rfl⟩ := mem_tails _ _ |>.mp hback
      exact ⟨front, back, rfl, (ih back).mp hmatch⟩
    · rintro ⟨front, back, rfl, hmatch⟩
      exact ⟨back, (mem_tails _ _).mpr ⟨front, rfl⟩, (ih back).mpr hmatch⟩
  | case4 c pattern hc =>
    obtain ⟨S, items, hitems⟩ := readItems_set codeBracket hc pattern
    rw [hitems, shellPatternMatches]
    · refine iff_of_false (by simp) ?_
      rintro ⟨a, rest, heq, -⟩
      cases heq
    · exact hc
  | case5 pattern c text ih =>
    rw [patternChars_cons (by decide), readItems_cons, if_neg (by decide), if_pos rfl,
      matches_set_cons, shellPatternMatches, ih]
    exact (and_iff_right trivial).symm
  | case6 pattern c text hclass =>
    rw [patternChars_cons (by decide), readItems_cons, if_neg (by decide), if_neg (by decide),
      if_pos rfl, matches_set_cons, shellPatternMatches]
    have hnot : ¬ (codeBracket.read (patternChars pattern)).1 c := by
      intro hc
      obtain ⟨rest, hsome, -⟩ := (caseCharClassMatches_tokens pattern c).1 hc
      rw [hclass] at hsome
      cases hsome
    split
    · exact iff_of_false (by simp) fun h => hnot h.1
    · next heq =>
      rw [hclass] at heq
      cases heq
  | case7 pattern c text rest hclass ih =>
    rw [patternChars_cons (by decide), readItems_cons, if_neg (by decide), if_neg (by decide),
      if_pos rfl, matches_set_cons, shellPatternMatches]
    have hc : (codeBracket.read (patternChars pattern)).1 c := by
      by_contra hnot
      have hnone := (caseCharClassMatches_tokens pattern c).2 hnot
      rw [hclass] at hnone
      cases hnone
    obtain ⟨rest', hsome, hrest⟩ := (caseCharClassMatches_tokens pattern c).1 hc
    cases hclass.symm.trans hsome
    split
    · next heq =>
      rw [hclass] at heq
      cases heq
    · next heq =>
      rw [hclass] at heq
      cases heq
      rw [ih, hrest]
      exact (and_iff_right hc).symm
  | case8 d pattern c text ih =>
    rw [patternChars_escape, shellPatternMatches]
    exact literal_iff ⟨by simp, by simp, by simp⟩ ih
  | case9 d pattern c text hstar hone hbracket hescape ih =>
    have htokens : patternChars (d :: pattern) = (d, false) :: patternChars pattern := by
      rw [patternChars]
      exact hescape
    rw [htokens, shellPatternMatches]
    · refine literal_iff ⟨fun h => hstar ?_, fun h => hone ?_, fun h => hbracket ?_⟩ ih
      · exact congrArg Prod.fst h
      · exact congrArg Prod.fst h
      · exact congrArg Prod.fst h
    · exact hstar
    · exact hone
    · exact hbracket
    · exact hescape

end Matcher

end Arksh
