/-
  Subject: The patterns of `case` against those of the shell.

  In a pattern of the shell a `]` at the front of a bracket expression belongs to it, a bracket that
  is not closed is a bracket, and bytes are compared without a sign. The matcher does none of this.
-/
import Arksh.Exec.CasePattern
import Mathlib.Data.Bool.AllAny

namespace Arksh

open CText Wildcard List Nat

/-! ## 1. Patterns of the shell -/

def TextByte (c : Char) : Prop := c ≠ '\x00' ∧ c.toNat < 256

instance : DecidablePred TextByte := fun c =>
  inferInstanceAs (Decidable (c ≠ '\x00' ∧ c.toNat < 256))

def byteValue (c : Char) : Int := c.toNat

/-- A bracket expression of the shell: what stands first is in it, even a `]`, and one that does not
    end is a bracket. -/
def posixBracket : BracketReader where
  read ts :=
    match splitNegation ts with
    | (_, []) => ((· = '['), ts)
    | (negate, t :: us) =>
      match us.dropWhile (· ≠ closing) with
      | [] => ((· = '['), ts)
      | _ :: rest =>
        (fun c => classHolds byteValue negate (classRanges (t :: us.takeWhile (· ≠ closing))) c =
          true, rest)
  length_le ts := by
    have hneg := splitNegation_length ts
    split
    · exact Nat.le_refl _
    · next negate t us hsplit =>
      have hle := (List.dropWhile_suffix (fun t => decide (t ≠ closing)) (l := us)).length_le
      rw [hsplit] at hneg
      split
      · exact Nat.le_refl _
      · next u rest heq =>
        rw [heq, List.length_cons] at hle
        simp only [List.length_cons] at hneg
        show rest.length ≤ ts.length
        omega

def CasePatternLaw (pattern : Text) : Prop :=
  ∀ text : Text, (∀ c ∈ text, TextByte c) →
    (shellPatternMatches pattern text = true ↔
      Matches (readItems posixBracket (patternChars pattern)) text)

/-- Every bracket is closed behind a character of its own, and has the same bytes with their sign
    and without. -/
inductive ReadAlike : List PatternToken → Prop
  | nil : ReadAlike []
  | char {t : PatternToken} {ts : List PatternToken} :
      t ≠ ('[', false) → ReadAlike ts → ReadAlike (t :: ts)
  | bracket {ts body rest : List PatternToken} {negate : Bool} :
      splitNegation ts = (negate, body ++ closing :: rest) → closing ∉ body → body ≠ [] →
      Agree TextByte (fun c => classHolds signedChar negate (classRanges body) c = true)
        (fun c => classHolds byteValue negate (classRanges body) c = true) →
      ReadAlike rest → ReadAlike (('[', false) :: ts)

def MatchesNothing (reader : BracketReader) (ts : List PatternToken) : Prop :=
  ¬ Inhabited TextByte (readItems reader ts)

/-! ## 2. Bracket expressions of the shell -/

section Bracket

variable {ts us body rest : List PatternToken} {t : PatternToken} {negate : Bool}

theorem posixBracket_closed (h : splitNegation ts = (negate, t :: body ++ closing :: rest))
    (hclosed : closing ∉ body) : posixBracket.read ts =
      (fun c => classHolds byteValue negate (classRanges (t :: body)) c = true, rest) := by
  have hfirst : body ++ closing :: rest = body ++ closing :: rest := rfl
  obtain ⟨htake, hdrop⟩ := takeWhile_closing hfirst hclosed
  change splitNegation ts = (negate, t :: (body ++ closing :: rest)) at h
  simp only [posixBracket, h, hdrop, htake]

theorem posixBracket_open (h : splitNegation ts = (negate, t :: us)) (hopen : closing ∉ us) :
    posixBracket.read ts = ((· = '['), ts) := by
  have hdrop : us.dropWhile (· ≠ closing) = [] := by
    rw [dropWhile_eq_nil_iff]
    intro u hu
    exact decide_eq_true fun heq => hopen (heq ▸ hu)
  simp only [posixBracket, h, hdrop]

theorem splitNegation_append (ts rest : List PatternToken) : splitNegation (ts ++ closing :: rest) =
      ((splitNegation ts).1, (splitNegation ts).2 ++ closing :: rest) := by
  cases ts with
  | nil => rfl
  | cons t ts =>
    rw [cons_append, splitNegation, splitNegation]
    split_ifs <;> rfl

theorem splitNegation_suffix (ts : List PatternToken) : (splitNegation ts).2 <:+ ts := by
  cases ts with
  | nil => exact suffix_refl _
  | cons t ts =>
    rw [splitNegation]
    split_ifs
    · exact suffix_cons t ts
    · exact suffix_refl _

end Bracket

/-! ## 3. Readings that are alike -/

section Alike

theorem readItems_bracket (reader : BracketReader) (ts : List PatternToken) :
    readItems reader (('[', false) :: ts) =
      .set (reader.read ts).1 :: readItems reader (reader.read ts).2 := by
  rw [readItems_cons, if_neg (by decide), if_neg (by decide), if_pos rfl]

theorem readItems_char {t : PatternToken} (ht : t ≠ ('[', false)) :
    ∃ item : Item Char, ∀ (reader : BracketReader) (ts : List PatternToken),
      readItems reader (t :: ts) = item :: readItems reader ts := by
  by_cases hstar : t = ('*', false)
  · exact ⟨.star, fun reader ts => by rw [readItems_cons, if_pos hstar]⟩
  · by_cases hone : t = ('?', false)
    · exact ⟨.set fun _ => True,
        fun reader ts => by rw [readItems_cons, if_neg hstar, if_pos hone]⟩
    · exact ⟨.set (· = t.1), fun reader ts => readItems_literal reader ts ⟨hstar, hone, ht⟩⟩

theorem ReadAlike.alike {ts : List PatternToken} (h : ReadAlike ts) :
    Alike TextByte (readItems codeBracket ts) (readItems posixBracket ts) := by
  induction h with
  | nil => rw [readItems, readItems]; exact .nil
  | char ht _ ih =>
    obtain ⟨item, hitem⟩ := readItems_char ht
    rw [hitem, hitem]
    exact .cons item ih
  | @bracket ts body rest negate hsplit hclosed hbody hagree _ ih =>
    obtain ⟨t, body, rfl⟩ := exists_cons_of_ne_nil hbody
    rw [readItems_bracket, readItems_bracket, codeBracket_closed hsplit hclosed,
      posixBracket_closed hsplit fun hmem => hclosed (mem_cons_of_mem _ hmem)]
    exact .set hagree ih

end Alike

/-! ## 4. Readings that are not -/

section Sync

variable {ts us body rest : List PatternToken}

/-- **A bracket met outside an expression or inside one is behind the sets in front of it.** -/
theorem readItems_closing (body rest : List PatternToken) (hclosed : closing ∉ body) :
    ∃ K ≠ [], sets (readItems codeBracket (body ++ closing :: rest)) =
      K ++ sets (readItems codeBracket rest) := by
  induction body with
  | nil =>
    refine ⟨[(· = ']')], cons_ne_nil _ _, ?_⟩
    rw [nil_append, readItems_literal codeBracket rest (by decide)]
    rfl
  | cons t body ih =>
    have hbody : closing ∉ body := fun hmem => hclosed (mem_cons_of_mem _ hmem)
    by_cases ht : t = ('[', false)
    · subst ht
      have hsplit := splitNegation_append body rest
      have hinner : closing ∉ (splitNegation body).2 := fun hmem =>
        hbody ((splitNegation_suffix body).subset hmem)
      rw [cons_append, readItems_bracket, codeBracket_closed hsplit hinner]
      exact ⟨[_], cons_ne_nil _ _, rfl⟩
    · obtain ⟨item, hitem⟩ := readItems_char ht
      obtain ⟨K, hK, heq⟩ := ih hbody
      refine ⟨sets [item] ++ K, fun h => hK (append_eq_nil_iff.mp h).2, ?_⟩
      rw [cons_append, hitem, sets_cons, heq, append_assoc]

theorem readItems_open (hopen : closing ∉ ts) (h : Inhabited TextByte (readItems codeBracket ts)) :
    readItems codeBracket ts = readItems posixBracket ts := by
  induction ts with
  | nil => rw [readItems, readItems]
  | cons t ts ih =>
    have hts : closing ∉ ts := fun hmem => hopen (mem_cons_of_mem _ hmem)
    by_cases ht : t = ('[', false)
    · subst ht
      have hinner : closing ∉ (splitNegation ts).2 := fun hmem =>
        hts ((splitNegation_suffix ts).subset hmem)
      rw [readItems_bracket, codeBracket_open rfl hinner] at h
      obtain ⟨_, _, hfalse⟩ := h _ mem_cons_self
      exact hfalse.elim
    · obtain ⟨item, hitem⟩ := readItems_char ht
      rw [hitem] at h ⊢
      rw [hitem, ih hts (Inhabited.tail h)]

/-- How the sets of two readings compare. Where a `[!]` is not closed for the shell they end alike,
    behind a set of all bytes and a `]`; else the shell has no more sets than the matcher, and the
    same only if both read alike. -/
def Compares (ts : List PatternToken) (code posix : List (Char → Prop)) : Prop :=
  (∃ front front' behind, ∃ S : Char → Prop, (∀ c, S c) ∧ code = front ++ S :: behind ∧
    posix = front' ++ (· = ']') :: behind) ∨
  (posix.length ≤ code.length ∧ (List.Forall₂ (Agree TextByte) code posix → ReadAlike ts))

theorem Compares.append {code posix : List (Char → Prop)} (front front' : List (Char → Prop))
    (hlength : front'.length ≤ front.length) (h : Compares ts code posix)
    (halike : List.Forall₂ (Agree TextByte) (front ++ code) (front' ++ posix) →
      (List.Forall₂ (Agree TextByte) code posix → ReadAlike ts) →
      posix.length ≤ code.length → ReadAlike us) :
    Compares us (front ++ code) (front' ++ posix) := by
  rcases h with ⟨xs, ys, behind, S, hS, rfl, rfl⟩ | ⟨hle, himp⟩
  · exact .inl ⟨front ++ xs, front' ++ ys, behind, S, hS, by simp, by simp⟩
  · refine .inr ⟨?_, fun hall => halike hall himp hle⟩
    rw [length_append, length_append]
    omega

theorem readings_compare (ts : List PatternToken)
    (h : Inhabited TextByte (readItems codeBracket ts)) :
    Compares ts (sets (readItems codeBracket ts)) (sets (readItems posixBracket ts)) := by
  induction hn : ts.length using Nat.strong_induction_on generalizing ts with
  | _ n ih =>
  subst hn
  cases ts with
  | nil => rw [readItems, readItems]; exact .inr ⟨le_refl _, fun _ => .nil⟩
  | cons t ts =>
    by_cases ht : t = ('[', false)
    · subst ht
      obtain ⟨negate, inner, hsplit⟩ : ∃ negate inner, splitNegation ts = (negate, inner) :=
        ⟨_, _, rfl⟩
      have hle : inner.length ≤ ts.length := by
        have hneg := splitNegation_length ts
        rwa [hsplit] at hneg
      -- the matcher finds the end of the expression
      have hmem : closing ∈ inner := by
        by_contra hopen
        rw [readItems_bracket, codeBracket_open hsplit hopen] at h
        obtain ⟨_, _, hfalse⟩ := h _ mem_cons_self
        exact hfalse.elim
      obtain ⟨body, rest, rfl, hclosed⟩ := eq_append_cons_of_mem hmem
      rw [length_append, length_cons] at hle
      have hcode : readItems codeBracket (('[', false) :: ts) =
          .set (fun c => classHolds signedChar negate (classRanges body) c = true) ::
            readItems codeBracket rest := by
        rw [readItems_bracket, codeBracket_closed hsplit hclosed]
      rw [hcode] at h ⊢
      cases body with
      | cons t body =>
        have hbody : closing ∉ body := fun hm => hclosed (mem_cons_of_mem _ hm)
        rw [readItems_bracket, posixBracket_closed hsplit hbody]
        refine (ih rest.length (by simp only [length_cons]; omega) rest (Inhabited.tail h) rfl).append
          [_] [_] (le_refl _) fun hall himp _ => ?_
        obtain ⟨hagree, hrest⟩ := List.forall₂_cons.mp hall
        exact .bracket hsplit hclosed (cons_ne_nil _ _) hagree (himp hrest)
      | nil =>
        by_cases hend : closing ∈ rest
        · -- the shell goes on to the next bracket, the matcher to this one
          obtain ⟨body, rest', rfl, hbody⟩ := eq_append_cons_of_mem hend
          rw [readItems_bracket, posixBracket_closed hsplit hbody]
          obtain ⟨K, hK, hsets⟩ := readItems_closing body rest' hbody
          have hpos := length_pos_of_ne_nil hK
          have hrest : Inhabited TextByte (readItems codeBracket rest') := fun S hS =>
            Inhabited.tail h S (by rw [hsets]; exact mem_append_right _ hS)
          rw [length_append, length_cons] at hle
          show Compares _ (_ :: sets _) (_ :: sets _)
          rw [hsets]
          refine (ih rest'.length (by simp only [length_cons]; omega) rest' hrest rfl).append
            (_ :: K) [_] (by simp) fun hall _ hle' => ?_
          -- one set too many
          change (sets (readItems posixBracket rest')).length ≤ _ at hle'
          have heq := hall.length_eq
          simp only [length_append, length_cons, length_nil] at heq
          omega
        · -- for the shell nothing is closed
          left
          have hsame := readItems_open hend (Inhabited.tail h)
          have hnegate : ∃ sign, ts = sign :: closing :: rest ∧
              (sign = ('!', false) ∨ sign = ('^', false)) ∧ negate = true := by
            obtain ⟨c, -, hc⟩ := h _ mem_cons_self
            have htrue : negate = true := by simpa [classHolds, classRanges] using hc
            subst htrue
            cases ts with
            | nil => cases hsplit
            | cons sign ts =>
              rw [splitNegation] at hsplit
              split_ifs at hsplit with hsign
              · cases hsplit; exact ⟨sign, rfl, hsign, rfl⟩
              · cases hsplit
          obtain ⟨sign, rfl, hsign, rfl⟩ := hnegate
          have hplain : sign ≠ ('*', false) ∧ sign ≠ ('?', false) ∧ sign ≠ ('[', false) := by
            rcases hsign with rfl | rfl <;> decide
          rw [readItems_bracket, posixBracket_open hsplit hend, readItems_literal _ _ hplain,
            readItems_literal _ _ (by decide), hsame]
          refine ⟨[], [(· = '['), (· = sign.1)], sets (readItems posixBracket rest),
            _, fun c => ?_, rfl, rfl⟩
          rfl
    · obtain ⟨item, hitem⟩ := readItems_char ht
      rw [hitem] at h ⊢
      rw [hitem, sets_cons, sets_cons item (readItems posixBracket ts)]
      refine (ih ts.length (lt_succ_self _) ts (Inhabited.tail h) rfl).append _ _ (le_refl _)
        fun hall himp _ => ?_
      refine .char ht (himp ?_)
      have hdrop := List.forall₂_drop_append _ _ _ hall
      simpa using hdrop

end Sync

/-! ## 5. The patterns for which the matcher is right -/

/-- **Two readings have one language where they are alike, or both have a bracket without a
    byte.** -/
theorem sameLanguage_iff (ts : List PatternToken) :
    SameLanguage TextByte (readItems codeBracket ts) (readItems posixBracket ts) ↔
      ReadAlike ts ∨ (MatchesNothing codeBracket ts ∧ MatchesNothing posixBracket ts) := by
  constructor
  · intro hsame
    by_cases hcode : Inhabited TextByte (readItems codeBracket ts)
    · have hagree := agree_of_language hsame hcode (hsame.inhabited hcode)
      rcases readings_compare _ hcode with
        ⟨front, front', behind, S, hS, hcodeSets, hposixSets⟩ | ⟨-, himp⟩
      · -- a set of all bytes against one byte
        rw [hcodeSets, hposixSets] at hagree
        have hlength := hagree.length_eq
        have hfront : front.length = front'.length := by
          simpa using hlength
        have hdrop := List.forall₂_drop_append _ _ _ hagree
        rw [← hfront, drop_left] at hdrop
        have hS' : S 'a' ↔ 'a' = ']' := (List.forall₂_cons.mp hdrop).1 'a' ⟨by decide, by decide⟩
        exact absurd (hS'.mp (hS 'a')) (by decide)
      · exact .inl (himp hagree)
    · refine .inr ⟨hcode, fun hposix => hcode ?_⟩
      exact SameLanguage.inhabited (fun s hs => (hsame s hs).symm) hposix
  · rintro (halike | ⟨hcode, hposix⟩)
    · exact matches_congr halike.alike
    · exact sameLanguage_of_not_inhabited hcode hposix

/-- **The matcher is right where it reads the pattern as the shell does, or both readings have a
    bracket without a byte.** -/
theorem casePatternLaw_iff (pattern : Text) :
    CasePatternLaw pattern ↔ ReadAlike (patternChars pattern) ∨
      (MatchesNothing codeBracket (patternChars pattern) ∧
        MatchesNothing posixBracket (patternChars pattern)) := by
  have hlanguage : CasePatternLaw pattern ↔
      SameLanguage TextByte (readItems codeBracket (patternChars pattern))
        (readItems posixBracket (patternChars pattern)) := by
    refine forall_congr' fun text => imp_congr_right fun _ => ?_
    rw [shellPatternMatches_iff]
  rw [hlanguage]
  exact sameLanguage_iff _

/-- A `]` is not met by `[]a]`. -/
theorem not_casePatternLaw : ¬ ∀ pattern : Text, (∀ c ∈ pattern, TextByte c) →
    CasePatternLaw pattern := by
  intro h
  have htokens : patternChars "[]a]".toList =
      ('[', false) :: [closing, ('a', false)] ++ closing :: [] := by decide
  have hlaw := (h "[]a]".toList (all_iff_forall_prop.mp (by decide)) "]".toList
    (all_iff_forall_prop.mp (by decide))).mpr
  have hposix : posixBracket.read ([closing, ('a', false)] ++ closing :: []) =
      (fun c => classHolds byteValue false (classRanges [closing, ('a', false)]) c = true, []) :=
    posixBracket_closed rfl (by decide)
  have hcode : codeBracket.read ([] ++ closing :: [('a', false), closing]) =
      (fun c => classHolds signedChar false (classRanges []) c = true, [('a', false), closing]) :=
    codeBracket_closed rfl (by decide)
  change codeBracket.read ([closing, ('a', false)] ++ closing :: []) = _ at hcode
  rw [shellPatternMatches_iff, htokens, cons_append, readItems_bracket, readItems_bracket,
    hposix, hcode] at hlaw
  obtain ⟨c, rest, -, hc, -⟩ := hlaw ⟨']', [], rfl, by decide, by rw [readItems]; rfl⟩
  cases hc

end Arksh
