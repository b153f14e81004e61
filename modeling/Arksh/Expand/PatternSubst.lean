/-
  Subject: The loop of `apply_pattern_subst` of `src/expand.c`: `${var/pat/repl}` and
           `${var//pat/repl}`.

  A turn moves the index by the length of a match, or by one. A match of the empty prefix is
  possible for the empty pattern only; and at the end of the value it is the one turn that does
  not move the index.
-/
import Arksh.Expand.Glob

namespace Arksh

open CText Glob List Option Nat

/-! ## 1. The loop -/

/-- `out` with characters behind it, as many as fit. -/
def fillBuffer (size : Nat) (out add : Text) : Text := out ++ add.take (size - 1 - out.length)

/-- `i`, and `out` up to `out_pos`. -/
structure SubstState where
  i : Nat
  out : Text

inductive SubstTurn where
  | next (s : SubstState)
  | finish (out : Text)

section Loop

variable (val pat repl : Text) (global : Bool) (outSize : Nat)

/-- A turn of the `while` loop of `apply_pattern_subst`, with its condition. -/
def substTurn (s : SubstState) : SubstTurn :=
  if val.length < s.i then .finish s.out
  else
    match (if s.i < val.length ∨ pat = [] then globMatchPrefix pat (val.drop s.i) else none) with
    | some matchLen =>
      let out := fillBuffer outSize s.out repl
      let (i, out) :=
        if matchLen = 0 ∧ s.i < val.length then
          (s.i + 1, fillBuffer outSize out ((val.drop s.i).take 1))
        else (s.i + matchLen, out)
      if global then .next ⟨i, out⟩ else .finish (fillBuffer outSize out (val.drop i))
    | none => .next ⟨s.i + 1, fillBuffer outSize s.out ((val.drop s.i).take 1)⟩

def substRun : Nat → SubstState → Option Text
  | 0, _ => none
  | turns + 1, s =>
    match substTurn val pat repl global outSize s with
    | .next s => substRun turns s
    | .finish out => some out

def SubstLeads (s : SubstState) (text : Text) : Prop :=
  ∃ turns, substRun val pat repl global outSize turns s = some text

end Loop

variable {val pat repl out text : Text} {global : Bool} {outSize n : Nat} {s s' : SubstState}

theorem substRun_next (h : substTurn val pat repl global outSize s = .next s') (turns : Nat) :
    substRun val pat repl global outSize (turns + 1) s =
      substRun val pat repl global outSize turns s' := by
  rw [substRun, h]

theorem substLeads_finish (h : substTurn val pat repl global outSize s = .finish out) :
    SubstLeads val pat repl global outSize s text ↔ out = text := by
  constructor
  · intro ⟨turns, hturns⟩
    cases turns with
    | zero => cases hturns
    | succ turns => rw [substRun, h] at hturns; exact Option.some.inj hturns
  · rintro rfl; exact ⟨1, by rw [substRun, h]⟩

theorem substLeads_next (h : substTurn val pat repl global outSize s = .next s') :
    SubstLeads val pat repl global outSize s text ↔
      SubstLeads val pat repl global outSize s' text := by
  constructor
  · intro ⟨turns, hturns⟩
    cases turns with
    | zero => cases hturns
    | succ turns => rw [substRun_next h] at hturns; exact ⟨turns, hturns⟩
  · intro ⟨turns, hturns⟩; exact ⟨turns + 1, (substRun_next h turns).trans hturns⟩

theorem substTurn_end (h : val.length < s.i) :
    substTurn val pat repl global outSize s = .finish s.out := if_pos h

variable {str : Text}

theorem matchLen_pos (hpat : pat ≠ []) (hstr : str ≠ []) (h : globMatchPrefix pat str = some n) :
    0 < n :=
  (globMatchPrefix_eq_some.mp h).pos (fun hnil => hpat (globItems_eq_nil.mp hnil)) hstr

theorem drop_ne_nil {i : Nat} (h : i < val.length) : val.drop i ≠ [] := by
  rw [Ne, drop_eq_nil_iff]
  exact not_le.mpr h

theorem substTurn_cases (hpat : pat ≠ []) (hi : s.i ≤ val.length) :
    (∃ n, s.i < val.length ∧ globMatchPrefix pat (val.drop s.i) = some n ∧ 0 < n ∧
      substTurn val pat repl global outSize s =
        if global then .next ⟨s.i + n, fillBuffer outSize s.out repl⟩
        else .finish (fillBuffer outSize (fillBuffer outSize s.out repl) (val.drop (s.i + n)))) ∨
    ((s.i < val.length → globMatchPrefix pat (val.drop s.i) = none) ∧
      substTurn val pat repl global outSize s =
        .next ⟨s.i + 1, fillBuffer outSize s.out ((val.drop s.i).take 1)⟩) := by
  unfold substTurn
  rw [if_neg (not_lt.mpr hi)]
  by_cases hlt : s.i < val.length
  · rw [if_pos (Or.inl hlt)]
    cases hmatch : globMatchPrefix pat (val.drop s.i) with
    | some n =>
      have hpos := matchLen_pos hpat (drop_ne_nil hlt) hmatch
      left
      refine ⟨n, hlt, rfl, hpos, ?_⟩
      have hzero : ¬ (n = 0 ∧ s.i < val.length) := fun h => ne_of_gt hpos h.1
      dsimp only
      rw [if_neg hzero]
    | none => right; exact ⟨fun _ => rfl, rfl⟩
  · rw [if_neg fun h => h.elim hlt hpat]
    right
    exact ⟨fun h => absurd h hlt, rfl⟩

/-! ## 2. When the loop ends -/

theorem substLeads_of_ne_nil (hpat : pat ≠ []) :
    ∀ s : SubstState, ∃ text, SubstLeads val pat repl global outSize s text := by
  intro s
  induction hk : val.length + 1 - s.i using Nat.strong_induction_on generalizing s with
  | _ k ih =>
    rcases lt_or_ge val.length s.i with hend | hi
    · exact ⟨s.out, (substLeads_finish (substTurn_end hend)).mpr rfl⟩
    · rcases @substTurn_cases val pat repl global outSize s hpat hi with
        ⟨n, -, -, hpos, hturn⟩ | ⟨-, hturn⟩
      · cases global with
        | true =>
          obtain ⟨text, htext⟩ := ih (val.length + 1 - (s.i + n)) (by omega)
            ⟨s.i + n, fillBuffer outSize s.out repl⟩ rfl
          exact ⟨text, (substLeads_next hturn).mpr htext⟩
        | false => exact ⟨_, (substLeads_finish hturn).mpr rfl⟩
      · obtain ⟨text, htext⟩ := ih (val.length + 1 - (s.i + 1)) (by omega)
          ⟨s.i + 1, fillBuffer outSize s.out ((val.drop s.i).take 1)⟩ rfl
        exact ⟨text, (substLeads_next hturn).mpr htext⟩

theorem substTurn_stuck (hi : s.i ≤ val.length) :
    ∃ s', substTurn val [] repl true outSize s = .next s' ∧ s'.i ≤ val.length := by
  unfold substTurn
  rw [if_neg (not_lt.mpr hi), if_pos (Or.inr rfl), globMatchPrefix]
  dsimp only
  by_cases hzero : 0 = 0 ∧ s.i < val.length
  · rw [if_pos hzero]; exact ⟨_, rfl, hzero.2⟩
  · rw [if_neg hzero]; exact ⟨_, rfl, hi⟩

theorem substRun_stuck (turns : Nat) :
    ∀ s : SubstState, s.i ≤ val.length → substRun val [] repl true outSize turns s = none := by
  induction turns with
  | zero => intro s _; rfl
  | succ turns ih =>
    intro s hi
    obtain ⟨s', hturn, hi'⟩ := @substTurn_stuck val repl outSize s hi
    rw [substRun_next hturn]
    exact ih s' hi'

/-- **The loop ends, unless the pattern is empty and all matches are to be replaced.** -/
theorem substLeads_ends_iff (val pat repl : Text) (global : Bool) (outSize : Nat) :
    (∃ text, SubstLeads val pat repl global outSize ⟨0, []⟩ text) ↔
      ¬ (global = true ∧ pat = []) := by
  constructor
  · rintro ⟨text, turns, hturns⟩ ⟨rfl, rfl⟩
    rw [substRun_stuck turns ⟨0, []⟩ (Nat.zero_le _)] at hturns
    cases hturns
  · intro h
    by_cases hpat : pat = []
    · subst hpat
      obtain rfl : global = false := by simpa using h
      -- the first turn replaces the empty prefix and leaves the loop
      have hturn : ∃ out, substTurn val [] repl false outSize ⟨0, []⟩ = .finish out := by
        unfold substTurn
        rw [if_neg (not_lt.mpr (Nat.zero_le _)), if_pos (Or.inr rfl), globMatchPrefix]
        exact ⟨_, rfl⟩
      obtain ⟨out, hturn⟩ := hturn
      exact ⟨out, (substLeads_finish hturn).mpr rfl⟩
    · exact substLeads_of_ne_nil hpat _

/-- `${v//}`, of a value with one character. -/
theorem not_substLeads_ends :
    ¬ ∃ text, SubstLeads ['a'] [] [] true arkshMaxOutput ⟨0, []⟩ text := by
  intro ⟨text, turns, hturns⟩
  rw [substRun_stuck turns ⟨0, []⟩ (Nat.zero_le _)] at hturns
  cases hturns

/-! ## 3. What the loop writes -/

variable {size : Nat}

theorem fillBuffer_of_lt {add : Text} (h : (out ++ add).length < size) :
    fillBuffer size out add = out ++ add := by
  rw [length_append] at h
  rw [fillBuffer, take_of_length_le (by omega)]

theorem longestNonempty_iff (hpat : pat ≠ []) (hstr : str ≠ []) :
    LongestNonempty (GlobMatches pat) str n ↔ globMatchPrefix pat str = some n := by
  rw [globMatchPrefix_eq_some]
  constructor
  · intro h
    refine ⟨⟨h.pos.2, h.1.2.2⟩, fun m hm => ?_⟩
    rcases Nat.eq_zero_or_pos m with rfl | hpos
    · exact Nat.zero_le n
    · exact h.2 ⟨hpos, hm.1, hm.2⟩
  · intro h
    have hpos := h.pos (fun hnil => hpat (globItems_eq_nil.mp hnil)) hstr
    exact ⟨⟨hpos, h.1.1, h.1.2⟩, fun m hm => h.2 ⟨hm.2.1, hm.2.2⟩⟩

theorem globMatchPrefix_none_of (hpat : pat ≠ []) (hstr : str ≠ [])
    (h : ∀ m, 0 < m → m ≤ str.length → ¬ GlobMatches pat (str.take m)) :
    globMatchPrefix pat str = none := by
  cases hmatch : globMatchPrefix pat str with
  | none => rfl
  | some n =>
    obtain ⟨⟨hpos, hle, hn⟩, -⟩ := (longestNonempty_iff hpat hstr).mpr hmatch
    exact absurd hn (h n hpos hle)

theorem substTurn_longest {i n : Nat} {out rest : Text} (hpat : pat ≠ [])
    (hrest : val.drop i = rest) (hn : LongestNonempty (GlobMatches pat) rest n) :
    i + n ≤ val.length ∧ substTurn val pat repl global outSize ⟨i, out⟩ =
      if global then .next ⟨i + n, fillBuffer outSize out repl⟩
      else .finish (fillBuffer outSize (fillBuffer outSize out repl) (rest.drop n)) := by
  obtain ⟨hpos, hshort⟩ := hn.pos
  rw [← hrest, length_drop] at hshort
  have hlt : i < val.length := by omega
  have hmatch : globMatchPrefix pat (val.drop i) = some n :=
    (longestNonempty_iff hpat (drop_ne_nil hlt)).mp (hrest ▸ hn)
  rcases @substTurn_cases val pat repl global outSize ⟨i, out⟩ hpat hlt.le with
    ⟨m, -, hsome, -, hturn⟩ | ⟨hnone, -⟩
  · dsimp only at hsome hturn
    rw [hmatch] at hsome
    cases hsome
    rw [← drop_drop, hrest] at hturn
    exact ⟨by omega, hturn⟩
  · dsimp only at hnone
    rw [hmatch] at hnone
    cases hnone hlt

theorem substTurn_none {i : Nat} {out rest : Text} (hpat : pat ≠ []) (hi : i ≤ val.length)
    (hrest : val.drop i = rest)
    (hnone : ∀ m, 0 < m → m ≤ rest.length → ¬ GlobMatches pat (rest.take m)) :
    substTurn val pat repl global outSize ⟨i, out⟩ =
      .next ⟨i + 1, fillBuffer outSize out (rest.take 1)⟩ := by
  rcases @substTurn_cases val pat repl global outSize ⟨i, out⟩ hpat hi with
    ⟨m, hlt, hsome, -⟩ | ⟨-, hturn⟩
  · dsimp only at hsome hlt
    have hstr := drop_ne_nil hlt
    rw [hrest] at hsome hstr
    rw [globMatchPrefix_none_of hpat hstr hnone] at hsome
    cases hsome
  · dsimp only at hturn
    rw [hrest] at hturn
    exact hturn

theorem substLeads_rest (hpat : pat ≠ []) {rest : Text}
    (h : Replaced (GlobMatches pat) repl global rest text) :
    ∀ (i : Nat) (out : Text), i ≤ val.length → val.drop i = rest → (out ++ text).length < outSize →
      SubstLeads val pat repl global outSize ⟨i, out⟩ (out ++ text) := by
  induction h with
  | nil all =>
    intro i out hi hrest hfits
    -- one turn behind the last character, and the end of the loop
    have hturn := @substTurn_none val pat repl all outSize i out [] hpat hi hrest
      fun m hpos hle => absurd hle (not_le.mpr hpos)
    rw [take_nil, fillBuffer_of_lt hfits] at hturn
    have hlen := drop_eq_nil_iff.mp hrest
    rw [substLeads_next hturn, substLeads_finish (substTurn_end (lt_succ_of_le hlen))]
  | @copy all c rest text hnone _ ih =>
    intro i out hi hrest hfits
    have hsplit : out ++ c :: text = (out ++ [c]) ++ text := by rw [append_assoc]; rfl
    rw [hsplit] at hfits ⊢
    have hroom : (out ++ [c]).length < outSize := by rw [length_append] at hfits; omega
    have hturn := @substTurn_none val pat repl all outSize i out (c :: rest) hpat hi hrest hnone
    rw [take_succ_cons, take_zero, fillBuffer_of_lt hroom] at hturn
    have hnext : val.drop (i + 1) = rest := by rw [← drop_drop, hrest]; rfl
    have hlt : i < val.length := by
      by_contra hge
      rw [drop_eq_nil_of_le (not_lt.mp hge)] at hrest
      cases hrest
    rw [substLeads_next hturn]
    exact ih (i + 1) (out ++ [c]) hlt hnext hfits
  | @again rest text n hn _ ih =>
    intro i out hi hrest hfits
    rw [← append_assoc] at hfits ⊢
    have hroom : (out ++ repl).length < outSize := by rw [length_append] at hfits; omega
    obtain ⟨hle, hturn⟩ := @substTurn_longest val pat repl true outSize i n out rest hpat hrest hn
    rw [if_pos rfl, fillBuffer_of_lt hroom] at hturn
    have hnext : val.drop (i + n) = rest.drop n := by rw [← drop_drop, hrest]
    rw [substLeads_next hturn]
    exact ih (i + n) (out ++ repl) hle hnext hfits
  | @once rest n hn =>
    intro i out hi hrest hfits
    rw [← append_assoc] at hfits ⊢
    have hroom : (out ++ repl).length < outSize := by rw [length_append] at hfits; omega
    obtain ⟨-, hturn⟩ := @substTurn_longest val pat repl false outSize i n out rest hpat hrest hn
    rw [if_neg Bool.false_ne_true, fillBuffer_of_lt hroom, fillBuffer_of_lt hfits] at hturn
    rw [substLeads_finish hturn]

/-- **The loop writes the value with the longest matches replaced from left to right**, all of them
    or the first one, where that fits. -/
theorem substLeads_replaced (val repl : Text) (global : Bool) (outSize : Nat) (hpat : pat ≠ []) :
    ∃ text, Replaced (GlobMatches pat) repl global val text ∧
      (∀ text', Replaced (GlobMatches pat) repl global val text' → text' = text) ∧
      (text.length < outSize → SubstLeads val pat repl global outSize ⟨0, []⟩ text) := by
  obtain ⟨text, htext⟩ := Replaced.exists (GlobMatches pat) repl global val
  refine ⟨text, htext, fun text' h' => h'.unique htext, fun hfits => ?_⟩
  exact substLeads_rest hpat htext 0 [] (Nat.zero_le _) rfl hfits

theorem substLeads_replaced_stars :
    ∃ text, Replaced (GlobMatches "b*d".toList) "-".toList true "abcdbd".toList text ∧
      (∀ text', Replaced (GlobMatches "b*d".toList) "-".toList true "abcdbd".toList text' →
        text' = text) ∧ (text.length < 8 →
        SubstLeads "abcdbd".toList "b*d".toList "-".toList true 8 ⟨0, []⟩ text) :=
  substLeads_replaced "abcdbd".toList "-".toList true 8 (by decide)

/-! ## 4. Over what is left of the value -/

theorem fillBuffer_eq (add : Text) (h : out.length ≤ size - 1) :
    fillBuffer size out add = copyString size (out ++ add) := by
  rw [fillBuffer, copyString, take_append, take_of_length_le h]

theorem fillBuffer_length (add : Text) (h : out.length ≤ size - 1) :
    (fillBuffer size out add).length ≤ size - 1 := by
  rw [fillBuffer_eq add h]
  exact length_take_le _ _

theorem patternSubstLoop_eq (fuel : Nat) :
    ∀ {i : Nat} {out text : Text}, i ≤ val.length → val.length - i < fuel →
      out.length ≤ arkshMaxOutput - 1 →
      (patternSubstLoop pat repl global fuel (val.drop i) out = some text ↔
        SubstLeads val pat repl global arkshMaxOutput ⟨i, out⟩ text) := by
  induction fuel with
  | zero => intro i out text _ hfuel; exact absurd hfuel (not_lt_zero _)
  | succ fuel ih =>
    intro i out text hi hfuel hout
    have hcut : ∀ text, (copyString arkshMaxOutput text).length ≤ arkshMaxOutput - 1 :=
      fun _ => length_take_le _ _
    have hrepl := fillBuffer_eq repl hout
    by_cases hlt : i < val.length
    · -- in front of a character
      obtain ⟨c, rest, hrest⟩ := exists_cons_of_ne_nil (drop_ne_nil hlt)
      have hdrop : ∀ n, val.drop (i + n) = (c :: rest).drop n := by intro n; rw [← drop_drop, hrest]
      rw [hrest, patternSubstLoop, if_pos (Or.inl (cons_ne_nil c rest))]
      have hturn : substTurn val pat repl global arkshMaxOutput ⟨i, out⟩ =
          match globMatchPrefix pat (c :: rest) with
          | some n =>
            let (i, out) :=
              if n = 0 ∧ i < val.length then
                (i + 1, fillBuffer arkshMaxOutput (fillBuffer arkshMaxOutput out repl) [c])
              else (i + n, fillBuffer arkshMaxOutput out repl)
            if global then .next ⟨i, out⟩
            else .finish (fillBuffer arkshMaxOutput out (val.drop i))
          | none => .next ⟨i + 1, fillBuffer arkshMaxOutput out [c]⟩ := by
        unfold substTurn
        rw [if_neg (not_lt.mpr hi), if_pos (Or.inl hlt), hrest]
        rfl
      cases hmatch : globMatchPrefix pat (c :: rest) with
      | none =>
        rw [hmatch] at hturn
        rw [substLeads_next hturn, fillBuffer_eq [c] hout, ← ih hlt (by omega) (hcut _), hdrop 1]
        rfl
      | some n =>
        rw [hmatch, hrepl] at hturn
        -- where the match, or the character behind an empty one, leads to
        have hafter : ∃ i' out',
            (if n = 0 ∧ i < val.length then
              (i + 1, fillBuffer arkshMaxOutput (copyString arkshMaxOutput (out ++ repl)) [c])
              else (i + n, copyString arkshMaxOutput (out ++ repl))) = (i', out') ∧
            (if n = 0 then
              (copyString arkshMaxOutput (copyString arkshMaxOutput (out ++ repl) ++ [c]), rest)
              else (copyString arkshMaxOutput (out ++ repl), (c :: rest).drop n)) =
                (out', val.drop i') ∧
            i < i' ∧ i' ≤ val.length ∧ out'.length ≤ arkshMaxOutput - 1 := by
          by_cases hzero : n = 0
          · refine ⟨i + 1, _, if_pos ⟨hzero, hlt⟩, ?_, lt_succ_self i, hlt, ?_⟩
            · rw [if_pos hzero, fillBuffer_eq [c] (hcut _), hdrop 1]; rfl
            · exact fillBuffer_length [c] (hcut _)
          · have hshort := (globMatchPrefix_eq_some.mp hmatch).1.1
            rw [← hrest, length_drop] at hshort
            refine ⟨i + n, _, if_neg fun h => hzero h.1, ?_, by omega, by omega, hcut _⟩
            rw [if_neg hzero, hdrop n]
        obtain ⟨i', out', hindex, hrest', hlt', hle', hout'⟩ := hafter
        dsimp only at hturn ⊢
        rw [hindex] at hturn
        rw [hrest', if_neg (cons_ne_nil c rest)]
        cases global with
        | true => rw [if_pos rfl, substLeads_next hturn, ← ih hle' (by omega) hout']
        | false =>
          rw [if_neg Bool.false_ne_true, substLeads_finish hturn, fillBuffer_eq _ hout']
          exact some_inj
    · -- at the end of the value, where only the empty pattern matches
      have hend : i = val.length := by omega
      have hrest : val.drop i = [] := drop_eq_nil_of_le (not_lt.mp hlt)
      rw [hrest, patternSubstLoop]
      by_cases hpat : pat = []
      · subst hpat
        cases global with
        | true =>
          refine iff_of_false (some_ne_none text).symm ?_
          rintro ⟨turns, hturns⟩
          rw [substRun_stuck turns ⟨i, out⟩ hi] at hturns
          cases hturns
        | false =>
          have hturn : substTurn val [] repl false arkshMaxOutput ⟨i, out⟩ =
              .finish (fillBuffer arkshMaxOutput (copyString arkshMaxOutput (out ++ repl)) []) := by
            unfold substTurn
            rw [if_neg (not_lt.mpr hi), if_pos (Or.inr rfl), globMatchPrefix]
            have hzero : ¬ (0 = 0 ∧ i < val.length) := fun h => hlt h.2
            dsimp only
            rw [if_neg hzero, if_neg Bool.false_ne_true]
            rw [add_zero, hrest, hrepl]
          rw [substLeads_finish hturn, fillBuffer_eq _ (hcut _)]
          exact some_inj
      · have hturn := @substTurn_none val pat repl global arkshMaxOutput i out [] hpat hi hrest
          fun m hpos hle => absurd hle (not_le.mpr hpos)
        have hroom : (out ++ []).length < arkshMaxOutput := by
          rw [append_nil]
          exact lt_of_le_of_lt hout (by decide)
        rw [take_nil, fillBuffer_of_lt hroom, append_nil] at hturn
        rw [if_neg fun h => h.elim (fun hne => hne rfl) hpat, substLeads_next hturn,
          substLeads_finish (substTurn_end (lt_succ_of_le hend.ge))]
        exact some_inj

theorem applyPatternSubst_eq_some {text : Text} :
    applyPatternSubst val pat repl global = some text ↔
      SubstLeads val pat repl global arkshMaxOutput ⟨0, []⟩ text :=
  patternSubstLoop_eq (val.length + 1) (Nat.zero_le _) (by omega) (Nat.zero_le _)

end Arksh
