/-
  Subject: The two glob matchers of `src/expand.c`, and the trims `${v%p}`, `${v%%p}`, `${v#p}`
           and `${v##p}` that use one of them.

  `glob_match_full` tries the ends of the text from the longest on, `glob_match_prefix` gives a
  star as much as it can. Both are about one language, that of the items of a pattern.
-/
import Arksh.Expand.Parameter
import Arksh.Lib.Glob

namespace Arksh

open CText Glob List Nat

/-! ## 1. The items of a pattern -/

/-- `*`, `?`, and characters, with or without a backslash. -/
def globItems : Text → List (Item Char)
  | [] => []
  | '*' :: pat => .star :: globItems pat
  | '?' :: pat => .one :: globItems pat
  | '\\' :: c :: pat => .letter c :: globItems pat
  | c :: pat => .letter c :: globItems pat

abbrev GlobMatches (pat str : Text) : Prop := Matches (globItems pat) str

variable {pat str : Text}

theorem globItems_eq_nil : globItems pat = [] ↔ pat = [] := by
  unfold globItems
  split
  · exact iff_of_true rfl rfl
  all_goals exact iff_of_false (cons_ne_nil _ _) (cons_ne_nil _ _)

theorem globMatchFull_iff (pat str : Text) : globMatchFull pat str = true ↔ GlobMatches pat str := by
  unfold GlobMatches
  fun_induction globItems pat generalizing str with
  | case1 => rw [matches_nil_iff]; exact isEmpty_iff
  | case2 pat ih =>
    rw [matches_star_iff, globMatchFull, any_eq_true]
    simp only [ih, mem_tails]
    constructor
    · intro ⟨rest, hsuffix, h⟩
      refine ⟨str.length - rest.length, sub_le _ _, ?_⟩
      rw [← suffix_iff_eq_drop.mp hsuffix]
      exact h
    · intro ⟨k, _, h⟩; exact ⟨str.drop k, drop_suffix k str, h⟩
  | case3 pat ih =>
    cases str with
    | nil => exact iff_of_false Bool.false_ne_true not_matches_one_nil
    | cons c str => exact (ih str).trans matches_one_cons.symm
  | case4 c pat ih =>
    cases str with
    | nil => exact iff_of_false Bool.false_ne_true not_matches_letter_nil
    | cons d str => rw [matches_letter_cons, ← ih, globMatchFull, Bool.and_eq_true, decide_eq_true_eq]
  | case5 c pat hstar hone hescape ih =>
    cases str with
    | nil =>
      rw [globMatchFull.eq_7 c pat hstar hone hescape]
      exact iff_of_false Bool.false_ne_true not_matches_letter_nil
    | cons d str =>
      rw [matches_letter_cons, ← ih, globMatchFull.eq_8 c pat d str hstar hone hescape,
        Bool.and_eq_true, decide_eq_true_eq]

/-! ## 2. The longest prefix -/

variable {n k : Nat}

theorem downFrom_some {β : Type} {f : Nat → Option β} {b : β} (h : downFrom f n = some b) :
    ∃ k ≤ n, f k = some b ∧ ∀ k' ≤ n, k < k' → f k' = none := by
  induction n with
  | zero => exact ⟨0, le_refl 0, h, fun k' hk' hlt => absurd hlt (not_lt.mpr hk')⟩
  | succ n ih =>
    rw [downFrom, Option.or_eq_some_iff] at h
    rcases h with h | ⟨hnone, h⟩
    · exact ⟨n + 1, le_refl _, h, fun k' hk' hlt => absurd hlt (not_lt.mpr hk')⟩
    · obtain ⟨k, hk, hfound, hlast⟩ := ih h
      refine ⟨k, le_succ_of_le hk, hfound, fun k' hk' hlt => ?_⟩
      rcases le_succ_iff.mp hk' with hle | rfl
      · exact hlast k' hle hlt
      · exact hnone

theorem downFrom_none {β : Type} {f : Nat → Option β} (h : downFrom f n = none) :
    ∀ k ≤ n, f k = none := by
  induction n with
  | zero =>
    intro k hk
    rw [le_zero.mp hk]
    exact h
  | succ n ih =>
    rw [downFrom, Option.or_eq_none_iff] at h
    intro k hk
    rcases le_succ_iff.mp hk with hle | rfl
    · exact ih h.2 k hle
    · exact h.1

/-- What `glob_match_prefix` says about a pattern. -/
def PrefixFound (items : List (Item Char)) (str : Text) : Option Nat → Prop
  | some n => IsLongest items str n
  | none => TakesNone items str

variable {items : List (Item Char)}

theorem PrefixFound.one {found : Option Nat} (c : Char) (h : PrefixFound items str found) :
    PrefixFound (.one :: items) (c :: str) (found.map (1 + ·)) := by
  cases found with
  | some n =>
    show IsLongest _ _ (1 + n)
    rw [add_comm]
    exact isLongest_one h c
  | none => exact takesNone_one h c

theorem PrefixFound.letter {found : Option Nat} (c d : Char) (h : PrefixFound items str found) :
    PrefixFound (.letter c :: items) (d :: str)
      (if c = d then found.map (1 + ·) else none) := by
  split
  next heq =>
    subst heq
    cases found with
    | some n =>
      show IsLongest _ _ (1 + n)
      rw [add_comm]
      exact isLongest_letter h c
    | none => exact takesNone_letter fun _ => h
  next hne => exact takesNone_letter fun heq => absurd heq hne

theorem globMatchPrefix_longest (pat str : Text) :
    PrefixFound (globItems pat) str (globMatchPrefix pat str) := by
  fun_induction globItems pat generalizing str with
  | case1 => exact isLongest_nil str
  | case2 pat ih =>
    rw [globMatchPrefix]
    cases hfound : downFrom (fun k => (globMatchPrefix pat (str.drop k)).map (k + ·))
        str.length with
    | some n =>
      -- the last place where the rest of the pattern matches
      obtain ⟨k, hk, hplace, hlast⟩ := downFrom_some hfound
      obtain ⟨m, hm, rfl⟩ := Option.map_eq_some_iff.mp hplace
      have hlongest := ih (str.drop k)
      rw [hm] at hlongest
      refine isLongest_star hk hlongest fun k' hk' hlt => ?_
      have hnone := ih (str.drop k')
      rw [Option.map_eq_none_iff.mp (hlast k' hk' hlt)] at hnone
      exact hnone
    | none =>
      refine takesNone_star fun k hk => ?_
      have hnone := ih (str.drop k)
      rw [Option.map_eq_none_iff.mp (downFrom_none hfound k hk)] at hnone
      exact hnone
  | case3 pat ih =>
    cases str with
    | nil => exact fun _ => not_takes_one_nil
    | cons c str => exact (ih str).one c
  | case4 c pat ih =>
    cases str with
    | nil => exact fun _ => not_takes_letter_nil
    | cons d str => exact (ih str).letter c d
  | case5 c pat hstar hone hescape ih =>
    cases str with
    | nil => rw [globMatchPrefix.eq_7 c pat hstar hone hescape]; exact fun _ => not_takes_letter_nil
    | cons d str =>
      rw [globMatchPrefix.eq_8 c pat d str hstar hone hescape]
      exact (ih str).letter c d

theorem takes_iff :
    Takes (globItems pat) str n ↔ n ≤ str.length ∧ globMatchFull pat (str.take n) = true := by
  rw [globMatchFull_iff]
  rfl

theorem globMatchPrefix_eq_some :
    globMatchPrefix pat str = some n ↔ IsLongest (globItems pat) str n := by
  have hfound := globMatchPrefix_longest pat str
  constructor
  · intro h
    rw [h] at hfound
    exact hfound
  · intro h
    cases hresult : globMatchPrefix pat str with
    | some m => rw [hresult] at hfound; rw [hfound.unique h]
    | none => rw [hresult] at hfound; exact absurd hfound h.not_none

theorem globMatchPrefix_eq_none :
    globMatchPrefix pat str = none ↔ TakesNone (globItems pat) str := by
  have hfound := globMatchPrefix_longest pat str
  constructor
  · intro h
    rw [h] at hfound
    exact hfound
  · intro h
    cases hresult : globMatchPrefix pat str with
    | some m => rw [hresult] at hfound; exact absurd h hfound.not_none
    | none => rfl

/-- **The matchers agree**: the one finds the greatest length of which the other accepts the prefix,
    and the other decides the language. -/
theorem globMatchers_agree (pat str : Text) :
    (∀ n, globMatchPrefix pat str = some n ↔
      IsGreatest {m | m ≤ str.length ∧ globMatchFull pat (str.take m) = true} n) ∧
    (globMatchPrefix pat str = none ↔
      ∀ n ≤ str.length, globMatchFull pat (str.take n) = false) ∧
    (globMatchFull pat str = true ↔ GlobMatches pat str) := by
  refine ⟨fun n => ?_, ?_, globMatchFull_iff pat str⟩
  · rw [globMatchPrefix_eq_some]
    unfold IsLongest
    simp only [takes_iff]
  · rw [globMatchPrefix_eq_none]
    unfold TakesNone
    simp only [takes_iff, not_and, Bool.not_eq_true]

/-- Two stars, in front of a text where the first place for `b` is not the last one. -/
example : globMatchPrefix "*a*b?".toList "abcabd".toList = some 6 := by decide

/-! ## 3. The trims -/

/-- What is left of a value without the shortest affix in a language, or the longest one (those with
    `cut affix rest`); all of it where there is none. -/
def TrimsAffix (cut : Text → Text → Prop) (language : Text → Prop) (longest : Bool)
    (val out : Text) : Prop :=
  (∃ affix, cut affix out ∧ language affix ∧ ∀ affix' rest', cut affix' rest' → language affix' →
    if longest then affix'.length ≤ affix.length else affix.length ≤ affix'.length) ∨
  (∀ affix rest, cut affix rest → ¬ language affix) ∧ out = val

variable {p : Nat → Bool}

theorem find?_range_least (h : (List.range n).find? p = some k) :
    k < n ∧ p k = true ∧ ∀ j < n, p j = true → k ≤ j := by
  obtain ⟨hk, hmem, hfirst⟩ := find?_range_eq_some.mp h
  refine ⟨mem_range.mp hmem, hk, fun j _ hj => ?_⟩
  by_contra hlt
  have hnot := hfirst j (Nat.lt_of_not_le hlt)
  rw [hj] at hnot
  cases hnot

theorem find?_range_greatest (h : (List.range n).reverse.find? p = some k) :
    k < n ∧ p k = true ∧ ∀ j < n, p j = true → j ≤ k := by
  induction n with
  | zero => cases h
  | succ n ih =>
    rw [range_succ, reverse_append, reverse_singleton, singleton_append, find?_cons] at h
    cases hn : p n with
    | true =>
      rw [hn] at h
      cases h
      exact ⟨lt_succ_self _, hn, fun j hj _ => le_of_lt_succ hj⟩
    | false =>
      rw [hn] at h
      obtain ⟨hlt, hk, hlast⟩ := ih h
      refine ⟨Nat.lt_succ_of_lt hlt, hk, fun j hj hp => ?_⟩
      rcases Nat.lt_succ_iff_lt_or_eq.mp hj with hlt | rfl
      · exact hlast j hlt hp
      · rw [hn] at hp; cases hp

theorem find?_cuts_none {upward : Bool}
    (h : (if upward then List.range n else (List.range n).reverse).find? p = none) :
    ∀ j < n, ¬ p j = true := by
  intro j hj
  have hmem : j ∈ if upward then List.range n else (List.range n).reverse := by
    split
    · exact mem_range.mpr hj
    · exact mem_reverse.mpr (mem_range.mpr hj)
  exact find?_eq_none.mp h j hmem

variable {val pat : Text}

theorem applySuffixTrim_exact (hval : val.length < arkshMaxOutput) (longest : Bool) :
    TrimsAffix (fun affix rest => rest ++ affix = val) (GlobMatches pat) longest val
      (applySuffixTrim val pat longest) := by
  -- a suffix is where it begins
  have hplace : ∀ {affix rest : Text}, rest ++ affix = val → GlobMatches pat affix →
      rest.length < val.length + 1 ∧ globMatchFull pat (val.drop rest.length) = true ∧
        affix.length = val.length - rest.length := by
    rintro affix rest rfl h
    rw [drop_left, length_append]
    exact ⟨by omega, (globMatchFull_iff pat affix).mpr h, by omega⟩
  unfold applySuffixTrim
  dsimp only
  split
  next k hfind =>
    left
    have hk : k < val.length + 1 ∧ globMatchFull pat (val.drop k) = true ∧
        ∀ j < val.length + 1, globMatchFull pat (val.drop j) = true →
          if longest then k ≤ j else j ≤ k := by
      cases longest with
      | true => exact find?_range_least hfind
      | false => exact find?_range_greatest hfind
    obtain ⟨hlt, hmatch, hextreme⟩ := hk
    rw [copyString_of_lt ((length_take_le' _ _).trans_lt hval)]
    refine ⟨val.drop k, take_append_drop k val, (globMatchFull_iff _ _).mp hmatch, ?_⟩
    intro affix' rest' hcut hlang
    obtain ⟨hlt', hmatch', hlen⟩ := hplace hcut hlang
    have hcompare := hextreme _ hlt' hmatch'
    rw [length_drop, hlen]
    cases longest with
    | true | false => exact Nat.sub_le_sub_left hcompare _
  next hnone =>
    right
    refine ⟨fun affix rest hcut hlang => ?_, copyString_of_lt hval⟩
    obtain ⟨hlt, hmatch, -⟩ := hplace hcut hlang
    exact find?_cuts_none hnone _ hlt hmatch

theorem applyPrefixTrim_exact (hval : val.length < arkshMaxOutput) (longest : Bool) :
    TrimsAffix (fun affix rest => affix ++ rest = val) (GlobMatches pat) longest val
      (applyPrefixTrim val pat longest) := by
  have hcopy : ∀ k, copyString arkshMaxOutput (val.take k) = val.take k := fun k =>
    copyString_of_lt ((length_take_le' _ _).trans_lt hval)
  -- a prefix is where it ends
  have hplace : ∀ {affix rest : Text}, affix ++ rest = val → GlobMatches pat affix →
      affix.length < val.length + 1 ∧ globMatchFull pat (val.take affix.length) = true := by
    rintro affix rest rfl h
    rw [take_left, length_append]
    exact ⟨by omega, (globMatchFull_iff pat affix).mpr h⟩
  unfold applyPrefixTrim
  simp only [hcopy]
  split
  next k hfind =>
    left
    have hk : k < val.length + 1 ∧ globMatchFull pat (val.take k) = true ∧
        ∀ j < val.length + 1, globMatchFull pat (val.take j) = true →
          if longest then j ≤ k else k ≤ j := by
      cases longest with
      | true => exact find?_range_greatest hfind
      | false => exact find?_range_least hfind
    obtain ⟨hlt, hmatch, hextreme⟩ := hk
    rw [copyString_of_lt ((drop_suffix k val).length_le.trans_lt hval)]
    refine ⟨val.take k, take_append_drop k val, (globMatchFull_iff _ _).mp hmatch, ?_⟩
    intro affix' rest' hcut hlang
    obtain ⟨hlt', hmatch'⟩ := hplace hcut hlang
    rw [length_take, min_eq_left (le_of_lt_succ hlt)]
    exact hextreme _ hlt' hmatch'
  next hnone =>
    right
    refine ⟨fun affix rest hcut hlang => ?_, copyString_of_lt hval⟩
    obtain ⟨hlt, hmatch⟩ := hplace hcut hlang
    have hall : ∀ j < val.length + 1, ¬ globMatchFull pat (val.take j) = true := by
      cases longest with
      | true => exact @find?_cuts_none _ _ false hnone
      | false => exact @find?_cuts_none _ _ true hnone
    exact hall _ hlt hmatch

/-- **Every trim takes away the affix that it is for**: `${v%p}` the shortest suffix that `p`
    matches, `${v%%p}` the longest, `${v#p}` and `${v##p}` the prefixes. -/
theorem trims_exact (hval : val.length < arkshMaxOutput) (pat : Text) (longest : Bool) :
    TrimsAffix (fun affix rest => rest ++ affix = val) (GlobMatches pat) longest val
      (applySuffixTrim val pat longest) ∧
    TrimsAffix (fun affix rest => affix ++ rest = val) (GlobMatches pat) longest val
      (applyPrefixTrim val pat longest) :=
  ⟨applySuffixTrim_exact hval longest, applyPrefixTrim_exact hval longest⟩

theorem trims_exact_path :
    TrimsAffix (fun affix rest => rest ++ affix = "a/b/c".toList) (GlobMatches "/*".toList) false
      "a/b/c".toList "a/b".toList ∧
    TrimsAffix (fun affix rest => affix ++ rest = "a/b/c".toList) (GlobMatches "/*".toList) false
      "a/b/c".toList "a/b/c".toList :=
  trims_exact (by decide) "/*".toList false

end Arksh
