/-
  Subject: Patterns with stars, over any alphabet.

  A pattern is a list of items: a star stands for any text, `one` for any letter, the others for
  themselves. A matcher may give the star as much as it can: where the pattern behind it matches
  further on, it also ends further on (`Takes.later`), so the last place where it matches gives
  the longest prefix of all.
-/
import Mathlib.Data.List.Basic
import Mathlib.Data.Nat.Find
import Mathlib.Order.Bounds.Basic

namespace Glob

open List Nat

inductive Item (α : Type) where
  | star
  | one
  | letter (a : α)
  deriving DecidableEq

variable {α : Type}

/-- The language of a pattern. -/
inductive Matches : List (Item α) → List α → Prop where
  | nil : Matches [] []
  | star {p : List (Item α)} (front : List α) {t : List α} :
      Matches p t → Matches (.star :: p) (front ++ t)
  | one {p : List (Item α)} (a : α) {t : List α} : Matches p t → Matches (.one :: p) (a :: t)
  | letter {p : List (Item α)} (a : α) {t : List α} :
      Matches p t → Matches (.letter a :: p) (a :: t)

variable {p : List (Item α)} {s t : List α} {a b : α} {n : Nat}

/-! ## 1. Item by item -/

theorem matches_nil_iff : Matches [] s ↔ s = [] := by
  constructor
  · rintro ⟨⟩; rfl
  · rintro rfl; exact .nil

theorem matches_star_iff : Matches (.star :: p) s ↔ ∃ k ≤ s.length, Matches p (s.drop k) := by
  constructor
  · intro h
    cases h with
    | @star _ front t h =>
      refine ⟨front.length, ?_, ?_⟩
      · rw [length_append]; exact Nat.le_add_right _ _
      · rw [drop_left]; exact h
  · rintro ⟨k, -, h⟩
    have hstar := Matches.star (s.take k) h
    rw [take_append_drop] at hstar
    exact hstar

theorem not_matches_one_nil : ¬ Matches (.one :: p) ([] : List α) := nofun

theorem not_matches_letter_nil : ¬ Matches (.letter a :: p) ([] : List α) := nofun

theorem matches_one_cons : Matches (.one :: p) (a :: s) ↔ Matches p s := by
  constructor
  · intro h
    cases h with
    | one _ h => exact h
  · exact .one a

theorem matches_letter_cons : Matches (.letter b :: p) (a :: s) ↔ b = a ∧ Matches p s := by
  constructor
  · intro h
    cases h with
    | letter _ h => exact ⟨rfl, h⟩
  · rintro ⟨rfl, h⟩; exact .letter b h

theorem matches_empty_iff : Matches p [] ↔ ∀ i ∈ p, i = .star := by
  induction p with
  | nil => exact iff_of_true .nil (fun _ h => nomatch h)
  | cons i p ih =>
    rw [forall_mem_cons, ← ih]
    cases i with
    | star =>
      rw [matches_star_iff]
      constructor
      · rintro ⟨k, -, h⟩
        rw [drop_nil] at h
        exact ⟨rfl, h⟩
      · rintro ⟨-, h⟩; exact ⟨0, le_refl 0, h⟩
    | one => exact iff_of_false not_matches_one_nil fun h => nomatch h.1
    | letter a => exact iff_of_false not_matches_letter_nil fun h => nomatch h.1

theorem Matches.all (h : Matches p []) (hp : p ≠ []) (s : List α) : Matches p s := by
  obtain ⟨i, p, rfl⟩ := exists_cons_of_ne_nil hp
  obtain rfl : i = .star := matches_empty_iff.mp h i mem_cons_self
  obtain ⟨k, -, h⟩ := matches_star_iff.mp h
  rw [drop_nil] at h
  have hall := Matches.star s h
  rw [append_nil] at hall
  exact hall

/-! ## 2. Prefixes -/

/-- The pattern matches the first `n` letters. -/
def Takes (p : List (Item α)) (s : List α) (n : Nat) : Prop := n ≤ s.length ∧ Matches p (s.take n)

theorem takes_nil_iff : Takes [] s n ↔ n = 0 := by
  unfold Takes
  rw [matches_nil_iff, take_eq_nil_iff]
  constructor
  · rintro ⟨hle, rfl | rfl⟩
    · rfl
    · exact le_zero.mp hle
  · rintro rfl; exact ⟨zero_le _, Or.inl rfl⟩

theorem takes_star_iff :
    Takes (.star :: p) s n ↔ ∃ k ≤ n, k ≤ s.length ∧ Takes p (s.drop k) (n - k) := by
  unfold Takes
  rw [matches_star_iff]
  constructor
  · rintro ⟨hn, k, hk, h⟩
    rw [length_take, min_eq_left hn] at hk
    rw [drop_take] at h
    refine ⟨k, hk, hk.trans hn, ?_, h⟩
    rw [length_drop]
    omega
  · rintro ⟨k, hkn, hk, hle, h⟩
    rw [length_drop] at hle
    refine ⟨by omega, k, ?_, ?_⟩
    · rw [length_take]; omega
    · rw [drop_take]; exact h

theorem not_takes_one_nil : ¬ Takes (.one :: p) ([] : List α) n := by
  rintro ⟨-, h⟩
  rw [take_nil] at h
  exact not_matches_one_nil h

theorem not_takes_letter_nil : ¬ Takes (.letter a :: p) ([] : List α) n := by
  rintro ⟨-, h⟩
  rw [take_nil] at h
  exact not_matches_letter_nil h

theorem takes_one_cons : Takes (.one :: p) (a :: s) n ↔ ∃ m, n = m + 1 ∧ Takes p s m := by
  cases n with
  | zero => exact iff_of_false (fun h => not_matches_one_nil h.2) (fun ⟨_, h, _⟩ => nomatch h)
  | succ m =>
    unfold Takes
    rw [take_succ_cons, matches_one_cons, length_cons, Nat.add_le_add_iff_right]
    constructor
    · intro h; exact ⟨m, rfl, h⟩
    · rintro ⟨m, ⟨⟩, h⟩; exact h

theorem takes_letter_cons :
    Takes (.letter b :: p) (a :: s) n ↔ b = a ∧ ∃ m, n = m + 1 ∧ Takes p s m := by
  cases n with
  | zero =>
    exact iff_of_false (fun h => not_matches_letter_nil h.2) (fun ⟨_, _, h, _⟩ => nomatch h)
  | succ m =>
    unfold Takes
    rw [take_succ_cons, matches_letter_cons, length_cons, Nat.add_le_add_iff_right]
    constructor
    · rintro ⟨hle, rfl, h⟩; exact ⟨rfl, m, rfl, hle, h⟩
    · rintro ⟨rfl, m, ⟨⟩, hle, h⟩; exact ⟨hle, rfl, h⟩

/-- **Where a pattern matches further on, it ends further on.** -/
theorem Takes.later {j k m : Nat} (hjk : j ≤ k) (hk : k ≤ s.length) (hj : Takes p (s.drop j) m)
    (h : Takes p (s.drop k) n) : ∃ n', Takes p (s.drop k) n' ∧ j + m ≤ k + n' := by
  induction p generalizing j k m n with
  | nil => rw [takes_nil_iff] at hj; exact ⟨n, h, by omega⟩
  | cons i p ih =>
    -- an item that takes one letter
    have hletter : ∀ {m n}, k < s.length → Takes p (s.drop (j + 1)) m →
        Takes p (s.drop (k + 1)) n → ∃ n', Takes p (s.drop (k + 1)) n' ∧
          j + (m + 1) ≤ k + (n' + 1) := by
      intro m n hlt hj h
      obtain ⟨n', hn', hle⟩ := ih (Nat.add_le_add_right hjk 1) hlt hj h
      exact ⟨n', hn', by omega⟩
    cases i with
    | star =>
      obtain ⟨j', hj'm, -, hj'⟩ := takes_star_iff.mp hj
      obtain ⟨k', hk'n, hk'len, hk'⟩ := takes_star_iff.mp h
      rw [length_drop] at hk'len
      rw [drop_drop] at hj' hk'
      rcases lt_or_ge (j + j') k with hlt | hge
      · obtain ⟨n', hn', hle⟩ := ih (by omega) (by omega) hj' hk'
        refine ⟨k' + n', takes_star_iff.mpr ⟨k', Nat.le_add_right _ _, ?_, ?_⟩, by omega⟩
        · rw [length_drop]; exact hk'len
        · rw [drop_drop, Nat.add_sub_cancel_left]; exact hn'
      · -- the star behind `k` takes what stands in front of the other match
        have hm := hj.1
        rw [length_drop] at hm
        refine ⟨j + m - k, takes_star_iff.mpr ⟨j + j' - k, by omega, ?_, ?_⟩, by omega⟩
        · rw [length_drop]; omega
        · have hplace : k + (j + j' - k) = j + j' := by omega
          have hlength : j + m - k - (j + j' - k) = m - j' := by omega
          rw [drop_drop, hplace, hlength]
          exact hj'
    | one =>
      rcases lt_or_ge k s.length with hlt | hge
      · rw [drop_eq_getElem_cons (hjk.trans_lt hlt), takes_one_cons] at hj
        rw [drop_eq_getElem_cons hlt, takes_one_cons] at h
        obtain ⟨m, rfl, hj⟩ := hj
        obtain ⟨n, rfl, h⟩ := h
        obtain ⟨n', hn', hle⟩ := hletter hlt hj h
        refine ⟨n' + 1, ?_, hle⟩
        rw [drop_eq_getElem_cons hlt, takes_one_cons]
        exact ⟨n', rfl, hn'⟩
      · rw [drop_eq_nil_of_le hge] at h; exact absurd h not_takes_one_nil
    | letter a =>
      rcases lt_or_ge k s.length with hlt | hge
      · rw [drop_eq_getElem_cons (hjk.trans_lt hlt), takes_letter_cons] at hj
        rw [drop_eq_getElem_cons hlt, takes_letter_cons] at h
        obtain ⟨-, m, rfl, hj⟩ := hj
        obtain ⟨ha, n, rfl, h⟩ := h
        obtain ⟨n', hn', hle⟩ := hletter hlt hj h
        refine ⟨n' + 1, ?_, hle⟩
        rw [drop_eq_getElem_cons hlt, takes_letter_cons]
        exact ⟨ha, n', rfl, hn'⟩
      · rw [drop_eq_nil_of_le hge] at h; exact absurd h not_takes_letter_nil

/-! ## 3. Longest prefixes -/

/-- The longest prefix that the pattern matches has `n` letters. -/
def IsLongest (p : List (Item α)) (s : List α) (n : Nat) : Prop := IsGreatest {m | Takes p s m} n

/-- The pattern matches no prefix. -/
def TakesNone (p : List (Item α)) (s : List α) : Prop := ∀ n, ¬ Takes p s n

theorem isLongest_nil (s : List α) : IsLongest [] s 0 :=
  ⟨takes_nil_iff.mpr rfl, fun _ h => (takes_nil_iff.mp h).le⟩

theorem isLongest_one (h : IsLongest p s n) (a : α) : IsLongest (.one :: p) (a :: s) (n + 1) := by
  refine ⟨takes_one_cons.mpr ⟨n, rfl, h.1⟩, ?_⟩
  intro m hm
  obtain ⟨m, rfl, htakes⟩ := takes_one_cons.mp hm
  exact Nat.add_le_add_right (h.2 htakes) 1

theorem isLongest_letter (h : IsLongest p s n) (a : α) :
    IsLongest (.letter a :: p) (a :: s) (n + 1) := by
  refine ⟨takes_letter_cons.mpr ⟨rfl, n, rfl, h.1⟩, ?_⟩
  intro m hm
  obtain ⟨-, m, rfl, htakes⟩ := takes_letter_cons.mp hm
  exact Nat.add_le_add_right (h.2 htakes) 1

/-- **The last place where the pattern behind a star matches gives the longest prefix.** -/
theorem isLongest_star {k : Nat} (hk : k ≤ s.length) (h : IsLongest p (s.drop k) n)
    (hlast : ∀ k' ≤ s.length, k < k' → TakesNone p (s.drop k')) :
    IsLongest (.star :: p) s (k + n) := by
  constructor
  · refine takes_star_iff.mpr ⟨k, Nat.le_add_right _ _, hk, ?_⟩
    rw [Nat.add_sub_cancel_left]
    exact h.1
  · intro m hm
    obtain ⟨j, hjm, hj, htakes⟩ := takes_star_iff.mp hm
    have hjk : j ≤ k := by by_contra hlt; exact hlast j hj (Nat.lt_of_not_le hlt) _ htakes
    obtain ⟨n', hn', hle⟩ := htakes.later hjk hk h.1
    have hlongest := h.2 hn'
    omega

theorem takesNone_star (h : ∀ k ≤ s.length, TakesNone p (s.drop k)) : TakesNone (.star :: p) s := by
  intro n hn
  obtain ⟨k, -, hk, htakes⟩ := takes_star_iff.mp hn
  exact h k hk _ htakes

theorem takesNone_one (h : TakesNone p s) (a : α) : TakesNone (.one :: p) (a :: s) := by
  intro n hn
  obtain ⟨m, -, hm⟩ := takes_one_cons.mp hn
  exact h m hm

theorem takesNone_letter (h : b = a → TakesNone p s) : TakesNone (.letter b :: p) (a :: s) := by
  intro n hn
  obtain ⟨hab, m, -, hm⟩ := takes_letter_cons.mp hn
  exact h hab m hm

/-- Where a pattern with an item matches in front of a letter, it takes one at least. -/
theorem IsLongest.pos (h : IsLongest p s n) (hp : p ≠ []) (hs : s ≠ []) : 0 < n := by
  refine Nat.pos_of_ne_zero ?_
  rintro rfl
  have hempty : Matches p [] := h.1.2
  have hall : Takes p s s.length := by
    refine ⟨le_refl _, ?_⟩
    rw [take_length]
    exact hempty.all hp s
  exact hs (length_eq_zero_iff.mp (le_zero.mp (h.2 hall)))

theorem IsLongest.unique {m : Nat} (hm : IsLongest p s m) (hn : IsLongest p s n) : m = n :=
  IsGreatest.unique hm hn

theorem IsLongest.not_none (h : IsLongest p s n) : ¬ TakesNone p s := fun hnone => hnone n h.1

/-! ## 4. Replacing -/

/-- The longest prefix in a language, of those that are not empty, has `n` letters. -/
def LongestNonempty (L : List α → Prop) (s : List α) (n : Nat) : Prop :=
  IsGreatest {m | 0 < m ∧ m ≤ s.length ∧ L (s.take m)} n

/-- From left to right the longest prefix in the language is replaced; elsewhere a letter is copied.
    Only the first one is replaced unless `all` says otherwise. -/
inductive Replaced (L : List α → Prop) (r : List α) : Bool → List α → List α → Prop where
  | nil (all : Bool) : Replaced L r all [] []
  | copy {all : Bool} {a : α} {s t : List α} :
      (∀ m, 0 < m → m ≤ s.length + 1 → ¬ L ((a :: s).take m)) → Replaced L r all s t →
      Replaced L r all (a :: s) (a :: t)
  | again {s t : List α} {n : Nat} :
      LongestNonempty L s n → Replaced L r true (s.drop n) t → Replaced L r true s (r ++ t)
  | once {s : List α} {n : Nat} :
      LongestNonempty L s n → Replaced L r false s (r ++ s.drop n)

variable {L : List α → Prop} {r : List α} {all : Bool}

theorem LongestNonempty.pos (h : LongestNonempty L s n) : 0 < n ∧ n ≤ s.length := ⟨h.1.1, h.1.2.1⟩

theorem not_longestNonempty_nil : ¬ LongestNonempty L [] n := by
  intro h
  obtain ⟨hpos, hle⟩ := h.pos
  exact absurd hle (not_le.mpr hpos)

theorem longestNonempty_or (L : List α → Prop) (s : List α) :
    (∃ n, LongestNonempty L s n) ∨ ∀ m, 0 < m → m ≤ s.length → ¬ L (s.take m) := by
  classical
  by_cases h : ∃ m, 0 < m ∧ m ≤ s.length ∧ L (s.take m)
  · left
    obtain ⟨m, hpos, hle, hm⟩ := h
    refine ⟨Nat.findGreatest (fun k => 0 < k ∧ k ≤ s.length ∧ L (s.take k)) s.length, ?_, ?_⟩
    · exact findGreatest_spec (P := fun k => 0 < k ∧ k ≤ s.length ∧ L (s.take k)) hle
        ⟨hpos, hle, hm⟩
    · intro k hk; exact le_findGreatest hk.2.1 hk
  · right
    intro m hpos hle hm
    exact h ⟨m, hpos, hle, hm⟩

/-- **There is a text with the prefixes replaced.** -/
theorem Replaced.exists (L : List α → Prop) (r : List α) (all : Bool) (s : List α) :
    ∃ t, Replaced L r all s t := by
  induction hlen : s.length using Nat.strong_induction_on generalizing s with
  | _ k ih =>
    rcases longestNonempty_or L s with ⟨n, hn⟩ | hnone
    · cases all with
      | true =>
        have hshort : (s.drop n).length < k := by
          rw [length_drop]
          have hpos := hn.pos
          omega
        obtain ⟨t, ht⟩ := ih _ hshort (s.drop n) rfl
        exact ⟨r ++ t, .again hn ht⟩
      | false => exact ⟨r ++ s.drop n, .once hn⟩
    · cases s with
      | nil => exact ⟨[], .nil all⟩
      | cons a s =>
        obtain ⟨t, ht⟩ := ih s.length (by rw [← hlen]; exact lt_succ_self _) s rfl
        exact ⟨a :: t, .copy hnone ht⟩

theorem Replaced.not_copy (hn : LongestNonempty L (a :: s) n) :
    ¬ ∀ m, 0 < m → m ≤ s.length + 1 → ¬ L ((a :: s).take m) :=
  fun hnone => hnone n hn.pos.1 hn.pos.2 hn.1.2.2

theorem Replaced.unique {t' : List α} (h : Replaced L r all s t) (h' : Replaced L r all s t') :
    t = t' := by
  induction h generalizing t' with
  | nil all =>
    cases h' with
    | nil => rfl
    | again hn | once hn => exact absurd hn not_longestNonempty_nil
  | copy hnone _ ih =>
    cases h' with
    | copy _ h' => rw [ih h']
    | again hn | once hn => exact absurd hnone (not_copy hn)
  | again hn _ ih =>
    cases h' with
    | nil => exact absurd hn not_longestNonempty_nil
    | copy hnone => exact absurd hnone (not_copy hn)
    | again hn' h' => obtain rfl := hn.unique hn'; rw [ih h']
  | once hn =>
    cases h' with
    | nil => exact absurd hn not_longestNonempty_nil
    | copy hnone => exact absurd hnone (not_copy hn)
    | once hn' => obtain rfl := hn.unique hn'; rfl

end Glob
