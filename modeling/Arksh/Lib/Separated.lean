/-
  Subject: Lists that are cut at a separator, and pieces that are joined by one.

  A separator of several elements may overlap with what stands in front of it. A piece is clear of
  the separator if the first occurrence in the piece and the separator is the one at the end.
-/
import Mathlib.Data.List.Infix

namespace Separated

open List

variable {α : Type} {sep piece : List α} {a : α}

/-! ## 1. Clear pieces -/

/-- Behind the piece comes the first occurrence. -/
def Clear (sep piece : List α) : Prop := ¬ sep <:+: (piece ++ sep).dropLast

theorem infix_dropLast_cons (hsep : sep ≠ []) :
    sep <:+: (a :: piece ++ sep).dropLast ↔
      sep <+: (a :: piece ++ sep).dropLast ∨ sep <:+: (piece ++ sep).dropLast := by
  have hne : piece ++ sep ≠ [] := append_ne_nil_of_right_ne_nil _ hsep
  rw [cons_append, dropLast_cons_of_ne_nil hne, infix_cons_iff]

theorem prefix_dropLast {rest : List α} :
    sep <+: (a :: piece ++ sep).dropLast ↔ sep <+: a :: (piece ++ sep ++ rest) := by
  have hlist : a :: (piece ++ sep ++ rest) =
      (a :: piece ++ sep).take (piece.length + sep.length) ++
        ((a :: piece ++ sep).drop (piece.length + sep.length) ++ rest) := by
    rw [← append_assoc, take_append_drop]
    rfl
  have hdrop : (a :: piece ++ sep).dropLast =
      (a :: piece ++ sep).take (piece.length + sep.length) := by
    rw [dropLast_eq_take]
    congr 1
    simp
  rw [hlist, hdrop]
  constructor
  · exact fun h => h.trans (prefix_append _ _)
  · intro h
    refine prefix_of_prefix_length_le h (prefix_append _ _) ?_
    rw [length_take]
    simp only [cons_append, length_cons, length_append]
    omega

theorem clear_nil (hsep : sep ≠ []) : Clear sep [] := by
  intro h
  have hlength := h.length_le
  have hpos := length_pos_of_ne_nil hsep
  rw [nil_append, length_dropLast] at hlength
  omega

def ArePieces (sep : List α) : List (List α) → Prop
  | [] => False
  | [piece] => ¬ sep <:+: piece
  | piece :: rest => Clear sep piece ∧ ArePieces sep rest

theorem arePieces_cons {rest : List (List α)} (h : rest ≠ []) :
    ArePieces sep (piece :: rest) ↔ Clear sep piece ∧ ArePieces sep rest := by
  cases rest with
  | nil => exact absurd rfl h
  | cons a rest => rfl

variable {ps : List (List α)}

/-- Lists without the separator are pieces if there is one, and all but the last are clear of it. -/
theorem arePieces_iff (h : ∀ piece ∈ ps, ¬ sep <:+: piece) :
    ArePieces sep ps ↔ ps ≠ [] ∧ ∀ piece ∈ ps.dropLast, Clear sep piece := by
  induction ps with
  | nil => exact iff_of_false id fun h => h.1 rfl
  | cons piece ps ih =>
    by_cases hnil : ps = []
    · subst hnil
      exact iff_of_true (h piece (mem_singleton_self _))
        ⟨cons_ne_nil _ _, fun p hp => by cases hp⟩
    · rw [arePieces_cons hnil, ih fun p hp => h p (mem_cons_of_mem _ hp),
        dropLast_cons_of_ne_nil hnil, forall_mem_cons]
      exact ⟨fun ⟨hpiece, _, hrest⟩ => ⟨cons_ne_nil _ _, hpiece, hrest⟩,
        fun ⟨_, hpiece, hrest⟩ => ⟨hpiece, hnil, hrest⟩⟩

theorem map_eq_self_of_intercalate {f : List α → List α}
    (hf : ∀ piece, List.Sublist (f piece) piece)
    (h : (sep.intercalate (ps.map f)).length = (sep.intercalate ps).length) : ps.map f = ps := by
  have hle : ∀ ps : List (List α),
      (sep.intercalate (ps.map f)).length ≤ (sep.intercalate ps).length := by
    intro ps
    induction ps with
    | nil => exact Nat.le_refl _
    | cons piece ps ih =>
      have hpiece := (hf piece).length_le
      by_cases hnil : ps = []
      · subst hnil
        rw [map_cons, map_nil, intercalate_singleton, intercalate_singleton]
        exact hpiece
      · rw [map_cons, intercalate_cons_of_ne_nil (by simpa using hnil),
          intercalate_cons_of_ne_nil hnil]
        simp only [length_append]
        omega
  induction ps with
  | nil => rfl
  | cons piece ps ih =>
    have hpiece := (hf piece).length_le
    by_cases hnil : ps = []
    · subst hnil
      rw [map_cons, map_nil, intercalate_singleton, intercalate_singleton] at h
      rw [map_cons, map_nil, (hf piece).eq_of_length h]
    · have hrest := hle ps
      rw [map_cons, intercalate_cons_of_ne_nil (by simpa using hnil),
        intercalate_cons_of_ne_nil hnil] at h
      simp only [length_append] at h
      rw [map_cons, (hf piece).eq_of_length (by omega), ih (by omega)]

/-! ## 2. The first occurrence -/

variable {l : List α}

section Search

variable [DecidableEq α]

/-- What stands in front of the first occurrence, and what behind it. -/
def breakOn (sep : List α) : List α → Option (List α × List α)
  | [] => if sep = [] then some ([], []) else none
  | a :: l =>
    if sep <+: a :: l then some ([], (a :: l).drop sep.length)
    else (breakOn sep l).map fun p => (a :: p.1, p.2)

/-- **The first occurrence.** -/
theorem breakOn_eq_some_iff (hsep : sep ≠ []) {piece rest : List α} :
    breakOn sep l = some (piece, rest) ↔ l = piece ++ sep ++ rest ∧ Clear sep piece := by
  induction l generalizing piece with
  | nil =>
    rw [breakOn, if_neg hsep]
    refine iff_of_false (by simp) ?_
    rintro ⟨hl, -⟩
    have happend := append_eq_nil_iff.mp hl.symm
    exact hsep (append_eq_nil_iff.mp happend.1).2
  | cons a l ih =>
    rw [breakOn]
    by_cases hfront : sep <+: a :: l
    · rw [if_pos hfront]
      constructor
      · intro h
        cases h
        refine ⟨?_, clear_nil hsep⟩
        exact (prefix_append_drop hfront)
      · rintro ⟨hl, hclear⟩
        cases piece with
        | nil => rw [nil_append] at hl; rw [hl, drop_left]
        | cons b piece =>
          refine absurd ?_ hclear
          rw [infix_dropLast_cons hsep, prefix_dropLast]
          left
          rw [hl] at hfront
          exact hfront
    · rw [if_neg hfront]
      constructor
      · intro h
        obtain ⟨⟨p, r⟩, hbreak, heq⟩ := Option.map_eq_some_iff.mp h
        cases heq
        obtain ⟨rfl, hclear⟩ := ih.mp hbreak
        refine ⟨rfl, fun hinfix => ?_⟩
        rw [infix_dropLast_cons hsep, prefix_dropLast] at hinfix
        exact hinfix.elim hfront hclear
      · rintro ⟨hl, hclear⟩
        cases piece with
        | nil =>
          refine absurd ?_ hfront
          rw [hl, nil_append]
          exact prefix_append _ _
        | cons b piece =>
          obtain ⟨rfl, rfl⟩ := cons.inj hl
          have hpiece : Clear sep piece := fun h =>
            hclear ((infix_dropLast_cons hsep).mpr (.inr h))
          rw [ih.mpr ⟨rfl, hpiece⟩]
          rfl

theorem breakOn_eq_none_iff (hsep : sep ≠ []) : breakOn sep l = none ↔ ¬ sep <:+: l := by
  induction l with
  | nil =>
    rw [breakOn, if_neg hsep]
    refine iff_of_true rfl fun h => hsep ?_
    exact infix_nil.mp h
  | cons a l ih =>
    rw [breakOn, infix_cons_iff]
    by_cases hfront : sep <+: a :: l
    · rw [if_pos hfront]; exact iff_of_false (by simp) (not_not_intro (.inl hfront))
    · rw [if_neg hfront, Option.map_eq_none_iff, ih]
      exact ⟨fun h => not_or.mpr ⟨hfront, h⟩, fun h => (not_or.mp h).2⟩

theorem breakOn_length (hsep : sep ≠ []) {piece rest : List α}
    (h : breakOn sep l = some (piece, rest)) : rest.length < l.length := by
  have hpos := length_pos_of_ne_nil hsep
  rw [((breakOn_eq_some_iff hsep).mp h).1]
  simp only [length_append]
  omega

/-! ## 3. Pieces -/

/-- The list, cut at the separators. -/
def pieces (sep : List α) (hsep : sep ≠ []) (l : List α) : List (List α) :=
  match _hbreak : breakOn sep l with
  | none => [l]
  | some (piece, rest) => piece :: pieces sep hsep rest
termination_by l.length
decreasing_by exact breakOn_length hsep ‹_›

variable (hsep : sep ≠ [])

theorem pieces_of_none (h : breakOn sep l = none) : pieces sep hsep l = [l] := by
  rw [pieces]
  split
  · rfl
  · next heq => rw [h] at heq; cases heq

theorem pieces_of_some {piece rest : List α} (h : breakOn sep l = some (piece, rest)) :
    pieces sep hsep l = piece :: pieces sep hsep rest := by
  rw [pieces]
  split
  · next heq => rw [h] at heq; cases heq
  · next heq =>
    rw [h] at heq
    cases heq
    rfl

theorem pieces_ne_nil (l : List α) : pieces sep hsep l ≠ [] := by
  cases hbreak : breakOn sep l with
  | none => rw [pieces_of_none hsep hbreak]; exact cons_ne_nil _ _
  | some p => rw [pieces_of_some hsep hbreak]; exact cons_ne_nil _ _

theorem intercalate_pieces (l : List α) : sep.intercalate (pieces sep hsep l) = l := by
  induction l using pieces.induct sep hsep with
  | case1 l hbreak => rw [pieces_of_none hsep hbreak, intercalate_singleton]
  | case2 l piece rest hbreak ih =>
    rw [pieces_of_some hsep hbreak, intercalate_cons_of_ne_nil (pieces_ne_nil hsep rest), ih,
      ((breakOn_eq_some_iff hsep).mp hbreak).1]

theorem arePieces_pieces (l : List α) : ArePieces sep (pieces sep hsep l) := by
  induction l using pieces.induct sep hsep with
  | case1 l hbreak => rw [pieces_of_none hsep hbreak]; exact (breakOn_eq_none_iff hsep).mp hbreak
  | case2 l piece rest hbreak ih =>
    rw [pieces_of_some hsep hbreak, arePieces_cons (pieces_ne_nil hsep rest)]
    exact ⟨((breakOn_eq_some_iff hsep).mp hbreak).2, ih⟩

theorem pieces_intercalate (h : ArePieces sep ps) : pieces sep hsep (sep.intercalate ps) = ps := by
  induction ps with
  | nil => exact h.elim
  | cons piece ps ih =>
    by_cases hnil : ps = []
    · subst hnil
      rw [intercalate_singleton]
      exact pieces_of_none hsep ((breakOn_eq_none_iff hsep).mpr h)
    · rw [arePieces_cons hnil] at h
      rw [intercalate_cons_of_ne_nil hnil,
        pieces_of_some hsep ((breakOn_eq_some_iff hsep).mpr ⟨rfl, h.1⟩), ih h.2]

/-- **What a list is cut to.** -/
theorem pieces_eq_iff : pieces sep hsep l = ps ↔ ArePieces sep ps ∧ sep.intercalate ps = l := by
  constructor
  · rintro rfl; exact ⟨arePieces_pieces hsep l, intercalate_pieces hsep l⟩
  · rintro ⟨hps, rfl⟩; exact pieces_intercalate hsep hps

/-- **Which lists without the separator come out of what they are joined to.** -/
theorem pieces_intercalate_iff (h : ∀ piece ∈ ps, ¬ sep <:+: piece) :
    pieces sep hsep (sep.intercalate ps) = ps ↔
      ps ≠ [] ∧ ∀ piece ∈ ps.dropLast, Clear sep piece := by
  rw [pieces_eq_iff, arePieces_iff h]
  exact and_iff_left rfl

end Search

end Separated
