/-
  Subject: Cuts of a list: a scan goes through the elements, and behind each of its states some
           elements may be left out.
-/
import Mathlib.Data.List.Basic

namespace Cuts

open List

variable {S α β : Type}

/-- A scan, and the elements that may be left out behind a state. -/
structure Scan (S α : Type) where
  next : S → α → S
  free : S → α → Bool

variable (scan : Scan S α)

/-- The state behind some elements. -/
def Scan.run (s : S) (l : List α) : S := l.foldl scan.next s

/-- A part of the list without some of the elements that may be left out. -/
inductive Scan.Cut : S → List α → List α → Prop where
  | nil (s : S) : Cut s [] []
  | keep {s : S} {a : α} {l kept : List α} :
      Cut (scan.next s a) l kept → Cut s (a :: l) (a :: kept)
  | leave {s : S} {a : α} {l kept : List α} :
      scan.free s a = true → Cut (scan.next s a) l kept → Cut s (a :: l) kept

/-- Everything that may be left out is left out. -/
def Scan.least : S → List α → List α
  | _, [] => []
  | s, a :: l => if scan.free s a then least (scan.next s a) l else a :: least (scan.next s a) l

@[simp] theorem Scan.run_cons (s : S) (a : α) (l : List α) :
    scan.run s (a :: l) = scan.run (scan.next s a) l := rfl

@[simp] theorem Scan.least_nil (s : S) : scan.least s [] = [] := rfl

@[simp] theorem Scan.least_cons (s : S) (a : α) (l : List α) : scan.least s (a :: l) =
      if scan.free s a then scan.least (scan.next s a) l
      else a :: scan.least (scan.next s a) l := rfl

theorem Scan.run_concat (s : S) (l : List α) (a : α) :
    scan.run s (l ++ [a]) = scan.next (scan.run s l) a := by
  rw [run, foldl_append]
  rfl

theorem Scan.least_append (s : S) (l m : List α) :
    scan.least s (l ++ m) = scan.least s l ++ scan.least (scan.run s l) m := by
  induction l generalizing s with
  | nil => rfl
  | cons a l ih =>
    rw [cons_append, least_cons, least_cons, run_cons, ih]
    split <;> rfl

theorem Scan.least_concat (s : S) (l : List α) (a : α) : scan.least s (l ++ [a]) =
      if scan.free (scan.run s l) a then scan.least s l else scan.least s l ++ [a] := by
  rw [least_append, least_cons, least_nil]
  split
  · exact append_nil _
  · rfl

theorem Scan.least_cut (s : S) (l : List α) : scan.Cut s l (scan.least s l) := by
  induction l generalizing s with
  | nil => exact .nil s
  | cons a l ih =>
    rw [least_cons]
    split
    next hfree => exact .leave hfree (ih _)
    · exact .keep (ih _)

variable {scan} {s : S}

theorem Scan.Cut.split {l m kept : List α} (h : scan.Cut s (l ++ m) kept) :
    ∃ front behind, kept = front ++ behind ∧ scan.Cut s l front ∧
      scan.Cut (scan.run s l) m behind := by
  induction l generalizing s kept with
  | nil => exact ⟨[], kept, rfl, .nil s, h⟩
  | cons a l ih =>
    cases h with
    | keep h =>
      obtain ⟨front, behind, rfl, hfront, hbehind⟩ := ih h
      exact ⟨a :: front, behind, rfl, .keep hfront, hbehind⟩
    | leave hfree h =>
      obtain ⟨front, behind, rfl, hfront, hbehind⟩ := ih h
      exact ⟨front, behind, rfl, .leave hfree hfront, hbehind⟩

theorem Scan.Cut.sublist {l kept : List α} (h : scan.Cut s l kept) : kept.Sublist l := by
  induction h with
  | nil s => exact .slnil
  | keep _ ih => exact ih.cons_cons _
  | leave _ _ ih => exact ih.cons _

theorem Scan.Cut.least_sublist {l kept : List α} (h : scan.Cut s l kept) :
    (scan.least s l).Sublist kept := by
  induction h with
  | nil s => exact .slnil
  | keep _ ih =>
    rw [least_cons]
    split
    · exact ih.cons _
    · exact ih.cons_cons _
  | leave hfree _ ih => rw [least_cons, if_pos hfree]; exact ih

theorem Scan.Cut.countP_eq {p : α → Bool} (hp : ∀ s a, scan.free s a = true → p a = false)
    {l kept : List α} (h : scan.Cut s l kept) : kept.countP p = l.countP p := by
  induction h with
  | nil s => rfl
  | keep _ ih => rw [countP_cons, countP_cons, ih]
  | leave hfree _ ih => rw [countP_cons, ih, if_neg (by simp [hp _ _ hfree]), Nat.add_zero]

/-- **Behind the least cut of a front, no cut goes on with an element that is always kept, where
    another has to be kept.** -/
theorem Scan.Cut.diverges {p : β → Bool} {g : α → β}
    (hp : ∀ s a, scan.free s a = true → p (g a) = false) {front behind kept : List α} {a : α}
    (h : scan.Cut s (front ++ a :: behind) kept) (hkept : scan.free (scan.run s front) a = false)
    (ha : p (g a) = false) {x : β} (hx : p x = true) (others : List β) :
    kept.map g ≠ (scan.least s front).map g ++ x :: others := by
  intro heq
  obtain ⟨own, rest, rfl, hown, hrest⟩ := h.split
  obtain ⟨rest, rfl⟩ : ∃ rest', rest = a :: rest' := by
    cases hrest with
    | keep => exact ⟨_, rfl⟩
    | leave hfree => exact absurd (hkept.symm.trans hfree) Bool.false_ne_true
  have hpart := hown.least_sublist
  rw [map_append] at heq
  rcases Nat.lt_or_ge (scan.least s front).length own.length with hlt | hge
  · -- the element is one of those that the cut keeps of the front, which has no more of them
    have hall : (scan.least s front).map g ++ [x] <+: own.map g ++ (a :: rest).map g := by
      rw [heq]
      exact ⟨others, by rw [append_assoc]; rfl⟩
    have hfront : (scan.least s front).map g ++ [x] <+: own.map g := by
      refine prefix_of_prefix_length_le hall (prefix_append _ _) ?_
      simpa using Nat.succ_le_of_lt hlt
    have hcount := hfront.sublist.countP_le (p := p)
    have hkeeps : ∀ s a, scan.free s a = true → (p ∘ g) a = false := hp
    rw [countP_append, countP_map, countP_map, hown.countP_eq hkeeps,
      (scan.least_cut s front).countP_eq hkeeps, countP_singleton, if_pos hx] at hcount
    exact Nat.not_succ_le_self _ hcount
  · have hsame : scan.least s front = own := hpart.eq_of_length_le hge
    rw [hsame] at heq
    have hhead := append_cancel_left heq
    obtain ⟨rfl, -⟩ := cons.inj hhead
    exact absurd (ha.symm.trans hx) Bool.false_ne_true

end Cuts
