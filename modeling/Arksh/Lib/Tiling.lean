/-
  Subject: Pieces laid out in a list, with gaps between them.

  A piece has a position and the segment it covers. `Tiling` says, from left to right, that a
  list is made of the segments of the pieces and of single elements that are gaps.
-/
import Mathlib.Data.List.Basic

namespace Tiling

open List

variable {α π : Type}

/-- `list`, whose first element has position `pos`, is made of the pieces and of gaps. -/
inductive Tiles (at_ : π → Nat) (seg : π → List α) (gap : α → Prop) :
    Nat → List α → List π → Prop where
  | done (pos : Nat) : Tiles at_ seg gap pos [] []
  | gap {pos : Nat} {a : α} {l : List α} {ps : List π} (h : gap a)
      (rest : Tiles at_ seg gap (pos + 1) l ps) : Tiles at_ seg gap pos (a :: l) ps
  | piece {p : π} {l : List α} {ps : List π} (h : seg p ≠ [])
      (rest : Tiles at_ seg gap (at_ p + (seg p).length) l ps) :
      Tiles at_ seg gap (at_ p) (seg p ++ l) (p :: ps)

variable {at_ : π → Nat} {seg : π → List α} {gap : α → Prop}

namespace Tiles

section

variable {pos : Nat} {l : List α} {ps : List π} (h : Tiles at_ seg gap pos l ps)
include h

/-- No piece stands before the list begins, and none reaches beyond its end. -/
theorem bounds : ∀ p ∈ ps, pos ≤ at_ p ∧ at_ p + (seg p).length ≤ pos + l.length := by
  induction h with
  | done => intro p hp; cases hp
  | gap _ _ ih =>
    intro p hp
    have hb := ih p hp
    rw [length_cons]
    omega
  | piece _ _ ih =>
    intro p hp
    rw [length_append]
    rcases mem_cons.mp hp with rfl | hp
    · omega
    · have hb := ih p hp; omega

theorem seg_ne_nil : ∀ p ∈ ps, seg p ≠ [] := by
  induction h with
  | done => intro p hp; cases hp
  | gap _ _ ih => exact ih
  | piece hne _ ih =>
    intro p hp
    rcases mem_cons.mp hp with rfl | hp
    · exact hne
    · exact ih p hp

/-- **A piece covers the elements that stand at its position.** -/
theorem segment_eq : ∀ p ∈ ps, seg p = (l.drop (at_ p - pos)).take (seg p).length := by
  induction h with
  | done => intro p hp; cases hp
  | @gap pos a l ps _ rest ih =>
    intro p hp
    have hb := rest.bounds p hp
    have hdrop : at_ p - pos = at_ p - (pos + 1) + 1 := by omega
    rw [hdrop, drop_succ_cons]
    exact ih p hp
  | @piece q l ps _ rest ih =>
    intro p hp
    rcases mem_cons.mp hp with rfl | hp
    · rw [Nat.sub_self, drop_zero, take_left]
    · have hb := rest.bounds p hp
      have hdrop : at_ p - at_ q = (seg q).length + (at_ p - (at_ q + (seg q).length)) := by omega
      rw [hdrop, ← drop_drop, drop_left]
      exact ih p hp

/-- **The pieces stand in order, each behind the end of the one before.** -/
theorem pairwise : ps.Pairwise fun p q => at_ p + (seg p).length ≤ at_ q := by
  induction h with
  | done => exact List.Pairwise.nil
  | gap _ _ ih => exact ih
  | piece _ rest ih =>
    refine List.Pairwise.cons ?_ ih
    intro q hq
    exact (rest.bounds q hq).1

theorem uncovered : ∀ i a, l[i]? = some a →
      (∀ p ∈ ps, pos + i < at_ p ∨ at_ p + (seg p).length ≤ pos + i) → gap a := by
  induction h with
  | done => intro i a hi; cases hi
  | @gap pos b l ps hb rest ih =>
    intro i a hi hout
    cases i with
    | zero => obtain rfl := Option.some.inj hi; exact hb
    | succ i =>
      refine ih i a hi ?_
      intro p hp
      have := hout p hp
      omega
  | @piece q l ps _ rest ih =>
    intro i a hi hout
    have hq := hout q mem_cons_self
    have hle : (seg q).length ≤ i := by omega
    rw [getElem?_append_right hle] at hi
    refine ih (i - (seg q).length) a hi ?_
    intro p hp
    have := hout p (mem_cons_of_mem _ hp)
    omega

end

end Tiles

end Tiling
