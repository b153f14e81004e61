/-
  Subject: Stretches of a list that are replaced by other lists.

  An edit names a stretch of a list and what comes in its place. The edits of a list are given
  from left to right, and everything between them stays.
-/
import Mathlib.Data.List.Basic

namespace Splices

open List

variable {α β : Type}

structure Edit (α : Type) where
  start : Nat
  stop : Nat
  new : List α

def Edit.map (f : α → β) (e : Edit α) : Edit β := ⟨e.start, e.stop, e.new.map f⟩

def splice (l : List α) : Nat → List (Edit α) → List α
  | last, [] => l.drop last
  | last, e :: es => (l.drop last).take (e.start - last) ++ e.new ++ splice l e.stop es

/-- The edits are in order and end within `n` elements. -/
def Ordered (n : Nat) : Nat → List (Edit α) → Prop
  | last, [] => last ≤ n
  | last, e :: es => last ≤ e.start ∧ e.start ≤ e.stop ∧ Ordered n e.stop es

variable {es : List (Edit α)}

theorem Ordered.le {n last : Nat} (h : Ordered n last es) : last ≤ n := by
  induction es generalizing last with
  | nil => exact h
  | cons e es ih =>
    obtain ⟨hstart, hstop, hrest⟩ := h
    exact Nat.le_trans hstart (Nat.le_trans hstop (ih hrest))

theorem splice_map (f : α → β) (l : List α) (last : Nat) (es : List (Edit α)) :
    (splice l last es).map f = splice (l.map f) last (es.map (Edit.map f)) := by
  induction es generalizing last with
  | nil => exact map_drop
  | cons e es ih =>
    unfold splice
    rw [map_append, map_append, ih, map_take, map_drop]
    rfl

/-- **Behind the edits the list stays as it is.** -/
theorem splice_append (l tail : List α) {last : Nat} (h : Ordered l.length last es) :
    splice (l ++ tail) last es = splice l last es ++ tail := by
  induction es generalizing last with
  | nil => exact drop_append_of_le_length h
  | cons e es ih =>
    obtain ⟨hstart, hstop, hrest⟩ := h
    have hend := hrest.le
    have hlast : last ≤ l.length := by omega
    have hroom : e.start - last ≤ (l.drop last).length := by rw [length_drop]; omega
    have hkept : ((l ++ tail).drop last).take (e.start - last) =
        (l.drop last).take (e.start - last) := by
      rw [drop_append_of_le_length hlast, take_append_of_le_length hroom]
    unfold splice
    rw [hkept, ih hrest, append_assoc, append_assoc, append_assoc]

theorem Ordered.of_pairwise {π : Type} (edit : π → Edit α) {n last : Nat} {ps : List π}
    (hlast : last ≤ n) (hbound : ∀ p ∈ ps, last ≤ (edit p).start ∧
      (edit p).start ≤ (edit p).stop ∧ (edit p).stop ≤ n)
    (h : ps.Pairwise fun p q => (edit p).stop ≤ (edit q).start) : Ordered n last (ps.map edit) := by
  induction ps generalizing last with
  | nil => exact hlast
  | cons p ps ih =>
    obtain ⟨hbehind, hpairwise⟩ := pairwise_cons.mp h
    obtain ⟨hstart, hstop, hend⟩ := hbound p mem_cons_self
    refine ⟨hstart, hstop, ih hend (fun q hq => ?_) hpairwise⟩
    obtain ⟨_, hstop', hend'⟩ := hbound q (mem_cons_of_mem p hq)
    exact ⟨hbehind q hq, hstop', hend'⟩

end Splices
