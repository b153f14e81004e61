/-
  Subject: A log that holds so many entries at most and does not take one twice in a row.
-/
import Mathlib.Data.List.Destutter
import Mathlib.Data.List.DropRight

namespace BoundedLog

open List Nat

variable {α : Type} {bound : Nat}

/-! ## 1. The last entries -/

theorem getLast?_rtake (hbound : 0 < bound) (l : List α) : (l.rtake bound).getLast? = l.getLast? := by
  obtain ⟨n, rfl⟩ := exists_eq_succ_of_ne_zero (ne_of_gt hbound)
  rcases eq_nil_or_concat l with rfl | ⟨front, last, rfl⟩
  · rw [rtake_nil]
  · rw [concat_eq_append, rtake_concat_succ, getLast?_concat, getLast?_concat]

theorem length_rtake (l : List α) : (l.rtake bound).length = min bound l.length := by
  rw [List.rtake, length_drop]
  omega

theorem rtake_concat (hbound : 0 < bound) (l : List α) (entry : α) : (l ++ [entry]).rtake bound =
      (if (l.rtake bound).length ≥ bound then (l.rtake bound).tail else l.rtake bound) ++
        [entry] := by
  obtain ⟨n, rfl⟩ := exists_eq_succ_of_ne_zero (ne_of_gt hbound)
  rw [rtake_concat_succ, length_rtake]
  congr 1
  split
  next hfull =>
    rw [List.rtake, List.rtake, tail_drop]
    congr 1
    omega
  next hroom =>
    rw [List.rtake, List.rtake]
    congr 1
    omega

variable [DecidableEq α]

/-! ## 2. Repetitions -/

theorem destutter'_concat (first entry : α) (l : List α) : (l ++ [entry]).destutter' (· ≠ ·) first =
      if (l.destutter' (· ≠ ·) first).getLast? = some entry then l.destutter' (· ≠ ·) first
      else l.destutter' (· ≠ ·) first ++ [entry] := by
  induction l generalizing first with
  | nil =>
    rw [nil_append, destutter'_singleton, destutter'_nil, getLast?_singleton]
    by_cases h : first = entry
    · rw [if_neg (not_not_intro h), if_pos (congrArg some h)]
    · rw [if_pos h, if_neg fun heq => h (Option.some.inj heq)]; rfl
  | cons second l ih =>
    rw [cons_append]
    by_cases h : first = second
    · rw [destutter'_cons_neg _ (not_not_intro h), destutter'_cons_neg _ (not_not_intro h)]
      exact ih first
    · have hlast : (first :: l.destutter' (· ≠ ·) second).getLast? =
          (l.destutter' (· ≠ ·) second).getLast? := by
        rw [getLast?_cons, getLast?_eq_some_getLast (destutter'_ne_nil l _)]
        rfl
      rw [destutter'_cons_pos _ h, destutter'_cons_pos _ h, ih second, hlast]
      split <;> rfl

theorem destutter_concat (l : List α) (entry : α) : (l ++ [entry]).destutter (· ≠ ·) =
      if (l.destutter (· ≠ ·)).getLast? = some entry then l.destutter (· ≠ ·)
      else l.destutter (· ≠ ·) ++ [entry] := by
  cases l with
  | nil => rfl
  | cons first l => exact destutter'_concat first entry l

/-! ## 3. Runs -/

/-- The entry is added at the end, unless it is the last one already. -/
def push (bound : Nat) (log : List α) (entry : α) : List α :=
  if log.getLast? = some entry then log
  else (if log.length ≥ bound then log.tail else log) ++ [entry]

/-- The log that is left of a list. -/
def kept (bound : Nat) (l : List α) : List α := (l.destutter (· ≠ ·)).rtake bound

theorem push_kept (hbound : 0 < bound) (l : List α) (entry : α) :
    push bound (kept bound l) entry = kept bound (l ++ [entry]) := by
  rw [push, kept, kept, getLast?_rtake hbound, destutter_concat]
  split
  · rfl
  · exact (rtake_concat hbound _ entry).symm

/-- **A log holds the last entries of what was pushed, without repetitions.** -/
theorem push_foldl (hbound : 0 < bound) (l : List α) : l.foldl (push bound) [] = kept bound l := by
  have hfrom : ∀ done, l.foldl (push bound) (kept bound done) = kept bound (done ++ l) := by
    induction l with
    | nil =>
      intro done
      rw [append_nil]
      rfl
    | cons entry l ih =>
      intro done
      rw [foldl_cons, push_kept hbound, ih, append_assoc]
      rfl
  have hnil : kept bound ([] : List α) = [] := by rw [kept, destutter_nil, rtake_nil]
  rw [← hnil]
  exact hfrom []

theorem kept_chain (l : List α) : (kept bound l).IsChain (· ≠ ·) := (isChain_destutter _ l).drop _

theorem kept_length_le (l : List α) : (kept bound l).length ≤ bound := by
  rw [kept, length_rtake]
  exact min_le_left _ _

/-- **What a log holds, pushed into an empty one, gives the same log.** -/
theorem push_foldl_self (hbound : 0 < bound) (l : List α) :
    (kept bound l).foldl (push bound) [] = kept bound l := by
  rw [push_foldl hbound]
  have hchain := destutter_of_isChain _ _ (@kept_chain α bound _ l)
  have hlength := @kept_length_le α bound _ l
  rw [kept, hchain, List.rtake, Nat.sub_eq_zero_of_le hlength, drop_zero]

end BoundedLog
