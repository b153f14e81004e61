/-
  Subject: Chains of names, each of which may refer to a next one, followed for a bounded number
           of names; and what becomes of them when one name is set to refer elsewhere.
-/
import Mathlib.Logic.Function.Basic

namespace Chain

variable {N : Type}

/-- The last name of the chain from a name on, if the chain has at most that many names. -/
def last (next : N → Option N) : Nat → N → Option N
  | 0, _ => none
  | k + 1, n =>
    match next n with
    | none => some n
    | some m => last next k m

theorem last_succ (next : N → Option N) (k : Nat) (n : N) :
    last next (k + 1) n = match next n with
      | none => some n
      | some m => last next k m := rfl

theorem next_of_last {next : N → Option N} {n t : N} {k : Nat} (h : last next k n = some t) :
    next t = none := by
  induction k generalizing n with
  | zero => cases h
  | succ k ih =>
    rw [last_succ] at h
    cases hn : next n with
    | none => rw [hn] at h; exact Option.some.inj h ▸ hn
    | some m => rw [hn] at h; exact ih h

variable [DecidableEq N]

/-- How many names are left where the chain first comes to `c`, that one counted. -/
def arrive (next : N → Option N) (c : N) : Nat → N → Option Nat
  | 0, _ => none
  | k + 1, n =>
    if n = c then some (k + 1)
    else
      match next n with
      | none => none
      | some m => arrive next c k m

theorem arrive_succ (next : N → Option N) (c : N) (k : Nat) (n : N) :
    arrive next c (k + 1) n =
      if n = c then some (k + 1)
      else match next n with
        | none => none
        | some m => arrive next c k m := rfl

variable {next : N → Option N} {c n t : N} {k j : Nat}

theorem arrive_self (next : N → Option N) (c : N) (k : Nat) :
    arrive next c (k + 1) c = some (k + 1) := by
  rw [arrive_succ, if_pos rfl]

/-- A chain depends on what the names on it refer to. -/
theorem last_congr {next' : N → Option N}
    (h : ∀ c, (arrive next c k n).isSome → next' c = next c) : last next' k n = last next k n := by
  induction k generalizing n with
  | zero => rfl
  | succ k ih =>
    rw [last_succ, last_succ, h n (by rw [arrive_self]; rfl)]
    cases hn : next n with
    | none => rfl
    | some m =>
      refine ih fun c hc => h c ?_
      rw [arrive_succ, hn]
      split
      · rfl
      · exact hc

theorem last_of_arrive (h : arrive next c k n = some j) : last next k n = last next j c := by
  induction k generalizing n with
  | zero => cases h
  | succ k ih =>
    rw [arrive_succ] at h
    split at h
    · cases h
      subst n
      rfl
    · rw [last_succ]
      split at h
      · cases h
      · exact ih h

/-- There is a name left, and no more than there were. -/
theorem arrive_bounds (h : arrive next c k n = some j) : 0 < j ∧ j ≤ k := by
  induction k generalizing n with
  | zero => cases h
  | succ k ih =>
    rw [arrive_succ] at h
    split at h
    · cases h; omega
    · split at h
      · cases h
      · have := ih h; omega

/-- A chain that does not come to a name does not end there. -/
theorem last_ne (h : arrive next c k n = none) {e : N} (he : last next k n = some e) : e ≠ c := by
  induction k generalizing n with
  | zero => cases he
  | succ k ih =>
    rw [arrive_succ] at h
    rw [last_succ] at he
    split at h
    · cases h
    · split at he
      · cases he; assumption
      · rename_i m hm
        rw [hm] at h
        exact ih h he

/-- A chain that comes to a name, but not yet, has not ended yet. -/
theorem last_eq_none (h : arrive next c k n = none) {k' : Nat}
    (h' : arrive next c k' n = some j) : last next k n = none := by
  induction k generalizing n k' with
  | zero => rfl
  | succ k ih =>
    rw [arrive_succ] at h
    rw [last_succ]
    split at h
    · cases h
    · rename_i hne
      cases k' with
      | zero => cases h'
      | succ k' =>
        rw [arrive_succ, if_neg hne] at h'
        split at h'
        · cases h'
        · rename_i m hm
          rw [hm] at h
          exact ih h h'

/-- On the way to `c`, what `c` refers to does not matter. -/
theorem arrive_update (x : Option N) :
    arrive (Function.update next c x) c k n = arrive next c k n := by
  induction k generalizing n with
  | zero => rfl
  | succ k ih =>
    rw [arrive_succ, arrive_succ]
    split
    · rfl
    · rename_i hne
      rw [Function.update_of_ne hne]
      split
      · rfl
      · exact ih

theorem last_update_of_none (x : Option N) (h : arrive next c k n = none) :
    last (Function.update next c x) k n = last next k n := by
  induction k generalizing n with
  | zero => rfl
  | succ k ih =>
    rw [arrive_succ] at h
    rw [last_succ, last_succ]
    split at h
    · cases h
    · rename_i hne
      rw [Function.update_of_ne hne]
      split
      · rfl
      · rename_i m hm
        rw [hm] at h
        exact ih h

theorem last_update_of_some (x : Option N) (h : arrive next c k n = some j) :
    last (Function.update next c x) k n = last (Function.update next c x) j c :=
  last_of_arrive ((arrive_update x).trans h)

/-- **A name that refers to nothing more is the end of every chain that comes to it.** -/
theorem last_update_none (h : arrive next c k n = some j) :
    last (Function.update next c none) k n = some c := by
  obtain ⟨i, rfl⟩ := Nat.exists_eq_add_of_lt (arrive_bounds h).1
  rw [last_update_of_some none h, last_succ, Function.update_self]

/-- A name that refers to a chain that comes back to it. -/
theorem last_update_cycle (h : arrive next c j t = some k) (i : Nat) :
    last (Function.update next c (some t)) i c = none := by
  induction i using Nat.strongRecOn with
  | ind i ih =>
    cases i with
    | zero => rfl
    | succ i =>
      rw [last_succ, Function.update_self]
      dsimp only
      cases harrive : arrive next c i t with
      | none => rw [last_update_of_none _ harrive]; exact last_eq_none harrive h
      | some i' =>
        rw [last_update_of_some _ harrive]
        exact ih i' (Nat.lt_succ_of_le (arrive_bounds harrive).2)

/-- **A name that refers to another one goes on with the chain of that one, unless that comes
    back.** -/
theorem last_update_some (h : arrive next c k n = some j) :
    last (Function.update next c (some t)) k n =
      if (arrive next c (j - 1) t).isSome then none else last next (j - 1) t := by
  rw [last_update_of_some _ h]
  obtain ⟨i, rfl⟩ := Nat.exists_eq_add_of_lt (arrive_bounds h).1
  rw [Nat.zero_add, Nat.add_sub_cancel]
  cases harrive : arrive next c i t with
  | none => rw [last_succ, Function.update_self]; exact last_update_of_none _ harrive
  | some i' => exact last_update_cycle harrive (i + 1)

end Chain
