/-
  Subject: Tables of file descriptors, and the system calls on them.

  A table has an entry for each descriptor that is open: what it refers to. `open` and `pipe` take
  the lowest descriptors that are free, `dup2` copies an entry, `close` empties it.
-/
import Mathlib.Data.List.Basic

namespace Descriptors

/-- What the descriptors refer to, from 0 on. -/
abbrev FdTable (F : Type) := List (Option F)

namespace FdTable

variable {F : Type} {t : FdTable F} {n m : Nat}

/-- What a descriptor refers to. -/
def entry (t : FdTable F) (n : Nat) : Option F := ((t)[n]?).join

def putEntry : FdTable F → Nat → Option F → FdTable F
  | [], 0, e => [e]
  | [], n + 1, e => none :: putEntry [] n e
  | _ :: t, 0, e => e :: t
  | e' :: t, n + 1, e => e' :: putEntry t n e

theorem entry_nil (n : Nat) : entry ([] : FdTable F) n = none := by
  rfl

theorem entry_putEntry (t : FdTable F) (n m : Nat) (e : Option F) :
    entry (putEntry t n e) m = if m = n then e else entry t m := by
  induction n generalizing t m with
  | zero =>
    cases t with
    | nil | cons e' t =>
      cases m with
      | zero => rfl
      | succ m => simp [putEntry, entry]
  | succ n ih =>
    cases t with
    | nil =>
      cases m with
      | zero => simp [putEntry, entry]
      | succ m =>
        have hrest := ih [] m
        rw [entry_nil] at hrest
        rw [entry_nil]
        show entry (putEntry [] n e) m = _
        rw [hrest]
        simp
    | cons e' t =>
      cases m with
      | zero => simp [putEntry, entry]
      | succ m =>
        have hrest := ih t m
        show entry (putEntry t n e) m = _
        rw [hrest]
        simp [entry]

@[simp] theorem entry_putEntry_self (t : FdTable F) (n : Nat) (e : Option F) :
    entry (putEntry t n e) n = e := by
  rw [entry_putEntry, if_pos rfl]

theorem entry_putEntry_of_ne (t : FdTable F) (e : Option F) (h : m ≠ n) :
    entry (putEntry t n e) m = entry t m := by
  rw [entry_putEntry, if_neg h]

def lowestFree : FdTable F → Nat
  | [] => 0
  | none :: _ => 0
  | some _ :: t => lowestFree t + 1

@[simp] theorem entry_lowestFree (t : FdTable F) : entry t (lowestFree t) = none := by
  induction t with
  | nil => rfl
  | cons e t ih =>
    cases e with
    | none => rfl
    | some f => exact ih

theorem entry_of_lt_lowestFree (h : n < lowestFree t) : (entry t n).isSome = true := by
  induction t generalizing n with
  | nil => exact absurd h (Nat.not_lt_zero n)
  | cons e t ih =>
    cases e with
    | none => exact absurd h (Nat.not_lt_zero n)
    | some f =>
      cases n with
      | zero => rfl
      | succ n => exact ih (Nat.lt_of_succ_lt_succ h)

def openFile (t : FdTable F) (f : F) : Nat × FdTable F :=
  (lowestFree t, putEntry t (lowestFree t) (some f))

def pipe (t : FdTable F) (readEnd writeEnd : F) : (Nat × Nat) × FdTable F :=
  let r := openFile t readEnd
  let w := openFile r.2 writeEnd
  ((r.1, w.1), w.2)

/-- `dup2`, or `none` where the first descriptor is not open. -/
def dup2 (t : FdTable F) (oldFd newFd : Nat) : Option (FdTable F) :=
  (entry t oldFd).map fun f => putEntry t newFd (some f)

/-- `close`; of a descriptor that is not open it does nothing. -/
def close (t : FdTable F) (n : Nat) : FdTable F := putEntry t n none

/-- A run of `close`. -/
def closeAll (t : FdTable F) (fds : List Nat) : FdTable F := fds.foldl close t

theorem dup2_of_entry {f : F} (h : entry t n = some f) (m : Nat) :
    dup2 t n m = some (putEntry t m (some f)) := by
  unfold dup2
  rw [h]
  rfl

theorem dup2_of_free (h : entry t n = none) (m : Nat) : dup2 t n m = none := by
  unfold dup2
  rw [h]
  rfl

section

variable (t : FdTable F)

theorem entry_close (n m : Nat) : entry (close t n) m = if m = n then none else entry t m :=
  entry_putEntry t n m none

theorem entry_closeAll (fds : List Nat) (n : Nat) :
    entry (closeAll t fds) n = if n ∈ fds then none else entry t n := by
  induction fds generalizing t with
  | nil => rfl
  | cons fd fds ih =>
    show entry (closeAll (close t fd) fds) n = _
    rw [ih, entry_close]
    by_cases hmem : n ∈ fds
    · rw [if_pos hmem, if_pos (List.mem_cons_of_mem fd hmem)]
    · by_cases heq : n = fd
      · rw [if_neg hmem, if_pos heq, if_pos (heq ▸ List.mem_cons_self)]
      · rw [if_neg hmem, if_neg heq, if_neg (by simp [heq, hmem])]

theorem entry_pipe (readEnd writeEnd : F) (n : Nat) :
    entry (pipe t readEnd writeEnd).2 n = if n = (pipe t readEnd writeEnd).1.2 then some writeEnd
      else if n = (pipe t readEnd writeEnd).1.1 then some readEnd else entry t n := by
  show entry (putEntry (putEntry t _ _) _ _) n = _
  rw [entry_putEntry, entry_putEntry]
  rfl

theorem pipe_ends (readEnd writeEnd : F) :
    entry t (pipe t readEnd writeEnd).1.1 = none ∧ entry t (pipe t readEnd writeEnd).1.2 = none ∧
      (pipe t readEnd writeEnd).1.2 ≠ (pipe t readEnd writeEnd).1.1 := by
  have hfree : entry (putEntry t (lowestFree t) (some readEnd))
      (lowestFree (putEntry t (lowestFree t) (some readEnd))) = none := entry_lowestFree _
  have hne : lowestFree (putEntry t (lowestFree t) (some readEnd)) ≠ lowestFree t := by
    intro heq
    rw [heq, entry_putEntry_self] at hfree
    cases hfree
  rw [entry_putEntry_of_ne t _ hne] at hfree
  exact ⟨entry_lowestFree t, hfree, hne⟩

theorem entry_pipe_read (readEnd writeEnd : F) (n : Nat) :
    entry (close (pipe t readEnd writeEnd).2 (pipe t readEnd writeEnd).1.2) n =
      if n = lowestFree t then some readEnd else entry t n := by
  obtain ⟨_, hfree, hne⟩ := pipe_ends t readEnd writeEnd
  have hread : (pipe t readEnd writeEnd).1.1 = lowestFree t := rfl
  rw [hread] at hne
  rw [entry_close, entry_pipe, hread]
  by_cases hn : n = (pipe t readEnd writeEnd).1.2
  · rw [if_pos hn, hn, if_neg hne, hfree]
  · rw [if_neg hn, if_neg hn]

theorem pipe_write_ne_zero (readEnd writeEnd : F) : (pipe t readEnd writeEnd).1.2 ≠ 0 := by
  intro heq
  obtain ⟨_, hfree, hne⟩ := pipe_ends t readEnd writeEnd
  rw [heq] at hfree hne
  have hpos : 0 < (pipe t readEnd writeEnd).1.1 := Nat.pos_of_ne_zero fun h => hne h.symm
  have hsome := entry_of_lt_lowestFree (show 0 < lowestFree t from hpos)
  rw [hfree] at hsome
  cases hsome

end

end FdTable

end Descriptors
