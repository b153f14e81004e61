/-
  Subject: Blocks among words, each from an opening word to a closing one, and a search that
           counts them.

  The search goes through the words with a counter and stops at the first wanted one outside of
  blocks. A closing word that closes nothing does not count.
-/
import Mathlib.Data.List.Basic

namespace Blocks

open List Bool

variable {α : Type*} (opens closes wanted : α → Bool)

/-! ## 1. The search -/

/-- How many blocks are open behind a word. -/
def depthBehind (depth : Nat) (w : α) : Nat :=
  if opens w then depth + 1 else if closes w then depth - 1 else depth

/-- The number of blocks that are open at the end; nothing, where a wanted word is met. -/
def through : Nat → List α → Option Nat
  | depth, [] => some depth
  | depth, w :: ws =>
    if depth = 0 ∧ wanted w = true then none else through (depthBehind opens closes depth w) ws

/-! ## 2. Words of which it sees nothing -/

inductive Balanced : List α → Prop
  | nil : Balanced []
  | word {w : α} {ws : List α} (hopens : opens w = false) (hcloses : closes w = false)
      (hws : Balanced ws) : Balanced (w :: ws)
  | block {o c : α} {inner ws : List α} (ho : opens o = true) (hinner : Balanced inner)
      (hopens : opens c = false) (hc : closes c = true) (hws : Balanced ws) :
      Balanced (o :: (inner ++ c :: ws))

inductive Quiet : List α → Prop
  | nil : Quiet []
  | word {w : α} {ws : List α} (hopens : opens w = false) (hwanted : wanted w = false)
      (hws : Quiet ws) : Quiet (w :: ws)
  | block {o c : α} {inner ws : List α} (ho : opens o = true) (hwanted : wanted o = false)
      (hinner : Balanced opens closes inner) (hopens : opens c = false) (hc : closes c = true)
      (hws : Quiet ws) : Quiet (o :: (inner ++ c :: ws))

variable {opens closes wanted}

section DepthBehind

variable {depth : Nat} {w : α}

theorem depthBehind_open (h : opens w = true) : depthBehind opens closes depth w = depth + 1 :=
  if_pos h

section

variable (hopens : opens w = false)
include hopens

theorem depthBehind_close (h : closes w = true) : depthBehind opens closes depth w = depth - 1 := by
  rw [depthBehind, if_neg (by rw [hopens]; exact false_ne_true), if_pos h]

theorem depthBehind_word (hcloses : closes w = false) :
    depthBehind opens closes depth w = depth := by
  rw [depthBehind, if_neg (by rw [hopens]; exact false_ne_true),
    if_neg (by rw [hcloses]; exact false_ne_true)]

theorem depthBehind_zero : depthBehind opens closes 0 w = 0 := by
  cases hcloses : closes w with
  | true => exact depthBehind_close hopens hcloses
  | false => exact depthBehind_word hopens hcloses

end

end DepthBehind

theorem through_inside (depth : Nat) (w : α) (ws : List α) :
    through opens closes wanted (depth + 1) (w :: ws) =
      through opens closes wanted (depthBehind opens closes (depth + 1) w) ws :=
  if_neg fun h => Nat.succ_ne_zero depth h.1

/-- Inside of a block, the search goes past other blocks. -/
theorem through_balanced {inner : List α} (h : Balanced opens closes inner) (depth : Nat)
    (ws : List α) : through opens closes wanted (depth + 1) (inner ++ ws) =
      through opens closes wanted (depth + 1) ws := by
  induction h generalizing depth ws with
  | nil => rfl
  | word hopens hcloses hws ih =>
    rw [cons_append, through_inside, depthBehind_word hopens hcloses, ih]
  | @block o c inner rest ho hinner hopens hc hrest ihinner ih =>
    rw [cons_append, append_assoc, cons_append, through_inside, depthBehind_open ho,
      ihinner, through_inside, depthBehind_close hopens hc]
    exact ih depth ws

variable {ws : List α}

theorem Quiet.through (h : Quiet opens closes wanted ws) :
    through opens closes wanted 0 ws = some 0 := by
  induction h with
  | nil => rfl
  | word hopens hwanted hws ih =>
    rw [Blocks.through, if_neg (by rw [hwanted]; exact fun hw => false_ne_true hw.2),
      depthBehind_zero hopens, ih]
  | block ho hwanted hinner hopens hc hws ih =>
    rw [Blocks.through, if_neg (by rw [hwanted]; exact fun hw => false_ne_true hw.2),
      depthBehind_open ho, through_balanced hinner, through_inside, depthBehind_close hopens hc]
    exact ih

theorem exists_closing {depth : Nat} (h : through opens closes wanted (depth + 1) ws = some 0) :
    ∃ inner c rest, ws = inner ++ c :: rest ∧ Balanced opens closes inner ∧ opens c = false ∧
      closes c = true ∧ through opens closes wanted depth rest = some 0 := by
  induction hlength : ws.length using Nat.strongRecOn generalizing ws depth with
  | ind n ih =>
    subst hlength
    cases ws with
    | nil => exact absurd (Option.some.inj h) (Nat.succ_ne_zero depth)
    | cons w ws =>
      rw [through_inside] at h
      cases hopens : opens w with
      | true =>
        -- the block of `w` is closed, and what is behind it closes the one in front
        rw [depthBehind_open hopens] at h
        obtain ⟨inner, c, rest, rfl, hinner, hco, hc, hrest⟩ :=
          ih ws.length (Nat.lt_succ_self _) h rfl
        have hshort : rest.length < (w :: (inner ++ c :: rest)).length := by
          rw [length_cons, length_append, length_cons]
          omega
        obtain ⟨inner', c', rest', rfl, hinner', hco', hc', hrest'⟩ :=
          ih rest.length hshort hrest rfl
        refine ⟨w :: (inner ++ c :: inner'), c', rest', ?_, .block hopens hinner hco hc hinner',
          hco', hc', hrest'⟩
        rw [cons_append, append_assoc, cons_append]
      | false =>
        cases hcloses : closes w with
        | true =>
          rw [depthBehind_close hopens hcloses] at h
          exact ⟨[], w, ws, rfl, .nil, hopens, hcloses, h⟩
        | false =>
          rw [depthBehind_word hopens hcloses] at h
          obtain ⟨inner, c, rest, rfl, hinner, hco, hc, hrest⟩ :=
            ih ws.length (Nat.lt_succ_self _) h rfl
          exact ⟨w :: inner, c, rest, rfl, .word hopens hcloses hinner, hco, hc, hrest⟩

/-- **The search meets no wanted word and leaves no block open exactly where every block is closed
    and no wanted word stands outside of blocks.** -/
theorem through_iff : through opens closes wanted 0 ws = some 0 ↔ Quiet opens closes wanted ws := by
  refine ⟨fun h => ?_, Quiet.through⟩
  induction hlength : ws.length using Nat.strongRecOn generalizing ws with
  | ind n ih =>
    subst hlength
    cases ws with
    | nil => exact .nil
    | cons w ws =>
      rw [through] at h
      split at h
      · cases h
      · rename_i hseen
        have hwanted : wanted w = false := by simpa using hseen
        cases hopens : opens w with
        | true =>
          rw [depthBehind_open hopens] at h
          obtain ⟨inner, c, rest, rfl, hinner, hco, hc, hrest⟩ := exists_closing h
          refine .block hopens hwanted hinner hco hc (ih rest.length ?_ hrest rfl)
          rw [length_cons, length_append, length_cons]
          omega
        | false =>
          rw [depthBehind_zero hopens] at h
          exact .word hopens hwanted (ih ws.length (Nat.lt_succ_self _) h rfl)

end Blocks
