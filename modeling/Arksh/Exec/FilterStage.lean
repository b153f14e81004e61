/-
  Subject: The compaction loops of `apply_where_stage` and `apply_grep_stage` of `src/executor.c`.

  An accepted item moves down to the write index, its own slot becomes an empty item, and the
  slots from the write index on are freed at the end. The item that stood at the write index is
  not freed when another one moves there.
-/
import Arksh.Lib.Text
import Mathlib.Data.List.Infix
import Mathlib.Data.List.Perm.Subperm
import Mathlib.Data.List.ReduceOption

namespace Arksh

open CText List

variable {α : Type}

/-! ## 1. The code -/

inductive FilterStage (α : Type) where
  /-- The value of the block for the item at an index, if there is one. -/
  | whereBlock (truthy : Nat → α → Option Bool)
  | whereProperty (property : α → Option Text) (expected : Text)
  | grep (render : α → Option Text) (pattern : Text)

/-- Whether the item at an index is accepted; `none` if the evaluation fails. -/
def FilterStage.accepts : FilterStage α → Nat → α → Option Bool
  | whereBlock truthy, i, item => truthy i item
  | whereProperty property expected, _, item => (property item).map (· == expected)
  | grep render pattern, _, item => some ((render item).any (decide <| pattern <:+: ·))

def moveListItem (slots : List (Option α)) (dest src : Nat) : List (Option α) :=
  if dest = src then slots else (slots.set dest (slots[src]?.getD none)).set src none

def filterLoop (accepts : Nat → α → Option Bool) :
    Nat → Nat → Nat → List (Option α) → List (Option α) × Option Nat
  | 0, _, write, slots => (slots, some write)
  | n + 1, i, write, slots =>
    match (slots[i]?.getD none).bind (accepts i) with
    | none => (slots, none)
    | some true => filterLoop accepts n (i + 1) (write + 1) (moveListItem slots write i)
    | some false => filterLoop accepts n (i + 1) write slots

structure FilterResult (α : Type) where
  items : List (Option α)
  freed : List α
  failed : Bool

def applyFilterStage (stage : FilterStage α) (items : List α) : FilterResult α :=
  match filterLoop stage.accepts items.length 0 0 (items.map some) with
  | (slots, none) => ⟨slots, [], true⟩
  | (slots, some write) => ⟨slots.take write, (slots.drop write).reduceOption, false⟩

/-! ## 2. What is meant -/

variable (accepts : Nat → α → Option Bool) (stage : FilterStage α)

/-- The items before the first failure, each with its outcome. -/
def examined : Nat → List α → List (α × Bool)
  | _, [] => []
  | i, item :: rest =>
    match accepts i item with
    | none => []
    | some accepted => (item, accepted) :: examined (i + 1) rest

def itemsWith (accepted : Bool) (outcomes : List (α × Bool)) : List α :=
  (outcomes.filter (·.2 = accepted)).map (·.1)

/-- Behind a stage the list has the accepted items and the rejected ones are freed. If an evaluation
    fails, every item is in the list or freed. -/
def FilterStageLaw (items : List α) : Prop :=
  let outcomes := examined stage.accepts 0 items
  let result := applyFilterStage stage items
  if outcomes.length = items.length then
    ¬ result.failed ∧ result.items = (itemsWith true outcomes).map some ∧
      result.freed ~ itemsWith false outcomes
  else result.failed ∧ result.items.reduceOption ++ result.freed ~ items

/-! ## 3. Kept items and gaps -/

/-- The item behind the kept ones moves to them; the first gap is overwritten. -/
def shiftGap : List (Option α) → List (Option α)
  | [] => []
  | _ :: gap => gap ++ [none]

def compactGaps :
    Nat → List α → List (Option α) → List α → List α × List (Option α) × List α
  | _, kept, gap, [] => (kept, gap, [])
  | i, kept, gap, item :: rest =>
    match accepts i item with
    | none => (kept, gap, item :: rest)
    | some true => compactGaps (i + 1) (kept ++ [item]) (shiftGap gap) rest
    | some false => compactGaps (i + 1) kept (gap ++ [some item]) rest

variable {stage}

def gapSlots (s : List α × List (Option α) × List α) : List (Option α) :=
  s.1.map some ++ s.2.1 ++ s.2.2.map some

theorem moveListItem_gap {i : Nat} (kept : List α) (gap : List (Option α)) (item : α)
    (rest : List α) (hi : i = kept.length + gap.length) :
    moveListItem (gapSlots (kept, gap, item :: rest)) kept.length i =
      gapSlots (kept ++ [item], shiftGap gap, rest) := by
  subst hi
  unfold moveListItem gapSlots
  cases gap with
  | nil => simp [shiftGap]
  | cons held gap => simp [shiftGap]

theorem filterLoop_eq (rest : List α) : ∀ {i : Nat} (kept : List α) (gap : List (Option α)),
    i = kept.length + gap.length →
    filterLoop accepts rest.length i kept.length (gapSlots (kept, gap, rest)) =
      let s := compactGaps accepts i kept gap rest
      (gapSlots s, if s.2.2 = [] then some s.1.length else none) := by
  induction rest with
  | nil => intro i kept gap _; rfl
  | cons item rest ih =>
    intro i kept gap hi
    have hread : (gapSlots (kept, gap, item :: rest))[i]?.getD none = some item := by
      simp [gapSlots, hi]
    rw [length_cons, filterLoop, hread, Option.bind_some, compactGaps]
    rcases accepts i item with _ | _ | _
    · simp
    · have hslots : gapSlots (kept, gap, item :: rest) =
          gapSlots (kept, gap ++ [some item], rest) := by simp [gapSlots]
      dsimp only
      rw [hslots]
      exact ih kept _ (by simp; omega)
    · dsimp only
      have hkept : kept.length + 1 = (kept ++ [item]).length := by simp
      rw [moveListItem_gap kept gap item rest hi, hkept]
      refine ih _ _ ?_
      cases gap <;> simp [shiftGap] at hi ⊢ <;> omega

theorem compactGaps_kept (rest : List α) : ∀ i kept gap,
    (compactGaps accepts i kept gap rest).1 = kept ++ itemsWith true (examined accepts i rest) ∧
      (examined accepts i rest).map (·.1) ++ (compactGaps accepts i kept gap rest).2.2 = rest := by
  induction rest with
  | nil => simp [compactGaps, examined, itemsWith]
  | cons item rest ih =>
    intro i kept gap
    rw [compactGaps, examined]
    rcases accepts i item with _ | _ | _
    · simp [itemsWith]
    · simpa [itemsWith] using ih (i + 1) kept (gap ++ [some item])
    · simpa [itemsWith] using ih (i + 1) (kept ++ [item]) (shiftGap gap)

theorem shiftGap_sublist (gap : List (Option α)) :
    (shiftGap gap).reduceOption.Sublist gap.reduceOption := by
  cases gap with
  | nil => exact Sublist.refl _
  | cons held gap =>
    have hcons : (held :: gap).reduceOption = [held].reduceOption ++ gap.reduceOption :=
      reduceOption_append [held] gap
    rw [shiftGap, reduceOption_append, reduceOption_singleton, Option.toList_none, append_nil,
      hcons]
    exact sublist_append_right _ _

theorem compactGaps_sublist (rest : List α) : ∀ i kept gap,
    (compactGaps accepts i kept gap rest).2.1.reduceOption.Sublist
      (gap.reduceOption ++ itemsWith false (examined accepts i rest)) := by
  induction rest with
  | nil => simp [compactGaps, examined, itemsWith]
  | cons item rest ih =>
    intro i kept gap
    rw [compactGaps, examined]
    rcases accepts i item with _ | _ | _
    · simp [itemsWith]
    · simpa [itemsWith, reduceOption_append, reduceOption_singleton] using
        ih (i + 1) kept (gap ++ [some item])
    · refine (ih (i + 1) (kept ++ [item]) (shiftGap gap)).trans ?_
      simpa [itemsWith] using shiftGap_sublist gap

/-! ## 4. The law -/

theorem reduceOption_map_some (items : List α) : (items.map some).reduceOption = items := by
  simp [reduceOption]

theorem itemsWith_perm (outcomes : List (α × Bool)) :
    itemsWith true outcomes ++ itemsWith false outcomes ~ outcomes.map (·.1) := by
  have hparts := (filter_append_perm (fun x : α × Bool => x.2) outcomes).map (·.1)
  simpa [itemsWith] using hparts

def AcceptedFirst (outcomes : List (α × Bool)) : Prop :=
  outcomes.Pairwise fun before item => item.2 → before.2

theorem compactGaps_perm_iff (rest : List α) : ∀ i kept (gap : List α),
    (compactGaps accepts i kept (gap.map some) rest).2.1.reduceOption ~
        gap ++ itemsWith false (examined accepts i rest) ↔
      AcceptedFirst (examined accepts i rest) ∧
        (gap ≠ [] → itemsWith true (examined accepts i rest) = []) := by
  induction rest with
  | nil =>
    intro i kept gap
    simp [compactGaps, examined, itemsWith, AcceptedFirst, reduceOption_map_some]
  | cons item rest ih =>
    intro i kept gap
    rw [compactGaps, examined]
    rcases accepts i item with _ | _ | _
    · simp [itemsWith, AcceptedFirst, reduceOption_map_some]
    · have hrest := ih (i + 1) kept (gap ++ [item])
      simp only [map_append, map_cons, map_nil, append_assoc, singleton_append] at hrest
      refine hrest.trans ?_
      simp [itemsWith, AcceptedFirst]
      grind
    · cases gap with
      | nil => simpa [itemsWith, AcceptedFirst, shiftGap] using ih (i + 1) (kept ++ [item]) []
      | cons held gap =>
        -- the first gap is overwritten: one item fewer than there should be
        refine ⟨fun h => ?_, fun h => by simp [itemsWith] at h⟩
        have hle := (compactGaps_sublist accepts rest (i + 1) (kept ++ [item])
          (shiftGap ((held :: gap).map some))).length_le
        have hlen := h.length_eq
        simp [shiftGap, reduceOption_append, reduceOption_map_some, itemsWith] at hle hlen
        omega

/-- **The loops free every rejected item and keep the accepted ones in order exactly if no accepted
    item stands behind a rejected one.** -/
theorem filterStageLaw_iff (items : List α) :
    FilterStageLaw stage items ↔ AcceptedFirst (examined stage.accepts 0 items) := by
  have hloop := filterLoop_eq stage.accepts items [] [] rfl
  have hkept := compactGaps_kept stage.accepts items 0 [] []
  have hgap := compactGaps_perm_iff stage.accepts items 0 [] []
  simp only [length_nil, gapSlots, map_nil, nil_append] at hloop hkept hgap
  unfold FilterStageLaw applyFilterStage
  rw [hloop]
  generalize compactGaps stage.accepts 0 [] [] items = s at hkept hgap ⊢
  generalize examined stage.accepts 0 items = outcomes at hkept hgap ⊢
  obtain ⟨kept, gap, unexamined⟩ := s
  obtain ⟨rfl, hitems⟩ := hkept
  dsimp only at hitems hgap ⊢
  have hlength := congrArg length hitems
  rw [length_append, length_map] at hlength
  by_cases hdone : unexamined = []
  · subst hdone
    rw [if_pos (by simpa using hlength)]
    simpa using hgap
  · have hlt : outcomes.length ≠ items.length := by
      have := length_pos_iff.mpr hdone
      omega
    rw [if_neg hlt, if_neg hdone]
    have hheld : ((itemsWith true outcomes).map some ++ gap ++ unexamined.map some).reduceOption ~
        items ↔ gap.reduceOption ~ itemsWith false outcomes := by
      rw [reduceOption_append, reduceOption_append, reduceOption_map_some, reduceOption_map_some,
        ← hitems, perm_append_right_iff, ← (itemsWith_perm _).congr_right, perm_append_left_iff]
    simpa using hheld.trans hgap

def rejectedFirst : FilterStage Bool := .whereBlock fun _ item => some item

/-- **The rejected item is overwritten.** -/
theorem not_filterStageLaw :
    ¬ ∀ (stage : FilterStage Bool) items, FilterStageLaw stage items := by
  intro h
  have hfreed := (h rejectedFirst [false, true]).2.2
  exact absurd hfreed.length_eq (by decide)

end Arksh
