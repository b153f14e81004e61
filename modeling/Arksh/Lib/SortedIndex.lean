/-
  Subject: Tables with an index of their slots that is sorted by key and searched by halving.

  The C idiom behind it: an array of entries in the order in which they came, beside it an array
  of slot numbers. The second is rebuilt by insertion after each change of the first, and a
  lookup halves the interval of the second until it meets the key.
-/
import Mathlib.Data.List.Nodup
import Mathlib.Data.List.Perm.Basic
import Mathlib.Order.Lattice

namespace Tables

open List

variable {α E : Type} {keyOf : E → α} {slot count : Nat} {index : List Nat} {k : α}

/-! ## 1. The slots -/

section Slots

variable [DecidableEq α] {keyOf : E → α} {k : α} {update : E → E} {fresh : E}

/-- The entry under a key is updated; where there is none, `fresh` is appended. -/
def putSlot (keyOf : E → α) (k : α) (update : E → E) (fresh : E) : List E → List E
  | [] => [fresh]
  | e :: slots =>
    if keyOf e = k then update e :: slots else e :: putSlot keyOf k update fresh slots

theorem find?_putSlot {k' : α} (hfresh : keyOf fresh = k)
    (hupdate : ∀ e, keyOf e = k → keyOf (update e) = k) (slots : List E) :
    (putSlot keyOf k update fresh slots).find? (fun e => keyOf e = k') = if k' = k then
        some ((slots.find? fun e => keyOf e = k).elim fresh update)
      else slots.find? fun e => keyOf e = k' := by
  induction slots with
  | nil =>
    unfold putSlot
    by_cases hk : k' = k
    · simp [hk, hfresh]
    · have hne : ¬ k = k' := fun h => hk h.symm; simp [hk, hfresh, hne]
  | cons e slots ih =>
    unfold putSlot
    by_cases he : keyOf e = k
    · rw [if_pos he]
      have hnew := hupdate e he
      by_cases hk : k' = k
      · simp [hk, hnew, he]
      · have hne : ¬ k = k' := fun h => hk h.symm; simp [hk, hnew, he, hne]
    · rw [if_neg he, find?_cons, ih, find?_cons]
      by_cases hk : k' = k
      · simp [hk, he]
      · simp only [if_neg hk]; rw [find?_cons]

theorem keys_putSlot (hfresh : keyOf fresh = k) (hupdate : ∀ e, keyOf e = k → keyOf (update e) = k)
    (slots : List E) :
    (putSlot keyOf k update fresh slots).map keyOf =
      if k ∈ slots.map keyOf then slots.map keyOf else slots.map keyOf ++ [k] := by
  induction slots with
  | nil => simp [putSlot, hfresh]
  | cons e slots ih =>
    unfold putSlot
    by_cases he : keyOf e = k
    · simp [he, hupdate e he]
    · have hne : ¬ k = keyOf e := fun h => he h.symm
      rw [if_neg he, map_cons, ih]
      by_cases hk : k ∈ slots.map keyOf
      · rw [if_pos hk, map_cons, if_pos (mem_cons_of_mem _ hk)]
      · rw [if_neg hk, map_cons, if_neg (by simpa [hne] using hk), cons_append]

theorem putSlot_of_fixed {e : E} {slots : List E} (h : slots.find? (fun e => keyOf e = k) = some e)
    (hfixed : update e = e) : putSlot keyOf k update fresh slots = slots := by
  induction slots with
  | nil => cases h
  | cons e' slots ih =>
    unfold putSlot
    rw [find?_cons] at h
    by_cases he : keyOf e' = k
    · rw [if_pos he]
      simp only [he, decide_true] at h
      rw [Option.some.inj h, hfixed]
    · rw [if_neg he]
      simp only [he, decide_false] at h
      rw [ih h]

structure Holds (keyOf : E → α) (slots : List E) (f : α → Option E) : Prop where
  distinct : (slots.map keyOf).Nodup
  entry : ∀ k, slots.find? (fun e => keyOf e = k) = f k

variable {slots : List E} {f : α → Option E}

theorem holds_nil : Holds keyOf [] fun _ => none := ⟨nodup_nil, fun _ => rfl⟩

theorem Holds.put {k : α} {update : E → E} {fresh : E} (h : Holds keyOf slots f)
    (hfresh : keyOf fresh = k) (hupdate : ∀ e, keyOf e = k → keyOf (update e) = k) :
    Holds keyOf (putSlot keyOf k update fresh slots)
      (Function.update f k (some ((f k).elim fresh update))) where
  distinct := by
    rw [keys_putSlot hfresh hupdate]
    split
    · exact h.distinct
    · rename_i hk
      have hconcat := List.Nodup.concat hk h.distinct
      rwa [concat_eq_append] at hconcat
  entry k' := by
    rw [find?_putSlot hfresh hupdate, h.entry, h.entry]
    by_cases hk : k' = k
    · rw [if_pos hk, hk, Function.update_self]
    · rw [if_neg hk, Function.update_of_ne hk]

theorem putSlot_of_not_mem (h : k ∉ slots.map keyOf) :
    putSlot keyOf k update fresh slots = slots ++ [fresh] := by
  induction slots with
  | nil => rfl
  | cons e slots ih =>
    rw [map_cons, mem_cons, not_or] at h
    unfold putSlot
    rw [if_neg fun he => h.1 he.symm, ih h.2, cons_append]

theorem Holds.eq_none_iff (h : Holds keyOf slots f) : f k = none ↔ k ∉ slots.map keyOf := by
  rw [← h.entry, find?_eq_none, mem_map]
  constructor
  · intro hno ⟨e, he, hk⟩; exact hno e he (by simpa using hk)
  · intro hno e he hk; exact hno ⟨e, he, by simpa using hk⟩

theorem Holds.append (h : Holds keyOf slots f) (fresh : E) (hk : keyOf fresh ∉ slots.map keyOf) :
    Holds keyOf (slots ++ [fresh]) (Function.update f (keyOf fresh) (some fresh)) := by
  have hput := @Holds.put _ _ _ _ _ _ (keyOf fresh) id fresh h rfl fun _ he => he
  rw [putSlot_of_not_mem hk, h.eq_none_iff.mpr hk] at hput
  exact hput

theorem putSlot_of_getElem (hd : (slots.map keyOf).Nodup) {slot : Nat} (hlt : slot < slots.length)
    (hk : keyOf slots[slot] = k) :
    putSlot keyOf k update fresh slots = slots.set slot (update slots[slot]) := by
  induction slots generalizing slot with
  | nil => exact absurd hlt (Nat.not_lt_zero _)
  | cons e slots ih =>
    obtain ⟨he, hrest⟩ := nodup_cons.mp hd
    unfold putSlot
    cases slot with
    | zero =>
      rw [getElem_cons_zero] at hk
      rw [if_pos hk]
      rfl
    | succ slot =>
      have hlt' : slot < slots.length := Nat.lt_of_succ_lt_succ hlt
      have hne : keyOf e ≠ k := by
        intro heq
        apply he
        rw [heq, ← hk]
        exact mem_map_of_mem (getElem_mem hlt')
      rw [if_neg hne, ih hrest hlt' hk, set_cons_succ, getElem_cons_succ]

end Slots

def slotKey [Inhabited α] (keyOf : E → α) (slots : List E) (slot : Nat) : α :=
  ((slots)[slot]?.map keyOf).getD default

theorem slotKey_of_lt [Inhabited α] {slots : List E} (h : slot < slots.length) :
    slotKey keyOf slots slot = keyOf slots[slot] := by
  unfold slotKey
  rw [getElem?_eq_getElem h]
  rfl

theorem slotKey_congr [Inhabited α] {slots slots' : List E} (h : slots.map keyOf = slots'.map keyOf) :
    slotKey keyOf slots = slotKey keyOf slots' := by
  funext slot
  unfold slotKey
  rw [← getElem?_map, h, getElem?_map]

/-! ## 2. The index -/

section Index

variable [LinearOrder α]

/-- The slot `x` moves to the left over the slots with greater keys; what is to its left is given
    from right to left. -/
def sink (key : Nat → α) : List Nat → Nat → List Nat → List Nat
  | [], x, right => x :: right
  | l :: left, x, right =>
    if key l ≤ key x then (l :: left).reverse ++ x :: right else sink key left x (l :: right)

/-- The index of the first `count` slots. -/
def rebuildIndex (key : Nat → α) : Nat → List Nat
  | 0 => []
  | count + 1 => sink key (rebuildIndex key count).reverse count []

variable {key : Nat → α}

theorem sink_perm (left : List Nat) (x : Nat) (right : List Nat) :
    (sink key left x right).Perm (left.reverse ++ x :: right) := by
  induction left generalizing right with
  | nil => exact List.Perm.refl _
  | cons l left ih =>
    unfold sink
    split
    · exact List.Perm.refl _
    · have hswap : (left.reverse ++ x :: l :: right).Perm (left.reverse ++ l :: x :: right) :=
        (List.Perm.swap l x right).append_left left.reverse
      have hshape : (l :: left).reverse ++ x :: right = left.reverse ++ l :: x :: right := by
        rw [reverse_cons, append_assoc, singleton_append]
      rw [hshape]
      exact (ih (l :: right)).trans hswap

theorem sink_sorted {left : List Nat} {x : Nat} {right : List Nat}
    (hrow : (left.reverse ++ right).Pairwise fun i j => key i ≤ key j)
    (hright : ∀ j ∈ right, key x ≤ key j) :
    (sink key left x right).Pairwise fun i j => key i ≤ key j := by
  induction left generalizing right with
  | nil => exact pairwise_cons.mpr ⟨hright, hrow⟩
  | cons l left ih =>
    have hshape : (l :: left).reverse ++ right = left.reverse ++ l :: right := by
      rw [reverse_cons, append_assoc, singleton_append]
    unfold sink
    split
    · rename_i hle
      obtain ⟨hleft, hr, hcross⟩ := pairwise_append.mp hrow
      refine pairwise_append.mpr ⟨hleft, pairwise_cons.mpr ⟨hright, hr⟩, ?_⟩
      intro i hi j hj
      rcases mem_cons.mp hj with rfl | hj
      · -- Everything to the left is at most its last slot.
        rw [reverse_cons] at hleft hi
        rcases mem_append.mp hi with hi | hi
        · have hil := (pairwise_append.mp hleft).2.2 i hi l (mem_singleton.mpr rfl)
          exact le_trans hil hle
        · rw [mem_singleton.mp hi]; exact hle
      · exact hcross i hi j hj
    · rename_i hlt
      rw [hshape] at hrow
      apply ih hrow
      intro j hj
      rcases mem_cons.mp hj with rfl | hj
      · exact le_of_lt (not_le.mp hlt)
      · exact hright j hj

/-- **The index is a permutation of the slots.** -/
theorem rebuildIndex_perm (count : Nat) : (rebuildIndex key count).Perm (List.range count) := by
  induction count with
  | zero => exact List.Perm.refl _
  | succ count ih =>
    have hsink := @sink_perm _ _ key (rebuildIndex key count).reverse count []
    rw [reverse_reverse] at hsink
    rw [range_succ]
    exact hsink.trans (ih.append_right [count])

theorem rebuildIndex_sorted (count : Nat) :
    (rebuildIndex key count).Pairwise fun i j => key i ≤ key j := by
  induction count with
  | zero => exact List.Pairwise.nil
  | succ count ih =>
    apply sink_sorted
    · rw [reverse_reverse, append_nil]; exact ih
    · intro j hj; exact absurd hj not_mem_nil

end Index

/-! ## 3. The search -/

variable [LinearOrder α] [DecidableEq α] {key : Nat → α}

def searchLoop (key : Nat → α) (index : List Nat) (k : α) : Nat → Nat → Nat → Option Nat
  | 0, _, _ => none
  | fuel + 1, left, right =>
    if left < right then
      let mid := left + (right - left) / 2
      match (index)[mid]? with
      | none => none
      | some slot =>
        if k = key slot then some slot
        else if k < key slot then searchLoop key index k fuel left mid
        else searchLoop key index k fuel (mid + 1) right
    else none

/-- The slot under a key, by the first `count` cells of the index. -/
def findIndexEntry (key : Nat → α) (index : List Nat) (count : Nat) (k : α) : Option Nat :=
  searchLoop key index k (count + 1) 0 count

theorem searchLoop_some {fuel left right : Nat}
    (h : searchLoop key index k fuel left right = some slot) : slot ∈ index ∧ key slot = k := by
  induction fuel generalizing left right with
  | zero => cases h
  | succ fuel ih =>
    unfold searchLoop at h
    split at h
    · dsimp only at h
      split at h
      · cases h
      · rename_i mid hmid
        split at h
        · rename_i hkey
          cases h
          exact ⟨mem_of_getElem? hmid, hkey.symm⟩
        · split at h <;> exact ih h
    · cases h

theorem searchLoop_none {fuel left right : Nat} (hsorted : index.Pairwise fun i j => key i ≤ key j)
    (hright : right ≤ index.length) (hfuel : right - left < fuel)
    (hinside : ∀ cell slot, (index)[cell]? = some slot → key slot = k → left ≤ cell ∧ cell < right)
    (h : searchLoop key index k fuel left right = none) : ∀ slot ∈ index, key slot ≠ k := by
  induction fuel generalizing left right with
  | zero => exact absurd hfuel (Nat.not_lt_zero _)
  | succ fuel ih =>
    unfold searchLoop at h
    split at h
    · rename_i hlt
      dsimp only at h
      split at h
      · rename_i hnone
        have hlen := getElem?_eq_none_iff.mp hnone
        omega
      · rename_i slot hslot
        have hordered : ∀ {i j si sj : Nat}, i < j → (index)[i]? = some si →
            (index)[j]? = some sj → key si ≤ key sj := by
          intro i j si sj hij hi hj
          obtain ⟨hil, hi⟩ := List.getElem?_eq_some_iff.mp hi
          obtain ⟨hjl, hj⟩ := List.getElem?_eq_some_iff.mp hj
          rw [← hi, ← hj]
          exact pairwise_iff_getElem.mp hsorted i j hil hjl hij
        split at h
        · cases h
        · rename_i hne
          split at h
          · rename_i hless
            refine ih (by omega) (by omega) ?_ h
            intro cell s hcell hs
            obtain ⟨hl, hr⟩ := hinside cell s hcell hs
            refine ⟨hl, ?_⟩
            by_contra hge
            rcases Nat.lt_or_eq_of_le (Nat.not_lt.mp hge) with hgt | heq
            · have hle := hordered hgt hslot hcell
              rw [hs] at hle
              exact absurd hless (not_lt.mpr hle)
            · rw [← heq, hslot] at hcell
              rw [Option.some.inj hcell] at hne
              exact hne hs.symm
          · rename_i hless
            refine ih hright (by omega) ?_ h
            intro cell s hcell hs
            obtain ⟨hl, hr⟩ := hinside cell s hcell hs
            refine ⟨?_, hr⟩
            by_contra hge
            rcases Nat.lt_or_eq_of_le (Nat.lt_succ_iff.mp (Nat.not_le.mp hge)) with hgt | heq
            · have hle := hordered hgt hcell hslot
              rw [hs] at hle
              exact hless (lt_of_le_of_ne hle hne)
            · rw [heq, hslot] at hcell
              rw [Option.some.inj hcell] at hne
              exact hne hs.symm
    · rename_i hempty
      intro slot hslot hs
      obtain ⟨cell, hlt, hcell⟩ := List.getElem_of_mem hslot
      obtain ⟨hl, hr⟩ := hinside cell slot (List.getElem?_eq_some_iff.mpr ⟨hlt, hcell⟩) hs
      omega

theorem findIndexEntry_some (h : findIndexEntry key index count k = some slot) :
    slot ∈ index ∧ key slot = k :=
  searchLoop_some h

theorem findIndexEntry_none (hsorted : index.Pairwise fun i j => key i ≤ key j)
    (hcount : index.length = count) (h : findIndexEntry key index count k = none) :
    ∀ slot ∈ index, key slot ≠ k := by
  refine searchLoop_none hsorted (Nat.le_of_eq hcount.symm) (by omega) ?_ h
  intro cell slot hcell _
  have hlt := (List.getElem?_eq_some_iff.mp hcell).1
  omega

/-! ## 4. The table -/

structure IndexedTable (E : Type) where
  slots : List E
  index : List Nat

namespace IndexedTable

variable [Inhabited α] {keyOf : E → α} {t : IndexedTable E} {f : α → Option E} {k : α}

def empty : IndexedTable E := ⟨[], []⟩

def reindex (keyOf : E → α) (slots : List E) : IndexedTable E :=
  ⟨slots, rebuildIndex (slotKey keyOf slots) slots.length⟩

def slotOf (keyOf : E → α) (t : IndexedTable E) (k : α) : Option Nat :=
  findIndexEntry (slotKey keyOf t.slots) t.index t.slots.length k

/-- The entry that the search finds. -/
def find (keyOf : E → α) (t : IndexedTable E) (k : α) : Option E :=
  (t.slotOf keyOf k).bind fun slot => (t.slots)[slot]?

structure Sound (keyOf : E → α) (t : IndexedTable E) : Prop where
  perm : t.index.Perm (List.range t.slots.length)
  sorted : t.index.Pairwise fun i j => slotKey keyOf t.slots i ≤ slotKey keyOf t.slots j

omit [DecidableEq α] in
theorem reindex_sound (keyOf : E → α) (slots : List E) : (reindex keyOf slots).Sound keyOf :=
  ⟨rebuildIndex_perm slots.length, rebuildIndex_sorted slots.length⟩

/-- **In a sound table without two entries under one key, the search is the linear search.** -/
theorem find_eq (hs : t.Sound keyOf) (hd : (t.slots.map keyOf).Nodup) (k : α) :
    t.find keyOf k = t.slots.find? fun e => keyOf e = k := by
  have hlen : t.index.length = t.slots.length := by
    rw [hs.perm.length_eq, length_range]
  unfold find slotOf
  cases hfind : findIndexEntry (slotKey keyOf t.slots) t.index t.slots.length k with
  | some slot =>
    obtain ⟨hmem, hkey⟩ := findIndexEntry_some hfind
    have hlt : slot < t.slots.length := mem_range.mp (hs.perm.mem_iff.mp hmem)
    rw [slotKey_of_lt hlt] at hkey
    show (t.slots)[slot]? = _
    rw [getElem?_eq_getElem hlt]
    symm
    rw [find?_eq_some_iff_getElem]
    refine ⟨by simpa using hkey, slot, hlt, rfl, ?_⟩
    intro j hj
    have hjl : j < t.slots.length := Nat.lt_trans hj hlt
    have hne : keyOf t.slots[j] ≠ keyOf t.slots[slot] := by
      have hpair := pairwise_iff_getElem.mp hd j slot (by simpa using hjl)
        (by simpa using hlt) hj
      simpa using hpair
    simpa [hkey] using hne
  | none =>
    have hnone := findIndexEntry_none hs.sorted hlen hfind
    show none = _
    symm
    rw [find?_eq_none]
    intro e he
    obtain ⟨slot, hlt, hslot⟩ := List.getElem_of_mem he
    have hmem : slot ∈ t.index := hs.perm.mem_iff.mpr (mem_range.mpr hlt)
    have hne := hnone slot hmem
    rw [slotKey_of_lt hlt, hslot] at hne
    simpa using hne

/-! ## 5. The table as a function -/

structure Represents (keyOf : E → α) (t : IndexedTable E) (f : α → Option E) : Prop where
  sound : t.Sound keyOf
  holds : Holds keyOf t.slots f

section

variable (h : Represents keyOf t f)
include h

/-- **The search computes the function.** -/
theorem find_of_represents (k : α) : t.find keyOf k = f k := by
  rw [find_eq h.sound h.holds.distinct, h.holds.entry]

theorem slotOf_eq_some {slot : Nat} (hslot : t.slotOf keyOf k = some slot) :
    ∃ hlt : slot < t.slots.length, keyOf t.slots[slot] = k := by
  obtain ⟨hmem, hkey⟩ := findIndexEntry_some hslot
  have hlt : slot < t.slots.length := mem_range.mp (h.sound.perm.mem_iff.mp hmem)
  rw [slotKey_of_lt hlt] at hkey
  exact ⟨hlt, hkey⟩

theorem slotOf_eq_none (hslot : t.slotOf keyOf k = none) : k ∉ t.slots.map keyOf := by
  have hfind : t.find keyOf k = none := by
    unfold find
    rw [hslot]
    rfl
  rw [find_of_represents h] at hfind
  exact h.holds.eq_none_iff.mp hfind

end

theorem represents_empty : Represents keyOf (empty : IndexedTable E) fun _ => none :=
  ⟨⟨List.Perm.refl _, List.Pairwise.nil⟩, holds_nil⟩

theorem represents_reindex {slots : List E} (h : Holds keyOf slots f) :
    Represents keyOf (reindex keyOf slots) f := ⟨reindex_sound keyOf slots, h⟩

end IndexedTable

end Tables
