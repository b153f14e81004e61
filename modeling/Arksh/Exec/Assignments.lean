/-
  Subject: Successive assignments to variables.
-/
import Arksh.Exec.Temporary

namespace Arksh

open CText Tables

def assignAll (sh : VarStore) (pairs : List (Text × Text)) : VarStore :=
  pairs.foldl (fun sh pair => (arkshShellSetVar sh pair.1 pair.2 false).2) sh

/-- The names can be assigned one after the other: identifiers that fit, no two alike, with room for
    those that are new. -/
structure Assignable (sh : VarStore) (names : List Text) : Prop where
  identifiers : ∀ name ∈ names, isValidIdentifier name = true
  fit : ∀ name ∈ names, name.length < arkshMaxVarName
  distinct : names.Nodup
  room : sh.topNames.length + (names.filter (· ∉ sh.topNames)).length ≤ arkshMaxShellVars

section Assign

variable {sh : VarStore} {names : List Text} {name : Text} {pairs : List (Text × Text)}

theorem Assignable.head (h : Assignable sh (name :: names)) : sh.Accepts name := by
  refine ⟨h.identifiers name List.mem_cons_self, ?_⟩
  by_cases hmem : name ∈ sh.topNames
  · exact .inl hmem
  · have hroom := h.room
    rw [List.filter_cons_of_pos (by simpa using hmem), List.length_cons] at hroom
    exact .inr (by omega)

theorem Assignable.tail (h : Assignable sh (name :: names)) (v : Text) :
    Assignable (arkshShellSetVar sh name v false).2 names where
  identifiers m hm := h.identifiers m (List.mem_cons_of_mem _ hm)
  fit m hm := h.fit m (List.mem_cons_of_mem _ hm)
  distinct := (List.nodup_cons.mp h.distinct).2
  room := by
    have hroom := h.room
    have hfit := h.fit name List.mem_cons_self
    have hnot := (List.nodup_cons.mp h.distinct).1
    rw [setVar_topNames (h.identifiers name List.mem_cons_self)]
    unfold enter
    by_cases hmem : name ∈ sh.topNames
    · rw [List.filter_cons_of_neg (by simpa using hmem)] at hroom
      rwa [if_pos hmem]
    · rw [List.filter_cons_of_pos (by simpa using hmem), List.length_cons] at hroom
      rw [if_neg hmem, if_pos (by omega), copyString_of_lt hfit, List.length_append,
        List.length_singleton]
      have hsame : (names.filter (· ∉ sh.topNames ++ [name])) = names.filter (· ∉ sh.topNames) := by
        refine List.filter_congr fun m hm => ?_
        have hne : m ≠ name := fun heq => hnot (heq ▸ hm)
        simp [hne]
      rw [hsame]
      omega

theorem lookup_assignAll {m : Text} (hpairs : Assignable sh (pairs.map Prod.fst))
    (hm : m ∉ pairs.map Prod.fst) :
    lookupVisibleVar (assignAll sh pairs) (assignAll sh pairs).frames m true =
      lookupVisibleVar sh sh.frames m true := by
  induction pairs generalizing sh with
  | nil => rfl
  | cons pair pairs ih =>
    rw [List.map_cons, List.mem_cons, not_or] at hm
    have hcut : m ≠ copyString arkshMaxVarName pair.1 := by
      rw [copyString_of_lt (hpairs.fit pair.1 List.mem_cons_self)]
      exact hm.1
    have hrest := ih (hpairs.tail pair.2) hm.2
    exact hrest.trans (setVar_lookup_of_ne hm.1 (.inl hcut))

/-- **Each name shows what was assigned to it.** -/
theorem getVar_assignAll (hpairs : Assignable sh (pairs.map Prod.fst))
    (hfit : ∀ pair ∈ pairs, pair.2.length < arkshMaxVarValue) :
    ∀ pair ∈ pairs, arkshShellGetVar (assignAll sh pairs) pair.1 = some pair.2 := by
  induction pairs generalizing sh with
  | nil => exact nofun
  | cons first pairs ih =>
    intro pair hpair
    rcases List.mem_cons.mp hpair with rfl | hpair
    · have hnot := (List.nodup_cons.mp hpairs.distinct).1
      have hlookup := lookup_assignAll (hpairs.tail pair.2) hnot
      rw [setVar_lookup_self hpairs.head (hpairs.fit pair.1 List.mem_cons_self),
        copyString_of_lt (hfit pair List.mem_cons_self)] at hlookup
      exact getVar_of_lookup (ne_nil_of_valid (hpairs.identifiers pair.1 List.mem_cons_self)) hlookup
    · exact ih (hpairs.tail first.2) (fun q hq => hfit q (List.mem_cons_of_mem _ hq)) pair hpair

theorem Assignable.sublist {few : List Text} (h : Assignable sh names) (hfew : few.Sublist names) :
    Assignable sh few where
  identifiers m hm := h.identifiers m (hfew.subset hm)
  fit m hm := h.fit m (hfew.subset hm)
  distinct := h.distinct.sublist hfew
  room := by
    have hroom := h.room
    have hlength := (hfew.filter (· ∉ sh.topNames)).length_le
    omega

theorem Assignable.perm {others : List Text} (h : Assignable sh names) (hperm : names.Perm others) :
    Assignable sh others where
  identifiers m hm := h.identifiers m (hperm.mem_iff.mpr hm)
  fit m hm := h.fit m (hperm.mem_iff.mpr hm)
  distinct := hperm.nodup_iff.mp h.distinct
  room := by
    rw [← (hperm.filter (· ∉ sh.topNames)).length_eq]
    exact h.room

theorem Assignable.again (h : Assignable sh names) (hname : name ∈ names) (v : Text) :
    Assignable (arkshShellSetVar sh name v false).2 names where
  identifiers := h.identifiers
  fit := h.fit
  distinct := h.distinct
  room := by
    have hroom := h.room
    rw [setVar_topNames (h.identifiers name hname)]
    unfold enter
    by_cases hmem : name ∈ sh.topNames
    · rwa [if_pos hmem]
    · have hnew : name ∈ names.filter (· ∉ sh.topNames) :=
        List.mem_filter.mpr ⟨hname, by simpa using hmem⟩
      have hpos := List.length_pos_of_mem hnew
      rw [if_neg hmem, if_pos (by omega), copyString_of_lt (h.fit name hname), List.length_append,
        List.length_singleton]
      have hrest : names.filter (· ∉ sh.topNames ++ [name]) =
          (names.filter (· ∉ sh.topNames)).erase name := by
        rw [(h.distinct.filter _).erase_eq_filter, List.filter_filter]
        refine List.filter_congr fun m _ => ?_
        simp [and_comm, bne, beq_eq_decide]
      rw [hrest, List.length_erase_of_mem hnew]
      omega

theorem assignable_assignAll (h : Assignable sh names) (hpairs : ∀ pair ∈ pairs, pair.1 ∈ names) :
    Assignable (assignAll sh pairs) names := by
  induction pairs generalizing sh with
  | nil => exact h
  | cons pair pairs ih =>
    exact ih (h.again (hpairs pair List.mem_cons_self) pair.2)
      fun q hq => hpairs q (List.mem_cons_of_mem _ hq)

end Assign

end Arksh
