/-
  Subject: Grouping keyed elements: one group for every key, in an association list.
-/
import Arksh.Lib.Assoc
import Mathlib.Data.List.Perm.Basic

namespace Grouping

open Assoc List

variable {K V : Type*} [DecidableEq K] {pairs : List (K × V)} {k : K}

/-! ## 1. Groups -/

def ofKey (pairs : List (K × V)) (k : K) : List V := (pairs.filter fun p => p.1 = k).map Prod.snd

structure IsGrouping (pairs : List (K × V)) (groups : List (K × List V)) : Prop where
  nodup : (groups.map Prod.fst).Nodup
  keys : ∀ k, k ∈ groups.map Prod.fst ↔ k ∈ pairs.map Prod.fst
  items : ∀ g ∈ groups, g.2 = ofKey pairs g.1

/-- An element comes into the group of its key. -/
def groupStep [BEq K] (groups : List (K × List V)) (p : K × V) : List (K × List V) :=
  put p.1 ((groups.lookup p.1).getD [] ++ [p.2]) groups

def groupAll [BEq K] (pairs : List (K × V)) : List (K × List V) := pairs.foldl groupStep []

/-! ## 2. One element -/

theorem ofKey_concat (pairs : List (K × V)) (p : K × V) (k : K) :
    ofKey (pairs ++ [p]) k = ofKey pairs k ++ if p.1 = k then [p.2] else [] := by
  rw [ofKey, filter_append, map_append, ofKey]
  by_cases h : p.1 = k
  · rw [if_pos h, filter_cons_of_pos (by simpa using h)]; rfl
  · rw [if_neg h, filter_cons_of_neg (by simpa using h)]; rfl

theorem ofKey_eq_nil (h : k ∉ pairs.map Prod.fst) : ofKey pairs k = [] := by
  rw [ofKey, filter_eq_nil_iff.mpr]
  · rfl
  · intro p hp
    have hne : p.1 ≠ k := fun heq => h (mem_map.mpr ⟨p, hp, heq⟩)
    simpa using hne

theorem mem_put {v : V} {l : List (K × V)} (hnodup : (l.map Prod.fst).Nodup) {g : K × V}
    (h : g ∈ put k v l) : g = (k, v) ∨ g ∈ l ∧ g.1 ≠ k := by
  induction l with
  | nil => exact .inl (mem_singleton.mp h)
  | cons p l ih =>
    rw [map_cons, nodup_cons] at hnodup
    by_cases hp : p.1 = k
    · rw [put, if_pos hp] at h
      rcases mem_cons.mp h with rfl | hg
      · exact .inl (by rw [hp])
      · refine .inr ⟨mem_cons_of_mem _ hg, fun heq => hnodup.1 ?_⟩
        rw [hp, ← heq]
        exact mem_map_of_mem hg
    · rw [put_cons_of_ne hp] at h
      rcases mem_cons.mp h with rfl | hg
      · exact .inr ⟨mem_cons_self, hp⟩
      · exact (ih hnodup.2 hg).imp_right (And.imp_left (mem_cons_of_mem p))

section Step

variable [BEq K] [LawfulBEq K] {pairs : List (K × V)} {groups : List (K × List V)}

theorem IsGrouping.lookup_getD (h : IsGrouping pairs groups) (k : K) :
    (groups.lookup k).getD [] = ofKey pairs k := by
  cases hlookup : groups.lookup k with
  | some items =>
    have hmem : (k, items) ∈ groups := by
      obtain ⟨l₁, l₂, hgroups, -⟩ := lookup_eq_some_iff.mp hlookup
      rw [hgroups]
      exact mem_append_right _ mem_cons_self
    exact h.items _ hmem
  | none =>
    refine (ofKey_eq_nil fun hk => ?_).symm
    obtain ⟨g, hg, hgk⟩ := mem_map.mp ((h.keys k).mpr hk)
    have hne := lookup_eq_none_iff.mp hlookup g hg
    rw [hgk] at hne
    simp at hne

/-- **What one element does.** -/
theorem IsGrouping.step (h : IsGrouping pairs groups) (p : K × V) :
    IsGrouping (pairs ++ [p]) (groupStep groups p) where
  nodup := nodup_put h.nodup
  keys k := by
    rw [groupStep, mem_keys_put, h.keys k, map_append, mem_append, map_singleton,
      mem_singleton, or_comm]
  items g hg := by
    rw [ofKey_concat]
    rcases mem_put h.nodup hg with rfl | ⟨hmem, hne⟩
    · rw [if_pos rfl, h.lookup_getD]
    · rw [if_neg fun heq => hne heq.symm, append_nil]; exact h.items g hmem

theorem isGrouping_groupAll (pairs : List (K × V)) : IsGrouping pairs (groupAll pairs) := by
  induction pairs using List.reverseRecOn with
  | nil => exact ⟨nodup_nil, fun _ => Iff.rfl, fun g hg => by cases hg⟩
  | append_singleton pairs p ih => rw [groupAll, foldl_append]; exact ih.step p

end Step

/-! ## 3. All groups -/

theorem flatMap_ofKey_perm {ks : List K} (hnodup : ks.Nodup) (h : ∀ p ∈ pairs, p.1 ∈ ks) :
    (ks.flatMap (ofKey pairs)).Perm (pairs.map Prod.snd) := by
  induction ks generalizing pairs with
  | nil =>
    cases pairs with
    | nil => exact .nil
    | cons p pairs => cases h p mem_cons_self
  | cons k ks ih =>
    rw [nodup_cons] at hnodup
    -- the elements of the other keys are those of the list without the ones of this key
    have hothers : ks.flatMap (ofKey pairs) =
        ks.flatMap (ofKey (pairs.filter fun p => ¬ p.1 = k)) := by
      refine flatMap_congr fun j hj => ?_
      have hne : j ≠ k := by rintro rfl; exact hnodup.1 hj
      rw [ofKey, ofKey, filter_filter]
      congr 1
      refine filter_congr fun p _ => ?_
      by_cases hp : p.1 = j
      · simp [hp, hne]
      · simp [hp]
    have hrest : ∀ p ∈ pairs.filter (fun p => ¬ p.1 = k), p.1 ∈ ks := by
      intro p hp
      rw [mem_filter] at hp
      exact (mem_cons.mp (h p hp.1)).resolve_left (by simpa using hp.2)
    rw [flatMap_cons, hothers]
    refine ((ih hnodup.2 hrest).append_left _).trans ?_
    rw [ofKey, ← map_append]
    simp only [decide_not]
    exact (filter_append_perm _ _).map Prod.snd

/-- **The groups, one behind the other, are the elements.** -/
theorem IsGrouping.perm {groups : List (K × List V)} (h : IsGrouping pairs groups) :
    (groups.flatMap Prod.snd).Perm (pairs.map Prod.snd) := by
  have hgroups : groups.flatMap Prod.snd = (groups.map Prod.fst).flatMap (ofKey pairs) := by
    rw [flatMap_map]
    exact flatMap_congr fun g hg => h.items g hg
  rw [hgroups]
  exact flatMap_ofKey_perm h.nodup fun p hp => (h.keys p.1).mpr (mem_map_of_mem hp)

end Grouping
