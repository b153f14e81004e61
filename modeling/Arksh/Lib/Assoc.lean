/-
  Subject: Association lists that overwrite in place.

  `put k v l` gives the first pair with key `k` the value `v`, and appends a new pair where
  there is none: the order of the keys is the order of their first writes. Reading is
  `List.lookup`.
-/
import Mathlib.Data.List.Dedup
import Mathlib.Data.List.Induction

namespace Assoc

open List

variable {K V W : Type*} [DecidableEq K] {v : V}

/-- Overwrite the value at `k`, or append the pair. -/
def put (k : K) (v : V) : List (K × V) → List (K × V)
  | [] => [(k, v)]
  | p :: l => if p.1 = k then (p.1, v) :: l else p :: put k v l

@[simp] theorem put_nil (k : K) (v : V) : put k v [] = [(k, v)] := rfl

variable {k j : K} {p : K × V}

theorem put_cons_of_ne (h : p.1 ≠ k) (v : V) (l : List (K × V)) :
    put k v (p :: l) = p :: put k v l := by simp [put, h]

/-! ## 1. One write -/

section Lookup

variable [BEq K] [LawfulBEq K]

theorem lookup_cons_ite (k : K) (p : K × V) (l : List (K × V)) :
    (p :: l).lookup k = if k = p.1 then some p.2 else l.lookup k := by
  obtain ⟨a, b⟩ := p
  by_cases h : k = a
  · simp [h]
  · have h' : (k == a) = false := by simpa using h
    simp [lookup_cons, h, h']

theorem lookup_put_self (k : K) (v : V) (l : List (K × V)) : (put k v l).lookup k = some v := by
  induction l with
  | nil => simp
  | cons p l ih =>
    by_cases h : p.1 = k
    · simp [put, h]
    · rw [put_cons_of_ne h, lookup_cons_ite, if_neg fun e => h e.symm, ih]

theorem lookup_put_of_ne (h : j ≠ k) (v : V) (l : List (K × V)) :
    (put k v l).lookup j = l.lookup j := by
  induction l with
  | nil => simp [lookup_cons_ite, h]
  | cons p l ih =>
    by_cases hp : p.1 = k
    · simp [put, hp, lookup_cons_ite, h]
    · rw [put_cons_of_ne hp, lookup_cons_ite, lookup_cons_ite, ih]

end Lookup

theorem keys_put (k : K) (v : V) (l : List (K × V)) : (put k v l).map Prod.fst =
      if k ∈ l.map Prod.fst then l.map Prod.fst else l.map Prod.fst ++ [k] := by
  induction l with
  | nil => simp
  | cons p l ih =>
    by_cases hp : p.1 = k
    · simp [put, hp]
    · have hk : k ≠ p.1 := fun e => hp e.symm
      simp only [put, if_neg hp, map_cons, ih, mem_cons, hk, false_or]
      split <;> simp

variable {l ops : List (K × V)}

theorem mem_keys_put : j ∈ (put k v l).map Prod.fst ↔ j = k ∨ j ∈ l.map Prod.fst := by
  rw [keys_put]
  split
  · rename_i h
    constructor
    · exact Or.inr
    · rintro (rfl | hj)
      · exact h
      · exact hj
  · rw [mem_append, mem_singleton, or_comm]

theorem nodup_put (h : (l.map Prod.fst).Nodup) : ((put k v l).map Prod.fst).Nodup := by
  rw [keys_put]
  split
  · exact h
  · rename_i hk
    rw [nodup_append]
    refine ⟨h, nodup_singleton k, fun a ha b hb => ?_⟩
    rintro rfl
    exact hk (by rwa [mem_singleton.mp hb] at ha)

theorem map_put (f : V → W) (k : K) (v : V) (l : List (K × V)) :
    (put k v l).map (fun p => (p.1, f p.2)) = put k (f v) (l.map fun p => (p.1, f p.2)) := by
  induction l with
  | nil => rfl
  | cons p l ih => by_cases hp : p.1 = k <;> simp [put, hp, ih]

/-! ## 2. A run of writes -/

variable {ops : List (K × V)}

/-- Write the pairs of `ops` one after the other. -/
def putAll (l : List (K × V)) (ops : List (K × V)) : List (K × V) :=
  ops.foldl (fun m p => put p.1 p.2 m) l

def lastWrite [BEq K] (k : K) (ops : List (K × V)) : Option V := ops.reverse.lookup k

@[simp] theorem putAll_nil (l : List (K × V)) : putAll l [] = l := rfl

@[simp] theorem putAll_cons (l : List (K × V)) (p : K × V) (ops : List (K × V)) :
    putAll l (p :: ops) = putAll (put p.1 p.2 l) ops := rfl

theorem putAll_concat (l : List (K × V)) (ops : List (K × V)) (p : K × V) :
    putAll l (ops ++ [p]) = put p.1 p.2 (putAll l ops) := by
  simp [putAll, foldl_append]

theorem lastWrite_concat [BEq K] [LawfulBEq K] (k : K) (ops : List (K × V)) (p : K × V) :
    lastWrite k (ops ++ [p]) = if k = p.1 then some p.2 else lastWrite k ops := by
  rw [lastWrite, reverse_append, reverse_singleton, singleton_append, lookup_cons_ite, lastWrite]

theorem lastWrite_map [BEq K] [LawfulBEq K] (f : V → W) (k : K) (ops : List (K × V)) :
    lastWrite k (ops.map fun p => (p.1, f p.2)) = (lastWrite k ops).map f := by
  induction ops using List.reverseRecOn with
  | nil => rfl
  | append_singleton ops p ih =>
    rw [map_append, map_singleton, lastWrite_concat, lastWrite_concat, ih]
    split <;> rfl

/-- **What a run of writes leaves at `k` is what its last write for `k` carries.** -/
theorem lookup_putAll [BEq K] [LawfulBEq K] (k : K) (ops : List (K × V)) :
    (putAll [] ops).lookup k = lastWrite k ops := by
  induction ops using List.reverseRecOn with
  | nil => rfl
  | append_singleton ops p ih =>
    rw [putAll_concat, lastWrite_concat]
    by_cases h : k = p.1
    · subst h; rw [if_pos rfl, lookup_put_self]
    · rw [if_neg h, lookup_put_of_ne h, ih]

theorem mem_keys_putAll : k ∈ (putAll [] ops).map Prod.fst ↔ k ∈ ops.map Prod.fst := by
  induction ops using List.reverseRecOn with
  | nil => simp
  | append_singleton ops p ih =>
    rw [putAll_concat, mem_keys_put, ih, map_append, mem_append, map_singleton,
      mem_singleton, or_comm]

theorem nodup_putAll (ops : List (K × V)) : ((putAll [] ops).map Prod.fst).Nodup := by
  induction ops using List.reverseRecOn with
  | nil => simp
  | append_singleton ops p ih => rw [putAll_concat]; exact nodup_put ih

/-- **A run of writes leaves one pair for each distinct key.** -/
theorem length_putAll (ops : List (K × V)) :
    (putAll [] ops).length = (ops.map Prod.fst).dedup.length := by
  have hp : ((putAll [] ops).map Prod.fst).Perm (ops.map Prod.fst).dedup :=
    (perm_ext_iff_of_nodup (nodup_putAll ops) (nodup_dedup _)).mpr fun k => by
      rw [mem_keys_putAll, mem_dedup]
  simpa using hp.length_eq

theorem lastWrite_isSome [BEq K] [LawfulBEq K] :
    (lastWrite k ops).isSome ↔ k ∈ ops.map Prod.fst := by
  induction ops using List.reverseRecOn with
  | nil => simp [lastWrite]
  | append_singleton ops p ih =>
    rw [lastWrite_concat, map_append, mem_append, map_singleton, mem_singleton, ← ih]
    by_cases h : k = p.1 <;> simp [h]

theorem put_of_notMem (h : k ∉ l.map Prod.fst) (v : V) : put k v l = l ++ [(k, v)] := by
  induction l with
  | nil => rfl
  | cons p l ih =>
    rw [map_cons, mem_cons, not_or] at h
    rw [put_cons_of_ne (Ne.symm h.1), ih h.2, cons_append]

theorem putAll_of_nodup (h : (ops.map Prod.fst).Nodup) : putAll [] ops = ops := by
  induction ops using List.reverseRecOn with
  | nil => rfl
  | append_singleton ops p ih =>
    rw [map_append, map_singleton, nodup_append] at h
    obtain ⟨h1, -, h3⟩ := h
    rw [putAll_concat, ih h1, put_of_notMem]
    intro hp
    exact h3 _ hp _ (mem_singleton_self p.1) rfl

theorem lastWrite_of_nodup [BEq K] [LawfulBEq K] (h : (ops.map Prod.fst).Nodup) (k : K) :
    lastWrite k ops = ops.lookup k := by
  rw [← lookup_putAll, putAll_of_nodup h]

theorem mem_put (h : p ∈ put k v l) : p ∈ l ∨ p = (k, v) := by
  induction l with
  | nil => exact .inr (mem_singleton.mp h)
  | cons q l ih =>
    rw [put] at h
    split at h
    · rename_i hq
      rcases mem_cons.mp h with rfl | h
      · exact .inr (by rw [hq])
      · exact .inl (mem_cons_of_mem _ h)
    · rcases mem_cons.mp h with rfl | h
      · exact .inl mem_cons_self
      · exact (ih h).imp_left (mem_cons_of_mem _)

theorem mem_putAll_of (h : p ∈ putAll l ops) : p ∈ l ∨ p ∈ ops := by
  induction ops generalizing l with
  | nil => exact .inl h
  | cons q ops ih =>
    rcases ih h with h | h
    · rcases mem_put h with h | rfl
      · exact .inl h
      · exact .inr mem_cons_self
    · exact .inr (mem_cons_of_mem _ h)

theorem mem_putAll (h : p ∈ putAll [] ops) : p ∈ ops :=
  (mem_putAll_of h).resolve_left not_mem_nil

theorem keys_putAll_congr {ops' : List (K × V)} (h : ops.map Prod.fst = ops'.map Prod.fst)
    (l l' : List (K × V)) (hl : l.map Prod.fst = l'.map Prod.fst) :
    (putAll l ops).map Prod.fst = (putAll l' ops').map Prod.fst := by
  induction ops generalizing ops' l l' with
  | nil =>
    cases ops' with
    | nil => exact hl
    | cons q ops' => cases h
  | cons p ops ih =>
    cases ops' with
    | nil => cases h
    | cons q ops' =>
      obtain ⟨h1, h2⟩ := cons.inj h
      refine ih h2 _ _ ?_
      rw [keys_put, keys_put, hl, h1]

theorem eq_of_keys_of_lookup [BEq K] [LawfulBEq K] {l' : List (K × V)} (hn : (l.map Prod.fst).Nodup)
    (hk : l.map Prod.fst = l'.map Prod.fst) (h : ∀ k ∈ l.map Prod.fst, l.lookup k = l'.lookup k) :
    l = l' := by
  induction l generalizing l' with
  | nil =>
    cases l' with
    | nil => rfl
    | cons q l' => cases hk
  | cons p l ih =>
    cases l' with
    | nil => cases hk
    | cons q l' =>
      obtain ⟨h1, h2⟩ := cons.inj hk
      obtain ⟨hp, hn⟩ := nodup_cons.mp hn
      have hpq : p = q := by
        have hl := h p.1 mem_cons_self
        rw [lookup_cons_ite, lookup_cons_ite, if_pos rfl, if_pos h1] at hl
        exact Prod.ext h1 (Option.some.inj hl)
      rw [hpq, ih hn h2]
      intro k hk'
      have hne : k ≠ p.1 := by rintro rfl; exact hp hk'
      have hl := h k (mem_cons_of_mem _ hk')
      rwa [lookup_cons_ite, lookup_cons_ite, if_neg hne, if_neg (h1 ▸ hne)] at hl

/-! ## 3. One list on top of the other -/

theorem nodup_putAll_of (h : (l.map Prod.fst).Nodup) : ((putAll l ops).map Prod.fst).Nodup := by
  induction ops generalizing l with
  | nil => exact h
  | cons p ops ih => exact ih (nodup_put h)

theorem keys_putAll (hops : (ops.map Prod.fst).Nodup) (l : List (K × V)) :
    (putAll l ops).map Prod.fst =
      l.map Prod.fst ++ (ops.map Prod.fst).filter fun k => k ∉ l.map Prod.fst := by
  induction ops generalizing l with
  | nil => simp
  | cons p ops ih =>
    obtain ⟨hp, hops⟩ := nodup_cons.mp hops
    rw [putAll_cons, ih hops, keys_put, map_cons]
    by_cases hk : p.1 ∈ l.map Prod.fst
    · rw [if_pos hk, filter_cons_of_neg (by simpa using hk)]
    · rw [if_neg hk, filter_cons_of_pos (by simpa using hk), append_assoc, singleton_append]
      refine congrArg (l.map Prod.fst ++ p.1 :: ·) (filter_congr fun k hkey => ?_)
      have hne : k ≠ p.1 := fun e => hp (e ▸ hkey)
      simp [hne]

theorem lookup_putAll_of [BEq K] [LawfulBEq K] (k : K) (l ops : List (K × V)) :
    (putAll l ops).lookup k = (lastWrite k ops).or (l.lookup k) := by
  induction ops using List.reverseRecOn with
  | nil => rfl
  | append_singleton ops p ih =>
    rw [putAll_concat, lastWrite_concat]
    by_cases h : k = p.1
    · subst h
      rw [if_pos rfl, lookup_put_self]
      rfl
    · rw [if_neg h, lookup_put_of_ne h, ih]

/-- **Lists with distinct keys can be written on top of each other in any grouping.** -/
theorem putAll_assoc [BEq K] [LawfulBEq K] {a b c : List (K × V)} (ha : (a.map Prod.fst).Nodup)
    (hb : (b.map Prod.fst).Nodup) (hc : (c.map Prod.fst).Nodup) :
    putAll (putAll a b) c = putAll a (putAll b c) := by
  have hbc : ((putAll b c).map Prod.fst).Nodup := nodup_putAll_of hb
  apply eq_of_keys_of_lookup (nodup_putAll_of (nodup_putAll_of ha))
  · rw [keys_putAll hc, keys_putAll hb, keys_putAll hbc, keys_putAll hc, filter_append,
      filter_filter, append_assoc]
    refine congrArg _ (congrArg _ (filter_congr fun k _ => ?_))
    by_cases hka : k ∈ a.map Prod.fst <;> by_cases hkb : k ∈ b.map Prod.fst <;> simp [hka, hkb]
  · intro k _
    rw [lookup_putAll_of, lookup_putAll_of, lookup_putAll_of, lastWrite_of_nodup hb,
      lastWrite_of_nodup hbc, lookup_putAll_of, Option.or_assoc]

end Assoc
