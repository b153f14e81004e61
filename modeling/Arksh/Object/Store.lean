/-
  Subject: Storing values in containers and reading them back.

  A MAP is the association list of its entries, and `arksh_value_map_set` is `Assoc.put` on it as
  long as the key fits the 128 bytes of the key field. A longer key is cut when it is stored but
  compared whole, so it is never found again.
-/
import Arksh.Object.Datum

namespace Arksh

open CText Assoc List

/-! ## 1. One write -/

def entryPairs (entries : List ArkshValueMapEntry) : List (Text × ArkshValueItem) :=
  entries.map fun e => (e.key.1, e.value)

@[simp] theorem entryPairs_nil : entryPairs [] = [] := rfl

variable {key : Text}

theorem setEntry_eq_put (hk : key.length < arkshMaxName) (item : ArkshValueItem)
    (entries : List ArkshValueMapEntry) :
    entryPairs (setEntry key item entries) = put key item (entryPairs entries) := by
  induction entries with
  | nil => simp [setEntry, entryPairs, copyName_of_lt hk]
  | cons e entries ih =>
    simp only [entryPairs, map_cons] at ih ⊢
    by_cases h : e.key.1 = key
    · simp [setEntry, put, h]
    · simp [setEntry, put, h, ih]

theorem findEntry_eq_lookup (key : Text) (entries : List ArkshValueMapEntry) :
    findEntry key entries = (entryPairs entries).lookup key := by
  induction entries with
  | nil => rfl
  | cons e entries ih =>
    rw [findEntry, entryPairs, map_cons, lookup_cons_ite, ih, entryPairs]
    by_cases h : e.key.1 = key
    · simp [h]
    · rw [if_neg h, if_neg fun e => h e.symm]

theorem findEntry_of_le (hk : arkshMaxName ≤ key.length) (entries : List ArkshValueMapEntry) :
    findEntry key entries = none := by
  induction entries with
  | nil => rfl
  | cons e entries ih => rw [findEntry, if_neg (copyName_ne hk e.key), ih]

variable {m m' v l : ArkshValue}

theorem mapSet_of_isMapLike (hm : m.kind.isMapLike = true) (hk : key ≠ []) (v : ArkshValue) :
    arkshValueMapSet m key v =
      some { m with map := setEntry key (arkshValueItemSetFromValue v) m.map } := by
  have he : m.kind ≠ .empty := fun e => by rw [e] at hm; cases hm
  simp [arkshValueMapSet, hk, he, hm]

theorem mapSet_some (h : arkshValueMapSet m key v = some m') :
    key ≠ [] ∧ m'.kind.isMapLike = true ∧
      m'.map = setEntry key (arkshValueItemSetFromValue v) m.map := by
  unfold arkshValueMapSet at h
  by_cases hk : key = []
  · simp [hk] at h
  by_cases he : m.kind = .empty
  · simp only [if_neg hk, he, if_true, ArkshValueKind.isMapLike] at h
    obtain rfl := Option.some.inj h
    exact ⟨hk, rfl, rfl⟩
  by_cases hm : m.kind.isMapLike = true
  · simp only [if_neg hk, if_neg he, hm, Bool.true_eq_false, if_false] at h
    obtain rfl := Option.some.inj h
    exact ⟨hk, hm, rfl⟩
  · simp [hk, he, Bool.eq_false_of_not_eq_true hm] at h

theorem getItem_mapSet (h : arkshValueMapSet m key v = some m') :
    arkshValueMapGetItem m' key =
      if key.length < arkshMaxName then some (arkshValueItemSetFromValue v) else none := by
  obtain ⟨-, hm, he⟩ := mapSet_some h
  rw [arkshValueMapGetItem, if_pos hm, he]
  split
  · rename_i hk; rw [findEntry_eq_lookup, setEntry_eq_put hk, lookup_put_self]
  · rename_i hk; exact findEntry_of_le (Nat.le_of_not_lt hk) _

theorem listAppendValue_some {l' : ArkshValue} (h : arkshValueListAppendValue l v = some l') :
    l'.list = l.list ++ [arkshValueItemCopy (arkshValueItemSetFromValue v)] := by
  unfold arkshValueListAppendValue arkshValueListAppendItem at h
  by_cases he : l.kind = .empty
  · rw [if_pos he, if_neg (by simp)] at h
    obtain rfl := Option.some.inj h
    rfl
  by_cases hl : l.kind = .list
  · rw [if_neg he, if_neg (by simp [hl])] at h
    obtain rfl := Option.some.inj h
    rfl
  · simp [he, hl] at h

/-! ### What a write denotes -/

theorem map_setEntry (hk : key.length < arkshMaxName) (v : ArkshValue)
    (entries : List ArkshValueMapEntry) : (setEntry key (arkshValueItemSetFromValue v) entries).map
        (fun e => (e.key.1, e.value.denote)) =
      put key v.denote.stored (entries.map fun e => (e.key.1, e.value.denote)) := by
  have h := congrArg (List.map fun p => (p.1, p.2.denote))
    (setEntry_eq_put hk (arkshValueItemSetFromValue v) entries)
  rw [map_put, denote_itemSetFromValue] at h
  simpa [entryPairs, Function.comp_def] using h

theorem denote_mapSet {entries : List (Text × Datum)} (hm : m.denote = .map entries)
    (hne : key ≠ []) (hk : key.length < arkshMaxName) (v : ArkshValue) :
    ∃ m', arkshValueMapSet m key v = some m' ∧
      m'.denote = .map (put key v.denote.stored entries) := by
  have hkind : m.kind = .map := by rw [← kind_denote, hm]; rfl
  refine ⟨_, mapSet_of_isMapLike (by rw [hkind]; rfl) hne v, ?_⟩
  rw [denote_map _ hkind] at hm
  obtain rfl := Datum.map.inj hm
  rw [denote_map _ (by exact hkind), map_setEntry hk]

theorem denote_listAppendValue {items : List Datum} (hl : l.denote = .list items) (v : ArkshValue) :
    ∃ l', arkshValueListAppendValue l v = some l' ∧
      l'.denote = .list (items ++ [v.denote.stored]) := by
  have hkind : l.kind = .list := by rw [← kind_denote, hl]; rfl
  rw [denote_list _ hkind] at hl
  obtain rfl := Datum.list.inj hl
  have hne : l.kind ≠ .empty := by rw [hkind]; decide
  refine ⟨{ l with list := l.list ++ [arkshValueItemCopy (arkshValueItemSetFromValue v)] },
    ?_, ?_⟩
  · rw [arkshValueListAppendValue, arkshValueListAppendItem, if_neg hne]; simp [hkind]
  · rw [denote_list _ (by exact hkind), map_append, map_singleton, denote_itemCopy,
      denote_itemSetFromValue]

/-! ## 2. Reading back -/

/-- Storing `v` gives `v` back: through an item, a list, and the entry of a map at `key`. -/
structure ReadsBack (v : ArkshValue) (key : Text) : Prop where
  item : (arkshValueSetFromItem (arkshValueItemSetFromValue v)).denote = v.denote
  list : ∀ l l', arkshValueListAppendValue l v = some l' →
    l'.list[l.list.length]?.map (fun i => (arkshValueSetFromItem i).denote) = some v.denote
  map : ∀ m m', arkshValueMapSet m key v = some m' →
    (arkshValueMapGetItem m' key).map (fun i => (arkshValueSetFromItem i).denote) = some v.denote

/-- **A value reads back iff it is no MATRIX with a table and the key fits its field.** -/
theorem readsBack_iff (v : ArkshValue) (key : Text) :
    ReadsBack v key ↔ v.holdsTable = false ∧ key.length < arkshMaxName := by
  constructor
  · intro h
    refine ⟨?_, ?_⟩
    · have hi := h.item
      rwa [denote_setFromItem, denote_itemSetFromValue_eq_iff] at hi
    · by_cases hk : key = []
      · subst hk; decide
      · have hs : arkshValueMapSet arkshValueSetMap key v = _ := mapSet_of_isMapLike rfl hk v
        have hg := h.map _ _ hs
        rw [getItem_mapSet hs] at hg
        by_contra hlt
        rw [if_neg hlt] at hg
        cases hg
  · intro ⟨ht, hk⟩
    have hv := (denote_itemSetFromValue_eq_iff v).mpr ht
    refine ⟨?_, fun l l' hl => ?_, fun m m' hm => ?_⟩
    · rw [denote_setFromItem, hv]
    · simp [listAppendValue_some hl, denote_setFromItem, denote_itemCopy, hv]
    · simp [getItem_mapSet hm, hk, denote_setFromItem, hv]

def tableValue : ArkshValue :=
  { arkshValueInit with kind := .matrix, matrix := some ⟨[], [[]], by simp⟩ }

/-- The table of a MATRIX does not come back. -/
theorem not_readsBack_tableValue : ¬ ReadsBack tableValue ['k'] := fun h => by
  have := h.item
  simp [arkshValueSetFromItem, arkshValueItemSetFromValue, tableValue, arkshValueInit,
    ArkshValueKind.ownsNested, ArkshValue.denote] at this

/-! ## 3. Runs of writes -/

def runSets : ArkshValue → List (Text × ArkshValue) → Option ArkshValue
  | m, [] => some m
  | m, op :: ops => (arkshValueMapSet m op.1 op.2).bind fun m' => runSets m' ops

structure RepresentsWrites (m : ArkshValue) (ops : List (Text × ArkshValue)) : Prop where
  keys_distinct : (m.map.map fun e => e.key.1).Nodup
  count : m.map.length = (ops.map Prod.fst).dedup.length
  reads : ∀ k, (arkshValueMapGetItem m k).map (fun i => (arkshValueSetFromItem i).denote) =
    (lastWrite k ops).map ArkshValue.denote

variable {ops : List (Text × ArkshValue)}

theorem runSets_isSome (hne : ∀ op ∈ ops, op.1 ≠ []) :
    ∀ {m : ArkshValue}, m.kind.isMapLike = true →
      ∃ m', runSets m ops = some m' ∧ m'.kind = m.kind := by
  induction ops with
  | nil => exact fun {m} _ => ⟨m, rfl, rfl⟩
  | cons op ops ih =>
    intro m hm
    rw [runSets, mapSet_of_isMapLike hm (hne op mem_cons_self)]
    exact ih (fun o ho => hne o (mem_cons_of_mem _ ho)) hm

theorem runSets_eq_putAll (hlt : ∀ op ∈ ops, op.1.length < arkshMaxName) :
    ∀ {m m' : ArkshValue}, runSets m ops = some m' → entryPairs m'.map = putAll (entryPairs m.map)
        (ops.map fun p => (p.1, arkshValueItemSetFromValue p.2)) := by
  induction ops with
  | nil => rintro m m' h; obtain rfl := Option.some.inj h; rfl
  | cons op ops ih =>
    intro m m' h
    rw [runSets, Option.bind_eq_some_iff] at h
    obtain ⟨m₁, h₁, h₂⟩ := h
    rw [ih (fun o ho => hlt o (mem_cons_of_mem _ ho)) h₂, (mapSet_some h₁).2.2,
      setEntry_eq_put (hlt op mem_cons_self), map_cons, putAll_cons]

theorem getItem_runSets {start : ArkshValue} (hk : m.kind.isMapLike = true) (h0 : start.map = [])
    (hlt : ∀ op ∈ ops, op.1.length < arkshMaxName) (hrun : runSets start ops = some m) (k : Text) :
    arkshValueMapGetItem m k = (lastWrite k ops).map arkshValueItemSetFromValue := by
  have hp := runSets_eq_putAll hlt hrun
  rw [h0] at hp
  rw [arkshValueMapGetItem, if_pos hk, findEntry_eq_lookup, hp, entryPairs_nil, lookup_putAll,
    lastWrite_map]

/-- **The writes of a run are represented iff every key fits and no key was last given a MATRIX with
    a table.** -/
theorem representsWrites_iff {start : ArkshValue} (hk : start.kind.isMapLike = true)
    (h0 : start.map = []) {ops : List (Text × ArkshValue)} (hne : ∀ op ∈ ops, op.1 ≠ []) :
    ∃ m, runSets start ops = some m ∧
      (RepresentsWrites m ops ↔ (∀ op ∈ ops, op.1.length < arkshMaxName) ∧
        ∀ k v, lastWrite k ops = some v → v.holdsTable = false) := by
  obtain ⟨m, hrun, hkind⟩ := runSets_isSome hne hk
  have hmap : m.kind.isMapLike = true := by rw [hkind, hk]
  refine ⟨m, hrun, fun h => ?_, fun ⟨hlt, htab⟩ => ?_⟩
  · have hlt : ∀ op ∈ ops, op.1.length < arkshMaxName := by
      intro op ho
      by_contra hle
      -- a key that was cut is never found, though it was written
      have hn : arkshValueMapGetItem m op.1 = none := by
        rw [arkshValueMapGetItem, if_pos hmap, findEntry_of_le (Nat.le_of_not_lt hle)]
      have hs : (lastWrite op.1 ops).isSome := lastWrite_isSome.mpr (mem_map_of_mem ho)
      obtain ⟨v, hv⟩ := Option.isSome_iff_exists.mp hs
      have := h.reads op.1
      rw [hn, hv] at this
      cases this
    refine ⟨hlt, fun k v hv => ?_⟩
    have := h.reads k
    rw [getItem_runSets hmap h0 hlt hrun, hv] at this
    simpa [denote_setFromItem, denote_itemSetFromValue_eq_iff] using this
  · have hp := runSets_eq_putAll hlt hrun
    rw [h0] at hp
    have hkeys : (m.map.map fun e => e.key.1) = (entryPairs m.map).map Prod.fst := by
      simp [entryPairs]
    refine ⟨?_, ?_, fun k => ?_⟩
    · rw [hkeys, hp]; exact nodup_putAll _
    · have hl := congrArg List.length hp
      rw [entryPairs_nil, length_putAll] at hl
      simpa [entryPairs, Function.comp_def] using hl
    · rw [getItem_runSets hmap h0 hlt hrun]
      cases hv : lastWrite k ops with
      | none => rfl
      | some v =>
        have := (denote_itemSetFromValue_eq_iff v).mpr (htab k v hv)
        simp [denote_setFromItem, this]

/-- Two writes to an empty MAP, and reading them back. -/
theorem representsWrites_iff_two :
    ∃ m, runSets arkshValueSetMap [(['a'], arkshValueInit), (['b'], tableValue)] = some m ∧
      (RepresentsWrites m [(['a'], arkshValueInit), (['b'], tableValue)] ↔
        (∀ op ∈ [(['a'], arkshValueInit), (['b'], tableValue)], op.1.length < arkshMaxName) ∧
        ∀ k v, lastWrite k [(['a'], arkshValueInit), (['b'], tableValue)] = some v →
          v.holdsTable = false) :=
  representsWrites_iff rfl rfl (by simp)

/-- A key of 128 bytes is not found again. -/
theorem not_representsWrites_longKey : ¬ ∀ ops : List (Text × ArkshValue), (∀ op ∈ ops, op.1 ≠ []) →
      ∃ m, runSets arkshValueSetMap ops = some m ∧ RepresentsWrites m ops := fun h => by
  obtain ⟨m, hrun, hm⟩ := h [(List.replicate 128 'k', arkshValueInit)] (by simp)
  have hr := hm.reads (List.replicate 128 'k')
  have hlen : arkshMaxName ≤ (List.replicate 128 'k').length := by simp [arkshMaxName]
  have hn : arkshValueMapGetItem m (List.replicate 128 'k') = none := by
    unfold arkshValueMapGetItem
    split
    · exact findEntry_of_le hlen _
    · rfl
  rw [hn] at hr
  simp [lastWrite] at hr

end Arksh
