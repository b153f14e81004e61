/-
  Subject: The stage `group_by` of `src/executor.c`.

  The groups are the entries of a MAP. The stage looks a group up by its whole key, but the map
  keeps a key in 128 bytes: a longer one is cut, and its group is never found again.
-/
import Arksh.Exec.SortStage
import Arksh.Lib.Grouping
import Arksh.Object.Store

namespace Arksh

open CText Assoc Grouping List

/-! ## 1. The stage -/

/-- What the buffer `key` of `apply_group_by_stage` holds. -/
abbrev KeyText := {text : Text // text.length < arkshMaxToken}

/-- `ArkshPipelineStageNode`, as far as the stage reads it. -/
structure GroupByStage where
  argv : List Text
  rawArgs : Text

/-- What the stage calls: `resolve_stage_block_argument_parsed`, `evaluate_block`,
    `arksh_value_render` and `get_item_property_text`. -/
structure GroupByHost (σ : Type) where
  resolveBlock : GroupByStage → σ → Option ArkshBlock × σ
  evaluateBlock : ArkshBlock → ArkshValue → σ → Except Text ArkshValue × σ
  render : ArkshValue → Option KeyText
  propertyText : Text → ArkshValueItem → σ → Option KeyText × σ

inductive KeySource where
  | block (block : ArkshBlock)
  | property (property : Text)

def stageProperty (stage : GroupByStage) : Option Text :=
  match stage.argv with
  | arg :: _ => if arg.length ≥ arkshMaxName ∨ arg = [] then none else some arg
  | [] => (scanWord 127 stage.rawArgs).map Prod.fst

section Stage

variable {σ : Type} (host : GroupByHost σ) {items : List ArkshValueItem} {shell : σ}
  {keys : List Text}

def groupSource (stage : GroupByStage) (shell : σ) : Except Text KeySource × σ :=
  match host.resolveBlock stage shell with
  | (some block, shell) => (.ok (.block block), shell)
  | (none, shell) =>
    match stageProperty stage with
    | some property => (.ok (.property property), shell)
    | none => (.error "group_by() expects a property name or block".toList, shell)

def keyOf (source : KeySource) (item : ArkshValueItem) (shell : σ) : Except Text Text × σ :=
  match source with
  | .block block =>
    match host.evaluateBlock block (arkshValueSetFromItem item) shell with
    | (.error message, shell) => (.error message, shell)
    | (.ok value, shell) =>
      match host.render value with
      | none => (.error "group_by(): unable to render block result as key".toList, shell)
      | some key => (.ok key.1, shell)
  | .property property =>
    match host.propertyText property item shell with
    | (none, shell) => (.error ("group_by(): unknown property: ".toList ++ property), shell)
    | (some key, shell) => (.ok key.1, shell)

def groupItem (result : ArkshValue) (key : Text) (item : ArkshValueItem) :
    Except Text ArkshValue :=
  let group := match arkshValueMapGetItem result key with
    | some existing => arkshValueSetFromItem existing
    | none => { arkshValueInit with kind := .list }
  match arkshValueListAppendItem group item with
  | none => .error "group_by(): group list is too large".toList
  | some group =>
    match arkshValueMapSet result key group with
    | none => .error "group_by(): too many groups".toList
    | some result => .ok result

/-- The loop of `apply_group_by_stage`. -/
def groupLoop (source : KeySource) :
    ArkshValue → List ArkshValueItem → σ → Except Text ArkshValue × σ
  | result, [], shell => (.ok result, shell)
  | result, item :: items, shell =>
    match keyOf host source item shell with
    | (.error message, shell) => (.error message, shell)
    | (.ok key, shell) =>
      match groupItem result key item with
      | .error message => (.error message, shell)
      | .ok result => groupLoop source result items shell

/-- `arksh_value_set_map` -/
def emptyMap : ArkshValue := { arkshValueInit with kind := .map }

def applyGroupByStage (value : ArkshValue) (stage : GroupByStage) (shell : σ) :
    Except Text ArkshValue × σ :=
  if value.kind ≠ .list then (.error "group_by() expects a list".toList, shell)
  else
    match groupSource host stage shell with
    | (.error message, shell) => (.error message, shell)
    | (.ok source, shell) =>
      match groupLoop host source emptyMap value.list shell with
      | (.error message, shell) => (.error message, shell)
      | (.ok result, shell) => (.ok (arkshValueCopy result), shell)

/-! ## 2. Keys -/

def renderKeys (source : KeySource) : List ArkshValueItem → σ → Except Text (List Text)
  | [], _ => .ok []
  | item :: items, shell =>
    match keyOf host source item shell with
    | (.error message, _) => .error message
    | (.ok key, shell) =>
      match renderKeys source items shell with
      | .error message => .error message
      | .ok keys => .ok (key :: keys)

def stageKeys (value : ArkshValue) (stage : GroupByStage) (shell : σ) : Except Text (List Text) :=
  match groupSource host stage shell with
  | (.error message, _) => .error message
  | (.ok source, shell) => renderKeys host source value.list shell

/-- A run of writes under given keys. -/
def groupPairs (result : ArkshValue) : List (Text × ArkshValueItem) → Except Text ArkshValue
  | [] => .ok result
  | p :: pairs => (groupItem result p.1 p.2).bind fun result => groupPairs result pairs

variable {host} {source : KeySource}

theorem renderKeys_cons {item : ArkshValueItem}
    (h : renderKeys host source (item :: items) shell = .ok keys) :
    ∃ key shell' rest, keyOf host source item shell = (.ok key, shell') ∧
      renderKeys host source items shell' = .ok rest ∧ keys = key :: rest := by
  rw [renderKeys] at h
  cases hkey : keyOf host source item shell with
  | mk key shell' =>
    rw [hkey] at h
    cases key with
    | error message => cases h
    | ok key =>
      dsimp only at h
      cases hrest : renderKeys host source items shell' with
      | error message => rw [hrest] at h; cases h
      | ok rest =>
        rw [hrest] at h
        cases h
        exact ⟨key, shell', rest, rfl, hrest, rfl⟩

theorem renderKeys_length (h : renderKeys host source items shell = .ok keys) :
    keys.length = items.length := by
  induction items generalizing shell keys with
  | nil => cases h; rfl
  | cons item items ih =>
    obtain ⟨key, shell', rest, -, hrest, rfl⟩ := renderKeys_cons h
    rw [length_cons, length_cons, ih hrest]

/-- **The loop is a run of writes under the keys.** -/
theorem groupLoop_ok_iff {result result' : ArkshValue} {items : List ArkshValueItem} {shell : σ} :
    (groupLoop host source result items shell).1 = .ok result' ↔
      ∃ keys, renderKeys host source items shell = .ok keys ∧
        groupPairs result (keys.zip items) = .ok result' := by
  induction items generalizing result shell with
  | nil =>
    constructor
    · exact fun h => ⟨[], rfl, h⟩
    · rintro ⟨keys, hkeys, h⟩
      cases hkeys
      exact h
  | cons item items ih =>
    constructor
    · intro h
      rw [groupLoop] at h
      cases hkey : keyOf host source item shell with
      | mk key shell' =>
        rw [hkey] at h
        cases key with
        | error message => cases h
        | ok key =>
          dsimp only at h
          cases hitem : groupItem result key item with
          | error message => rw [hitem] at h; cases h
          | ok next =>
            rw [hitem] at h
            obtain ⟨keys, hkeys, hpairs⟩ := ih.mp h
            refine ⟨key :: keys, ?_, ?_⟩
            · rw [renderKeys, hkey]
              dsimp only
              rw [hkeys]
            · rw [zip_cons_cons, groupPairs, hitem]; exact hpairs
    · rintro ⟨keys, hkeys, hpairs⟩
      obtain ⟨key, shell', rest, hkey, hrest, rfl⟩ := renderKeys_cons hkeys
      rw [zip_cons_cons, groupPairs] at hpairs
      rw [groupLoop, hkey]
      dsimp only at hpairs ⊢
      cases hitem : groupItem result key item with
      | error message => rw [hitem] at hpairs; cases hpairs
      | ok next => rw [hitem] at hpairs; exact ih.mpr ⟨rest, hrest, hpairs⟩

end Stage

/-! ## 3. Writes -/

structure HoldsGroups (result : ArkshValue) : Prop where
  kind : result.kind = .map
  lists : ∀ e ∈ result.map, ∃ items, e.value.denote = .list items

section Writes

variable {result : ArkshValue} {key : Text} {item : ArkshValueItem}

theorem HoldsGroups.findEntry (h : HoldsGroups result) {existing : ArkshValueItem}
    (hfind : findEntry key result.map = some existing) :
    ∃ items, existing.denote = .list items := by
  rw [findEntry_eq_lookup] at hfind
  obtain ⟨l₁, l₂, hentries, -⟩ := lookup_eq_some_iff.mp hfind
  have hmem : (key, existing) ∈ entryPairs result.map := by
    rw [hentries]
    exact mem_append_right _ mem_cons_self
  obtain ⟨e, he, heq⟩ := mem_map.mp hmem
  cases heq
  exact h.lists e he

theorem HoldsGroups.append (h : HoldsGroups result) (key : Text) (item : ArkshValueItem) :
    ∃ group : ArkshValue, ∃ items,
      (match arkshValueMapGetItem result key with
        | some existing => existing.denote = .list items
        | none => items = []) ∧
      arkshValueListAppendItem (match arkshValueMapGetItem result key with
        | some existing => arkshValueSetFromItem existing
        | none => { arkshValueInit with kind := .list }) item = some group ∧
      group.denote = .list (items ++ [item.denote]) := by
  have hmap : result.kind.isMapLike = true := by rw [h.kind]; rfl
  have happend : ∀ {group : ArkshValue} {items : List Datum}, group.denote = .list items →
      ∃ group', arkshValueListAppendItem group item = some group' ∧
        group'.denote = .list (items ++ [item.denote]) := by
    intro group items hgroup
    have hkind : group.kind = .list := by rw [← kind_denote, hgroup]; rfl
    have hne : group.kind ≠ .empty := by rw [hkind]; decide
    rw [denote_list _ hkind] at hgroup
    obtain rfl := Datum.list.inj hgroup
    refine ⟨{ group with list := group.list ++ [arkshValueItemCopy item] }, ?_, ?_⟩
    · rw [arkshValueListAppendItem, if_neg hne]; exact if_neg (not_not_intro hkind)
    · rw [denote_list _ (by exact hkind), map_append, map_singleton, denote_itemCopy]
  rw [arkshValueMapGetItem, if_pos hmap]
  cases hfind : Arksh.findEntry key result.map with
  | none =>
    obtain ⟨group, hgroup, hdenote⟩ :=
      @happend { arkshValueInit with kind := .list } [] (by rw [denote_list _ rfl]; rfl)
    exact ⟨group, [], rfl, hgroup, hdenote⟩
  | some existing =>
    obtain ⟨items, hitems⟩ := h.findEntry hfind
    obtain ⟨group, hgroup, hdenote⟩ := happend ((denote_setFromItem existing).trans hitems)
    exact ⟨group, items, hitems, hgroup, hdenote⟩

theorem mem_setEntry {e : ArkshValueMapEntry} {entries : List ArkshValueMapEntry}
    (h : e ∈ setEntry key item entries) : e.value = item ∨ e ∈ entries := by
  induction entries with
  | nil => exact .inl (by rw [mem_singleton.mp h])
  | cons first entries ih =>
    rw [setEntry] at h
    split_ifs at h with hkey
    · rcases mem_cons.mp h with rfl | hrest
      · exact .inl rfl
      · exact .inr (mem_cons_of_mem _ hrest)
    · rcases mem_cons.mp h with rfl | hrest
      · exact .inr mem_cons_self
      · exact (ih hrest).imp_right (mem_cons_of_mem _)

theorem groupItem_nil (result result' : ArkshValue) (item : ArkshValueItem) :
    groupItem result [] item ≠ .ok result' := by
  have hset : ∀ group, arkshValueMapSet result [] group = none := fun group => if_pos rfl
  rw [groupItem]
  split
  · exact fun h => by cases h
  · rw [hset]; exact fun h => by cases h

theorem HoldsGroups.groupItem (h : HoldsGroups result) (hne : key ≠ []) (item : ArkshValueItem) :
    ∃ result', groupItem result key item = .ok result' ∧ HoldsGroups result' := by
  obtain ⟨group, items, -, happend, hdenote⟩ := h.append key item
  have hmap : result.kind.isMapLike = true := by rw [h.kind]; rfl
  have hset := mapSet_of_isMapLike hmap hne group
  refine ⟨{ result with map := setEntry key (arkshValueItemSetFromValue group) result.map }, ?_,
    h.kind, ?_⟩
  · rw [Arksh.groupItem]
    rw [happend]
    dsimp only
    rw [hset]
  · intro e he
    rcases mem_setEntry he with hvalue | hold
    · exact ⟨items ++ [item.denote], by rw [hvalue, denote_itemSetFromValue, hdenote]; rfl⟩
    · exact h.lists e hold

/-! ## 4. Groups -/

variable {groups : List (Text × List Datum)}

def groupsDatum (groups : List (Text × List Datum)) : Datum :=
  .map (groups.map fun g => (g.1, Datum.list g.2))

section

variable (h : result.denote = groupsDatum groups)
include h

theorem entries_of_groups :
    result.kind = .map ∧ (result.map.map fun e => (e.key.1, e.value.denote)) =
      groups.map fun g => (g.1, Datum.list g.2) := by
  have hkind : result.kind = .map := by rw [← kind_denote, h]; rfl
  rw [denote_map _ hkind] at h
  exact ⟨hkind, Datum.map.inj h⟩

theorem holdsGroups_of_denote : HoldsGroups result := by
  obtain ⟨hkind, hentries⟩ := entries_of_groups h
  refine ⟨hkind, fun e he => ?_⟩
  have hmem : (e.key.1, e.value.denote) ∈ groups.map fun g => (g.1, Datum.list g.2) := by
    rw [← hentries]
    exact mem_map_of_mem he
  obtain ⟨g, -, heq⟩ := mem_map.mp hmem
  exact ⟨g.2, (congrArg Prod.snd heq).symm⟩

theorem lookup_groups (key : Text) : (arkshValueMapGetItem result key).map ArkshValueItem.denote =
      (groups.lookup key).map Datum.list := by
  obtain ⟨hkind, hentries⟩ := entries_of_groups h
  have hread : ∀ entries : List ArkshValueMapEntry, (findEntry key entries).map
      ArkshValueItem.denote = (entries.map fun e => (e.key.1, e.value.denote)).lookup key := by
    intro entries
    induction entries with
    | nil => rfl
    | cons e entries ih =>
      rw [findEntry, map_cons, lookup_cons_ite, ← ih]
      by_cases hkey : e.key.1 = key
      · rw [if_pos hkey, if_pos hkey.symm]; rfl
      · rw [if_neg hkey, if_neg fun heq => hkey heq.symm]
  have hgroups : ∀ groups : List (Text × List Datum),
      (groups.map fun g => (g.1, Datum.list g.2)).lookup key =
        (groups.lookup key).map Datum.list := by
    intro groups
    induction groups with
    | nil => rfl
    | cons g groups ih =>
      rw [map_cons, lookup_cons_ite, lookup_cons_ite, ih]
      split_ifs <;> rfl
  have hmap : ArkshValueKind.map.isMapLike = true := rfl
  rw [arkshValueMapGetItem, hkind, if_pos hmap, hread, hentries, hgroups]

/-- **A write under a short key puts the item in its group.** -/
theorem groupItem_denote (hne : key ≠ []) (hshort : key.length < arkshMaxName)
    (item : ArkshValueItem) : ∃ result', groupItem result key item = .ok result' ∧
      result'.denote = groupsDatum (groupStep groups (key, item.denote)) := by
  obtain ⟨group, items, hitems, happend, hdenote⟩ := (holdsGroups_of_denote h).append key item
  have hgroup : items = (groups.lookup key).getD [] := by
    have hlookup := lookup_groups h key
    cases hget : arkshValueMapGetItem result key with
    | none =>
      rw [hget] at hitems hlookup
      rw [Option.map_eq_none_iff.mp hlookup.symm, hitems]
      rfl
    | some existing =>
      rw [hget] at hitems hlookup
      obtain ⟨old, hold, heq⟩ := Option.map_eq_some_iff.mp hlookup.symm
      rw [hold]
      exact Datum.list.inj (hitems.symm.trans heq.symm)
  obtain ⟨result', hset, hresult⟩ := denote_mapSet h hne hshort group
  refine ⟨result', ?_, ?_⟩
  · rw [groupItem]
    rw [happend]
    dsimp only
    rw [hset]
  · rw [hresult, hdenote, hgroup, groupsDatum, groupStep, map_put]; rfl

end

end Writes

variable {pairs : List (Text × ArkshValueItem)} {result : ArkshValue}

/-- **A run of writes under short keys groups the items.** -/
theorem groupPairs_denote (hkeys : ∀ p ∈ pairs, p.1 ≠ [] ∧ p.1.length < arkshMaxName)
    {groups : List (Text × List Datum)} (h : result.denote = groupsDatum groups) :
    ∃ result', groupPairs result pairs = .ok result' ∧ result'.denote =
      groupsDatum ((pairs.map fun p => (p.1, p.2.denote)).foldl groupStep groups) := by
  induction pairs generalizing result groups with
  | nil => exact ⟨result, rfl, h⟩
  | cons p pairs ih =>
    obtain ⟨hne, hshort⟩ := hkeys p mem_cons_self
    obtain ⟨next, hitem, hnext⟩ := groupItem_denote h hne hshort p.2
    obtain ⟨result', hpairs, hresult⟩ := ih (fun q hq => hkeys q (mem_cons_of_mem _ hq)) hnext
    refine ⟨result', ?_, hresult⟩
    rw [groupPairs, hitem]
    exact hpairs

theorem groupPairs_ok_iff (h : HoldsGroups result) :
    (∃ result', groupPairs result pairs = .ok result') ↔ ∀ p ∈ pairs, p.1 ≠ [] := by
  induction pairs generalizing result with
  | nil => exact iff_of_true ⟨result, rfl⟩ fun p hp => by cases hp
  | cons p pairs ih =>
    rw [forall_mem_cons]
    by_cases hne : p.1 = []
    · refine iff_of_false ?_ fun h => h.1 hne
      rintro ⟨result', hpairs⟩
      rw [groupPairs, hne] at hpairs
      cases hitem : groupItem result [] p.2 with
      | error message => rw [hitem] at hpairs; cases hpairs
      | ok next => exact groupItem_nil result next p.2 hitem
    · obtain ⟨next, hitem, hnext⟩ := h.groupItem hne p.2
      rw [groupPairs, hitem]
      exact (ih hnext).trans ⟨fun hrest => ⟨hne, hrest⟩, fun hrest => hrest.2⟩

/-! ## 5. The law -/

section Law

variable {σ : Type} (host : GroupByHost σ) {keys : List Text}

/-- One LIST for every key, with the items of the key in their order; all LISTs together are the
    items. -/
def IsPartition (keys : List Text) (items : List ArkshValueItem) (result : ArkshValue) : Prop :=
  ∃ groups, result.denote = groupsDatum groups ∧
    IsGrouping (keys.zip (items.map ArkshValueItem.denote)) groups ∧
      (groups.flatMap Prod.snd).Perm (items.map ArkshValueItem.denote)

def GroupByLaw (value : ArkshValue) (stage : GroupByStage) (shell : σ) : Prop :=
  ∀ result, (applyGroupByStage host value stage shell).1 = .ok result →
    ∃ keys, stageKeys host value stage shell = .ok keys ∧ IsPartition keys value.list result

variable {host} {value : ArkshValue} {stage : GroupByStage} {shell : σ}

theorem stageKeys_length (h : stageKeys host value stage shell = .ok keys) :
    keys.length = value.list.length := by
  rw [stageKeys] at h
  split at h
  · cases h
  · exact renderKeys_length h

/-- **When the stage succeeds.** -/
theorem applyGroupByStage_ok_iff {result : ArkshValue} (hkind : value.kind = .list) :
    (applyGroupByStage host value stage shell).1 = .ok result ↔
      ∃ keys, stageKeys host value stage shell = .ok keys ∧
        ∃ groups, groupPairs emptyMap (keys.zip value.list) = .ok groups ∧
          result = arkshValueCopy groups := by
  rw [applyGroupByStage, if_neg (not_not_intro hkind), stageKeys]
  cases hsource : groupSource host stage shell with
  | mk source shell' =>
    cases source with
    | error message => exact iff_of_false (by simp) (by simp)
    | ok source =>
      dsimp only
      have hloop := @groupLoop_ok_iff σ host source emptyMap
      constructor
      · intro h
        cases hgroups : groupLoop host source emptyMap value.list shell' with
        | mk groups shell'' =>
          rw [hgroups] at h
          cases groups with
          | error message => cases h
          | ok groups =>
            cases h
            obtain ⟨keys, hkeys, hpairs⟩ := hloop.mp (congrArg Prod.fst hgroups)
            exact ⟨keys, hkeys, groups, hpairs, rfl⟩
      · rintro ⟨keys, hkeys, groups, hpairs, rfl⟩
        have hgroups := hloop.mpr ⟨keys, hkeys, hpairs⟩
        split
        · next heq =>
          rw [heq] at hgroups
          cases hgroups
        · next heq =>
          rw [heq] at hgroups
          cases hgroups
          rfl

theorem holdsGroups_emptyMap : HoldsGroups emptyMap := ⟨rfl, fun e he => by cases he⟩

theorem zip_fst_mem {items : List ArkshValueItem} {p : Text × ArkshValueItem}
    (h : p ∈ keys.zip items) : p.1 ∈ keys := (of_mem_zip h).1

theorem groupByLaw_of_short (hkind : value.kind = .list)
    (hshort : ∀ keys, stageKeys host value stage shell = .ok keys → [] ∉ keys →
      ∀ key ∈ keys, key.length < arkshMaxName) : GroupByLaw host value stage shell := by
  intro result hok
  obtain ⟨keys, hkeys, groups, hpairs, rfl⟩ := (applyGroupByStage_ok_iff hkind).mp hok
  have hlength := stageKeys_length hkeys
  have hfst : (keys.zip value.list).map Prod.fst = keys := map_fst_zip hlength.le
  have hne : ∀ p ∈ keys.zip value.list, p.1 ≠ [] :=
    (groupPairs_ok_iff holdsGroups_emptyMap).mp ⟨groups, hpairs⟩
  have hnotMem : [] ∉ keys := by
    rw [← hfst]
    intro hmem
    obtain ⟨p, hp, hnil⟩ := mem_map.mp hmem
    exact hne p hp hnil
  have hall : ∀ p ∈ keys.zip value.list, p.1 ≠ [] ∧ p.1.length < arkshMaxName := fun p hp =>
    ⟨hne p hp, hshort keys hkeys hnotMem p.1 (zip_fst_mem hp)⟩
  have hempty : emptyMap.denote = groupsDatum [] := rfl
  obtain ⟨groups', hpairs', hdenote⟩ := groupPairs_denote hall hempty
  cases hpairs.symm.trans hpairs'
  have hzip : (keys.zip value.list).map (fun p => (p.1, p.2.denote)) =
      keys.zip (value.list.map ArkshValueItem.denote) := by
    rw [zip_map_right]
    rfl
  rw [hzip] at hdenote
  have hgrouping := isGrouping_groupAll (keys.zip (value.list.map ArkshValueItem.denote))
  refine ⟨keys, hkeys, _, (denote_copy groups).trans hdenote, hgrouping, ?_⟩
  have hperm := hgrouping.perm
  rwa [map_snd_zip (by rw [length_map, hlength])] at hperm

theorem GroupByLaw.short (h : GroupByLaw host value stage shell) (hkind : value.kind = .list)
    (hkeys : stageKeys host value stage shell = .ok keys) (hnil : [] ∉ keys) {key : Text}
    (hkey : key ∈ keys) : key.length < arkshMaxName := by
  have hlength := stageKeys_length hkeys
  obtain ⟨groups, hpairs⟩ := (groupPairs_ok_iff holdsGroups_emptyMap).mpr
    fun p (hp : p ∈ keys.zip value.list) heq => hnil (heq ▸ zip_fst_mem hp)
  obtain ⟨keys', hkeys', parts, hdenote, hgrouping, -⟩ := h (arkshValueCopy groups)
    ((applyGroupByStage_ok_iff hkind).mpr ⟨keys, hkeys, groups, hpairs, rfl⟩)
  cases hkeys.symm.trans hkeys'
  have hmem : key ∈ parts.map Prod.fst := by
    rw [hgrouping.keys, map_fst_zip (by rw [length_map, hlength])]
    exact hkey
  obtain ⟨-, hentries⟩ := entries_of_groups hdenote
  have hfst : parts.map Prod.fst = (arkshValueCopy groups).map.map fun e => e.key.1 := by
    have hkeysEq := congrArg (List.map Prod.fst) hentries
    simpa [Function.comp_def] using hkeysEq.symm
  rw [hfst] at hmem
  obtain ⟨e, -, rfl⟩ := mem_map.mp hmem
  exact e.key.2

/-- **The stage is a partition exactly if the keys of the items, none of which is empty, are shorter
    than 128 bytes.** -/
theorem groupByLaw_iff (host : GroupByHost σ) (value : ArkshValue) (stage : GroupByStage)
    (shell : σ) : GroupByLaw host value stage shell ↔
      (value.kind = .list → ∀ keys, stageKeys host value stage shell = .ok keys → [] ∉ keys →
        ∀ key ∈ keys, key.length < arkshMaxName) := by
  constructor
  · exact fun h hkind keys hkeys hnil key hkey => h.short hkind hkeys hnil hkey
  · intro hshort
    by_cases hkind : value.kind = .list
    · exact groupByLaw_of_short hkind (hshort hkind)
    · intro result hok
      rw [applyGroupByStage, if_pos hkind] at hok
      cases hok

def textHost : GroupByHost Unit where
  resolveBlock := fun _ shell => (none, shell)
  evaluateBlock := fun _ value shell => (.ok value, shell)
  render := fun value =>
    some ⟨value.text.take 255, by rw [List.length_take]; exact Nat.lt_succ_of_le (Nat.min_le_left _ _)⟩
  propertyText := fun _ item shell =>
    (some ⟨item.text.take 255, by
      rw [List.length_take]
      exact Nat.lt_succ_of_le (Nat.min_le_left _ _)⟩, shell)

/-- A text of 128 bytes: the map has no entry under it. -/
theorem not_groupByLaw : ¬ GroupByLaw textHost
    { arkshValueInit with kind := .list, list := [{ stringItem "" with
      text := List.replicate 128 'a' }] } ⟨["value".toList], "value".toList⟩ () := by
  intro h
  have hkeys : stageKeys textHost { arkshValueInit with kind := .list, list := [{ stringItem "" with
      text := List.replicate 128 'a' }] } ⟨["value".toList], "value".toList⟩ () =
        .ok [List.replicate 128 'a'] := rfl
  have hlt := h.short rfl hkeys (by decide) (mem_singleton_self _)
  rw [length_replicate] at hlt
  exact absurd hlt (by decide)

end Law

end Arksh
