/-
  Subject: `arksh_value_merge` in `src/object.c`.

  A merge is a run of `arksh_value_map_set` on a copy of its left side, one write for each entry
  of its right side: `Assoc.putAll` on what the entries denote. `arksh_value_map_set` refuses the
  empty key, and nothing else puts an entry in a map, so that no map has it.
-/
import Arksh.Object.Store

namespace Arksh

open CText Assoc List

/-! ## 1. The function -/

def mergeEntries : ArkshValue → List ArkshValueMapEntry → Except String ArkshValue
  | out, [] => .ok out
  | out, entry :: entries =>
    match arkshValueMapSet out entry.key.1 (arkshValueSetFromItem entry.value) with
    | none => .error ("merge() failed at key " ++ String.ofList entry.key.1)
    | some out => mergeEntries out entries

def arkshValueMerge (left right : ArkshValue) : Except String ArkshValue :=
  if left.kind.isMapLike = false ∨ right.kind.isMapLike = false then
    .error "merge() expects map or dict values"
  else mergeEntries (arkshValueCopy left) right.map

/-! ## 2. The data of a map -/

def mapData (v : ArkshValue) : List (Text × Datum) := v.map.map fun e => (e.key.1, e.value.denote)

def mapKeys (v : ArkshValue) : List Text := v.map.map fun e => e.key.1

theorem mapKeys_eq (v : ArkshValue) : mapKeys v = (mapData v).map Prod.fst := by
  simp [mapKeys, mapData]

/-- A map as the shell makes them, with `arksh_value_map_set` only. -/
structure IsMergeOperand (v : ArkshValue) : Prop where
  mapLike : v.kind.isMapLike = true
  keys : (mapKeys v).Nodup
  keysNonempty : [] ∉ mapKeys v
  noMatrix : ∀ p ∈ mapData v, p.2.kind ≠ .matrix

variable {v out a b c : ArkshValue}

theorem denote_of_isMapLike {w : ArkshValue} (hv : v.kind.isMapLike = true)
    (hkind : w.kind = v.kind) (hdata : mapData w = mapData v) : w.denote = v.denote := by
  cases hk : v.kind with
  | map => rw [denote_map v hk, denote_map w (hkind.trans hk)]; exact congrArg Datum.map hdata
  | dict => rw [denote_dict v hk, denote_dict w (hkind.trans hk)]; exact congrArg Datum.dict hdata
  | _ => rw [hk] at hv; cases hv

theorem getItem_mapData (h : v.kind.isMapLike = true) (key : Text) :
    (arkshValueMapGetItem v key).map ArkshValueItem.denote = (mapData v).lookup key := by
  rw [arkshValueMapGetItem, if_pos h, findEntry_eq_lookup]
  unfold entryPairs mapData
  induction v.map with
  | nil => rfl
  | cons e entries ih =>
    rw [map_cons, map_cons, lookup_cons_ite, lookup_cons_ite, ← ih]
    split <;> rfl

theorem stored_of_kind_ne {d : Datum} (h : d.kind ≠ .matrix) : d.stored = d := by
  cases d with
  | matrix table => exact absurd rfl h
  | _ => rfl

theorem kind_copy (v : ArkshValue) : (arkshValueCopy v).kind = v.kind := by
  rw [← kind_denote, denote_copy, kind_denote]

theorem mapData_copy (h : v.kind.isMapLike = true) : mapData (arkshValueCopy v) = mapData v := by
  have hdenote := denote_copy v
  cases hk : v.kind with
  | map =>
    rw [denote_map v hk, denote_map _ ((kind_copy v).trans hk)] at hdenote
    exact Datum.map.inj hdenote
  | dict =>
    rw [denote_dict v hk, denote_dict _ ((kind_copy v).trans hk)] at hdenote
    exact Datum.dict.inj hdenote
  | _ => rw [hk] at h; cases h

/-! ## 3. A merge is a run of writes -/

theorem mergeEntries_ok {entries : List ArkshValueMapEntry} (hout : out.kind.isMapLike = true)
    (hkeys : ∀ e ∈ entries, e.key.1 ≠ []) (hdata : ∀ e ∈ entries, e.value.denote.kind ≠ .matrix) :
    ∃ m, mergeEntries out entries = .ok m ∧ m.kind = out.kind ∧
      mapData m = putAll (mapData out) (entries.map fun e => (e.key.1, e.value.denote)) := by
  induction entries generalizing out with
  | nil => exact ⟨out, rfl, rfl, rfl⟩
  | cons e entries ih =>
    have hset := mapSet_of_isMapLike hout (hkeys e mem_cons_self)
      (arkshValueSetFromItem e.value)
    obtain ⟨m, hm, hkind, hmap⟩ := @ih { out with map := _ } hout
      (fun e he => hkeys e (mem_cons_of_mem _ he))
      (fun e he => hdata e (mem_cons_of_mem _ he))
    refine ⟨m, ?_, hkind, ?_⟩
    · rw [mergeEntries, hset]; exact hm
    · rw [hmap, map_cons, putAll_cons]
      refine congrArg (putAll · _) ?_
      rw [mapData, map_setEntry e.key.2, denote_setFromItem,
        stored_of_kind_ne (hdata e mem_cons_self)]
      rfl

/-- The empty key does not come into a map. -/
theorem mapSet_keysNonempty {key : Text} {entry : ArkshValue} (h : [] ∉ mapKeys v)
    (hset : arkshValueMapSet v key entry = some out) : [] ∉ mapKeys out := by
  obtain ⟨hkey, -, hmap⟩ := mapSet_some hset
  rw [mapKeys, hmap]
  unfold mapKeys at h
  generalize v.map = entries at h
  clear hmap hset
  induction entries with
  | nil =>
    obtain ⟨c, rest, rfl⟩ := exists_cons_of_ne_nil hkey
    exact fun hmem => absurd (mem_singleton.mp hmem).symm (cons_ne_nil c _)
  | cons e entries ih =>
    rw [map_cons, mem_cons, not_or] at h
    unfold setEntry
    split
    · exact not_mem_cons_of_ne_of_not_mem h.1 h.2
    · exact not_mem_cons_of_ne_of_not_mem h.1 (ih h.2)

section

variable {m : ArkshValue} (ha : IsMergeOperand a) (hb : IsMergeOperand b)
include ha hb

theorem merge_ok : ∃ m, arkshValueMerge a b = .ok m ∧ m.kind = a.kind ∧
      mapData m = putAll (mapData a) (mapData b) := by
  obtain ⟨m, hm, hkind, hmap⟩ := @mergeEntries_ok (arkshValueCopy a) b.map
    (by rw [kind_copy]; exact ha.mapLike)
    (fun e he hempty => hb.keysNonempty (mem_map.mpr ⟨e, he, hempty⟩))
    (fun e he => hb.noMatrix _ (mem_map_of_mem he))
  refine ⟨m, ?_, hkind.trans (kind_copy a), ?_⟩
  · rw [arkshValueMerge, if_neg (by simp [ha.mapLike, hb.mapLike])]; exact hm
  · rw [hmap, mapData_copy ha.mapLike]; rfl

theorem IsMergeOperand.of_merge (hkind : m.kind = a.kind)
    (hdata : mapData m = putAll (mapData a) (mapData b)) : IsMergeOperand m := by
  have hnodup := hb.keys
  have hkeys := ha.keysNonempty
  have hkeys' := hb.keysNonempty
  rw [mapKeys_eq] at hnodup hkeys hkeys'
  refine ⟨by rw [hkind]; exact ha.mapLike, ?_, ?_, fun p hp => ?_⟩
  · rw [mapKeys_eq, hdata]; exact nodup_putAll_of (by rw [← mapKeys_eq]; exact ha.keys)
  · rw [mapKeys_eq, hdata, keys_putAll hnodup, mem_append, mem_filter]
    simp [hkeys, hkeys']
  · rw [hdata] at hp
    rcases mem_putAll_of hp with hp | hp
    · exact ha.noMatrix p hp
    · exact hb.noMatrix p hp

end

/-! ## 4. The law -/

structure MergeLaw (a b m : ArkshValue) : Prop where
  kind : m.kind = a.kind
  keys : mapKeys m = mapKeys a ++ (mapKeys b).filter fun k => k ∉ mapKeys a
  values : ∀ k, (arkshValueMapGetItem m k).map ArkshValueItem.denote =
    ((arkshValueMapGetItem b k).or (arkshValueMapGetItem a k)).map ArkshValueItem.denote

theorem mergeLaw_of_data {m : ArkshValue} (ha : IsMergeOperand a) (hb : IsMergeOperand b)
    (hkind : m.kind = a.kind) (hdata : mapData m = putAll (mapData a) (mapData b)) :
    MergeLaw a b m := by
  have hnodup := hb.keys
  rw [mapKeys_eq] at hnodup
  refine ⟨hkind, ?_, fun k => ?_⟩
  · simp only [mapKeys_eq, hdata, keys_putAll hnodup]
    exact congrArg _ (filter_congr fun k _ => decide_eq_decide.mpr Iff.rfl)
  · rw [Option.map_or, getItem_mapData ha.mapLike, getItem_mapData hb.mapLike,
      getItem_mapData (by rw [hkind]; exact ha.mapLike), hdata, lookup_putAll_of,
      lastWrite_of_nodup hnodup]

def mergeLeft (a b c : ArkshValue) : Except String ArkshValue :=
  (arkshValueMerge a b).bind fun ab => arkshValueMerge ab c

def mergeRight (a b c : ArkshValue) : Except String ArkshValue :=
  (arkshValueMerge b c).bind fun bc => arkshValueMerge a bc

section

variable (ha : IsMergeOperand a) (hb : IsMergeOperand b) (hc : IsMergeOperand c)
include ha hb hc

theorem mergeLeft_ok : ∃ m, mergeLeft a b c = .ok m ∧ m.kind = a.kind ∧
      mapData m = putAll (putAll (mapData a) (mapData b)) (mapData c) := by
  obtain ⟨ab, hab, hkind, hdata⟩ := merge_ok ha hb
  obtain ⟨m, hm, hkind', hdata'⟩ := merge_ok (ha.of_merge hb hkind hdata) hc
  refine ⟨m, ?_, hkind'.trans hkind, by rw [hdata', hdata]⟩
  rw [mergeLeft, hab]
  exact hm

theorem mergeRight_ok : ∃ m, mergeRight a b c = .ok m ∧ m.kind = a.kind ∧
      mapData m = putAll (mapData a) (putAll (mapData b) (mapData c)) := by
  obtain ⟨bc, hbc, hkind, hdata⟩ := merge_ok hb hc
  obtain ⟨m, hm, hkind', hdata'⟩ := merge_ok ha (hb.of_merge hc hkind hdata)
  refine ⟨m, ?_, hkind', by rw [hdata', hdata]⟩
  rw [mergeRight, hbc]
  exact hm

end

/-- **A merge succeeds. It has the kind of its left side, the keys of the left side in their order
    with the new keys of the right side behind them, and at each key the value of the right side
    where there is one. Both groupings of three give the same map.** -/
theorem merge_law {a b c : ArkshValue} (ha : IsMergeOperand a) (hb : IsMergeOperand b)
    (hc : IsMergeOperand c) : (∃ m, arkshValueMerge a b = .ok m ∧ MergeLaw a b m) ∧
      ∃ left right, mergeLeft a b c = .ok left ∧ mergeRight a b c = .ok right ∧
        left.denote = right.denote := by
  constructor
  · obtain ⟨m, hm, hkind, hdata⟩ := merge_ok ha hb
    exact ⟨m, hm, mergeLaw_of_data ha hb hkind hdata⟩
  · obtain ⟨l, hl, hlkind, hldata⟩ := mergeLeft_ok ha hb hc
    obtain ⟨r, hr, hrkind, hrdata⟩ := mergeRight_ok ha hb hc
    have hassoc := putAll_assoc (by rw [← mapKeys_eq]; exact ha.keys)
      (by rw [← mapKeys_eq]; exact hb.keys) (by rw [← mapKeys_eq]; exact hc.keys)
    refine ⟨l, r, hl, hr, ?_⟩
    refine denote_of_isMapLike (by rw [hrkind]; exact ha.mapLike) (hlkind.trans hrkind.symm) ?_
    rw [hldata, hrdata, hassoc]

def flagMap (flags : List (Text × Bool)) : ArkshValue :=
  { arkshValueSetMap with
    map := flags.map fun (key, flag) =>
      ⟨copyName key, arkshValueItemSetFromValue (arkshValueSetBoolean flag)⟩ }

theorem isMergeOperand_flagMap {flags : List (Text × Bool)} (h : (mapKeys (flagMap flags)).Nodup)
    (hkeys : [] ∉ mapKeys (flagMap flags)) : IsMergeOperand (flagMap flags) := by
  refine ⟨rfl, h, hkeys, fun p hp => ?_⟩
  obtain ⟨e, he, rfl⟩ := mem_map.mp hp
  obtain ⟨⟨key, flag⟩, -, rfl⟩ := mem_map.mp he
  exact fun hkind => nomatch hkind

theorem merge_law_three :
    let a := flagMap [(['x'], false)]
    let b := flagMap [(['y'], false), (['x'], true)]
    let c := flagMap [(['z'], true), (['y'], true)]
    (∃ m, arkshValueMerge a b = .ok m ∧ MergeLaw a b m) ∧
      ∃ left right, mergeLeft a b c = .ok left ∧ mergeRight a b c = .ok right ∧
        left.denote = right.denote :=
  merge_law (isMergeOperand_flagMap (by decide) (by decide))
    (isMergeOperand_flagMap (by decide) (by decide))
    (isMergeOperand_flagMap (by decide) (by decide))

end Arksh
