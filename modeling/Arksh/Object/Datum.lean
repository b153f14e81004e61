/-
  Subject: What a value record stands for, and that copying keeps it.

  A `Datum` is a value by itself: a tree with one constructor for each kind, carrying what that
  kind uses and nothing else. `denote` reads it off a record; two records are structurally equal
  where they denote the same datum.
-/
import Arksh.Object.Value

namespace Arksh

open CText

/-! ## 1. Data -/

inductive Datum where
  | empty
  | string (text : Text)
  | number (number : Binary64)
  | boolean (boolean : Bool)
  | object (object : Option ArkshObject)
  | block (block : Option ArkshBlock)
  | classRef (name : Text)
  | instanceRef (name : Text) (id : Binary64)
  | integer (number : Binary64)
  | float (number : Binary64)
  | double (number : Binary64)
  | imaginary (number : Binary64)
  | list (items : List Datum)
  | map (entries : List (Text × Datum))
  | dict (entries : List (Text × Datum))
  | matrix (table : Option ArkshMatrix)

/-- The datum of a record that has no container storage: what its kind uses of the rest. -/
def plainDatum (kind : ArkshValueKind) (text : Text) (number : Binary64) (boolean : Bool)
    (object : Option ArkshObject) (block : Option ArkshBlock) : Datum :=
  match kind with
  | .empty => .empty
  | .string => .string text
  | .number => .number number
  | .boolean => .boolean boolean
  | .object => .object object
  | .block => .block block
  | .classRef => .classRef text
  | .instanceRef => .instanceRef text number
  | .integer => .integer number
  | .float => .float number
  | .double => .double number
  | .imaginary => .imaginary number
  | .list => .list []
  | .map => .map []
  | .dict => .dict []
  | .matrix => .matrix none

mutual

def ArkshValue.denote : ArkshValue → Datum
  | ⟨kind, text, number, boolean, object, block, list, map, matrix⟩ =>
    match kind with
    | .list => .list (denoteItems list)
    | .map => .map (denoteEntries map)
    | .dict => .dict (denoteEntries map)
    | .matrix => .matrix matrix
    | k => plainDatum k text number boolean object block

def ArkshValueItem.denote : ArkshValueItem → Datum
  | ⟨kind, text, number, boolean, object, block, nested⟩ =>
    if kind.ownsNested then
      denoteNested (plainDatum kind text number boolean object block) nested
    else plainDatum kind text number boolean object block

def denoteItems : List ArkshValueItem → List Datum
  | [] => []
  | item :: items => item.denote :: denoteItems items

def denoteEntries : List ArkshValueMapEntry → List (Text × Datum)
  | [] => []
  | ⟨key, value⟩ :: entries => (key.1, value.denote) :: denoteEntries entries

def denoteNested (bare : Datum) : Option ArkshValue → Datum
  | none => bare
  | some value => value.denote

end

theorem denoteItems_eq (items : List ArkshValueItem) :
    denoteItems items = items.map ArkshValueItem.denote := by
  induction items with
  | nil => rfl
  | cons item items ih => rw [denoteItems, ih, List.map_cons]

theorem denoteEntries_eq (entries : List ArkshValueMapEntry) :
    denoteEntries entries = entries.map fun e => (e.key.1, e.value.denote) := by
  induction entries with
  | nil => rfl
  | cons e entries ih => obtain ⟨key, value⟩ := e; rw [denoteEntries, ih, List.map_cons]

def Datum.kind : Datum → ArkshValueKind
  | .empty => .empty
  | .string _ => .string
  | .number _ => .number
  | .boolean _ => .boolean
  | .object _ => .object
  | .block _ => .block
  | .classRef _ => .classRef
  | .instanceRef _ _ => .instanceRef
  | .integer _ => .integer
  | .float _ => .float
  | .double _ => .double
  | .imaginary _ => .imaginary
  | .list _ => .list
  | .map _ => .map
  | .dict _ => .dict
  | .matrix _ => .matrix

@[simp] theorem kind_denote (v : ArkshValue) : v.denote.kind = v.kind := by
  obtain ⟨kind, text, number, boolean, object, block, list, map, matrix⟩ := v
  cases kind <;> rfl

theorem denote_list (v : ArkshValue) (h : v.kind = .list) :
    v.denote = .list (v.list.map ArkshValueItem.denote) := by
  obtain ⟨kind, text, number, boolean, object, block, list, map, matrix⟩ := v
  obtain rfl : kind = .list := h
  simp [ArkshValue.denote, denoteItems_eq]

theorem denote_map (v : ArkshValue) (h : v.kind = .map) :
    v.denote = .map (v.map.map fun e => (e.key.1, e.value.denote)) := by
  obtain ⟨kind, text, number, boolean, object, block, list, map, matrix⟩ := v
  obtain rfl : kind = .map := h
  simp [ArkshValue.denote, denoteEntries_eq]

theorem denote_dict (v : ArkshValue) (h : v.kind = .dict) :
    v.denote = .dict (v.map.map fun e => (e.key.1, e.value.denote)) := by
  obtain ⟨kind, text, number, boolean, object, block, list, map, matrix⟩ := v
  obtain rfl : kind = .dict := h
  simp [ArkshValue.denote, denoteEntries_eq]

/-! ## 2. Copies -/

mutual

theorem denote_copy : ∀ v : ArkshValue, (arkshValueCopy v).denote = v.denote
  | ⟨kind, text, number, boolean, object, block, list, map, matrix⟩ => by
    have hl := denoteItems_copy list
    have hm := denoteEntries_copy map
    cases kind <;> simp [arkshValueCopy, ArkshValue.denote, ArkshValueKind.isMapLike, hl, hm]

theorem denote_itemCopy : ∀ item : ArkshValueItem,
    (arkshValueItemCopy item).denote = item.denote
  | ⟨kind, text, number, boolean, object, block, nested⟩ => by
    have hn := denoteNested_copy (plainDatum kind text number boolean object block) nested
    simp only [arkshValueItemCopy, ArkshValueItem.denote]
    split <;> simp_all

theorem denoteItems_copy : ∀ items : List ArkshValueItem,
    denoteItems (copyItems items) = denoteItems items
  | [] => rfl
  | item :: items => by
    rw [copyItems, denoteItems, denoteItems, denote_itemCopy item, denoteItems_copy items]

theorem denoteEntries_copy : ∀ entries : List ArkshValueMapEntry,
    denoteEntries (copyEntries entries) = denoteEntries entries
  | [] => rfl
  | ⟨key, value⟩ :: entries => by
    rw [copyEntries, denoteEntries, denoteEntries, copyName_val, denote_itemCopy value,
      denoteEntries_copy entries]

theorem denoteNested_copy (bare : Datum) : ∀ nested : Option ArkshValue,
    denoteNested bare (copyNested nested) = denoteNested bare nested
  | none => rfl
  | some value => by rw [copyNested, denoteNested, denoteNested, denote_copy value]

end

/-! ## 3. Items and values -/

theorem denote_setFromItem (item : ArkshValueItem) :
    (arkshValueSetFromItem item).denote = item.denote := by
  obtain ⟨kind, text, number, boolean, object, block, nested⟩ := item
  cases nested with
  | none => cases kind <;> rfl
  | some value => cases kind <;> first | exact denote_copy value | rfl

def ArkshValue.holdsTable (v : ArkshValue) : Bool := v.kind = .matrix && v.matrix.isSome

def Datum.stored : Datum → Datum
  | .matrix _ => .matrix none
  | d => d

theorem denote_itemSetFromValue (v : ArkshValue) :
    (arkshValueItemSetFromValue v).denote = v.denote.stored := by
  obtain ⟨kind, text, number, boolean, object, block, list, map, matrix⟩ := v
  cases kind with
  | list | map | dict =>
    -- the nested value is a copy of the whole value
    exact denote_copy _
  | _ => rfl

theorem stored_denote_eq_iff (v : ArkshValue) :
    v.denote.stored = v.denote ↔ v.holdsTable = false := by
  obtain ⟨kind, text, number, boolean, object, block, list, map, matrix⟩ := v
  cases kind <;> cases matrix <;> simp [ArkshValue.denote, Datum.stored, plainDatum,
    ArkshValue.holdsTable]

/-- **A value survives being stored in an item iff it is no MATRIX with a table.** -/
theorem denote_itemSetFromValue_eq_iff (v : ArkshValue) :
    (arkshValueItemSetFromValue v).denote = v.denote ↔ v.holdsTable = false := by
  rw [denote_itemSetFromValue, stored_denote_eq_iff]

end Arksh
