/-
  Subject: The value records of `include/arksh/object.h` and the functions of `src/object.c` that
           build, copy and store them.

  An `ArkshValue` is a record with one field for each payload; its kind says which fields count.
  Containers hold `ArkshValueItem`s, a second record, whose `nested` pointer carries a whole value
  where the kind is LIST, MAP or DICT. Copying is a mutual recursion over the two.

  * a `char *` text that is NULL where the text is empty is the list of its characters;
  * pointers that own a record are `Option`s; an array with its count is a list;
  * allocation is taken to succeed;
  * `signature` marks a record as initialised and is always set here.
-/
import Arksh.Lib.Assoc
import Arksh.Lib.Binary64

namespace Arksh

open CText

/-! ## 1. Sizes -/

def arkshMaxPath : Nat := 1024
def arkshMaxName : Nat := 128
def arkshMaxOutput : Nat := 8192
def arkshMaxToken : Nat := 256
def arkshMaxArgs : Nat := 16

/-- What a `char[ARKSH_MAX_NAME]` field holds: the text and its NUL fit. -/
abbrev Name := {text : Text // text.length < arkshMaxName}

def copyName (src : Text) : Name :=
  ⟨copyString arkshMaxName src, copyString_length_lt (by decide) src⟩

@[simp] theorem copyName_val (name : Name) : copyName name.1 = name :=
  Subtype.ext (copyString_of_lt name.2)

theorem copyName_of_lt {src : Text} (h : src.length < arkshMaxName) : (copyName src).1 = src :=
  copyString_of_lt h

def appendName (buf : Name) (c : Char) : Option Name :=
  if h : buf.1.length + 1 < arkshMaxName then some ⟨buf.1 ++ [c], by simpa using h⟩ else none

theorem copyName_ne {src : Text} (h : arkshMaxName ≤ src.length) (name : Name) :
    name.1 ≠ src := fun e => by
  have := name.2
  rw [e] at this
  omega

/-! ## 2. Payloads -/

inductive ArkshObjectKind where
  | unknown | path | file | directory | device | mountPoint
  deriving DecidableEq

structure ArkshObject where
  kind : ArkshObjectKind := .unknown
  path : Text := []
  name : Text := []
  exists_ : Bool := false
  size : Nat := 0
  permissions : Nat := 0
  hidden : Bool := false
  readable : Bool := false
  writable : Bool := false
  deriving DecidableEq

structure ArkshBlock where
  params : List Text := []
  body : Text := []
  source : Text := []
  deriving DecidableEq

inductive ArkshValueKind where
  | empty | string | number | boolean | object | block | list | map
  | classRef | instanceRef
  | integer | float | double | imaginary
  | dict
  | matrix
  deriving DecidableEq

structure ArkshMatrixCell where
  kind : ArkshValueKind
  text : Text
  number : Binary64
  boolean : Bool
  deriving DecidableEq

structure ArkshMatrix where
  colNames : List Text
  rows : List (List ArkshMatrixCell)
  rowLength : ∀ row ∈ rows, row.length = colNames.length
  deriving DecidableEq

/-- The double `0.0`, which `memset` leaves in a cleared record. -/
def zeroNumber : Binary64 := .finite false ⟨0, ⟨Nat.dvd_zero _, by
  rw [Binary64.overflowUnits_eq]; exact Nat.two_pow_pos _⟩⟩

mutual

structure ArkshValue where
  kind : ArkshValueKind
  text : Text
  number : Binary64
  boolean : Bool
  object : Option ArkshObject
  block : Option ArkshBlock
  list : List ArkshValueItem
  map : List ArkshValueMapEntry
  matrix : Option ArkshMatrix

structure ArkshValueItem where
  kind : ArkshValueKind
  text : Text
  number : Binary64
  boolean : Bool
  object : Option ArkshObject
  block : Option ArkshBlock
  nested : Option ArkshValue

structure ArkshValueMapEntry where
  key : Name
  value : ArkshValueItem

end

def arkshValueKindName : ArkshValueKind → String
  | .string => "string"
  | .number => "number"
  | .boolean => "bool"
  | .object => "object"
  | .block => "block"
  | .list => "list"
  | .map => "map"
  | .classRef => "class"
  | .instanceRef => "instance"
  | .integer => "integer"
  | .float => "float"
  | .double => "double"
  | .imaginary => "imaginary"
  | .dict => "dict"
  | .matrix => "matrix"
  | .empty => "empty"

def ArkshValueKind.ownsNested (k : ArkshValueKind) : Bool := k = .list || k = .map || k = .dict

/-- The kinds that store their entries in the `map` field. -/
def ArkshValueKind.isMapLike (k : ArkshValueKind) : Bool := k = .map || k = .dict

/-! ## 3. Building -/

def arkshValueInit : ArkshValue :=
  { kind := .empty, text := [], number := zeroNumber, boolean := false, object := none,
    block := none, list := [], map := [], matrix := none }

def arkshValueSetString (text : Text) : ArkshValue :=
  { arkshValueInit with kind := .string, text := text }

def arkshValueSetNumber (number : Binary64) : ArkshValue :=
  { arkshValueInit with kind := .number, number := number }

def arkshValueSetBoolean (boolean : Bool) : ArkshValue :=
  { arkshValueInit with kind := .boolean, boolean := boolean }

def arkshValueSetMap : ArkshValue := { arkshValueInit with kind := .map }

def arkshValueSetDict : ArkshValue := { arkshValueInit with kind := .dict }

/-! ## 4. Copying -/

mutual

def arkshValueCopy : ArkshValue → ArkshValue
  | ⟨kind, text, number, boolean, object, block, list, map, matrix⟩ =>
    { kind := kind, text := text, number := number, boolean := boolean, object := object,
      block := block
      list := if kind = .list then copyItems list else []
      map := if kind.isMapLike then copyEntries map else []
      matrix := if kind = .matrix then matrix else none }

def arkshValueItemCopy : ArkshValueItem → ArkshValueItem
  | ⟨kind, text, number, boolean, object, block, nested⟩ =>
    { kind := kind, text := text, number := number, boolean := boolean, object := object,
      block := block
      nested := if kind.ownsNested then copyNested nested else none }

def copyItems : List ArkshValueItem → List ArkshValueItem
  | [] => []
  | item :: items => arkshValueItemCopy item :: copyItems items

def copyEntries : List ArkshValueMapEntry → List ArkshValueMapEntry
  | [] => []
  | ⟨key, value⟩ :: entries =>
    ⟨copyName key.1, arkshValueItemCopy value⟩ :: copyEntries entries

def copyNested : Option ArkshValue → Option ArkshValue
  | none => none
  | some value => some (arkshValueCopy value)

end

/-! ## 5. Items and values -/

def arkshValueItemSetFromValue (value : ArkshValue) : ArkshValueItem :=
  { kind := value.kind, text := value.text, number := value.number, boolean := value.boolean,
    object := value.object, block := value.block
    nested := if value.kind.ownsNested then some (arkshValueCopy value) else none }

def arkshValueSetFromItem (item : ArkshValueItem) : ArkshValue :=
  match item.kind.ownsNested, item.nested with
  | true, some nested => arkshValueCopy nested
  | _, _ =>
    { arkshValueInit with
      kind := item.kind, text := item.text, number := item.number, boolean := item.boolean,
      object := item.object, block := item.block }

def arkshValueListAppendItem (value : ArkshValue) (item : ArkshValueItem) : Option ArkshValue :=
  let value := if value.kind = .empty then { value with kind := .list } else value
  if value.kind ≠ .list then none
  else some { value with list := value.list ++ [arkshValueItemCopy item] }

def arkshValueListAppendValue (value itemValue : ArkshValue) : Option ArkshValue :=
  arkshValueListAppendItem value (arkshValueItemSetFromValue itemValue)

/-! ## 6. Maps -/

/-- The write loop of `arksh_value_map_set`: stored keys are compared with the whole key, a new key
    is cut to its field. -/
def setEntry (key : Text) (item : ArkshValueItem) :
    List ArkshValueMapEntry → List ArkshValueMapEntry
  | [] => [⟨copyName key, item⟩]
  | e :: entries =>
    if e.key.1 = key then ⟨e.key, item⟩ :: entries else e :: setEntry key item entries

def arkshValueMapSet (value : ArkshValue) (key : Text) (entryValue : ArkshValue) :
    Option ArkshValue :=
  if key = [] then none
  else
    let value := if value.kind = .empty then { value with kind := .map } else value
    if value.kind.isMapLike = false then none
    else some { value with
      map := setEntry key (arkshValueItemSetFromValue entryValue) value.map }

def findEntry (key : Text) : List ArkshValueMapEntry → Option ArkshValueItem
  | [] => none
  | e :: entries => if e.key.1 = key then some e.value else findEntry key entries

def arkshValueMapGetItem (value : ArkshValue) (key : Text) : Option ArkshValueItem :=
  if value.kind.isMapLike then findEntry key value.map else none

end Arksh
