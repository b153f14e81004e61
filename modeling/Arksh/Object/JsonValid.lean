/-
  Subject: When `arksh_value_to_json` writes JSON.

  `Datum.tree` is the tree whose text is written for a datum, by all three of the writers: the one
  for values, the one for items and the one for the cells of a MATRIX. A NUMBER and a cell that are
  not finite are written `null`; a FLOAT and a DOUBLE are written by the formatter for display, and
  `nan` and `inf` are no JSON.
-/
import Arksh.Lib.JsonText
import Arksh.Object.JsonWrite

namespace Arksh

open CText Binary64 Rfc8259 List
open Option (bind_eq_some_iff)

/-! ## 1. The tree that is written -/

/-- `format_number_json` -/
def jsonNumber (number : Binary64) : Value :=
  if number.isFinite then .num (formatNumber number) else .null

def jsonString (text : Text) : Value := .str (escapeStr text)

/-- An array without white space. -/
def elementsOf (v : Value) : List Value → Elements
  | [] => .one Ws.none v Ws.none
  | w :: vs => .more Ws.none v Ws.none (elementsOf w vs)

def arrayOf : List Value → Value
  | [] => .emptyArr Ws.none
  | v :: vs => .arr (elementsOf v vs)

/-- An object without white space. -/
def membersOf (key : Str) (v : Value) : List (Str × Value) → Members
  | [] => .one Ws.none key Ws.none Ws.none v Ws.none
  | (k, w) :: ms => .more Ws.none key Ws.none Ws.none v Ws.none (membersOf k w ms)

def objectOf : List (Str × Value) → Value
  | [] => .emptyObj Ws.none
  | (key, v) :: ms => .obj (membersOf key v ms)

def cellTree (cell : ArkshMatrixCell) : Value :=
  match cell.kind with
  | .number => jsonNumber cell.number
  | .boolean => .bool cell.boolean
  | .empty => .null
  | _ => jsonString cell.text

def rowTree (colNames : List Text) (row : List ArkshMatrixCell) : Value :=
  objectOf ((colNames.zip row).map fun p => (escapeStr p.1, cellTree p.2))

def matrixTree : Option ArkshMatrix → Value
  | none => .emptyArr Ws.none
  | some table => arrayOf (table.rows.map (rowTree table.colNames))

mutual

def Datum.tree : Datum → Value
  | .empty => .null
  | .string text => jsonString text
  | .number number => jsonNumber number
  | .boolean boolean => .bool boolean
  | .object object => jsonString (object.getD {}).path
  | .block block => jsonString (block.getD {}).source
  | .classRef name => jsonString name
  | .instanceRef name id =>
    jsonString (copyString arkshMaxOutput (name ++ '#' :: intText (id.toInt 32)))
  | .integer number => .num (formatNumberByKind .integer number)
  | .float number => .num (formatNumberByKind .float number)
  | .double number => .num (formatNumberByKind .double number)
  | .imaginary number => jsonString (copyString 64 (formatNumberByKind .imaginary number))
  | .list items => arrayOf (treeItems items)
  | .map entries => objectOf (treeEntries entries)
  | .dict entries => objectOf (treeEntries entries)
  | .matrix table => matrixTree table

def treeItems : List Datum → List Value
  | [] => []
  | item :: items => item.tree :: treeItems items

def treeEntries : List (Text × Datum) → List (Str × Value)
  | [] => []
  | (key, value) :: entries => (escapeStr key, value.tree) :: treeEntries entries

end

mutual

/-- Every FLOAT and DOUBLE is finite as printed: a FLOAT after rounding to single precision. -/
def Datum.PrintsFinite : Datum → Prop
  | .float number => number.toSingle.isFinite = true
  | .double number => number.isFinite = true
  | .list items => ItemsPrintFinite items
  | .map entries => EntriesPrintFinite entries
  | .dict entries => EntriesPrintFinite entries
  | _ => True

def ItemsPrintFinite : List Datum → Prop
  | [] => True
  | item :: items => item.PrintsFinite ∧ ItemsPrintFinite items

def EntriesPrintFinite : List (Text × Datum) → Prop
  | [] => True
  | (_, value) :: entries => value.PrintsFinite ∧ EntriesPrintFinite entries

end

/-! ## 2. Numbers fit into every buffer -/

theorem natAbs_toInt (bits : Nat) (x : Binary64) : (x.toInt bits).natAbs ≤ 2 ^ (bits - 1) := by
  have hpow : (2 ^ (bits - 1) : Int) = ((2 ^ (bits - 1) : Nat) : Int) := by norm_cast
  unfold toInt
  rw [hpow]
  generalize 2 ^ (bits - 1) = top
  cases x with
  | nan neg | inf neg => simp
  | finite neg u =>
    dsimp only
    split <;> omega

theorem length_intText {n : Int} {k : Nat} (hk : 0 < k) (h : n.natAbs < 10 ^ k) :
    (intText n).length ≤ k + 1 := by
  have hsign := length_signText (n < 0)
  have hlen := (Nat.length_toDigits_le_iff (b := 10) (by decide) hk).mpr h
  rw [intText, length_append]
  omega

theorem length_formatNumberByKind (kind : ArkshValueKind) (x : Binary64) :
    (formatNumberByKind kind x).length < 64 := by
  have h15 := length_formatG (P := 15) (by decide) x
  have h7 := length_formatG (P := 7) (by decide) x.toSingle
  have habs := natAbs_toInt 64 x
  have hint := length_intText (n := x.toInt 64) (k := 19) (by decide) (by omega)
  cases kind <;> simp only [formatNumberByKind, formatNumber, length_append, length_singleton] <;> omega

variable {size : Nat} {out out' : Text} {first : Bool} {v : Value}

theorem text_jsonNumber (hsize : 64 ≤ size) (x : Binary64) :
    copyString size (formatNumberJson x) = (jsonNumber x).text := by
  cases x with
  | nan neg | inf neg =>
    have hnull : ['n', 'u', 'l', 'l'].length < size := by
      rw [show ['n', 'u', 'l', 'l'].length = 4 from rfl]
      omega
    exact copyString_of_lt hnull
  | finite neg u =>
    have hlen := length_formatNumberByKind .number (.finite neg u)
    exact copyString_of_lt (hlen.trans_le hsize)

/-! ## 3. What is written is the text of the tree -/

theorem text_bool (b : Bool) :
    (Value.bool b).text = (if b then "true".toList else "false".toList) := by
  cases b <;> rfl

theorem scalar_text (hsize : 64 ≤ size) {kind : ArkshValueKind} {text : Text} {number : Binary64}
    {boolean : Bool} {object : Option ArkshObject} {block : Option ArkshBlock}
    (h : scalarToJsonText size kind text number boolean object block = some out) :
    out = (plainDatum kind text number boolean object block).tree.text := by
  have hnumber := length_formatNumberByKind kind number
  cases kind with
  | list | map | dict | matrix => cases h
  | number => obtain rfl := Option.some.inj h; exact text_jsonNumber hsize number
  | boolean =>
    obtain rfl := Option.some.inj h
    rw [plainDatum, Datum.tree, text_bool]
    refine copyString_of_lt ?_
    cases boolean <;> simp <;> omega
  | empty => obtain rfl := Option.some.inj h; exact copyString_of_lt (by simp; omega)
  | integer | float | double =>
    obtain rfl := Option.some.inj h
    exact copyString_of_lt (hnumber.trans_le hsize)
  | string | object | block | classRef | instanceRef | imaginary => exact (quoted_of_escaped h).1

theorem cell_text (hsize : 64 ≤ size) {cell : ArkshMatrixCell}
    (h : cellToJsonText size cell = some out) : out = (cellTree cell).text := by
  obtain ⟨kind, text, number, boolean⟩ := cell
  unfold cellTree
  cases kind with
  | number => obtain rfl := Option.some.inj h; exact text_jsonNumber hsize number
  | boolean =>
    obtain rfl := Option.some.inj h
    rw [text_bool]
    refine copyString_of_lt ?_
    cases boolean <;> simp <;> omega
  | empty => obtain rfl := Option.some.inj h; exact copyString_of_lt (by simp; omega)
  | _ => exact (quoted_of_escaped h).1

/-- The parts of an array or object behind the commas that are due. -/
def commaText (first : Bool) : List Text → Text
  | [] => []
  | t :: ts => (if first then [] else [',']) ++ (t ++ commaText false ts)

def memberText (m : Str × Value) : Text := m.1.quoted ++ ':' :: m.2.text

theorem text_arrayOf (vs : List Value) :
    (arrayOf vs).text = '[' :: (commaText true (vs.map Value.text) ++ [']']) := by
  have helements : ∀ (v : Value) (vs : List Value),
      (elementsOf v vs).text = commaText true ((v :: vs).map Value.text) := by
    intro v vs
    induction vs generalizing v with
    | nil => simp [elementsOf, Elements.text, commaText, Ws.none]
    | cons w vs ih => rw [elementsOf, Elements.text, ih]; simp [commaText, Ws.none]
  cases vs with
  | nil => rfl
  | cons v vs => rw [arrayOf, Value.text, helements]

theorem text_objectOf (ms : List (Str × Value)) :
    (objectOf ms).text = '\x7b' :: (commaText true (ms.map memberText) ++ ['\x7d']) := by
  have hmembers : ∀ (key : Str) (v : Value) (ms : List (Str × Value)),
      (membersOf key v ms).text = commaText true (((key, v) :: ms).map memberText) := by
    intro key v ms
    induction ms generalizing key v with
    | nil => simp [membersOf, Members.text, commaText, memberText, Ws.none]
    | cons m ms ih => rw [membersOf, Members.text, ih]; simp [commaText, memberText, Ws.none]
  cases ms with
  | nil => rfl
  | cons m ms =>
    rw [objectOf, Value.text, hmembers]

theorem cells_text {cells : List (Text × ArkshMatrixCell)}
    (h : appendCells size first out cells = some out') :
    out' = out ++ commaText first
      (cells.map fun p => memberText (escapeStr p.1, cellTree p.2)) := by
  induction cells generalizing first out with
  | nil => obtain rfl := Option.some.inj h; exact (append_nil _).symm
  | cons p cells ih =>
    obtain ⟨keyJson, hkey, h⟩ := bind_eq_some_iff.mp h
    obtain ⟨cellJson, hcell, h⟩ := bind_eq_some_iff.mp h
    obtain rfl := (quoted_of_escaped hkey).1
    obtain rfl := cell_text (by decide) hcell
    rw [ih (member_eq_some h)]
    simp [commaText, memberText]

theorem rows_text {colNames : List Text} {rows : List (List ArkshMatrixCell)}
    (h : appendRows size colNames first out rows = some out') :
    out' = out ++ commaText first (rows.map fun row => (rowTree colNames row).text) := by
  induction rows generalizing first out with
  | nil => obtain rfl := Option.some.inj h; exact (append_nil _).symm
  | cons row rows ih =>
    obtain ⟨o₁, h₁, h⟩ := bind_eq_some_iff.mp h
    obtain ⟨obj₁, h₂, h⟩ := bind_eq_some_iff.mp h
    obtain ⟨obj₂, h₃, h⟩ := bind_eq_some_iff.mp h
    obtain ⟨obj₃, h₄, h⟩ := bind_eq_some_iff.mp h
    obtain ⟨o₂, h₅, h⟩ := bind_eq_some_iff.mp h
    obtain rfl := appendComma_eq_some h₁
    obtain ⟨-, rfl⟩ := appendChar_eq_some.mp h₂
    obtain rfl := cells_text h₃
    obtain ⟨-, rfl⟩ := appendChar_eq_some.mp h₄
    obtain ⟨-, rfl⟩ := appendText_eq_some.mp h₅
    rw [ih h, map_cons, rowTree, text_objectOf, map_map]
    simp [commaText, Function.comp_def]

theorem matrix_text (hsize : 64 ≤ size) {matrix : Option ArkshMatrix}
    (h : matrixToJsonText size matrix = some out) : out = (matrixTree matrix).text := by
  have hempty : copyString size "[]".toList = (Value.emptyArr Ws.none).text :=
    copyString_of_lt (by simp; omega)
  cases matrix with
  | none => obtain rfl := Option.some.inj h; exact hempty
  | some table =>
    obtain ⟨colNames, rows, rowLength⟩ := table
    rw [matrixToJsonText] at h
    split at h
    · rename_i hrows
      obtain rfl := Option.some.inj h
      subst hrows
      exact hempty
    · obtain ⟨front, hrows, rfl⟩ := bracketed_eq_some h
      obtain rfl := rows_text hrows
      rw [matrixTree, text_arrayOf, map_map]
      rfl

mutual

theorem value_text {out : Text} : ∀ v : ArkshValue,
    valueToJsonText arkshMaxOutput v = some out → out = v.denote.tree.text
  | ⟨kind, text, number, boolean, object, block, list, map, matrix⟩, h => by
    cases kind with
    | list =>
      rw [valueToJsonText] at h
      obtain ⟨front, hitems, rfl⟩ := bracketed_eq_some h
      obtain rfl := items_text list hitems
      simp only [ArkshValue.denote, Datum.tree]
      rw [text_arrayOf]
      rfl
    | map | dict =>
      rw [valueToJsonText] at h
      obtain ⟨front, hentries, rfl⟩ := bracketed_eq_some h
      obtain rfl := entries_text map hentries
      simp only [ArkshValue.denote, Datum.tree]
      rw [text_objectOf]
      rfl
    | matrix => simp only [valueToJsonText] at h; exact matrix_text (by decide) h
    | empty | string | number | boolean | object | block | classRef | instanceRef | integer
    | float | double | imaginary =>
      simp only [valueToJsonText] at h
      simp only [ArkshValue.denote]
      exact scalar_text (by decide) h

theorem item_text {out : Text} : ∀ item : ArkshValueItem,
    itemToJsonText arkshMaxOutput item = some out → out = item.denote.tree.text
  | ⟨kind, text, number, boolean, object, block, nested⟩, h => by
    rw [ArkshValueItem.denote]
    rw [itemToJsonText] at h
    by_cases hk : kind.ownsNested = true
    · rw [if_pos hk] at h ⊢
      match nested with
      | none => rw [nestedToJsonText] at h; cases h
      | some value => rw [nestedToJsonText] at h; exact value_text value h
    · rw [if_neg hk] at h ⊢; exact scalar_text (by decide) h

theorem items_text {first : Bool} {out out' : Text} : ∀ items : List ArkshValueItem,
    appendItems arkshMaxOutput first out items = some out' →
    out' = out ++ commaText first ((treeItems (denoteItems items)).map Value.text)
  | [], h => by
    rw [appendItems] at h
    obtain rfl := Option.some.inj h
    exact (append_nil _).symm
  | item :: items, h => by
    rw [appendItems] at h
    obtain ⟨itemJson, hjson, h⟩ := bind_eq_some_iff.mp h
    obtain rfl := item_text item hjson
    rw [items_text items (element_eq_some h), denoteItems, treeItems]
    simp [commaText]

theorem entries_text {first : Bool} {out out' : Text} : ∀ entries : List ArkshValueMapEntry,
    appendEntries arkshMaxOutput first out entries = some out' →
    out' = out ++ commaText first ((treeEntries (denoteEntries entries)).map memberText)
  | [], h => by
    rw [appendEntries] at h
    obtain rfl := Option.some.inj h
    exact (append_nil _).symm
  | ⟨key, value⟩ :: entries, h => by
    rw [appendEntries] at h
    obtain ⟨keyJson, hkey, h⟩ := bind_eq_some_iff.mp h
    obtain ⟨itemJson, hjson, h⟩ := bind_eq_some_iff.mp h
    obtain rfl := (quoted_of_escaped hkey).1
    obtain rfl := item_text value hjson
    rw [entries_text entries (member_eq_some h), denoteEntries, treeEntries]
    simp [commaText, memberText]

end

/-! ## 4. The numbers of the tree -/

theorem numerals_arrayOf (vs : List Value) : (arrayOf vs).numerals = vs.flatMap Value.numerals := by
  have helements : ∀ (v : Value) (vs : List Value),
      (elementsOf v vs).numerals = (v :: vs).flatMap Value.numerals := by
    intro v vs
    induction vs generalizing v with
    | nil => simp [elementsOf, Elements.numerals]
    | cons w vs ih => rw [elementsOf, Elements.numerals, ih, flatMap_cons (x := v)]
  cases vs with
  | nil => rfl
  | cons v vs => rw [arrayOf, Value.numerals, helements]

theorem numerals_objectOf (ms : List (Str × Value)) :
    (objectOf ms).numerals = ms.flatMap fun m => m.2.numerals := by
  have hmembers : ∀ (key : Str) (v : Value) (ms : List (Str × Value)),
      (membersOf key v ms).numerals = ((key, v) :: ms).flatMap fun m => m.2.numerals := by
    intro key v ms
    induction ms generalizing key v with
    | nil => simp [membersOf, Members.numerals]
    | cons m ms ih =>
      rw [membersOf, Members.numerals, ih, flatMap_cons (x := (key, v))]
  cases ms with
  | nil => rfl
  | cons m ms =>
    rw [objectOf, Value.numerals, hmembers]

/-- The numbers of a value are of the grammar or `nan` and `inf`; the condition says when all are of
    the grammar. -/
def NumeralsAre (v : Value) (condition : Prop) : Prop :=
  (∀ t ∈ v.numerals, IsNumber t ∨ IsSpecial t) ∧ ((∀ t ∈ v.numerals, IsNumber t) ↔ condition)

theorem numeralsAre_isNumber (h : ∀ t ∈ v.numerals, IsNumber t) : NumeralsAre v True :=
  ⟨fun t ht => .inl (h t ht), iff_of_true h trivial⟩

theorem numeralsAre_empty (h : v.numerals = []) : NumeralsAre v True := by
  refine numeralsAre_isNumber fun t ht => ?_
  rw [h] at ht
  cases ht

theorem numeralsAre_formatG (P : Nat) (x : Binary64) :
    NumeralsAre (.num (formatG P x)) (x.isFinite = true) := by
  unfold NumeralsAre
  rw [Value.numerals]
  simp only [mem_singleton, forall_eq]
  cases hx : x.isFinite with
  | true => exact ⟨.inl (isNumber_formatG hx P), iff_of_true (isNumber_formatG hx P) rfl⟩
  | false =>
    have hspecial := isSpecial_formatG hx P
    refine ⟨.inr hspecial, iff_of_false (fun hnumber => ?_) Bool.false_ne_true⟩
    have hzero := (weight_number hnumber).2
    rw [(weight_special hspecial).2] at hzero
    cases hzero

theorem numeralsAre_jsonNumber (x : Binary64) : NumeralsAre (jsonNumber x) True := by
  unfold jsonNumber
  split
  · rename_i hx
    refine numeralsAre_isNumber fun t ht => ?_
    obtain rfl := mem_singleton.mp ht
    exact isNumber_formatG hx 15
  · exact numeralsAre_empty rfl

theorem numeralsAre_integer (n : Int) : NumeralsAre (.num (intText n)) True := by
  refine numeralsAre_isNumber fun t ht => ?_
  obtain rfl := mem_singleton.mp ht
  exact ⟨wholeNumber (n < 0) n.natAbs, text_wholeNumber _ _⟩

theorem numeralsAre_append {w u : Value} {p q : Prop} (hv : NumeralsAre v p) (hw : NumeralsAre w q)
    (hu : u.numerals = v.numerals ++ w.numerals) : NumeralsAre u (p ∧ q) := by
  unfold NumeralsAre
  rw [hu]
  simp only [mem_append, or_imp, forall_and]
  exact ⟨⟨hv.1, hw.1⟩, and_congr hv.2 hw.2⟩

theorem numeralsAre_cell (cell : ArkshMatrixCell) : NumeralsAre (cellTree cell) True := by
  obtain ⟨kind, text, number, boolean⟩ := cell
  cases kind with
  | number => exact numeralsAre_jsonNumber number
  | _ => exact numeralsAre_empty rfl

theorem numeralsAre_matrix (matrix : Option ArkshMatrix) : NumeralsAre (matrixTree matrix) True := by
  cases matrix with
  | none => exact numeralsAre_empty rfl
  | some table =>
    refine numeralsAre_isNumber fun t ht => ?_
    rw [matrixTree, numerals_arrayOf, flatMap_map] at ht
    obtain ⟨row, -, ht⟩ := mem_flatMap.mp ht
    rw [rowTree, numerals_objectOf, flatMap_map] at ht
    obtain ⟨p, -, ht⟩ := mem_flatMap.mp ht
    exact (numeralsAre_cell p.2).2.mpr trivial t ht

mutual

theorem numerals_tree : ∀ d : Datum, NumeralsAre d.tree d.PrintsFinite
  | .empty | .string _ | .boolean _ | .object _ | .block _ | .classRef _ | .instanceRef _ _
  | .imaginary _ => by
    simp only [Datum.PrintsFinite]
    exact numeralsAre_empty rfl
  | .number number => numeralsAre_jsonNumber number
  | .integer number => numeralsAre_integer _
  | .float number => numeralsAre_formatG 7 number.toSingle
  | .double number => numeralsAre_formatG 15 number
  | .list items => numerals_items items
  | .map entries => numerals_entries entries
  | .dict entries => numerals_entries entries
  | .matrix table => numeralsAre_matrix table

theorem numerals_items : ∀ items : List Datum,
    NumeralsAre (arrayOf (treeItems items)) (ItemsPrintFinite items)
  | [] => numeralsAre_empty rfl
  | item :: items => by
    refine numeralsAre_append (numerals_tree item) (numerals_items items) ?_
    rw [treeItems, numerals_arrayOf, numerals_arrayOf, flatMap_cons]

theorem numerals_entries : ∀ entries : List (Text × Datum),
    NumeralsAre (objectOf (treeEntries entries)) (EntriesPrintFinite entries)
  | [] => numeralsAre_empty rfl
  | (key, value) :: entries => by
    refine numeralsAre_append (numerals_tree value) (numerals_entries entries) ?_
    rw [treeEntries, numerals_objectOf, numerals_objectOf, flatMap_cons]

end

/-! ## 5. When it is JSON -/

theorem isJson_tree (d : Datum) : IsJson d.tree.text ↔ d.PrintsFinite := by
  obtain ⟨hnumerals, hiff⟩ := numerals_tree d
  rw [isJson_numerals hnumerals, hiff]

/-- **What `arksh_value_to_json` writes is JSON iff every FLOAT and DOUBLE in the value is finite as
    printed.** -/
theorem isJson_toJson_iff {v : ArkshValue} {out : Text}
    (h : arkshValueToJson v arkshMaxOutput = some out) : IsJson out ↔ v.denote.PrintsFinite := by
  rw [value_text v h]
  exact isJson_tree v.denote

def doubleValue (number : Binary64) : ArkshValue :=
  { arkshValueInit with kind := .double, number := number }

/-- `[7]`, a LIST of one DOUBLE. -/
theorem isJson_toJson_seven : IsJson "[7]".toList :=
  (isJson_toJson_iff (v := { arkshValueInit with
    kind := .list, list := [arkshValueItemSetFromValue (doubleValue (whole false 7))] })
    (by decide +kernel)).mpr
    ⟨(by decide +kernel : (whole false 7).isFinite = true), trivial⟩

/-- A DOUBLE that is NaN is written `nan`. -/
theorem not_isJson_toJson_nan :
    ¬ ∀ v out, arkshValueToJson v arkshMaxOutput = some out → IsJson out := by
  intro h
  have hjson := h (doubleValue (.nan false)) "nan".toList (by decide)
  have hfinite := (isJson_tree (.double (.nan false))).mp hjson
  cases hfinite

end Arksh
