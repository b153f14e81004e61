/-
  Subject: What decides about a cell of a matrix: the stage `fill_na` of `src/executor.c` and the
           method `where` of `src/shell.c`.

  Both look into the field `text`, which only a string fills. So the stage takes a number for a
  missing cell, and the method compares a cell that is no number with an empty text where the value
  is a number or a boolean.
-/
import Arksh.Exec.MatrixCsv
import Arksh.Exec.SortStage
import Arksh.Lib.JsonText
import Arksh.Object.JsonWrite

namespace Arksh

open CText List

/-- A table that a record has room for, with the names of its columns. -/
structure NamedMatrix extends StoredMatrix where
  namesFit : NameTexts colNames

/-! ## 1. The stage `fill_na` -/

def isFillTrim (c : Char) : Bool := c = ' ' || c = '"' || c = '\''

def fillNaColumn (raw : Text) : Text :=
  ((copyString arkshMaxName (raw.takeWhile (· ≠ ','))).dropWhile isFillTrim).rdropWhile isFillTrim

/-- What stands behind the first comma. -/
def fillNaRest (raw : Text) : Text := (raw.dropWhile (· ≠ ',')).tail.dropWhile (· = ' ')

/-- A value without the blanks and quotes around it. -/
def trimFill (text : Text) : Text :=
  (text.rdropWhile isFillTrim).dropWhile fun c => c = '"' || c = '\''

def fillCell (fill : Text) (cell : ArkshMatrixCell) : ArkshMatrixCell :=
  if cell.kind = .empty ∨ cell.text = [] then
    { cell with kind := .string, text := copyString arkshMaxName fill }
  else cell

def fillColumn (m : ArkshMatrix) (col : Nat) (fill : Text) : ArkshMatrix where
  colNames := m.colNames
  rows := m.rows.map fun row => row.modify col (fillCell fill)
  rowLength := by
    intro row hrow
    obtain ⟨old, hold, rfl⟩ := mem_map.mp hrow
    rw [length_modify]
    exact m.rowLength old hold

/-- The branch of the dispatcher for `fill_na`. -/
def applyFillNaStage (value : ArkshValue) (raw : Text) : Except Text ArkshValue :=
  match value.kind, value.matrix with
  | .matrix, some m =>
    if ',' ∉ raw then .error "fill_na: usage fill_na(col_name, value)".toList
    else
      match m.colNames.findIdx? (· = fillNaColumn raw) with
      | none =>
        .error ("fill_na: column \"".toList ++ fillNaColumn raw ++ "\" not found".toList)
      | some col =>
        .ok { value with
          matrix := some (fillColumn m col (trimFill (copyString arkshMaxName (fillNaRest raw)))) }
  | _, _ => .error "fill_na: value must be a matrix".toList

/-! ## 2. Missing cells -/

structure ColumnOf (m : ArkshMatrix) where
  name : Text
  index : Nat
  found : m.colNames.findIdx? (· = name) = some index

structure FillRequest (m : ArkshMatrix) extends ColumnOf m where
  raw : Text
  comma : ',' ∈ raw
  named : fillNaColumn raw = name

def ArkshMatrixCell.Missing (cell : ArkshMatrixCell) : Prop :=
  cell.kind = .empty ∨ cell.kind = .string ∧ cell.text = []

structure Filled (fill : Text) (cell cell' : ArkshMatrixCell) : Prop where
  missing : cell.Missing → cell'.kind = .string ∧ cell'.text = fill
  kept : ¬ cell.Missing → cell' = cell

structure IsFilled (m m' : ArkshMatrix) (col : Nat) (fill : Text) : Prop where
  columns : m'.colNames = m.colNames
  rows : m'.rows.length = m.rows.length
  column : ∀ r < m.rows.length, col < m.colNames.length → Filled fill (m.cell r col) (m'.cell r col)
  others : ∀ r < m.rows.length, ∀ c < m.colNames.length, c ≠ col → m'.cell r c = m.cell r c

/-- The stage fills the column, and a second time changes nothing more. -/
structure FillNaLaw (m : ArkshMatrix) (q : FillRequest m) : Prop where
  once : ∃ m', applyFillNaStage (matrixValue m) q.raw = .ok (matrixValue m') ∧
    IsFilled m m' q.index (trimFill (fillNaRest q.raw))
  twice : ∀ result, applyFillNaStage (matrixValue m) q.raw = .ok result →
    applyFillNaStage result q.raw = .ok result

section Fill

variable {m : ArkshMatrix} {col r c : Nat} {fill text : Text}

theorem fillColumn_cell (hr : r < m.rows.length) (hc : c < m.colNames.length) :
    (fillColumn m col fill).cell r c =
      if c = col then fillCell fill (m.cell r c) else m.cell r c := by
  have hlength := m.rowLength _ (getElem_mem hr)
  rw [ArkshMatrix.cell, ArkshMatrix.cell, fillColumn]
  simp only [getD_eq_getElem?_getD, getElem?_map, getElem?_eq_getElem hr, Option.map_some,
    Option.getD_some, getElem?_modify, getElem?_eq_getElem (hlength ▸ hc)]
  by_cases h : c = col
  · subst h; simp
  · simp [h, Ne.symm h]

theorem fillCell_fillCell (cell : ArkshMatrixCell) :
    fillCell fill (fillCell fill cell) = fillCell fill cell := by
  by_cases h : cell.kind = .empty ∨ cell.text = []
  · rw [fillCell, fillCell, if_pos h]
    split <;> rfl
  · rw [fillCell, fillCell, if_neg h, if_neg h]

theorem countP_trimFill (text : Text) :
    (trimFill text).countP (! isFillTrim ·) = text.countP (! isFillTrim ·) := by
  have hdrop : ∀ (p : Char → Bool) (t : Text), (∀ c, p c → isFillTrim c) →
      (t.dropWhile p).countP (! isFillTrim ·) = t.countP (! isFillTrim ·) := by
    intro p t hp
    induction t with
    | nil => rfl
    | cons c t ih =>
      rw [dropWhile_cons]
      split
      next h => rw [ih, countP_cons_of_neg (by simp [hp c h])]
      · rfl
  rw [trimFill, hdrop _ _ fun c h => by
    simp only [Bool.or_eq_true, decide_eq_true_eq] at h
    rcases h with rfl | rfl <;> rfl]
  rw [rdropWhile, countP_reverse, hdrop _ _ fun c h => h, countP_reverse]

theorem trimFill_copyString_iff : trimFill (copyString arkshMaxName text) = trimFill text ↔
    ∀ c ∈ text.drop (arkshMaxName - 1), isFillTrim c := by
  have hsplit : copyString arkshMaxName text ++ text.drop (arkshMaxName - 1) = text :=
    take_append_drop _ _
  constructor
  · intro h
    have hcount := congrArg (countP (! isFillTrim ·)) hsplit
    rw [countP_append, ← countP_trimFill text, ← h, countP_trimFill] at hcount
    intro c hc
    have hnone := countP_eq_zero.mp (Nat.add_eq_left.mp hcount) c hc
    simpa using hnone
  · intro h
    conv_rhs => rw [← hsplit]
    rw [trimFill, trimFill, rdropWhile, rdropWhile, reverse_append,
      dropWhile_append_of_pos fun c hc => h c (mem_reverse.mp hc)]

theorem length_trimFill_le (text : Text) : (trimFill text).length ≤ text.length :=
  ((dropWhile_suffix _).length_le).trans (List.rdropWhile_prefix isFillTrim text).length_le

end Fill

/-- **Exactly the missing cells are filled if every other cell has a text and, where one is missing,
    the value fits.** -/
theorem fillNaLaw_iff (m : ArkshMatrix) (q : FillRequest m) : FillNaLaw m q ↔
    (∀ r < m.rows.length, (m.cell r q.index).text = [] → (m.cell r q.index).Missing) ∧
      ((∃ r < m.rows.length, (m.cell r q.index).Missing) →
        ∀ c ∈ (fillNaRest q.raw).drop (arkshMaxName - 1), isFillTrim c) := by
  have hfits := length_trimFill_le (copyString arkshMaxName (fillNaRest q.raw))
  have hcut := copyString_length_lt (by decide : 0 < arkshMaxName) (fillNaRest q.raw)
  generalize hfill : trimFill (copyString arkshMaxName (fillNaRest q.raw)) = fill at hfits
  have hstage : ∀ value : ArkshValue, value.kind = .matrix → ∀ m', value.matrix = some m' →
      m'.colNames = m.colNames → applyFillNaStage value q.raw =
        .ok { value with matrix := some (fillColumn m' q.index fill) } := by
    intro value hkind m' hmatrix hnames
    rw [applyFillNaStage, hkind, hmatrix]
    simp only [if_neg (not_not_intro q.comma), q.named, hnames, q.found, hfill]
  have hfirst := hstage (matrixValue m) rfl m rfl rfl
  have htext : copyString arkshMaxName fill = fill := copyString_of_lt (by omega)
  constructor
  · rintro ⟨⟨m', hm', hfilled⟩, -⟩
    obtain rfl : fillColumn m q.index fill = m' := by
      have hsame := hfirst.symm.trans hm'
      simpa [matrixValue] using hsame
    have hcol : q.index < m.colNames.length := (findIdx?_eq_some_iff_getElem.mp q.found).1
    constructor
    · intro r hr hempty
      by_contra hnot
      have hkept := (hfilled.column r hr hcol).kept hnot
      rw [fillColumn_cell hr hcol, if_pos rfl, fillCell, if_pos (.inr hempty)] at hkept
      exact hnot (.inr ⟨(congrArg ArkshMatrixCell.kind hkept).symm, hempty⟩)
    · rintro ⟨r, hr, hmissing⟩
      have hheld := ((hfilled.column r hr hcol).missing hmissing).2
      rw [fillColumn_cell hr hcol, if_pos rfl, fillCell, if_pos (hmissing.imp_right And.right)] at hheld
      rw [← trimFill_copyString_iff, hfill, ← hheld]
      exact htext.symm
  · rintro ⟨hothers, hvalue⟩
    refine ⟨⟨fillColumn m q.index fill, hfirst, rfl, length_map _, ?_, ?_⟩, ?_⟩
    · intro r hr hc
      rw [fillColumn_cell hr hc, if_pos rfl]
      constructor
      · intro hmissing
        rw [fillCell, if_pos (hmissing.imp_right And.right),
          ← trimFill_copyString_iff.mpr (hvalue ⟨r, hr, hmissing⟩), hfill]
        exact ⟨rfl, htext⟩
      · intro hnot
        rw [fillCell, if_neg]
        rintro (hkind | hempty)
        · exact hnot (.inl hkind)
        · exact hnot (hothers r hr hempty)
    · intro r hr c hc hne; rw [fillColumn_cell hr hc, if_neg hne]
    · intro result hresult
      obtain rfl := Except.ok.inj (hfirst.symm.trans hresult)
      rw [hstage _ rfl (fillColumn m q.index fill) rfl rfl]
      have htwice : fillColumn (fillColumn m q.index fill) q.index fill =
          fillColumn m q.index fill := by
        simp only [fillColumn, ArkshMatrix.mk.injEq, map_map, true_and]
        refine map_congr_left fun row _ => ?_
        rw [Function.comp_apply, modify_modify_eq]
        exact congrArg (row.modify q.index) (funext fillCell_fillCell)
      rw [htwice]

def numberMatrix : NamedMatrix where
  colNames := ["n".toList]
  rows := [[{ clearedCell with kind := .number }]]
  rowLength := by decide
  rowBound := by decide
  colBound := oneColumn_bound
  namesFit := oneColumn_fits

def numberRequest : FillRequest numberMatrix.toArkshMatrix where
  name := "n".toList
  index := 0
  found := rfl
  raw := "\"n\", \"x\"".toList
  comma := by decide
  named := by decide

/-- The number is overwritten. -/
theorem not_fillNaLaw_number : ¬ FillNaLaw numberMatrix.toArkshMatrix numberRequest := by
  rintro ⟨⟨m', hm', hfilled⟩, -⟩
  have hkept := (hfilled.column 0 (by decide) (by decide)).kept (by
    rintro (hkind | ⟨hkind, -⟩) <;> exact absurd hkind (by decide))
  have hstage : applyFillNaStage (matrixValue numberMatrix.toArkshMatrix) numberRequest.raw =
      .ok (matrixValue (fillColumn numberMatrix.toArkshMatrix 0 "x".toList)) := by rfl
  obtain rfl : fillColumn numberMatrix.toArkshMatrix 0 "x".toList = m' := by
    simpa [matrixValue] using hstage.symm.trans hm'
  exact absurd (congrArg ArkshMatrixCell.kind hkept) (by decide)

/-! ## 3. The method `where` -/

def isCellNumber (kind : ArkshValueKind) : Bool :=
  kind = .number || kind = .integer || kind = .float || kind = .double

def numberPlace : Binary64 → Option Int
  | .nan _ => none
  | .inf neg => some (if neg then -(overflowUnits : Int) else overflowUnits)
  | .finite neg units => some (if neg then -(units.1 : Int) else units.1)

/-- How two doubles compare, as a difference. -/
def numberOrder (a b : Binary64) : Option Int :=
  (numberPlace a).bind fun x => (numberPlace b).map fun y => x - y

def operatorHolds (op : Text) (cmp : Option Int) : Bool :=
  if op = "==".toList then cmp = some 0
  else if op = "!=".toList then cmp ≠ some 0
  else if op = "<".toList then cmp.any (· < 0)
  else if op = "<=".toList then cmp.any (· ≤ 0)
  else if op = ">".toList then cmp.any (· > 0)
  else if op = ">=".toList then cmp.any (· ≥ 0)
  else false

def comparedText (cell : ArkshMatrixCell) : Text := copyString arkshMaxName (matrixCellFormat cell)

def matrixCellCompare (cell : ArkshMatrixCell) (op : Text) (val : ArkshValue) : Bool :=
  if isCellNumber cell.kind ∧ isCellNumber val.kind then
    operatorHolds op (numberOrder cell.number val.number)
  else operatorHolds op (some (strcmp (comparedText cell) val.text))

/-- What the loop of `where` makes of a matrix. -/
def whereMatrix (src : ArkshMatrix) (col : Nat) (op : Text) (val : ArkshValue) : ArkshMatrix :=
  let kept := src.rows.filter fun row => matrixCellCompare (row.getD col clearedCell) op val
  matrixTable (arkshValueSetMatrixColumns src.colNames src.colNames.length) kept.length
    fun r c => (kept.getD r []).getD c clearedCell

def matrixMethodWhere (receiver : ArkshValue) (args : List ArkshValue) : Except Text ArkshValue :=
  match receiver.kind, receiver.matrix with
  | .matrix, some src =>
    match args with
    | [name, op, val] =>
      if name.kind ≠ .string ∨ op.kind ≠ .string then
        .error "where() expects (col_name, operator, value)".toList
      else
        match src.colNames.findIdx? (· = name.text) with
        | none =>
          .error ("where() column \"".toList ++ name.text ++ "\" not found".toList)
        | some col => .ok (matrixValue (whereMatrix src col op.text val))
    | _ => .error "where() expects (col_name, operator, value)".toList
  | _, _ => .error "where() is only valid on matrix values".toList

/-! ## 4. Comparisons -/

inductive Comparand
  | string (text : Text)
  | number (x : Binary64)
  | boolean (b : Bool)

namespace Comparand

def value : Comparand → ArkshValue
  | .string text => arkshValueSetString text
  | .number x => arkshValueSetNumber x
  | .boolean b => arkshValueSetBoolean b

/-- The rendered text, `arksh_value_render`. -/
def text : Comparand → Text
  | .string text => text
  | .number x => formatNumber x
  | .boolean b => if b then "true".toList else "false".toList

abbrev Numeric (val : Comparand) (cell : ArkshMatrixCell) : Prop :=
  isCellNumber cell.kind ∧ isCellNumber val.value.kind

def satisfies (val : Comparand) (op : Text) (cell : ArkshMatrixCell) : Bool :=
  if val.Numeric cell then operatorHolds op (numberOrder cell.number val.value.number)
  else operatorHolds op (some (strcmp (comparedText cell) val.text))

end Comparand

def WhereLaw (m : ArkshMatrix) (col : ColumnOf m) (op : Text) (val : Comparand) : Prop :=
  ∃ m', matrixMethodWhere (matrixValue m)
      [arkshValueSetString col.name, arkshValueSetString op, val.value] = .ok (matrixValue m') ∧
    m'.colNames = m.colNames ∧
    m'.rows = m.rows.filter fun row => val.satisfies op (row.getD col.index clearedCell)

def ComparesAsEmpty (op text rendered : Text) : Prop :=
  if op = "==".toList ∨ op = "!=".toList then text ≠ [] ∧ text ≠ rendered
  else if op = "<".toList ∨ op = ">=".toList then ¬ text < rendered
  else if op = "<=".toList ∨ op = ">".toList then text = [] ∨ rendered < text
  else True

theorem strcmp_cases (left right : Text) :
    left < right ∧ strcmp left right = -1 ∨ left = right ∧ strcmp left right = 0 ∨
      right < left ∧ strcmp left right = 1 := by
  unfold strcmp
  rcases lt_trichotomy left right with h | h | h
  · exact .inl ⟨h, if_pos h⟩
  · exact .inr (.inl ⟨h, by rw [h, if_neg (lt_irrefl right), if_neg (lt_irrefl right)]⟩)
  · exact .inr (.inr ⟨h, by rw [if_neg h.not_gt, if_pos h]⟩)

theorem comparesAsEmpty_iff {op text rendered : Text} (h : rendered ≠ []) :
    operatorHolds op (some (strcmp text [])) = operatorHolds op (some (strcmp text rendered)) ↔
      ComparesAsEmpty op text rendered := by
  have hempty : ¬ text < [] := List.not_lt_nil text
  unfold ComparesAsEmpty operatorHolds
  rcases strcmp_cases text [] with ⟨hlt, -⟩ | ⟨rfl, hcmp⟩ | ⟨hpos, hcmp⟩
  · exact absurd hlt hempty
  · have hless : [] < rendered := by
      cases rendered with
      | nil => exact absurd rfl h
      | cons c t => exact List.nil_lt_cons c t
    rcases strcmp_cases [] rendered with ⟨-, hcmp'⟩ | ⟨rfl, -⟩ | ⟨hlt, -⟩
    · rw [hcmp, hcmp']
      split_ifs <;> simp_all
    · exact absurd rfl h
    · exact absurd hlt (List.not_lt_nil _)
  · have hne : text ≠ [] := fun e => hempty (e ▸ hpos)
    rcases strcmp_cases text rendered with ⟨hlt, hcmp'⟩ | ⟨rfl, hcmp'⟩ | ⟨hlt, hcmp'⟩
    · rw [hcmp, hcmp']
      split_ifs <;> simp_all [hlt.not_gt, hlt.ne]
    · rw [hcmp, hcmp']
      split_ifs <;> simp_all
    · rw [hcmp, hcmp']
      split_ifs <;> simp_all [hlt.not_gt, hlt.ne']

open Binary64 in
theorem formatNumber_ne_nil (x : Binary64) : formatNumber x ≠ [] := by
  intro hnil
  cases h : x.isFinite with
  | true =>
    obtain ⟨n, hn⟩ := isNumber_formatG h 15
    have htext := hn.trans hnil
    simp [Rfc8259.Number.text, n.intNonempty] at htext
  | false =>
    obtain ⟨neg, hspecial | hspecial⟩ := isSpecial_formatG h 15
    · have htext := hspecial.symm.trans hnil; simp at htext
    · have htext := hspecial.symm.trans hnil; simp at htext

/-- **What a cell answers is right for a string, between numbers, and where the text that stands for
    the value does not matter.** -/
theorem matrixCellCompare_iff (cell : ArkshMatrixCell) (op : Text) (val : Comparand) :
    matrixCellCompare cell op val.value = val.satisfies op cell ↔
      val.value.kind = .string ∨ val.Numeric cell ∨
        ComparesAsEmpty op (comparedText cell) val.text := by
  by_cases hnumeric : val.Numeric cell
  · rw [matrixCellCompare, if_pos hnumeric, Comparand.satisfies, if_pos hnumeric]
    exact iff_of_true rfl (.inr (.inl hnumeric))
  · rw [matrixCellCompare, if_neg hnumeric, Comparand.satisfies, if_neg hnumeric,
      or_iff_right hnumeric]
    cases val with
    | string text => exact iff_of_true rfl (.inl rfl)
    | number x =>
      exact (comparesAsEmpty_iff (formatNumber_ne_nil x)).trans (or_iff_right nofun).symm
    | boolean b =>
      exact (comparesAsEmpty_iff (by cases b <;> decide)).trans (or_iff_right nofun).symm

theorem whereMatrix_rows (m : NamedMatrix) (col : Nat) (op : Text) (val : ArkshValue) :
    (whereMatrix m.toArkshMatrix col op val).colNames = m.colNames ∧
      (whereMatrix m.toArkshMatrix col op val).rows =
        m.rows.filter fun row => matrixCellCompare (row.getD col clearedCell) op val := by
  have hcolumns := arkshValueSetMatrixColumns_eq m.colBound m.namesFit
  -- the rows that are left are those of a matrix
  have hrows := ArkshMatrix.rows_eq
    { m.toArkshMatrix with
      rows := m.rows.filter fun row => matrixCellCompare (row.getD col clearedCell) op val
      rowLength := fun row hrow => m.rowLength row (mem_of_mem_filter hrow) }
  refine ⟨hcolumns, ?_⟩
  rw [whereMatrix, matrixTable, hcolumns]
  exact hrows.symm

/-- **Exactly the right rows are left if the value is a string, or every cell is a number as the
    value is, or compares with the empty text as it does with the value's.** -/
theorem whereLaw_iff (m : NamedMatrix) (col : ColumnOf m.toArkshMatrix) (op : Text)
    (val : Comparand) : WhereLaw m.toArkshMatrix col op val ↔
      val.value.kind = .string ∨ ∀ row ∈ m.rows, val.Numeric (row.getD col.index clearedCell) ∨
          ComparesAsEmpty op (comparedText (row.getD col.index clearedCell)) val.text := by
  have hmethod : matrixMethodWhere (matrixValue m.toArkshMatrix)
      [arkshValueSetString col.name, arkshValueSetString op, val.value] =
        .ok (matrixValue (whereMatrix m.toArkshMatrix col.index op val.value)) := by
    have hstrings : ¬ ((arkshValueSetString col.name).kind ≠ .string ∨
        (arkshValueSetString op).kind ≠ .string) := by
      rintro (h | h) <;> exact h rfl
    have hfound : m.colNames.findIdx? (· = (arkshValueSetString col.name).text) =
        some col.index := col.found
    simp only [matrixMethodWhere, matrixValue, if_neg hstrings, hfound]
    rfl
  obtain ⟨hcolumns, hrows⟩ := whereMatrix_rows m col.index op val.value
  have hanswers := fun row : List ArkshMatrixCell =>
    matrixCellCompare_iff (row.getD col.index clearedCell) op val
  constructor
  · rintro ⟨m', hm', -, hkept⟩
    obtain rfl : whereMatrix m.toArkshMatrix col.index op val.value = m' := by
      simpa [matrixValue] using hmethod.symm.trans hm'
    refine or_iff_not_imp_left.mpr fun hstring row hrow => ?_
    have hmem : row ∈ m.rows.filter (fun row =>
      val.satisfies op (row.getD col.index clearedCell)) ↔ _ := mem_filter
    rw [← hkept, hrows, mem_filter, and_congr_right_iff] at hmem
    exact ((hanswers row).mp (Bool.eq_iff_iff.mpr (hmem hrow))).resolve_left hstring
  · intro h
    refine ⟨_, hmethod, hcolumns, hrows.trans (filter_congr fun row hrow => ?_)⟩
    exact (hanswers row).mpr (h.imp_right fun hall => hall row hrow)

def trueMatrix : NamedMatrix :=
  { numberMatrix with
    rows := [[{ clearedCell with kind := .string, text := "true".toList }]]
    rowLength := by decide
    rowBound := by decide }

/-- The row is not found by the boolean `true`. -/
theorem not_whereLaw_true : ¬ WhereLaw trueMatrix.toArkshMatrix ⟨"n".toList, 0, rfl⟩ "==".toList
    (.boolean true) := by
  rintro ⟨m', hm', -, hrows⟩
  have hmethod : matrixMethodWhere (matrixValue trueMatrix.toArkshMatrix)
      [arkshValueSetString "n".toList, arkshValueSetString "==".toList, arkshValueSetBoolean true] =
        .ok (matrixValue (whereMatrix trueMatrix.toArkshMatrix 0 "==".toList
          (arkshValueSetBoolean true))) := rfl
  obtain rfl : whereMatrix trueMatrix.toArkshMatrix 0 "==".toList (arkshValueSetBoolean true) =
      m' := by
    simpa [matrixValue] using hmethod.symm.trans hm'
  revert hrows
  decide

end Arksh
