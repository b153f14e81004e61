/-
  Subject: The stage `transpose` of `src/executor.c`.

  A matrix is a record of 256 rows of 32 cells. The stage makes a record with a column for every row
  and copies cell by cell; the columns that the record does not have are not made, and no error
  says so.
-/
import Arksh.Object.Value

namespace Arksh

open CText List

/-! ## 1. Records -/

def arkshMaxMatrixCols : Nat := 32

def arkshMaxMatrixRows : Nat := 256

/-- A table that a record has room for. -/
structure StoredMatrix extends ArkshMatrix where
  rowBound : rows.length ≤ arkshMaxMatrixRows
  colBound : colNames.length ≤ arkshMaxMatrixCols

/-- A cell of a record that `calloc` has cleared. -/
def clearedCell : ArkshMatrixCell :=
  { kind := .empty, text := [], number := zeroNumber, boolean := false }

/-- The cells of a record by row and column. -/
abbrev MatrixCells := Nat → Nat → ArkshMatrixCell

def ArkshMatrix.cell (m : ArkshMatrix) : MatrixCells := fun r c =>
  (m.rows.getD r []).getD c clearedCell

def setCell (cells : MatrixCells) (r c : Nat) (cell : ArkshMatrixCell) : MatrixCells :=
  Function.update cells r (Function.update (cells r) c cell)

def matrixTable (colNames : List Text) (rowCount : Nat) (cells : MatrixCells) : ArkshMatrix where
  colNames := colNames
  rows := (List.range rowCount).map fun r => (List.range colNames.length).map (cells r)
  rowLength := by
    intro row hrow
    obtain ⟨r, -, rfl⟩ := List.mem_map.mp hrow
    rw [List.length_map, List.length_range]

/-! ## 2. The stage -/

def arkshValueSetMatrixColumns (colNames : List Text) (colCount : Nat) : List Text :=
  (List.range (min colCount arkshMaxMatrixCols)).map fun i =>
    copyString arkshMaxName (colNames.getD i [])

/-- `"row_%zu"`, in a buffer of 16 bytes. -/
def rowName (r : Nat) : Text := copyString 16 ("row_".toList ++ Nat.toDigits 10 r)

def transposeRow (src : ArkshMatrix) (cells : MatrixCells) (r : Nat) : MatrixCells :=
  (List.range (min src.rows.length arkshMaxMatrixCols)).foldl
    (fun cells c => setCell cells r c (src.cell c r)) cells

/-- The loop over `r` of `transpose`. -/
def transposeRows (src : ArkshMatrix) (cells : MatrixCells) : MatrixCells :=
  (List.range src.colNames.length).foldl (transposeRow src) cells

def transposeMatrix (src : ArkshMatrix) : ArkshMatrix :=
  let rowNames := (List.range (min src.rows.length arkshMaxMatrixRows)).map rowName
  matrixTable (arkshValueSetMatrixColumns rowNames src.rows.length) src.colNames.length
    (transposeRows src fun _ _ => clearedCell)

/-- The branch of the dispatcher for `transpose`. -/
def applyTransposeStage (value : ArkshValue) : Except String ArkshValue :=
  match value.kind, value.matrix with
  | .matrix, some src =>
    .ok { arkshValueInit with kind := .matrix, matrix := some (transposeMatrix src) }
  | _, _ => .error "transpose: value must be a matrix"

/-! ## 3. The loops -/

section Loops

variable (src : ArkshMatrix) (cells : MatrixCells)

theorem setCell_apply (r c : Nat) (cell : ArkshMatrixCell) (i j : Nat) :
    setCell cells r c cell i j = if i = r ∧ j = c then cell else cells i j := by
  unfold setCell
  by_cases hi : i = r
  · subst hi
    rw [Function.update_self]
    by_cases hj : j = c
    · subst hj; rw [Function.update_self, if_pos ⟨rfl, rfl⟩]
    · rw [Function.update_of_ne hj, if_neg fun h => hj h.2]
  · rw [Function.update_of_ne hi, if_neg fun h => hi h.1]

theorem transposeRow_loop (r n i j : Nat) :
    (List.range n).foldl (fun cells c => setCell cells r c (src.cell c r)) cells i j =
      if i = r ∧ j < n then src.cell j r else cells i j := by
  induction n with
  | zero => rw [if_neg fun h => Nat.not_lt_zero j h.2]; rfl
  | succ n ih =>
    rw [range_succ, foldl_append, foldl_cons, foldl_nil, setCell_apply, ih]
    by_cases hlast : i = r ∧ j = n
    · rw [if_pos hlast, if_pos ⟨hlast.1, by omega⟩, hlast.2]
    · rw [if_neg hlast]; exact if_congr (by omega) rfl rfl

theorem transposeRows_loop (n i j : Nat) : (List.range n).foldl (transposeRow src) cells i j =
      if i < n ∧ j < min src.rows.length arkshMaxMatrixCols then src.cell j i else cells i j := by
  induction n with
  | zero =>
    rfl
  | succ n ih =>
    rw [range_succ, foldl_append, foldl_cons, foldl_nil, transposeRow, transposeRow_loop, ih]
    by_cases hlast : i = n ∧ j < min src.rows.length arkshMaxMatrixCols
    · rw [if_pos hlast, if_pos ⟨by omega, hlast.2⟩, hlast.1]
    · rw [if_neg hlast]; exact if_congr (by omega) rfl rfl

/-- **What the loops write.** -/
theorem transposeRows_apply (r c : Nat) : transposeRows src cells r c =
    if r < src.colNames.length ∧ c < min src.rows.length arkshMaxMatrixCols then src.cell c r
    else cells r c :=
  transposeRows_loop src cells src.colNames.length r c

end Loops

/-! ## 4. Tables -/

section Tables

variable {colNames : List Text} {rowCount : Nat} {cells : MatrixCells} {r c : Nat}

theorem matrixTable_cell (hr : r < rowCount) (hc : c < colNames.length) :
    (matrixTable colNames rowCount cells).cell r c = cells r c := by
  rw [ArkshMatrix.cell, matrixTable]
  simp [getD_eq_getElem?_getD, hr, hc]

theorem matrixTable_rows_length : (matrixTable colNames rowCount cells).rows.length = rowCount := by
  rw [matrixTable, length_map, length_range]

theorem ArkshMatrix.rows_eq (m : ArkshMatrix) : m.rows = (List.range m.rows.length).map fun r =>
      (List.range m.colNames.length).map (m.cell r) := by
  refine ext_getElem (by simp) fun r hr _ => ?_
  have hlength := m.rowLength _ (getElem_mem hr)
  rw [getElem_map, getElem_range]
  refine ext_getElem (by simp [hlength]) fun c hc _ => ?_
  rw [getElem_map, getElem_range, ArkshMatrix.cell, getD_eq_getElem?_getD,
    getD_eq_getElem?_getD, getElem?_eq_getElem hr, Option.getD_some,
    getElem?_eq_getElem hc, Option.getD_some]

theorem arkshValueSetMatrixColumns_length (names : List Text) (colCount : Nat) :
    (arkshValueSetMatrixColumns names colCount).length = min colCount arkshMaxMatrixCols := by
  rw [arkshValueSetMatrixColumns, length_map, length_range]

end Tables

section Transpose

variable {src : ArkshMatrix} {r c : Nat}

theorem transposeMatrix_rows_length : (transposeMatrix src).rows.length = src.colNames.length :=
  matrixTable_rows_length

theorem transposeMatrix_colNames_length :
    (transposeMatrix src).colNames.length = min src.rows.length arkshMaxMatrixCols :=
  arkshValueSetMatrixColumns_length _ _

theorem transposeMatrix_cell (hr : r < src.colNames.length)
    (hc : c < min src.rows.length arkshMaxMatrixCols) :
    (transposeMatrix src).cell r c = src.cell c r := by
  have hcolumn : c < (arkshValueSetMatrixColumns
      ((List.range (min src.rows.length arkshMaxMatrixRows)).map rowName)
      src.rows.length).length := by
    rw [arkshValueSetMatrixColumns_length]
    exact hc
  rw [transposeMatrix, matrixTable_cell hr hcolumn, transposeRows_apply, if_pos ⟨hr, hc⟩]

/-- **Transposing twice.** A matrix that is not too large is transposed to its transpose, and that
    to its rows. -/
theorem transposeMatrix_transposeMatrix (hrows : src.rows.length ≤ arkshMaxMatrixCols)
    (hcols : src.colNames.length ≤ arkshMaxMatrixCols) :
    (transposeMatrix (transposeMatrix src)).rows = src.rows := by
  have hwidth : (transposeMatrix src).colNames.length = src.rows.length := by
    rw [transposeMatrix_colNames_length, Nat.min_eq_left hrows]
  have hwidth' : (transposeMatrix (transposeMatrix src)).colNames.length =
      src.colNames.length := by
    rw [transposeMatrix_colNames_length, transposeMatrix_rows_length, Nat.min_eq_left hcols]
  rw [ArkshMatrix.rows_eq, transposeMatrix_rows_length, hwidth, hwidth',
    ArkshMatrix.rows_eq src, length_map, length_range]
  refine map_congr_left fun r hr => map_congr_left fun c hc => ?_
  rw [mem_range] at hr hc
  rw [transposeMatrix_cell (by omega) (by rw [transposeMatrix_rows_length]; omega),
    transposeMatrix_cell hc (by omega)]

end Transpose

/-! ## 5. The law -/

structure IsTranspose (src dst : ArkshMatrix) : Prop where
  rows : dst.rows.length = src.colNames.length
  cols : dst.colNames.length = src.rows.length
  cells : ∀ r < src.rows.length, ∀ c < src.colNames.length, dst.cell c r = src.cell r c

structure TransposeLaw (src : ArkshMatrix) : Prop where
  once : ∀ value result : ArkshValue, value.kind = .matrix → value.matrix = some src →
    applyTransposeStage value = .ok result →
      result.kind = .matrix ∧ ∃ dst, result.matrix = some dst ∧ IsTranspose src dst
  twice : ∀ value result result' : ArkshValue, value.kind = .matrix → value.matrix = some src →
    applyTransposeStage value = .ok result → applyTransposeStage result = .ok result' →
      ∃ dst, result'.matrix = some dst ∧ dst.rows = src.rows

theorem applyTransposeStage_eq {value : ArkshValue} {src : ArkshMatrix}
    (hkind : value.kind = .matrix) (hmatrix : value.matrix = some src) :
    applyTransposeStage value =
      .ok { arkshValueInit with kind := .matrix, matrix := some (transposeMatrix src) } := by
  rw [applyTransposeStage, hkind, hmatrix]

/-- **The stage transposes a matrix exactly if it has no more rows than a matrix may have
    columns.** -/
theorem transposeLaw_iff (src : StoredMatrix) :
    TransposeLaw src.toArkshMatrix ↔ src.rows.length ≤ arkshMaxMatrixCols := by
  constructor
  · intro hlaw
    -- the stage does not fail, and a record has so many columns
    obtain ⟨-, dst, hdst, htranspose⟩ :=
      hlaw.once { arkshValueInit with kind := .matrix, matrix := some src.toArkshMatrix } _ rfl rfl
        (applyTransposeStage_eq rfl rfl)
    cases hdst
    have hcols := htranspose.cols
    rw [transposeMatrix_colNames_length] at hcols
    omega
  · intro hrows
    constructor
    · rintro value result hkind hmatrix hok
      rw [applyTransposeStage_eq hkind hmatrix] at hok
      cases hok
      refine ⟨rfl, transposeMatrix src.toArkshMatrix, rfl, transposeMatrix_rows_length, ?_, ?_⟩
      · rw [transposeMatrix_colNames_length, Nat.min_eq_left hrows]
      · intro r hr c hc; exact transposeMatrix_cell hc (by omega)
    · rintro value result result' hkind hmatrix hok hok'
      rw [applyTransposeStage_eq hkind hmatrix] at hok
      cases hok
      cases hok'
      exact ⟨_, rfl, transposeMatrix_transposeMatrix hrows src.colBound⟩

theorem oneColumn_bound : ["n".toList].length ≤ arkshMaxMatrixCols := by decide

def tallMatrix : StoredMatrix where
  colNames := ["n".toList]
  rows := List.replicate 33 [clearedCell]
  rowLength := by
    intro row hrow
    rw [(List.mem_replicate.mp hrow).2]
    rfl
  rowBound := by decide
  colBound := oneColumn_bound

/-- The last of its rows gets lost. -/
theorem not_transposeLaw_tallMatrix : ¬ TransposeLaw tallMatrix.toArkshMatrix := by
  intro hlaw
  obtain ⟨-, dst, hdst, htranspose⟩ :=
    hlaw.once { arkshValueInit with kind := .matrix, matrix := some tallMatrix.toArkshMatrix } _
      rfl rfl (applyTransposeStage_eq rfl rfl)
  cases hdst
  have hcols := htranspose.cols
  revert hcols
  decide

end Arksh
