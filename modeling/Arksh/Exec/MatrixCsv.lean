/-
  Subject: The methods `to_csv` and `from_csv` of a matrix, `src/shell.c`.

  The writer leaves out a field that does not fit its buffer of 8192 bytes and goes on; the reader
  takes an empty line for no record.
-/
import Arksh.Exec.Transpose
import Arksh.Lib.Csv
import Mathlib.Data.List.DropRight

namespace Arksh

open CText List Bool Nat

/-! ## 1. The writer -/

/-- `matrix_cell_format`, with a buffer that holds the text of every cell. -/
def matrixCellFormat (cell : ArkshMatrixCell) : Text :=
  match cell.kind with
  | .empty => []
  | .number | .integer | .float | .double => Binary64.formatG 6 cell.number
  | .boolean => if cell.boolean then "true".toList else "false".toList
  | _ => cell.text

/-- `if (pos < size - 1) buf[pos++] = c` -/
def csvPut (size : Nat) (buf : Text) (c : Char) : Text :=
  if buf.length < size - 1 then buf ++ [c] else buf

/-- The loop of `csv_write_field` between the quotes. -/
def csvQuotedLoop (size : Nat) (out : Text) : Text → Text
  | [] => out
  | c :: text =>
    if out.length < size - 3 then
      csvQuotedLoop size (out ++ if c = '"' then ['"', '"'] else [c]) text
    else out

def csvWriteField (size : Nat) (text : Text) : Text :=
  if text.any fun c => c = ',' || c = '"' || c = '\n' || c = '\r' then
    csvPut size (csvQuotedLoop size (csvPut size [] '"') text) '"'
  else copyString size text

def csvField (buf text : Text) : Text :=
  let field := csvWriteField (arkshMaxName * 3) text
  if buf.length + field.length < arkshMaxOutput - 1 then buf ++ field else buf

/-- The loops over `col` of `to_csv`. -/
def csvRecord (buf : Text) : List Text → Text
  | [] => buf
  | first :: texts =>
    texts.foldl (fun buf text => csvField (csvPut arkshMaxOutput buf ',') text) (csvField buf first)

def csvLine (buf : Text) (texts : List Text) : Text :=
  csvPut arkshMaxOutput (csvRecord buf texts) '\n'

/-- What `to_csv` has in its buffer. -/
def toCsv (m : ArkshMatrix) : Text :=
  m.rows.foldl (fun buf row => csvLine buf (row.map matrixCellFormat)) (csvLine [] m.colNames)

def matrixMethodToCsv (receiver : ArkshValue) : Except String ArkshValue :=
  match receiver.kind, receiver.matrix with
  | .matrix, some m => .ok (arkshValueSetString (toCsv m))
  | _, _ => .error "to_csv is only valid on matrix values"

/-! ## 2. The reader -/

def isCsvBreak (c : Char) : Bool := c = '\n' || c = '\r'

def csvReadQuoted (size : Nat) (out : Text) : Text → Text × Text
  | [] => (out, [])
  | '"' :: '"' :: src => csvReadQuoted size (csvPut size out '"') src
  | '"' :: src => (out, src)
  | c :: src => csvReadQuoted size (csvPut size out c) src

/-- The loop of `csv_read_field` without quotes. -/
def csvReadPlain (size : Nat) (out : Text) : Text → Text × Text
  | [] => (out, [])
  | c :: src =>
    if c = ',' ∨ isCsvBreak c then (out, c :: src) else csvReadPlain size (csvPut size out c) src

def skipComma : Text → Text
  | ',' :: src => src
  | src => src

def csvReadField (size : Nat) (src : Text) : Text × Text :=
  let field := match src with
    | '"' :: src => csvReadQuoted size [] src
    | src => csvReadPlain size [] src
  (field.1, skipComma field.2)

/-- The loop of `from_csv` over the first line, with room for so many columns. -/
def csvHeader : Nat → Text → List Text × Text
  | 0, src => ([], src)
  | room + 1, src =>
    match src with
    | [] => ([], [])
    | c :: rest =>
      if isCsvBreak c then ([], c :: rest)
      else
        let field := csvReadField arkshMaxName (c :: rest)
        let more := csvHeader room field.2
        (field.1 :: more.1, more.2)

/-- The loop of `from_csv` over the columns of a row. -/
def csvReadRow : Nat → Text → List Text × Text
  | 0, src => ([], src)
  | cols + 1, src =>
    let field := csvReadField arkshMaxName src
    let more := csvReadRow cols field.2
    (field.1 :: more.1, more.2)

/-- The loop of `from_csv` over the rows, with room for so many; line breaks in front of one are
    left out. -/
def csvRows (cols : Nat) : Nat → Text → List (List Text)
  | 0, _ => []
  | room + 1, src =>
    match src.dropWhile isCsvBreak with
    | [] => []
    | c :: src =>
      let row := csvReadRow cols (c :: src)
      row.1 :: csvRows cols room
        ((row.2.dropWhile fun c => !isCsvBreak c).dropWhile isCsvBreak)

/-- A cell of `from_csv`. -/
def stringCell (text : Text) : ArkshMatrixCell :=
  { clearedCell with kind := .string, text := copyString arkshMaxName text }

theorem csvReadRow_length (cols : Nat) (src : Text) : (csvReadRow cols src).1.length = cols := by
  induction cols generalizing src with
  | zero => rfl
  | succ cols ih => exact congrArg Nat.succ (ih _)

theorem csvRows_length {cols room : Nat} {src : Text} {row : List Text}
    (h : row ∈ csvRows cols room src) : row.length = cols := by
  induction room generalizing src with
  | zero => cases h
  | succ room ih =>
    unfold csvRows at h
    split at h
    · cases h
    · rcases mem_cons.mp h with rfl | h
      · exact csvReadRow_length _ _
      · exact ih h

def fromCsv (csv : Text) : ArkshMatrix :=
  let header := csvHeader arkshMaxMatrixCols csv
  let colNames := arkshValueSetMatrixColumns header.1 header.1.length
  let rows := if header.1.length = 0 then []
    else csvRows colNames.length arkshMaxMatrixRows (header.2.dropWhile isCsvBreak)
  { colNames := colNames
    rows := rows.map (List.map stringCell)
    rowLength := by
      intro row hrow
      obtain ⟨texts, htexts, rfl⟩ := List.mem_map.mp hrow
      rw [List.length_map]
      by_cases hnone : header.1.length = 0
      · rw [show rows = [] from if_pos hnone] at htexts; cases htexts
      · rw [show rows = csvRows _ _ _ from if_neg hnone] at htexts; exact csvRows_length htexts }

def matrixMethodFromCsv (args : List ArkshValue) : Except String ArkshValue :=
  match args with
  | [arg] =>
    if arg.kind = .string then
      .ok { arkshValueInit with kind := .matrix, matrix := some (fromCsv arg.text) }
    else .error "from_csv() expects exactly one string argument"
  | _ => .error "from_csv() expects exactly one string argument"

/-! ## 3. What is written -/

section Written

variable {size : Nat} {buf text rest : Text} {c : Char} {texts : List Text}

theorem csvPut_fits (h : buf.length + 1 < size) : csvPut size buf c = buf ++ [c] :=
  if_pos (by omega)

theorem csvQuotedLoop_eq (h : buf.length + 2 * text.length + 2 < size) :
    csvQuotedLoop size buf text = buf ++ Csv.escape text := by
  induction text generalizing buf with
  | nil => exact (append_nil buf).symm
  | cons c text ih =>
    rw [length_cons] at h
    have hlength : (if c = '"' then ['"', '"'] else [c]).length ≤ 2 := by
      split
      · exact le_refl 2
      · exact le_succ 1
    rw [csvQuotedLoop, if_pos (by omega), ih (by rw [length_append]; omega), Csv.escape_cons,
      append_assoc]

theorem csvWriteField_eq (h : text.length < arkshMaxName) :
    csvWriteField (arkshMaxName * 3) text = Csv.field text := by
  have hsize : arkshMaxName = 128 := rfl
  have hescape := Csv.length_escape_le text
  change (if text.any Csv.isSpecial = true then _ else _) =
    if text.any Csv.isSpecial = true then _ else _
  by_cases hquote : text.any Csv.isSpecial = true
  · have hopen : csvPut (arkshMaxName * 3) [] '"' = ['"'] := rfl
    rw [if_pos hquote, if_pos hquote, hopen, csvQuotedLoop_eq (by rw [length_singleton]; omega),
      csvPut_fits (by rw [length_append, length_singleton]; omega), append_assoc]
    rfl
  · rw [if_neg hquote, if_neg hquote]; exact copyString_of_lt (by omega)

theorem csvField_fits (htext : text.length < arkshMaxName)
    (h : buf.length + (Csv.field text).length + 1 < arkshMaxOutput) :
    csvField buf text = buf ++ Csv.field text := by
  rw [csvField, csvWriteField_eq htext]
  exact if_pos (by omega)

def NameTexts (texts : List Text) : Prop := ∀ text ∈ texts, text.length < arkshMaxName

section

variable (htexts : NameTexts texts)
include htexts

theorem foldl_csvField (h : buf.length + (Csv.moreFields texts).length + 1 < arkshMaxOutput) :
    texts.foldl (fun buf text => csvField (csvPut arkshMaxOutput buf ',') text) buf =
      buf ++ Csv.moreFields texts := by
  induction texts generalizing buf with
  | nil => exact (append_nil buf).symm
  | cons text texts ih =>
    rw [Csv.moreFields_cons, length_cons, length_append] at h
    have hnext : csvField (csvPut arkshMaxOutput buf ',') text = buf ++ [','] ++ Csv.field text := by
      rw [csvPut_fits (by omega)]
      refine csvField_fits (htexts text mem_cons_self) ?_
      rw [length_append, length_singleton]
      omega
    rw [foldl_cons, hnext, ih fun t ht => htexts t (mem_cons_of_mem _ ht), Csv.moreFields_cons]
    · simp
    · simp only [length_append, length_singleton]; omega

theorem csvRecord_fits (h : buf.length + (Csv.record texts).length + 1 < arkshMaxOutput) :
    csvRecord buf texts = buf ++ Csv.record texts := by
  cases texts with
  | nil => exact (append_nil buf).symm
  | cons first texts =>
    rw [Csv.record, length_append] at h
    rw [csvRecord, csvField_fits (htexts first mem_cons_self) (by omega),
      foldl_csvField fun t ht => htexts t (mem_cons_of_mem _ ht), Csv.record, append_assoc]
    rw [length_append]
    omega

theorem csvLine_fits (h : buf.length + (Csv.record texts).length + 1 < arkshMaxOutput) :
    csvLine buf texts = buf ++ (Csv.record texts ++ ['\n']) := by
  rw [csvLine, csvRecord_fits htexts h, csvPut_fits (by rw [length_append]; omega),
    append_assoc]

end

theorem foldl_csvLine {records : List (List Text)} (hrecords : ∀ texts ∈ records, NameTexts texts)
    (h : buf.length + (Csv.text records).length < arkshMaxOutput) :
    records.foldl csvLine buf = buf ++ Csv.text records := by
  induction records generalizing buf with
  | nil => exact (append_nil buf).symm
  | cons texts records ih =>
    rw [Csv.text_cons, length_append, length_cons] at h
    rw [foldl_cons, csvLine_fits (hrecords texts mem_cons_self) (by omega),
      ih fun t ht => hrecords t (mem_cons_of_mem _ ht), Csv.text_cons]
    · simp
    · simp only [length_append, length_singleton]; omega

/-! The buffer is never full. -/

theorem csvPut_lt (hsize : 0 < size) (h : buf.length < size) : (csvPut size buf c).length < size := by
  unfold csvPut
  split
  · rw [length_append, length_singleton]; omega
  · exact h

theorem csvField_lt (h : buf.length < arkshMaxOutput) : (csvField buf text).length < arkshMaxOutput := by
  unfold csvField
  dsimp only
  split
  · rw [length_append]; omega
  · exact h

theorem csvLine_lt (h : buf.length < arkshMaxOutput) : (csvLine buf texts).length < arkshMaxOutput := by
  have hpos : 0 < arkshMaxOutput := by decide
  have hfold : ∀ (texts : List Text) (buf : Text), buf.length < arkshMaxOutput →
      (texts.foldl (fun buf text => csvField (csvPut arkshMaxOutput buf ',') text) buf).length <
        arkshMaxOutput := by
    intro texts
    induction texts with
    | nil => exact fun _ h => h
    | cons text texts ih => exact fun buf h => ih _ (csvField_lt (csvPut_lt hpos h))
  refine csvPut_lt hpos ?_
  cases texts with
  | nil => exact h
  | cons first texts => exact hfold texts _ (csvField_lt h)

theorem foldl_csvLine_lt (records : List (List Text)) (h : buf.length < arkshMaxOutput) :
    (records.foldl csvLine buf).length < arkshMaxOutput := by
  induction records generalizing buf with
  | nil => exact h
  | cons texts records ih => exact ih (csvLine_lt h)

end Written

def ArkshMatrix.records (m : ArkshMatrix) : List (List Text) :=
  m.colNames :: m.rows.map (List.map matrixCellFormat)

theorem toCsv_records (m : ArkshMatrix) : toCsv m = m.records.foldl csvLine [] := by
  rw [toCsv, ArkshMatrix.records, foldl_cons, foldl_map]

/-- **The text is that of the records exactly if it fits.** -/
theorem toCsv_eq_iff {m : ArkshMatrix} (h : ∀ texts ∈ m.records, NameTexts texts) :
    toCsv m = Csv.text m.records ↔ (Csv.text m.records).length < arkshMaxOutput := by
  rw [toCsv_records]
  constructor
  · intro heq
    rw [← heq]
    exact foldl_csvLine_lt _ (by decide)
  · intro hfits; rw [foldl_csvLine h (by simpa using hfits), nil_append]

/-! ## 4. What is read -/

section Read

variable {size : Nat} {out text rest : Text} {texts : List Text}

theorem csvReadQuoted_escape (hfits : out.length + text.length < size) (hrest : rest.head? ≠ some '"') :
    csvReadQuoted size out (Csv.escape text ++ '"' :: rest) = (out ++ text, rest) := by
  induction text generalizing out with
  | nil =>
    rw [append_nil]
    cases rest with
    | nil => rfl
    | cons c rest =>
      have hc : c ≠ '"' := fun h => hrest (congrArg some h)
      show csvReadQuoted size out ('"' :: c :: rest) = _
      rw [csvReadQuoted]
      rintro _ ⟨⟩
      exact hc rfl
  | cons c text ih =>
    rw [length_cons] at hfits
    have hnext : csvReadQuoted size (csvPut size out c) (Csv.escape text ++ '"' :: rest) =
        (out ++ c :: text, rest) := by
      rw [csvPut_fits (by omega), ih (by rw [length_append, length_singleton]; omega),
        append_assoc]
      rfl
    rw [Csv.escape_cons]
    by_cases hc : c = '"'
    · rw [if_pos hc, ← hnext, hc]; rfl
    · rw [if_neg hc, ← hnext]
      show csvReadQuoted size out (c :: (Csv.escape text ++ '"' :: rest)) = _
      rw [csvReadQuoted]
      · exact fun _ h => absurd h hc
      · exact hc

def EndsField (rest : Text) : Prop := rest.head? = some ',' ∨ rest.head? = some '\n'

theorem csvReadPlain_eq (hfits : out.length + text.length < size)
    (hplain : ∀ c ∈ text, Csv.isSpecial c = false) (hrest : EndsField rest) :
    csvReadPlain size out (text ++ rest) = (out ++ text, rest) := by
  induction text generalizing out with
  | nil =>
    rw [nil_append, append_nil]
    obtain ⟨c, rest, rfl, hc⟩ : ∃ c more, rest = c :: more ∧ (c = ',' ∨ isCsvBreak c = true) := by
      rcases hrest with h | h
      · obtain ⟨more, rfl⟩ := head?_eq_some_iff.mp h; exact ⟨',', more, rfl, .inl rfl⟩
      · obtain ⟨more, rfl⟩ := head?_eq_some_iff.mp h; exact ⟨'\n', more, rfl, .inr rfl⟩
    exact if_pos hc
  | cons c text ih =>
    rw [length_cons] at hfits
    have hc := hplain c mem_cons_self
    have hcontinue : ¬ (c = ',' ∨ isCsvBreak c = true) := by
      simp only [Csv.isSpecial, isCsvBreak, or_eq_false_iff, decide_eq_false_iff_not,
        or_eq_true, decide_eq_true_eq] at hc ⊢
      tauto
    rw [cons_append, csvReadPlain, if_neg hcontinue, csvPut_fits (by omega),
      ih (by rw [length_append, length_singleton]; omega)
        fun d hd => hplain d (mem_cons_of_mem _ hd), append_assoc]
    rfl

theorem csvReadField_quoted (size : Nat) (src : Text) : csvReadField size ('"' :: src) =
    ((csvReadQuoted size [] src).1, skipComma (csvReadQuoted size [] src).2) := rfl

theorem csvReadField_plain {src : Text} (h : src.head? ≠ some '"') : csvReadField size src =
    ((csvReadPlain size [] src).1, skipComma (csvReadPlain size [] src).2) := by
  unfold csvReadField
  split
  · exact absurd rfl h
  · rfl

theorem csvReadField_field (hfits : text.length < arkshMaxName) (hrest : EndsField rest) :
    csvReadField arkshMaxName (Csv.field text ++ rest) = (text, skipComma rest) := by
  have hquote : rest.head? ≠ some '"' := by
    intro h
    rcases hrest with h' | h'
    · rw [h] at h'; cases h'
    · rw [h] at h'; cases h'
  rcases Csv.field_cases text with ⟨hplain, hfield⟩ | hfield
  · have hread := @csvReadPlain_eq arkshMaxName [] text rest (by simpa using hfits) hplain hrest
    have hhead : (text ++ rest).head? ≠ some '"' := by
      cases text with
      | nil => exact hquote
      | cons c text =>
        intro h
        obtain rfl := Option.some.inj h
        exact false_ne_true ((hplain _ mem_cons_self).symm.trans rfl)
    rw [hfield, csvReadField_plain hhead, hread, nil_append]
  · have hread := @csvReadQuoted_escape arkshMaxName [] text rest (by simpa using hfits) hquote
    rw [hfield, cons_append, append_assoc, csvReadField_quoted, singleton_append, hread, nil_append]

theorem endsField_moreFields (texts : List Text) (rest : Text) :
    EndsField (Csv.moreFields texts ++ '\n' :: rest) := by
  cases texts with
  | nil => exact .inr rfl
  | cons text texts => exact .inl (by rw [Csv.moreFields_cons]; rfl)

theorem skipComma_moreFields (text : Text) (texts : List Text) (rest : Text) :
    skipComma (Csv.moreFields (text :: texts) ++ rest) = Csv.record (text :: texts) ++ rest := by
  rfl

theorem csvReadRow_record (hne : texts ≠ []) (htexts : NameTexts texts) (rest : Text) :
    csvReadRow texts.length (Csv.record texts ++ '\n' :: rest) = (texts, '\n' :: rest) := by
  induction texts with
  | nil => exact absurd rfl hne
  | cons text texts ih =>
    have hfield := csvReadField_field (htexts text mem_cons_self)
      (endsField_moreFields texts rest)
    rw [length_cons, csvReadRow, Csv.record, append_assoc, hfield]
    cases texts with
    | nil => rfl
    | cons second texts =>
      rw [skipComma_moreFields, ih (cons_ne_nil _ _) fun t ht => htexts t (mem_cons_of_mem _ ht)]

/-- **The columns are read as they were written**, if they have names. -/
theorem csvHeader_record {room : Nat} (hroom : texts.length ≤ room) (hnames : ∀ t ∈ texts, t ≠ [])
    (htexts : NameTexts texts) (rest : Text) :
    csvHeader room (Csv.record texts ++ '\n' :: rest) = (texts, '\n' :: rest) := by
  induction texts generalizing room with
  | nil =>
    cases room with
    | zero | succ room => rfl
  | cons text texts ih =>
    obtain ⟨room, rfl⟩ := exists_eq_succ_of_ne_zero (ne_of_gt (lt_of_lt_of_le
      (succ_pos _) hroom))
    have hrecord : Csv.record (text :: texts) ≠ [] := by
      rw [Ne, Csv.record_eq_nil_iff]
      rintro (h | h)
      · cases h
      · exact hnames text mem_cons_self (cons.inj h).1
    obtain ⟨c, more, hmore⟩ := exists_cons_of_ne_nil hrecord
    have hbreak : ¬ isCsvBreak c = true := by
      have hhead := @Csv.record_head (text :: texts)
      rw [hmore] at hhead
      intro h
      simp only [isCsvBreak, or_eq_true, decide_eq_true_eq] at h
      rcases h with rfl | rfl
      · exact hhead.1 rfl
      · exact hhead.2 rfl
    have hfield := csvReadField_field (htexts text mem_cons_self)
      (endsField_moreFields texts rest)
    have hsource : c :: (more ++ '\n' :: rest) =
        Csv.field text ++ (Csv.moreFields texts ++ '\n' :: rest) := by
      rw [← cons_append, ← hmore, Csv.record, append_assoc]
    rw [hmore, cons_append, csvHeader, if_neg hbreak, hsource, hfield]
    cases texts with
    | nil =>
      cases room with
      | zero | succ room => rfl
    | cons second texts =>
      dsimp only
      rw [skipComma_moreFields, ih (le_of_succ_le_succ hroom)
        (fun t ht => hnames t (mem_cons_of_mem _ ht)) fun t ht => htexts t (mem_cons_of_mem _ ht)]

end Read

def IsBlankRecord (texts : List Text) : Prop := texts = [] ∨ texts = [[]]

instance (texts : List Text) : Decidable (IsBlankRecord texts) :=
  inferInstanceAs (Decidable (_ ∨ _))

section Rows

variable {cols room : Nat} {src : Text}

theorem csvRows_break (cols room : Nat) (src : Text) :
    csvRows cols room (src.dropWhile isCsvBreak) = csvRows cols room src := by
  cases room with
  | zero => rfl
  | succ room => unfold csvRows; rw [dropWhile_idempotent]

/-- **The reader finds the records that are not empty lines.** -/
theorem csvRows_text {records : List (List Text)} (hroom : records.length ≤ room)
    (hcols : ∀ texts ∈ records, texts.length = cols) (htexts : ∀ texts ∈ records, NameTexts texts) :
    csvRows cols room (Csv.text records) = records.filter fun texts => ¬ IsBlankRecord texts := by
  induction records generalizing room with
  | nil =>
    cases room with
    | zero | succ room => rfl
  | cons texts records ih =>
    rw [length_cons] at hroom
    have hrest : ∀ {room}, records.length ≤ room → csvRows cols room (Csv.text records) =
        records.filter fun texts => ¬ IsBlankRecord texts := fun h =>
      ih h (fun t ht => hcols t (mem_cons_of_mem _ ht))
        fun t ht => htexts t (mem_cons_of_mem _ ht)
    rw [Csv.text_cons]
    by_cases hblank : IsBlankRecord texts
    · rw [Csv.record_eq_nil_iff.mpr hblank, filter_cons_of_neg (by simpa using hblank),
        nil_append, ← csvRows_break]
      show csvRows cols room ((Csv.text records).dropWhile isCsvBreak) = _
      rw [csvRows_break]
      exact hrest (by omega)
    · obtain ⟨room, rfl⟩ := exists_eq_succ_of_ne_zero (show room ≠ 0 by omega)
      have hrecord : Csv.record texts ≠ [] := fun h => hblank (Csv.record_eq_nil_iff.mp h)
      obtain ⟨c, more, hmore⟩ := exists_cons_of_ne_nil hrecord
      have hbreak : isCsvBreak c = false := by
        have hhead := @Csv.record_head texts
        rw [hmore] at hhead
        refine eq_false_iff.mpr fun h => ?_
        simp only [isCsvBreak, or_eq_true, decide_eq_true_eq] at h
        rcases h with rfl | rfl
        · exact hhead.1 rfl
        · exact hhead.2 rfl
      have hne : texts ≠ [] := fun h => hblank (.inl h)
      have hrow := csvReadRow_record hne (htexts texts mem_cons_self) (Csv.text records)
      rw [hcols texts mem_cons_self, hmore, cons_append] at hrow
      have hdrop : (c :: (more ++ '\n' :: Csv.text records)).dropWhile isCsvBreak =
          c :: (more ++ '\n' :: Csv.text records) :=
        dropWhile_cons_of_neg (by rw [hbreak]; exact false_ne_true)
      rw [hmore, cons_append, csvRows, hdrop]
      dsimp only
      rw [hrow, filter_cons_of_pos (by simpa using hblank)]
      show texts :: csvRows cols room ((Csv.text records).dropWhile isCsvBreak) = _
      rw [csvRows_break, hrest (by omega)]

end Rows

theorem arkshValueSetMatrixColumns_eq {names : List Text} (hcount : names.length ≤ arkshMaxMatrixCols)
    (hnames : NameTexts names) : arkshValueSetMatrixColumns names names.length = names := by
  refine ext_getElem (by rw [arkshValueSetMatrixColumns_length]; omega) fun i hi hi' => ?_
  simp only [arkshValueSetMatrixColumns, getElem_map, getElem_range,
    getD_eq_getElem?_getD, getElem?_eq_getElem hi', Option.getD_some]
  exact copyString_of_lt (hnames _ (getElem_mem hi'))

def ArkshMatrix.texts (m : ArkshMatrix) : List (List Text) :=
  m.rows.map (List.map ArkshMatrixCell.text)

/-- **What the reader makes of records.** -/
theorem fromCsv_text {names : List Text} {records : List (List Text)}
    (hcount : names.length ≤ arkshMaxMatrixCols) (hnames : NameTexts names)
    (hne : ∀ name ∈ names, name ≠ []) (hroom : records.length ≤ arkshMaxMatrixRows)
    (hcols : ∀ texts ∈ records, texts.length = names.length)
    (htexts : ∀ texts ∈ records, NameTexts texts) :
    (fromCsv (Csv.text (names :: records))).colNames = names ∧
      (fromCsv (Csv.text (names :: records))).texts =
        records.filter fun texts => ¬ IsBlankRecord texts := by
  have hheader := csvHeader_record hcount hne hnames (Csv.text records)
  have hcolumns := arkshValueSetMatrixColumns_eq hcount hnames
  have hread : ∀ texts ∈ records.filter fun texts => ¬ IsBlankRecord texts,
      (texts.map stringCell).map ArkshMatrixCell.text = texts := by
    intro texts hmem
    rw [map_map]
    conv_rhs => rw [← map_id texts]
    refine map_congr_left fun text htext => ?_
    exact copyString_of_lt (htexts texts (mem_of_mem_filter hmem) text htext)
  have hrows : (if names.length = 0 then []
      else csvRows names.length arkshMaxMatrixRows
        (('\n' :: Csv.text records).dropWhile isCsvBreak)) =
      records.filter fun texts => ¬ IsBlankRecord texts := by
    split
    next hnone =>
      refine (filter_eq_nil_iff.mpr fun texts hmem => ?_).symm
      have hblank : IsBlankRecord texts :=
        .inl (length_eq_zero_iff.mp ((hcols texts hmem).trans hnone))
      simpa using hblank
    · show csvRows names.length arkshMaxMatrixRows ((Csv.text records).dropWhile isCsvBreak) = _
      rw [csvRows_break, csvRows_text hroom hcols htexts]
  rw [Csv.text_cons]
  constructor
  · show arkshValueSetMatrixColumns (csvHeader _ _).1 (csvHeader _ _).1.length = names
    rw [hheader, hcolumns]
  · show ((if (csvHeader _ _).1.length = 0 then []
      else csvRows (arkshValueSetMatrixColumns (csvHeader _ _).1 (csvHeader _ _).1.length).length _
        ((csvHeader _ _).2.dropWhile isCsvBreak)).map _).map _ = _
    rw [hheader, hcolumns, hrows, map_map]
    conv_rhs => rw [← map_id (records.filter _)]
    exact map_congr_left hread

/-! ## 5. The law -/

structure CsvMatrix extends StoredMatrix where
  strings : ∀ row ∈ rows, ∀ cell ∈ row, cell.kind = .string
  cellsFit : ∀ row ∈ rows, ∀ cell ∈ row, cell.text.length < arkshMaxName
  named : ∀ name ∈ colNames, name ≠ []
  namesFit : ∀ name ∈ colNames, name.length < arkshMaxName
  distinct : colNames.Nodup

def matrixValue (m : ArkshMatrix) : ArkshValue :=
  { arkshValueInit with kind := .matrix, matrix := some m }

/-- What `to_csv` returns is the text of all records, and `from_csv` returns them again. -/
structure CsvLaw (m : CsvMatrix) : Prop where
  complete : ∀ csv, matrixMethodToCsv (matrixValue m.toArkshMatrix) = .ok csv →
    csv.text = Csv.text (m.colNames :: m.texts)
  back : ∀ csv, matrixMethodToCsv (matrixValue m.toArkshMatrix) = .ok csv →
    ∃ m', matrixMethodFromCsv [csv] = .ok (matrixValue m') ∧ m'.colNames = m.colNames ∧
      m'.texts = m.texts

section Law

variable (m : CsvMatrix)

theorem CsvMatrix.records_eq : m.records = m.colNames :: m.texts := by
  have hrow : ∀ row ∈ m.rows, row.map matrixCellFormat = row.map ArkshMatrixCell.text := by
    intro row hrow
    refine map_congr_left fun cell hcell => ?_
    rw [matrixCellFormat, m.strings row hrow cell hcell]
  rw [ArkshMatrix.records, ArkshMatrix.texts, map_congr_left hrow]

theorem CsvMatrix.texts_fit : ∀ texts ∈ m.texts, NameTexts texts := by
  intro texts htexts text htext
  obtain ⟨row, hrow, rfl⟩ := mem_map.mp htexts
  obtain ⟨cell, hcell, rfl⟩ := mem_map.mp htext
  exact m.cellsFit row hrow cell hcell

theorem CsvMatrix.fromCsv_records :
    (fromCsv (Csv.text (m.colNames :: m.texts))).colNames = m.colNames ∧
      (fromCsv (Csv.text (m.colNames :: m.texts))).texts =
        m.texts.filter fun texts => ¬ IsBlankRecord texts := by
  refine fromCsv_text m.colBound m.namesFit m.named ?_ ?_ m.texts_fit
  · rw [ArkshMatrix.texts, length_map]; exact m.rowBound
  · intro texts htexts
    obtain ⟨row, hrow, rfl⟩ := mem_map.mp htexts
    rw [length_map]
    exact m.rowLength row hrow

theorem CsvMatrix.toCsv_eq_iff : toCsv m.toArkshMatrix = Csv.text (m.colNames :: m.texts) ↔
    (Csv.text (m.colNames :: m.texts)).length < arkshMaxOutput := by
  rw [← m.records_eq]
  refine Arksh.toCsv_eq_iff fun texts htexts => ?_
  rw [m.records_eq] at htexts
  rcases mem_cons.mp htexts with rfl | htexts
  · exact m.namesFit
  · exact m.texts_fit texts htexts

/-- **A matrix comes back exactly if its text fits and none of its rows is an empty line.** -/
theorem csvLaw_iff (m : CsvMatrix) : CsvLaw m ↔
    (Csv.text (m.colNames :: m.texts)).length < arkshMaxOutput ∧
      ∀ texts ∈ m.texts, ¬ IsBlankRecord texts := by
  have hwrite : matrixMethodToCsv (matrixValue m.toArkshMatrix) =
      .ok (arkshValueSetString (toCsv m.toArkshMatrix)) := rfl
  have hread : ∀ csv, matrixMethodFromCsv [arkshValueSetString csv] =
      .ok (matrixValue (fromCsv csv)) := fun _ => rfl
  obtain ⟨hnames, htexts⟩ := m.fromCsv_records
  constructor
  · intro hlaw
    have hfull : toCsv m.toArkshMatrix = Csv.text (m.colNames :: m.texts) := hlaw.complete _ hwrite
    refine ⟨m.toCsv_eq_iff.mp hfull, fun texts hmem hblank => ?_⟩
    obtain ⟨m', hm', -, hback⟩ := hlaw.back _ hwrite
    rw [hread, hfull] at hm'
    -- a blank record is not among those that are read
    cases hm'
    rw [htexts] at hback
    have hkept : texts ∈ m.texts.filter fun texts => ¬ IsBlankRecord texts := by
      rw [hback]
      exact hmem
    have hnot := of_mem_filter hkept
    exact of_decide_eq_true hnot hblank
  · rintro ⟨hfits, hblank⟩
    have hfull := m.toCsv_eq_iff.mpr hfits
    constructor
    · intro csv hcsv
      cases hwrite.symm.trans hcsv
      exact hfull
    · intro csv hcsv
      cases hwrite.symm.trans hcsv
      refine ⟨_, hread _, ?_⟩
      rw [hfull, hnames, htexts]
      exact ⟨rfl, filter_eq_self.mpr fun texts hmem => decide_eq_true (hblank texts hmem)⟩

end Law

theorem oneColumn_fits : ∀ name ∈ ["n".toList], name.length < arkshMaxName := by decide

def emptyCellMatrix : CsvMatrix where
  colNames := ["n".toList]
  rows := [[stringCell []]]
  rowLength := by decide
  rowBound := by decide
  colBound := oneColumn_bound
  strings := by decide
  cellsFit := by decide
  named := by decide
  namesFit := oneColumn_fits
  distinct := by decide

/-- Its row gets lost. -/
theorem not_csvLaw : ¬ ∀ m : CsvMatrix, CsvLaw m := by
  intro h
  obtain ⟨m', hm', -, htexts⟩ := (h emptyCellMatrix).back _ rfl
  cases hm'
  revert htexts
  decide

end Arksh
