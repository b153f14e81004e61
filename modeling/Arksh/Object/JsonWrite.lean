/-
  Subject: `arksh_value_to_json`, and that what it writes is read back.

  The writer fills one buffer of 8192 bytes for each level, checking every append; `none` is a
  return value of 1. Nothing it writes has white space between its parts, so its text is the
  text of a tree, and by `parseJson_iff` the parser returns what that tree means.
-/
import Arksh.Object.JsonRfc

namespace Arksh

open CText Binary64 Rfc8259 Assoc List Option Nat

/-! ## 1. The writer -/

def formatNumber (number : Binary64) : Text := formatG 15 number

def formatNumberJson : Binary64 → Text
  | .nan _ => ['n', 'u', 'l', 'l']
  | .inf _ => ['n', 'u', 'l', 'l']
  | x => formatNumber x

def intText (n : Int) : Text := signText (n < 0) ++ toDigits 10 n.natAbs

def formatNumberByKind (kind : ArkshValueKind) (number : Binary64) : Text :=
  match kind with
  | .integer => intText (number.toInt 64)
  | .float => formatG 7 number.toSingle
  | .double => formatG 15 number
  | .imaginary => formatG 15 number ++ ['i']
  | _ => formatNumber number

def jsonEscape (c : Char) : Option Text :=
  if c = '"' then some ['\\', '"']
  else if c = '\\' then some ['\\', '\\']
  else if c = '\x08' then some ['\\', 'b']
  else if c = '\x0c' then some ['\\', 'f']
  else if c = '\n' then some ['\\', 'n']
  else if c = '\r' then some ['\\', 'r']
  else if c = '\t' then some ['\\', 't']
  else if c.toNat < 0x20 then some ('\\' :: 'u' :: '0' :: '0' :: hex2 c.toNat)
  else none

/-- The loop of `append_json_escaped_string` and its closing quotation mark. -/
def appendEscaped (size : Nat) : Text → Text → Option Text
  | out, [] => appendChar size out '"'
  | out, c :: text =>
    match jsonEscape c with
    | some esc => (appendText size out esc).bind fun out => appendEscaped size out text
    | none => (appendChar size out c).bind fun out => appendEscaped size out text

def appendJsonEscapedString (size : Nat) (text : Text) : Option Text :=
  (appendChar size [] '"').bind fun out => appendEscaped size out text

/-- The kinds without containers: the part that `value_to_json_text` and
    `value_item_to_json_text` have in common. -/
def scalarToJsonText (size : Nat) (kind : ArkshValueKind) (text : Text) (number : Binary64)
    (boolean : Bool) (object : Option ArkshObject) (block : Option ArkshBlock) : Option Text :=
  match kind with
  | .string => appendJsonEscapedString size text
  | .number => some (copyString size (formatNumberJson number))
  | .boolean => some (copyString size (if boolean then "true".toList else "false".toList))
  | .object => appendJsonEscapedString size (object.getD {}).path
  | .block => appendJsonEscapedString size (block.getD {}).source
  | .classRef => appendJsonEscapedString size text
  | .instanceRef => appendJsonEscapedString size
      (copyString arkshMaxOutput (text ++ '#' :: intText (number.toInt 32)))
  | .empty => some (copyString size "null".toList)
  | .integer | .float | .double => some (copyString size (formatNumberByKind kind number))
  | .imaginary => appendJsonEscapedString size
      (copyString 64 (formatNumberByKind .imaginary number))
  | .list | .map | .dict | .matrix => none

def cellToJsonText (size : Nat) (cell : ArkshMatrixCell) : Option Text :=
  match cell.kind with
  | .number => some (copyString size (formatNumberJson cell.number))
  | .boolean => some (copyString size (if cell.boolean then "true".toList else "false".toList))
  | .empty => some (copyString size "null".toList)
  | _ => appendJsonEscapedString size cell.text

/-- `,` in front of every part but the first -/
def appendComma (size : Nat) (first : Bool) (out : Text) : Option Text :=
  if first then some out else appendChar size out ','

def appendCells (size : Nat) : Bool → Text → List (Text × ArkshMatrixCell) → Option Text
  | _, out, [] => some out
  | first, out, (name, cell) :: cells =>
    (appendJsonEscapedString (arkshMaxName + 4) name).bind fun keyJson =>
      (cellToJsonText (arkshMaxName + 8) cell).bind fun cellJson =>
        (appendComma size first out).bind fun out =>
          (appendText size out keyJson).bind fun out =>
            (appendChar size out ':').bind fun out =>
              (appendText size out cellJson).bind fun out => appendCells size false out cells

def appendRows (size : Nat) (colNames : List Text) :
    Bool → Text → List (List ArkshMatrixCell) → Option Text
  | _, out, [] => some out
  | first, out, row :: rows =>
    (appendComma size first out).bind fun out =>
      (appendChar arkshMaxOutput [] '\x7b').bind fun obj =>
        (appendCells arkshMaxOutput true obj (colNames.zip row)).bind fun obj =>
          (appendChar arkshMaxOutput obj '\x7d').bind fun obj =>
            (appendText size out obj).bind fun out => appendRows size colNames false out rows

def matrixToJsonText (size : Nat) (matrix : Option ArkshMatrix) : Option Text :=
  match matrix with
  | none => some (copyString size "[]".toList)
  | some table =>
    if table.rows = [] then some (copyString size "[]".toList)
    else
      (appendChar size [] '[').bind fun out =>
        (appendRows size table.colNames true out table.rows).bind fun out =>
          appendChar size out ']'

mutual

def valueToJsonText (size : Nat) : ArkshValue → Option Text
  | ⟨kind, text, number, boolean, object, block, list, map, matrix⟩ =>
    match kind with
    | .list =>
      (appendChar size [] '[').bind fun out =>
        (appendItems size true out list).bind fun out => appendChar size out ']'
    | .map | .dict =>
      (appendChar size [] '\x7b').bind fun out =>
        (appendEntries size true out map).bind fun out => appendChar size out '\x7d'
    | .matrix => matrixToJsonText size matrix
    | k => scalarToJsonText size k text number boolean object block

/-- `value_item_to_json_text` -/
def itemToJsonText (size : Nat) : ArkshValueItem → Option Text
  | ⟨kind, text, number, boolean, object, block, nested⟩ =>
    if kind.ownsNested then nestedToJsonText size nested
    else scalarToJsonText size kind text number boolean object block

def appendItems (size : Nat) : Bool → Text → List ArkshValueItem → Option Text
  | _, out, [] => some out
  | first, out, item :: items =>
    (itemToJsonText arkshMaxOutput item).bind fun itemJson =>
      (appendComma size first out).bind fun out =>
        (appendText size out itemJson).bind fun out => appendItems size false out items

def appendEntries (size : Nat) : Bool → Text → List ArkshValueMapEntry → Option Text
  | _, out, [] => some out
  | first, out, ⟨key, value⟩ :: entries =>
    (appendJsonEscapedString arkshMaxOutput key.1).bind fun keyJson =>
      (itemToJsonText arkshMaxOutput value).bind fun itemJson =>
        (appendComma size first out).bind fun out =>
          (appendText size out keyJson).bind fun out =>
            (appendChar size out ':').bind fun out =>
              (appendText size out itemJson).bind fun out => appendEntries size false out entries

def nestedToJsonText (size : Nat) : Option ArkshValue → Option Text
  | none => none
  | some value => valueToJsonText size value

end

def arkshValueToJson (value : ArkshValue) (size : Nat) : Option Text := valueToJsonText size value

/-! ## 2. Strings -/

def controlQuad (c : Char) : HexQuad where
  digits := '0' :: '0' :: hex2 c.toNat
  length := rfl
  hex := by
    have hd : ∀ n < 16, isxdigit (Nat.digitChar n) = true := by decide
    intro d hd'
    simp only [hex2, List.mem_cons, List.not_mem_nil, or_false] at hd'
    rcases hd' with rfl | rfl | rfl | rfl
    · rfl
    · rfl
    · exact hd _ (Nat.mod_lt _ (by decide))
    · exact hd _ (Nat.mod_lt _ (by decide))

def escapeItem (c : Char) : StrItem :=
  if c = '"' then .escape .quote
  else if c = '\\' then .escape .backslash
  else if c = '\x08' then .escape .backspace
  else if c = '\x0c' then .escape .formFeed
  else if c = '\n' then .escape .lineFeed
  else if c = '\r' then .escape .carriageReturn
  else if c = '\t' then .escape .tab
  else if h : isUnescaped c = true then .plain ⟨c, h⟩
  else .unicode (controlQuad c)

theorem text_escapeItem (c : Char) :
    (escapeItem c).text = (match jsonEscape c with | some esc => esc | none => [c]) := by
  unfold escapeItem jsonEscape
  by_cases h1 : c = '"'
  · simp [h1, StrItem.text, Escape.letter]
  by_cases h2 : c = '\\'
  · simp [h2, StrItem.text, Escape.letter]
  by_cases h3 : c = '\x08'
  · simp [h3, StrItem.text, Escape.letter]
  by_cases h4 : c = '\x0c'
  · simp [h4, StrItem.text, Escape.letter]
  by_cases h5 : c = '\n'
  · simp [h5, StrItem.text, Escape.letter]
  by_cases h6 : c = '\r'
  · simp [h6, StrItem.text, Escape.letter]
  by_cases h7 : c = '\t'
  · simp [h7, StrItem.text, Escape.letter]
  simp only [if_neg h1, if_neg h2, if_neg h3, if_neg h4, if_neg h5, if_neg h6, if_neg h7]
  by_cases h8 : c.toNat < 0x20
  · have hu : ¬ isUnescaped c = true := by rw [isUnescaped_iff]; omega
    rw [dif_neg hu, if_pos h8]
    rfl
  · have hu : isUnescaped c = true := isUnescaped_iff.mpr ⟨by omega, h1, h2⟩
    rw [dif_pos hu, if_neg h8]
    rfl

theorem hexDigitValue_digitChar : ∀ n < 16, hexDigitValue (Nat.digitChar n) = n := by decide

theorem utf8_ascii : ∀ n < 128, utf8 n = [Char.ofNat n] := by decide

theorem value_controlQuad {c : Char} (h : c.toNat < 0x20) : (controlQuad c).value = c.toNat := by
  simp only [HexQuad.value, hexValue, controlQuad, hex2, foldl_cons, foldl_nil]
  rw [hexDigitValue_digitChar _ (mod_lt _ (by decide)),
    hexDigitValue_digitChar _ (mod_lt _ (by decide)), show hexDigitValue '0' = 0 from rfl]
  omega

theorem decode_escapeItem (c : Char) (s : Str) :
    decode (escapeItem c :: s) = (decode s).map (c :: ·) := by
  unfold escapeItem
  by_cases h1 : c = '"'
  · simp [h1, decode, Escape.value]
  by_cases h2 : c = '\\'
  · simp [h2, decode, Escape.value]
  by_cases h3 : c = '\x08'
  · simp [h3, decode, Escape.value]
  by_cases h4 : c = '\x0c'
  · simp [h4, decode, Escape.value]
  by_cases h5 : c = '\n'
  · simp [h5, decode, Escape.value]
  by_cases h6 : c = '\r'
  · simp [h6, decode, Escape.value]
  by_cases h7 : c = '\t'
  · simp [h7, decode, Escape.value]
  simp only [if_neg h1, if_neg h2, if_neg h3, if_neg h4, if_neg h5, if_neg h6, if_neg h7]
  by_cases hu : isUnescaped c = true
  · rw [dif_pos hu]; rfl
  · rw [dif_neg hu]
    have hlt : c.toNat < 0x20 := by by_contra hle; exact hu (isUnescaped_iff.mpr ⟨by omega, h1, h2⟩)
    have hval := value_controlQuad hlt
    have hesc : CodePointEscape [.unicode (controlQuad c)] (controlQuad c).value := by
      refine .single (controlQuad c) ?_ ?_
      · rw [hval]; exact Bool.eq_false_of_not_eq_true (mt isHighSurrogate_iff.mp (by omega))
      · rw [hval]; exact Bool.eq_false_of_not_eq_true (mt isLowSurrogate_iff.mp (by omega))
    have hd := hesc.decode s
    rw [hval, utf8_ascii _ (by omega), Char.ofNat_toNat] at hd
    exact hd

def escapeStr (text : Text) : Str := text.map escapeItem

theorem text_escapeStr_cons (c : Char) (text : Text) :
    (escapeStr (c :: text)).text = (escapeItem c).text ++ (escapeStr text).text := by
  exact Str.text_cons _ _

theorem decode_escapeStr (text : Text) : decode (escapeStr text) = some text := by
  induction text with
  | nil => rfl
  | cons c text ih =>
    rw [escapeStr, map_cons, decode_escapeItem]
    rw [escapeStr] at ih
    rw [ih]
    rfl

variable {size n : Nat} {text out out' : Text} {first : Bool} {key : Str}

theorem appendEscaped_eq_some :
    ∀ {out out' : Text}, appendEscaped size out text = some out' →
      out' = out ++ ((escapeStr text).text ++ ['"']) ∧ out'.length < size := by
  induction text with
  | nil =>
    intro out out' h
    obtain ⟨hlt, rfl⟩ := appendChar_eq_some.mp h
    exact ⟨rfl, by simpa using hlt⟩
  | cons c text ih =>
    intro out out' h
    have htext := text_escapeItem c
    rw [appendEscaped] at h
    have happ : ∃ o, o = out ++ (escapeItem c).text ∧ appendEscaped size o text = some out' := by
      split at h
      · rename_i esc he
        obtain ⟨o, ho, h⟩ := bind_eq_some_iff.mp h
        rw [he] at htext
        exact ⟨o, by rw [(appendText_eq_some.mp ho).2, htext], h⟩
      · rename_i he
        obtain ⟨o, ho, h⟩ := bind_eq_some_iff.mp h
        rw [he] at htext
        exact ⟨o, by rw [(appendChar_eq_some.mp ho).2, htext], h⟩
    obtain ⟨o, rfl, h⟩ := happ
    obtain ⟨rfl, hlt⟩ := ih h
    refine ⟨?_, hlt⟩
    rw [text_escapeStr_cons, append_assoc, append_assoc]

theorem quoted_of_escaped (h : appendJsonEscapedString size text = some out) :
    out = (escapeStr text).quoted ∧ out.length < size := by
  obtain ⟨o, ho, h⟩ := bind_eq_some_iff.mp h
  obtain ⟨-, rfl⟩ := appendChar_eq_some.mp ho
  obtain ⟨rfl, hlt⟩ := appendEscaped_eq_some h
  exact ⟨by simp [Str.quoted], hlt⟩

theorem length_le_escapeStr (text : Text) : text.length ≤ (escapeStr text).text.length := by
  induction text with
  | nil => exact le_refl _
  | cons c text ih =>
    have hpos : 0 < (escapeItem c).text.length := by
      cases escapeItem c <;> exact succ_pos _
    rw [text_escapeStr_cons, length_append, length_cons]
    omega

/-! ## 3. Numbers -/

def wholeNumber (neg : Bool) (n : Nat) : Number where
  neg := neg
  int := toDigits 10 n
  frac := []
  exp := none
  intDigits _ hc := isdigit_of_mem_toDigits hc
  intNonempty := Nat.toDigits_ne_nil
  noLeadingZero _ h := toDigits_noLeadingZero h
  fracDigits := isdigit_of_mem_nil

theorem text_wholeNumber (neg : Bool) (n : Nat) :
    (wholeNumber neg n).text = signText neg ++ toDigits 10 n := by
  simp [Number.text, wholeNumber, Number.expText]

theorem parserNumber_whole (neg : Bool) (n : Nat) :
    parserNumber (signText neg ++ toDigits 10 n) = some (whole neg n) := by
  have h1 := parserNumber_number (wholeNumber neg n)
  have h2 := strtod_number (wholeNumber neg n)
  rw [text_wholeNumber] at h1 h2
  rw [strtod_whole] at h2
  rw [h1, (Prod.mk.inj (Option.some.inj h2)).1]

theorem formatNumberJson_whole (neg : Bool) (h : n < 10 ^ 15) :
    formatNumberJson (whole neg n) = signText neg ++ toDigits 10 n := by
  have h53 : n < 2 ^ 53 := by omega
  have hf := @formatG_whole n 15 neg h h53
  rw [whole_eq neg h53] at hf ⊢
  exact hf

/-! ## 4. Values -/

/-- The values that JSON can carry: `null`, booleans, strings without NUL, whole numbers below
    10^15, lists, and maps with distinct usable keys, in at most `n` levels. -/
def Portable : Nat → Datum → Prop
  | _, .empty => True
  | _, .boolean _ => True
  | _, .string t => '\x00' ∉ t
  | _, .number x => ∃ neg k, k < 10 ^ 15 ∧ x = whole neg k
  | 0, .list items => items = []
  | n + 1, .list items => ∀ d ∈ items, Portable n d
  | 0, .map entries => entries = []
  | n + 1, .map entries => (entries.map Prod.fst).Nodup ∧
      ∀ p ∈ entries, p.1 ≠ [] ∧ p.1.length < arkshMaxName ∧ '\x00' ∉ p.1 ∧ Portable n p.2
  | _, _ => False

/-- `text` is the text of a tree that means `d`, in at most `n` levels. -/
def Writes (text : Text) (d : Datum) (n : Nat) : Prop :=
  ∃ v : Value, v.text = text ∧ v.eval parserReading = some d ∧ v.nesting ≤ n

variable {t k : Text}

theorem copyString_output (h : t.length < arkshMaxOutput) :
    copyString arkshMaxOutput t = t := copyString_of_lt h

theorem scalar_written {kind : ArkshValueKind} {number : Binary64} {boolean : Bool}
    {object : Option ArkshObject} {block : Option ArkshBlock}
    (hp : Portable n (plainDatum kind text number boolean object block))
    (h : scalarToJsonText arkshMaxOutput kind text number boolean object block = some out) :
    Writes out (plainDatum kind text number boolean object block) n := by
  cases kind with
  | empty => cases h; exact ⟨.null, rfl, rfl, zero_le _⟩
  | boolean =>
    cases h
    cases boolean with
    | true => exact ⟨.bool true, rfl, rfl, zero_le _⟩
    | false => exact ⟨.bool false, rfl, rfl, zero_le _⟩
  | string =>
    have hnul : '\x00' ∉ text := by cases n <;> exact hp
    obtain ⟨rfl, hlt⟩ := quoted_of_escaped h
    have hlen := length_le_escapeStr text
    rw [Str.quoted, length_cons, length_append] at hlt
    have hb : bufferText arkshMaxOutput (escapeStr text) = some text :=
      bufferText_eq_some.mpr ⟨text, decode_escapeStr text, by omega,
        (cString_of_nul_notMem hnul).symm⟩
    refine ⟨.str (escapeStr text), rfl, ?_, zero_le _⟩
    show (bufferText arkshMaxOutput (escapeStr text)).map Datum.string = _
    rw [hb]
    rfl
  | number =>
    obtain ⟨neg, k, hk, rfl⟩ : ∃ neg k, k < 10 ^ 15 ∧ number = whole neg k := by
      cases n <;> exact hp
    rw [scalarToJsonText, formatNumberJson_whole neg hk] at h
    have hlen : (signText neg ++ toDigits 10 k).length < arkshMaxOutput := by
      have h1 := (length_toDigits_le_iff (b := 10) (by decide) (by decide)).mpr hk
      have h2 : (signText neg).length ≤ 1 := by cases neg <;> decide
      rw [length_append, arkshMaxOutput]
      omega
    rw [copyString_output hlen] at h
    obtain rfl := Option.some.inj h
    refine ⟨.num (signText neg ++ toDigits 10 k), rfl, ?_, zero_le _⟩
    show (parserNumber _).map Datum.number = _
    rw [parserNumber_whole]
    rfl
  | list | map | dict | matrix => cases h
  | object | block | classRef | instanceRef | integer | float | double | imaginary =>
    cases n <;> exact hp.elim

theorem appendComma_eq_some (h : appendComma size first out = some out') :
    out' = out ++ (if first then [] else [',']) := by
  cases first with
  | true => obtain rfl := Option.some.inj h; simp
  | false => rw [(appendChar_eq_some.mp h).2]; simp

theorem bracketed_eq_some {start stop : Char} {inner : Text → Option Text}
    (h : ((appendChar size [] start).bind fun out =>
      (inner out).bind fun out => appendChar size out stop) = some out) :
    ∃ front, inner [start] = some front ∧ out = front ++ [stop] := by
  obtain ⟨o, hstart, h⟩ := bind_eq_some_iff.mp h
  obtain ⟨-, rfl⟩ := appendChar_eq_some.mp hstart
  obtain ⟨front, hfront, hstop⟩ := bind_eq_some_iff.mp h
  exact ⟨front, hfront, (appendChar_eq_some.mp hstop).2⟩

section Parts

variable {text : Text} {rest : Text → Option Text}

theorem element_eq_some (h : ((appendComma size first out).bind fun out =>
      (appendText size out text).bind rest) = some out') :
    rest (out ++ (if first then [] else [',']) ++ text) = some out' := by
  obtain ⟨o₁, h₁, h⟩ := bind_eq_some_iff.mp h
  obtain ⟨o₂, h₂, h⟩ := bind_eq_some_iff.mp h
  obtain rfl := appendComma_eq_some h₁
  obtain ⟨-, rfl⟩ := appendText_eq_some.mp h₂
  exact h

theorem member_eq_some {key : Text} (h : ((appendComma size first out).bind fun out =>
      (appendText size out key).bind fun out =>
        (appendChar size out ':').bind fun out => (appendText size out text).bind rest) = some out') :
    rest (out ++ (if first then [] else [',']) ++ key ++ [':'] ++ text) = some out' := by
  obtain ⟨o₁, h₁, h⟩ := bind_eq_some_iff.mp (element_eq_some h)
  obtain ⟨o₂, h₂, h⟩ := bind_eq_some_iff.mp h
  obtain ⟨-, rfl⟩ := appendChar_eq_some.mp h₁
  obtain ⟨-, rfl⟩ := appendText_eq_some.mp h₂
  exact h

end Parts

/-- The elements of a tree behind the comma that may be due. -/
def WritesItems (first : Bool) (out out' : Text) (ds : List Datum) (n : Nat) : Prop :=
  ∃ es : Elements, out' = out ++ ((if first then [] else [',']) ++ es.text) ∧
    es.eval parserReading = some ds ∧ es.nesting ≤ n

def WritesEntries (first : Bool) (out out' : Text) (ops : List (Text × Datum)) (n : Nat) : Prop :=
  ∃ ms : Members, out' = out ++ ((if first then [] else [',']) ++ ms.text) ∧
    ms.eval parserReading = some ops ∧ ms.nesting ≤ n

variable {d : Datum}

theorem writesItems_one (h : Writes t d n) :
    WritesItems first out (out ++ (if first then [] else [',']) ++ t) [d] n := by
  obtain ⟨v, rfl, he, hn⟩ := h
  refine ⟨.one Ws.none v Ws.none, by simp [Elements.text, Ws.none], ?_, hn⟩
  rw [Elements.eval, he]
  rfl

theorem writesItems_more {ds : List Datum} (h : Writes t d n)
    (hs : WritesItems false (out ++ (if first then [] else [',']) ++ t) out' ds n) :
    WritesItems first out out' (d :: ds) n := by
  obtain ⟨v, rfl, he, hn⟩ := h
  obtain ⟨es, rfl, he', hn'⟩ := hs
  refine ⟨.more Ws.none v Ws.none es, by simp [Elements.text, Ws.none], ?_, ?_⟩
  · rw [Elements.eval, he, bind_some, he']; rfl
  · rw [Elements.nesting]; exact Nat.max_le.mpr ⟨hn, hn'⟩

theorem writesEntries_one (hk : parserReading.key key = some k) (h : Writes t d n) :
    WritesEntries first out
      (out ++ (if first then [] else [',']) ++ key.quoted ++ [':'] ++ t) [(k, d)] n := by
  obtain ⟨v, rfl, he, hn⟩ := h
  refine ⟨.one Ws.none key Ws.none Ws.none v Ws.none, by simp [Members.text, Ws.none], ?_, hn⟩
  rw [Members.eval, hk, bind_some, he]
  rfl

theorem writesEntries_more {ops : List (Text × Datum)} (hk : parserReading.key key = some k)
    (h : Writes t d n) (hs : WritesEntries false
      (out ++ (if first then [] else [',']) ++ key.quoted ++ [':'] ++ t) out' ops n) :
    WritesEntries first out out' ((k, d) :: ops) n := by
  obtain ⟨v, rfl, he, hn⟩ := h
  obtain ⟨ms, rfl, he', hn'⟩ := hs
  refine ⟨.more Ws.none key Ws.none Ws.none v Ws.none ms, by simp [Members.text, Ws.none], ?_, ?_⟩
  · rw [Members.eval, hk, bind_some, he, bind_some, he']; rfl
  · rw [Members.nesting]; exact Nat.max_le.mpr ⟨hn, hn'⟩

theorem key_written (h : appendJsonEscapedString size k = some out) (hne : k ≠ [])
    (hlt : k.length < arkshMaxName) (hnul : '\x00' ∉ k) :
    out = (escapeStr k).quoted ∧ parserReading.key (escapeStr k) = some k := by
  obtain ⟨rfl, -⟩ := quoted_of_escaped h
  have hc := cString_of_nul_notMem hnul
  have hkey := parserKey_of (decode_escapeStr k) hlt (by rw [hc]; exact hne)
  rw [hc] at hkey
  exact ⟨rfl, hkey⟩

mutual

theorem value_written {n : Nat} {out : Text} : ∀ v : ArkshValue, Portable n v.denote →
    valueToJsonText arkshMaxOutput v = some out → Writes out v.denote n
  | ⟨kind, text, number, boolean, object, block, list, map, matrix⟩, hp, h => by
    cases kind with
    | list =>
      simp only [ArkshValue.denote] at hp ⊢
      rw [valueToJsonText] at h
      obtain ⟨front, h₂, rfl⟩ := bracketed_eq_some h
      cases list with
      | nil =>
        rw [appendItems] at h₂
        cases h₂
        exact ⟨.emptyArr Ws.none, rfl, rfl, zero_le _⟩
      | cons item items =>
        cases n with
        | zero => rw [denoteItems] at hp; cases hp
        | succ n =>
          obtain ⟨es, rfl, he, hn⟩ := items_written (item :: items) (cons_ne_nil _ _) hp h₂
          refine ⟨.arr es, by simp [Value.text], ?_, succ_le_succ hn⟩
          rw [Value.eval, he]
          rfl
    | map =>
      simp only [ArkshValue.denote] at hp ⊢
      rw [valueToJsonText] at h
      obtain ⟨front, h₂, rfl⟩ := bracketed_eq_some h
      cases map with
      | nil =>
        rw [appendEntries] at h₂
        cases h₂
        exact ⟨.emptyObj Ws.none, rfl, rfl, zero_le _⟩
      | cons e entries =>
        cases n with
        | zero =>
          obtain ⟨key, value⟩ := e
          rw [denoteEntries] at hp
          cases hp
        | succ n =>
          obtain ⟨hnodup, hall⟩ := hp
          obtain ⟨ms, rfl, he, hn⟩ := entries_written (e :: entries) (cons_ne_nil _ _) hall h₂
          refine ⟨.obj ms, by simp [Value.text], ?_, succ_le_succ hn⟩
          rw [Value.eval, he, map_some, putAll_of_nodup hnodup]
    | dict | matrix => cases n <;> exact hp.elim
    | empty | string | number | boolean | object | block | classRef | instanceRef | integer
    | float | double | imaginary =>
      simp only [ArkshValue.denote] at hp ⊢
      simp only [valueToJsonText] at h
      exact scalar_written hp h

theorem item_written {n : Nat} {out : Text} : ∀ item : ArkshValueItem, Portable n item.denote →
    itemToJsonText arkshMaxOutput item = some out → Writes out item.denote n
  | ⟨kind, text, number, boolean, object, block, nested⟩, hp, h => by
    rw [ArkshValueItem.denote] at hp ⊢
    rw [itemToJsonText] at h
    by_cases hk : kind.ownsNested = true
    · rw [if_pos hk] at hp h ⊢
      match nested with
      | none => rw [nestedToJsonText] at h; cases h
      | some value => rw [nestedToJsonText] at h; exact value_written value hp h
    · rw [if_neg hk] at hp h ⊢; exact scalar_written hp h

theorem items_written {n : Nat} {first : Bool} {out out' : Text} :
    ∀ items : List ArkshValueItem, items ≠ [] → (∀ d ∈ denoteItems items, Portable n d) →
      appendItems arkshMaxOutput first out items = some out' →
      WritesItems first out out' (denoteItems items) n
  | [], hne, _, _ => (hne rfl).elim
  | item :: items, _, hp, h => by
    rw [denoteItems] at hp ⊢
    have hitem := hp item.denote mem_cons_self
    rw [appendItems] at h
    obtain ⟨itemJson, hjson, h⟩ := bind_eq_some_iff.mp h
    replace h := element_eq_some h
    have hw := item_written item hitem hjson
    by_cases hnil : items = []
    · subst hnil
      rw [appendItems] at h
      obtain rfl := Option.some.inj h
      exact writesItems_one hw
    · have hrest := items_written items hnil (fun d hd => hp d (mem_cons_of_mem _ hd)) h
      exact writesItems_more hw hrest

theorem entries_written {n : Nat} {first : Bool} {out out' : Text} :
    ∀ entries : List ArkshValueMapEntry, entries ≠ [] →
      (∀ p ∈ denoteEntries entries,
        p.1 ≠ [] ∧ p.1.length < arkshMaxName ∧ '\x00' ∉ p.1 ∧ Portable n p.2) →
      appendEntries arkshMaxOutput first out entries = some out' →
      WritesEntries first out out' (denoteEntries entries) n
  | [], hne, _, _ => (hne rfl).elim
  | ⟨key, value⟩ :: entries, _, hp, h => by
    rw [denoteEntries] at hp ⊢
    obtain ⟨hne, hlt, hnul, hvalue⟩ := hp _ mem_cons_self
    rw [appendEntries] at h
    obtain ⟨keyJson, hkey, h⟩ := bind_eq_some_iff.mp h
    obtain ⟨itemJson, hjson, h⟩ := bind_eq_some_iff.mp h
    replace h := member_eq_some h
    obtain ⟨rfl, hk⟩ := key_written hkey hne hlt hnul
    have hw := item_written value hvalue hjson
    by_cases hnil : entries = []
    · subst hnil
      rw [appendEntries] at h
      obtain rfl := Option.some.inj h
      exact writesEntries_one hk hw
    · have hrest := entries_written entries hnil
        (fun p hp' => hp p (mem_cons_of_mem _ hp')) h
      exact writesEntries_more hk hw hrest

end

/-! ## 5. The round trip -/

/-- **What `arksh_value_to_json` writes for a portable value within 8192 bytes is parsed into a
    value that denotes the same.** -/
theorem parseJson_toJson {v : ArkshValue} {out : Text} (hv : Portable jsonMaxDepth v.denote)
    (h : arkshValueToJson v arkshMaxOutput = some out) :
    ∃ w, arkshValueParseJson out = .ok w ∧ w.denote = v.denote := by
  obtain ⟨tree, rfl, heval, hn⟩ := value_written v hv h
  refine parseJson_iff.mpr ⟨⟨Ws.none, tree, Ws.none⟩, ?_, hn, heval⟩
  simp [Document.text, Ws.none]

def sampleMap : ArkshValue :=
  { arkshValueInit with
    kind := .map
    map := [⟨⟨['k'], by decide⟩, arkshValueItemSetFromValue { arkshValueInit with
      kind := .list
      list := [arkshValueItemSetFromValue arkshValueInit,
        arkshValueItemSetFromValue (arkshValueSetNumber (whole true 12)),
        arkshValueItemSetFromValue (arkshValueSetString ['a', '\n'])] }⟩] }

theorem portable_sampleMap : Portable jsonMaxDepth sampleMap.denote := by
  have hlist : Portable 127 (.list [.empty, .number (whole true 12), .string ['a', '\n']]) := by
    intro d hd
    simp only [mem_cons, not_mem_nil, or_false] at hd
    rcases hd with rfl | rfl | rfl
    · exact trivial
    · exact ⟨true, 12, by decide, rfl⟩
    · show '\x00' ∉ ['a', '\n']; decide
  show Portable 128 (.map [(['k'], .list [.empty, .number (whole true 12), .string ['a', '\n']])])
  refine ⟨by decide, ?_⟩
  intro p hp
  obtain rfl := mem_singleton.mp hp
  exact ⟨by decide, by decide, by decide, hlist⟩

theorem parseJson_toJson_sampleMap :
    ∃ w, arkshValueParseJson "\x7b\"k\":[null,-12,\"a\\n\"]\x7d".toList = .ok w ∧
      w.denote = sampleMap.denote :=
  parseJson_toJson portable_sampleMap (by decide +kernel)

end Arksh
