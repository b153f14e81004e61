/-
  Subject: Comma-separated values (RFC 4180): records of fields, one record a line.

  A field with a comma, a double quote or a line break stands between double quotes, and every
  double quote in it is written twice.
-/
import Arksh.Lib.Text

namespace Csv

open CText List

/-! ## 1. Texts -/

/-- The characters that a field is quoted for. -/
def isSpecial (c : Char) : Bool := c = ',' || c = '"' || c = '\n' || c = '\r'

/-- Every double quote twice. -/
def escape (text : Text) : Text := text.flatMap fun c => if c = '"' then ['"', '"'] else [c]

def field (text : Text) : Text :=
  if text.any isSpecial then '"' :: (escape text ++ ['"']) else text

/-- What stands behind the first field of a record. -/
def moreFields (fields : List Text) : Text := fields.flatMap fun text => ',' :: field text

def record : List Text → Text
  | [] => []
  | first :: fields => field first ++ moreFields fields

def text (records : List (List Text)) : Text := records.flatMap fun fields => record fields ++ ['\n']

/-! ## 2. Fields -/

variable {t : Text} {fields : List Text}

theorem escape_cons (c : Char) (t : Text) :
    escape (c :: t) = (if c = '"' then ['"', '"'] else [c]) ++ escape t := flatMap_cons

theorem length_escape_le (t : Text) : (escape t).length ≤ 2 * t.length := by
  induction t with
  | nil => exact Nat.le_refl 0
  | cons c t ih =>
    rw [escape_cons, length_append, length_cons]
    split
    · rw [length_cons, length_singleton]; omega
    · rw [length_singleton]; omega

theorem field_cases (t : Text) :
    (∀ c ∈ t, isSpecial c = false) ∧ field t = t ∨ field t = '"' :: (escape t ++ ['"']) := by
  by_cases h : t.any isSpecial = true
  · exact .inr (if_pos h)
  · have hplain : ∀ c ∈ t, isSpecial c = false := by
      intro c hc
      exact Bool.eq_false_iff.mpr fun hspecial => h (any_eq_true.mpr ⟨c, hc, hspecial⟩)
    exact .inl ⟨hplain, if_neg h⟩

theorem field_eq_nil_iff : field t = [] ↔ t = [] := by
  rcases field_cases t with ⟨-, h⟩ | h
  · rw [h]
  · rw [h]
    refine iff_of_false (cons_ne_nil _ _) ?_
    rintro rfl
    cases h

/-! ## 3. Records -/

theorem moreFields_cons (t : Text) (fields : List Text) :
    moreFields (t :: fields) = ',' :: (field t ++ moreFields fields) := flatMap_cons

theorem text_cons (fields : List Text) (records : List (List Text)) :
    text (fields :: records) = record fields ++ '\n' :: text records := by
  rw [text, flatMap_cons, append_assoc]
  rfl

theorem record_eq_nil_iff : record fields = [] ↔ fields = [] ∨ fields = [[]] := by
  cases fields with
  | nil => exact iff_of_true rfl (.inl rfl)
  | cons first fields =>
    cases fields with
    | nil => rw [record, moreFields, flatMap_nil, append_nil, field_eq_nil_iff]; simp
    | cons second fields => rw [record, moreFields_cons]; simp

theorem record_head : (record fields).head? ≠ some '\n' ∧ (record fields).head? ≠ some '\r' := by
  have hfield : ∀ (t more : Text) (c : Char), c = '\n' ∨ c = '\r' → more.head? ≠ some c →
      (field t ++ more).head? ≠ some c := by
    intro t more c hc hmore hhead
    rcases field_cases t with ⟨hplain, h⟩ | h
    · rw [h] at hhead
      cases t with
      | nil => exact hmore hhead
      | cons d t =>
        obtain rfl := Option.some.inj hhead
        have hspecial := hplain d mem_cons_self
        rcases hc with rfl | rfl <;> cases hspecial
    · rw [h] at hhead
      obtain rfl := Option.some.inj hhead
      rcases hc with hc | hc <;> cases hc
  have hmore : ∀ (fields : List Text) (c : Char), c = '\n' ∨ c = '\r' →
      (moreFields fields).head? ≠ some c := by
    intro fields c hc hhead
    cases fields with
    | nil => cases hhead
    | cons t fields => obtain rfl := Option.some.inj hhead; rcases hc with hc | hc <;> cases hc
  cases fields with
  | nil => exact ⟨nofun, nofun⟩
  | cons first fields =>
    exact ⟨hfield first _ _ (.inl rfl) (hmore fields _ (.inl rfl)),
      hfield first _ _ (.inr rfl) (hmore fields _ (.inr rfl))⟩

end Csv
