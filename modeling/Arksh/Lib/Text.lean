/-
  Subject: C text: NUL-terminated strings, the character classes of the "C" locale, and
           writes into buffers of a fixed size.

  A C string is the list of its bytes before the NUL; a `char` is a `Char` whose code is the
  byte. A buffer `char buf[size]` filled by appending is the list written so far, and every
  append checks the room that is left, the terminating NUL included:
-/
import Mathlib.Data.List.Infix

namespace CText

open List

/-- A C string, without its NUL. -/
abbrev Text := List Char

/-- Membership in a list of texts is decided with this instance everywhere. -/
instance Text.lawfulBEq : LawfulBEq Text := inferInstance

/-! ## 1. Character classes ("C" locale) -/

/-- `isspace`: blank, tab, newline, vertical tab, form feed, carriage return. -/
def isspace (c : Char) : Bool :=
  c = ' ' || c = '\t' || c = '\n' || c = '\x0b' || c = '\x0c' || c = '\r'

def isdigit (c : Char) : Bool := '0' ≤ c && c ≤ '9'

def isalpha (c : Char) : Bool := ('a' ≤ c && c ≤ 'z') || ('A' ≤ c && c ≤ 'Z')

def isalnum (c : Char) : Bool := isalpha c || isdigit c

def isxdigit (c : Char) : Bool := isdigit c || ('a' ≤ c && c ≤ 'f') || ('A' ≤ c && c ≤ 'F')

def hexDigitValue (c : Char) : Nat :=
  if isdigit c then c.toNat - '0'.toNat
  else if 'a' ≤ c ∧ c ≤ 'f' then c.toNat - 'a'.toNat + 10
  else c.toNat - 'A'.toNat + 10

def hexValue (ds : Text) : Nat := ds.foldl (fun v c => 16 * v + hexDigitValue c) 0

theorem forall_mem_of_all {p : Char → Prop} [DecidablePred p] {text : Text}
    (h : text.all (fun c => decide (p c)) = true) : ∀ c ∈ text, p c := by
  intro c hc
  have hp := all_eq_true.mp h c hc
  exact of_decide_eq_true hp

/-! ## 2. Fixed-size buffers -/

/-- `copy_string`: as much of `src` as a buffer of `size` bytes holds beside the NUL. -/
def copyString (size : Nat) (src : Text) : Text := src.take (size - 1)

/-- Append one character to a buffer of `size` bytes. -/
def appendChar (size : Nat) (buf : Text) (c : Char) : Option Text :=
  if buf.length + 1 ≥ size then none else some (buf ++ [c])

/-- Append a string to a buffer of `size` bytes, all of it or nothing. -/
def appendText (size : Nat) (buf text : Text) : Option Text :=
  if buf.length + text.length ≥ size then none else some (buf ++ text)

variable {size : Nat} {src buf b' : Text}

theorem copyString_of_lt (h : src.length < size) : copyString size src = src :=
  take_of_length_le (by omega)

theorem copyString_length_lt (hs : 0 < size) (src : Text) :
    (copyString size src).length < size := by
  simp only [copyString, length_take]
  omega

theorem copyString_ne (hs : 0 < size) (h : size ≤ src.length) :
    copyString size src ≠ src := fun e => by
  have := copyString_length_lt hs src
  rw [e] at this
  omega

theorem appendChar_eq_some {c : Char} :
    appendChar size buf c = some b' ↔ buf.length + 1 < size ∧ b' = buf ++ [c] := by
  unfold appendChar
  split
  · simp; omega
  · simp [eq_comm]; omega

theorem appendText_eq_some {text : Text} :
    appendText size buf text = some b' ↔ buf.length + text.length < size ∧ b' = buf ++ text := by
  unfold appendText
  split
  · simp; omega
  · simp [eq_comm]; omega

end CText
