/-
  Subject: Units of an input that is read line by line: characters, characters behind a
           backslash, continued lines, ends of lines.
-/
import Arksh.Lib.Text

namespace Input

open CText List

/-! ## 1. Units -/

inductive InputUnit where
  | plain (c : Char)
  | escaped (c : Char)
  | continuation
  | newline
  deriving DecidableEq

def InputUnit.text : InputUnit → Text
  | .plain c => [c]
  | .escaped c => ['\\', c]
  | .continuation => ['\\', '\n']
  | .newline => ['\n']

def InputUnit.char? : InputUnit → Option Char
  | .plain c | .escaped c => some c
  | .continuation | .newline => none

/-- The units of an input. At its very end a backslash stands for itself. -/
def units (raw : Bool) : Text → List InputUnit
  | [] => []
  | [c] => [if c = '\n' then .newline else .plain c]
  | c :: d :: s =>
    if c = '\n' then .newline :: units raw (d :: s)
    else if raw ∨ c ≠ '\\' then .plain c :: units raw (d :: s)
    else (if d = '\n' then .continuation else .escaped d) :: units raw s

def textOf (us : List InputUnit) : Text := us.flatMap InputUnit.text

def delivered (us : List InputUnit) : Text := us.filterMap InputUnit.char?

def firstLine (raw : Bool) (s : Text) : List InputUnit := (units raw s).takeWhile (· ≠ .newline)

/-! ## 2. The units are the input -/

section Units

variable {raw : Bool} {c : Char} {s : Text} {u : InputUnit} {us vs : List InputUnit}

@[simp] theorem textOf_nil : textOf [] = [] := rfl

@[simp] theorem textOf_cons (u : InputUnit) (us : List InputUnit) :
    textOf (u :: us) = u.text ++ textOf us := flatMap_cons

@[simp] theorem textOf_append (us vs : List InputUnit) : textOf (us ++ vs) = textOf us ++ textOf vs :=
  flatMap_append

@[simp] theorem delivered_nil : delivered [] = [] := rfl

@[simp] theorem delivered_append (us vs : List InputUnit) :
    delivered (us ++ vs) = delivered us ++ delivered vs := filterMap_append

theorem delivered_cons (u : InputUnit) (us : List InputUnit) :
    delivered (u :: us) = u.char?.toList ++ delivered us := by
  unfold delivered
  rw [filterMap_cons]
  cases u.char? with
  | none | some c => rfl

theorem InputUnit.text_ne_nil (u : InputUnit) : u.text ≠ [] := by
  cases u with
  | plain c | escaped c | continuation | newline => exact cons_ne_nil _ _

theorem units_newline (raw : Bool) (s : Text) : units raw ('\n' :: s) = .newline :: units raw s := by
  cases s with
  | nil => rfl
  | cons d s => rw [units, if_pos rfl]

theorem units_plain (hc : c ≠ '\n') (hplain : raw = true ∨ c ≠ '\\') (s : Text) :
    units raw (c :: s) = .plain c :: units raw s := by
  cases s with
  | nil => exact congrArg (fun u => [u]) (if_neg hc)
  | cons d s => rw [units, if_neg hc, if_pos hplain]

theorem units_continuation (s : Text) :
    units false ('\\' :: '\n' :: s) = .continuation :: units false s := by
  rw [units, if_neg (by decide), if_neg (by decide), if_pos rfl]

theorem units_escaped (hc : c ≠ '\n') (s : Text) :
    units false ('\\' :: c :: s) = .escaped c :: units false s := by
  rw [units, if_neg (by decide), if_neg (by decide), if_neg hc]

theorem units_cases (raw : Bool) (s : Text) :
    s = [] ∨ ∃ u rest, s = u.text ++ rest ∧ units raw s = u :: units raw rest := by
  cases s with
  | nil => exact .inl rfl
  | cons c s =>
    refine .inr ?_
    by_cases hnl : c = '\n'
    · subst hnl; exact ⟨.newline, s, rfl, units_newline raw s⟩
    · by_cases hplain : raw = true ∨ c ≠ '\\'
      · exact ⟨.plain c, s, rfl, units_plain hnl hplain s⟩
      · rw [not_or, not_not] at hplain
        obtain ⟨hraw, rfl⟩ := hplain
        rw [Bool.not_eq_true] at hraw
        subst hraw
        cases s with
        | nil => exact ⟨.plain '\\', [], rfl, rfl⟩
        | cons d s =>
          by_cases hd : d = '\n'
          · subst hd; exact ⟨.continuation, s, rfl, units_continuation s⟩
          · exact ⟨.escaped d, s, rfl, units_escaped hd s⟩

theorem units_induction {raw : Bool} {P : Text → Prop} (hnil : P [])
    (hunit : ∀ u rest, units raw (u.text ++ rest) = u :: units raw rest → P rest →
      P (u.text ++ rest)) (s : Text) : P s := by
  induction hn : s.length using Nat.strongRecOn generalizing s with
  | ind n ih =>
    rcases units_cases raw s with rfl | ⟨u, rest, rfl, hu⟩
    · exact hnil
    · have hpos := length_pos_iff.mpr u.text_ne_nil
      rw [length_append] at hn
      exact hunit u rest hu (ih rest.length (by omega) rest rfl)

/-- **The units are the whole input.** -/
theorem units_text (raw : Bool) (s : Text) : textOf (units raw s) = s := by
  induction s using units_induction with
  | hnil => rfl
  | hunit u rest hu ih => rw [hu, textOf_cons, ih]

/-- **What is left behind some of the units has the others as its units.** -/
theorem units_rest (h : units raw s = us ++ vs) : units raw (textOf vs) = vs := by
  induction us generalizing s with
  | nil =>
    have htext := units_text raw s
    rw [h, nil_append] at htext
    rw [htext, h, nil_append]
  | cons u us ih =>
    rcases units_cases raw s with rfl | ⟨v, rest, -, hv⟩
    · cases h
    · rw [hv] at h; exact ih (cons.inj h).2

theorem textOf_cut {us vs us' vs' : List InputUnit} (h : us ++ vs = us' ++ vs')
    (hlength : (textOf us).length = (textOf us').length) : us = us' := by
  induction us generalizing us' with
  | nil =>
    cases us' with
    | nil => rfl
    | cons u us' =>
      have hpos := length_pos_iff.mpr u.text_ne_nil
      rw [textOf_cons, length_append, textOf_nil, length_nil] at hlength
      omega
  | cons u us ih =>
    cases us' with
    | nil =>
      have hpos := length_pos_iff.mpr u.text_ne_nil
      rw [textOf_cons, length_append, textOf_nil, length_nil] at hlength
      omega
    | cons u' us' =>
      obtain ⟨rfl, htail⟩ := cons.inj h
      rw [textOf_cons, textOf_cons, length_append, length_append] at hlength
      rw [ih htail (by omega)]

end Units

end Input
