/-
  Subject: Decimal number literals without a sign: digits, perhaps a fraction, perhaps an
           exponent.

  The digits may start with zeros, unlike those of the JSON grammar; the exponent is the one of
  that grammar.
-/
import Arksh.Lib.Json

open CText Binary64 Rfc8259 List

/-- A literal; an empty `frac` is the absence of a fraction. -/
structure DecimalLiteral where
  int : Text
  frac : Text
  exp : Option Exponent
  intDigits : ∀ c ∈ int, isdigit c = true
  intNonempty : int ≠ []
  fracDigits : ∀ c ∈ frac, isdigit c = true

namespace DecimalLiteral

/-! ## 1. Texts and values -/

def fracText (n : DecimalLiteral) : Text := if n.frac = [] then [] else '.' :: n.frac

def expText (n : DecimalLiteral) : Text :=
  match n.exp with
  | none => []
  | some e => e.text

def text (n : DecimalLiteral) : Text := n.int ++ (n.fracText ++ n.expText)

def signedValue (neg : Bool) (n : DecimalLiteral) : Binary64 :=
  scaled neg (Nat.ofDigitChars 10 (n.int ++ n.frac) 0) 10
    ((match n.exp with | none => 0 | some e => e.value) - n.frac.length)

/-- The double nearest to a literal. -/
def value (n : DecimalLiteral) : Binary64 := n.signedValue false

def SignedExponent (n : DecimalLiteral) : Prop := ∃ e ∈ n.exp, e.sign ≠ none

theorem exists_digit (n : DecimalLiteral) : ∃ d t, n.text = d :: t ∧ isdigit d = true := by
  obtain ⟨d, ds, hint⟩ := exists_cons_of_ne_nil n.intNonempty
  refine ⟨d, ds ++ (n.fracText ++ n.expText), by rw [text, hint, cons_append], ?_⟩
  exact n.intDigits d (by rw [hint]; exact mem_cons_self)

theorem text_ne_nil (n : DecimalLiteral) : n.text ≠ [] := by
  obtain ⟨d, t, htext, -⟩ := n.exists_digit
  rw [htext]
  exact cons_ne_nil _ _

/-! ## 2. `strtod` -/

/-- The literal with one digit instead of its own: a number of the grammar with the same
    exponent. -/
def expNumber (n : DecimalLiteral) : Number where
  neg := false
  int := ['0']
  frac := []
  exp := n.exp
  intDigits c hc := by rw [List.mem_singleton.mp hc]; rfl
  intNonempty := List.cons_ne_nil _ _
  noLeadingZero t h := (List.cons.inj h).2.symm
  fracDigits := isdigit_of_mem_nil

section

variable (n : DecimalLiteral)

theorem expText_expNumber : n.expNumber.expText = n.expText := rfl

theorem expText_stops : n.expText = [] ∨ ∃ c t, n.expText = c :: t ∧ isdigit c = false ∧ c ≠ '.' :=
  Rfc8259.expText_stops n.expNumber

theorem pointed_text : pointed isdigit n.text = some (n.int, n.frac, n.expText) := by
  have hne := n.intNonempty
  unfold pointed text fracText
  by_cases hf : n.frac = []
  · rw [if_pos hf, nil_append, hf]
    rcases n.expText_stops with he | ⟨c, t, he, hc, hdot⟩
    · have hread := takeWhile_digits n.intDigits (.inl he)
      rw [hread.1, hread.2, he]
      simp [hne]
    · have hread := takeWhile_digits n.intDigits (.inr ⟨c, t, he, hc⟩)
      rw [hread.1, hread.2, he]
      simp [hne, hdot]
  · rw [if_neg hf]
    have hint := takeWhile_digits (t := '.' :: n.frac ++ n.expText) n.intDigits
      (.inr ⟨'.', n.frac ++ n.expText, rfl, by decide⟩)
    have hfrac := takeWhile_digits (t := n.expText) n.fracDigits (by
      rcases n.expText_stops with he | ⟨c, t, he, hc, -⟩
      · exact .inl he
      · exact .inr ⟨c, t, he, hc⟩)
    rw [hint.1, hint.2]
    simp [hfrac.1, hfrac.2, hne]

theorem decimalNumeral_text : decimalNumeral false n.text = some (n.value, []) := by
  rw [decimalNumeral, pointed_text]
  dsimp only
  rw [← expText_expNumber, exponentPart_text]
  rfl

end

theorem mem_text {n : DecimalLiteral} {c : Char} (h : c ∈ n.text) :
    isdigit c = true ∨ c ∈ ['-', '+', '.', 'e', 'E'] := by
  rcases mem_append.mp h with h | h
  · exact .inl (n.intDigits c h)
  rcases mem_append.mp h with h | h
  · unfold fracText at h
    split at h
    · cases h
    · rcases mem_cons.mp h with rfl | h
      · exact .inr (by decide)
      · exact .inl (n.fracDigits c h)
  · have hexp : c ∈ n.expNumber.text := mem_cons_of_mem '0' h; exact Number.mem_text hexp

/-- **`strtod` reads every literal whole.** -/
theorem strtod_literal (n : DecimalLiteral) : strtod n.text = some (n.value, []) := by
  have hdec := n.decimalNumeral_text
  obtain ⟨d, t, htext, hd⟩ := n.exists_digit
  rw [htext] at hdec ⊢
  rw [strtod_of_isdigit hd]
  refine unsignedNumeral_decimal (fun x t' h => ?_) hdec
  -- no character of a literal is an `x`
  have hmem : x ∈ n.text := by rw [htext, h]; exact mem_cons_of_mem _ mem_cons_self
  rcases mem_text hmem with hx | hx
  · constructor <;> rintro rfl <;> exact absurd hx (by decide)
  · constructor <;> rintro rfl <;> exact absurd hx (by decide)

/-! ## 3. Signs -/

/-- A literal ends with a digit of its unsigned part, or with the letter of an exponent, a sign and
    digits. -/
theorem text_cases (n : DecimalLiteral) :
    (¬ n.SignedExponent ∧ ∀ c ∈ n.text, isdigit c = true ∨ c ∈ ['.', 'e', 'E']) ∨
      (n.SignedExponent ∧ ∃ front sign digits, n.text = front ++ sign :: digits ∧
        (sign = '-' ∨ sign = '+') ∧ digits ≠ [] ∧ (∀ c ∈ digits, isdigit c = true) ∧
        front ≠ [] ∧ ∀ c ∈ front, isdigit c = true ∨ c ∈ ['.', 'e', 'E']) := by
  have hfront : ∀ c ∈ n.int ++ n.fracText, isdigit c = true ∨ c ∈ ['.', 'e', 'E'] := by
    intro c hc
    rcases mem_append.mp hc with hc | hc
    · exact .inl (n.intDigits c hc)
    · unfold fracText at hc
      split at hc
      · cases hc
      · rcases mem_cons.mp hc with rfl | hc
        · exact .inr (by decide)
        · exact .inl (n.fracDigits c hc)
  cases hexp : n.exp with
  | none =>
    have htext : n.text = n.int ++ n.fracText := by
      rw [text, expText, hexp, ← append_assoc]
      exact append_nil _
    refine .inl ⟨fun ⟨e, he, _⟩ => ?_, by rwa [htext]⟩
    rw [hexp] at he
    cases he
  | some e =>
    obtain ⟨upper, sign, digits, hdigits, hne⟩ := e
    have hletter : (if upper then 'E' else 'e') ∈ ['.', 'e', 'E'] := by cases upper <;> decide
    have hhead : ∀ c ∈ n.int ++ n.fracText ++ [if upper then 'E' else 'e'],
        isdigit c = true ∨ c ∈ ['.', 'e', 'E'] := by
      intro c hc
      rcases mem_append.mp hc with hc | hc
      · exact hfront c hc
      · rw [mem_singleton.mp hc]; exact .inr hletter
    have hexpText : n.expText = Exponent.text ⟨upper, sign, digits, hdigits, hne⟩ := by
      unfold expText
      rw [hexp]
    cases sign with
    | none =>
      refine .inl ⟨fun ⟨e, he, hsign⟩ => ?_, fun c hc => ?_⟩
      · rw [hexp] at he
        cases he
        exact hsign rfl
      · rw [text, hexpText, Exponent.text, nil_append, ← append_assoc,
          ← singleton_append, ← append_assoc] at hc
        rcases mem_append.mp hc with hc | hc
        · exact hhead c hc
        · exact .inl (hdigits c hc)
    | some minus =>
      refine .inr ⟨⟨_, hexp, by simp⟩, n.int ++ n.fracText ++ [if upper then 'E' else 'e'],
        if minus then '-' else '+', digits, ?_, ?_, hne, hdigits, by simp, hhead⟩
      · rw [text, hexpText, Exponent.text]; cases minus <;> simp
      · cases minus <;> simp

end DecimalLiteral
