/-
  Subject: `$name` as `arith_primary` of `src/expand.c` reads it, compared with `$name` as
           `resolve_variable` expands it.

  Expansion knows the special and the positional parameters and follows namerefs. The reader of
  arithmetic expressions scans a run of letters, digits and underscores and looks that up among
  the variables, whose text it takes for a C numeral.
-/
import Mathlib.Tactic.IntervalCases
import Arksh.Expand.ArithReads
import Arksh.Expand.Delimited

namespace Arksh

open CText Scan List

/-! ## 1. Parameters behind a dollar -/

/-- The parameters that stand behind a dollar without braces. -/
inductive PlainParameter : Text → Parameter → Prop where
  | special {c : Char} : isSpecialParameter c = true → PlainParameter [c] (.single c)
  | digit {c : Char} : isdigit c = true → PlainParameter [c] (.single c)
  | name (name : ArithName) : name.1.length < 128 → PlainParameter name.1 (.name name.1)

variable {c : Char} {value : Option Text} {d : Int}

theorem isSpecialParameter_cases (h : isSpecialParameter c = true) :
    c ∈ ['?', '#', '$', '!', '-', '@', '*'] := by
  simpa [isSpecialParameter, or_assoc] using h

theorem isdigit_cases (h : isdigit c = true) :
    c ∈ ['0', '1', '2', '3', '4', '5', '6', '7', '8', '9'] := by
  simp only [isdigit, Bool.and_eq_true, decide_eq_true_eq] at h
  have hlow : 48 ≤ c.toNat := h.1
  have hhigh : c.toNat ≤ 57 := h.2
  rw [← Char.ofNat_toNat c]
  generalize c.toNat = k at hlow hhigh
  interval_cases k <;> decide

/-! ## 2. What the evaluator reads -/

def dollarArith (getVar : Text → Option Text) (n : Text) : Except ArithError Int :=
  evaluateArith getVar (' ' :: '$' :: (n ++ [' ']))

section

variable (getVar : Text → Option Text)

theorem evaluateArith_name {name : ArithName} (hlength : name.1.length < 128) :
    dollarArith getVar name.1 = .ok (arithVarValue (getVar name.1)) := by
  have hprints : Prints 13 (.var true name) ('$' :: name.1) :=
    (Prints.var true name).mono (Nat.zero_le 13) le_rfl
  have hblank : Blank [' '] := gap_space.2
  have hcopy : copyString 128 name.1 = name.1 := copyString_of_lt hlength
  have heval := evaluateArith_prints getVar hblank hprints hblank
  rw [ArithExpr.strict, readEnv, hcopy] at heval
  exact heval

theorem evaluateArith_digit (hc : isdigit c = true) :
    dollarArith getVar [c] = .ok (arithVarValue (getVar [c])) := by
  have hmem := isdigit_cases hc
  simp only [mem_cons, not_mem_nil, or_false] at hmem
  rcases hmem with rfl | rfl | rfl | rfl | rfl | rfl | rfl | rfl | rfl | rfl
  all_goals rfl

theorem evaluateArith_special (hc : isSpecialParameter c = true) (d : Int) :
    dollarArith getVar [c] ≠ .ok d := by
  have hmem := isSpecialParameter_cases hc
  simp only [mem_cons, not_mem_nil, or_false] at hmem
  rcases hmem with rfl | rfl | rfl | rfl | rfl | rfl | rfl
  all_goals
    intro h
    cases h

end

/-! ## 3. The two readings -/

variable {σ : Type}

def PlainValue (view : ShellView σ) (s : σ) (n text : Text) : Prop :=
  ∃ p s', PlainParameter n p ∧ p.value view s = .ok (text, s')

inductive RawNumeral : Option Text → Int → Prop where
  | unset : RawNumeral none 0
  | whole {raw rest : Text} {d : Int} :
      strtoll raw = (d, rest) → Blank rest → RawNumeral (some raw) d
  | partly {raw rest : Text} {d : Int} :
      strtoll raw = (d, rest) → ¬ Blank rest → RawNumeral (some raw) 0

theorem blank_iff {w : Text} : Blank w ↔ w.dropWhile isspace = [] := dropWhile_eq_nil_iff.symm

theorem arithVarValue_eq_iff : arithVarValue value = d ↔ RawNumeral value d := by
  constructor
  · rintro rfl
    cases value with
    | none => exact .unset
    | some raw =>
      by_cases hblank : Blank (strtoll raw).2
      · have hvalue : arithVarValue (some raw) = (strtoll raw).1 := if_pos (blank_iff.mp hblank)
        rw [hvalue]
        exact .whole rfl hblank
      · have hvalue : arithVarValue (some raw) = 0 := if_neg (mt blank_iff.mpr hblank)
        rw [hvalue]
        exact .partly rfl hblank
  · intro h
    cases h with
    | unset => rfl
    | whole hread hblank => rw [arithVarValue, hread]; exact if_pos (blank_iff.mp hblank)
    | partly hread hblank => rw [arithVarValue, hread]; exact if_neg (mt blank_iff.mpr hblank)

/-- The condition under which `$(( $n ))` is `d`, where `$n` is the decimal `text` for `d`: no
    special parameter is meant, and the variables have that text under the name itself, without a
    leading zero and not too large, or another text that counts for `d`. -/
structure ArithAgrees (view : ShellView σ) (s : σ) (n text : Text) (d : Int) : Prop where
  notSpecial : ∀ c, n = [c] → isSpecialParameter c = false
  inTable : view.getVar s n = some text → InRange d ∧ (LeadingZero text → d.natAbs < 8)
  notInTable : view.getVar s n ≠ some text → RawNumeral (view.getVar s n) d

theorem arithVarValue_agrees {text : Text} (hd : DecimalInteger text d) : arithVarValue value = d ↔
      (value = some text → InRange d ∧ (LeadingZero text → d.natAbs < 8)) ∧
        (value ≠ some text → RawNumeral value d) := by
  by_cases hvalue : value = some text
  · subst hvalue
    have hread : arithVarValue (some text) = d ↔ _ := strtoll_decimalInteger hd
    simp [hread]
  · simp [hvalue, arithVarValue_eq_iff]

/-- **`$(( $n ))` is the integer that `$n` is exactly under that condition.** -/
theorem parameterArith_iff (view : ShellView σ) (s : σ) {n text : Text} {d : Int}
    (hplain : PlainValue view s n text) (hd : DecimalInteger text d) :
    dollarArith (view.getVar s) n = .ok d ↔ ArithAgrees view s n text d := by
  obtain ⟨p, s', hn, -⟩ := hplain
  have htable : ∀ v, dollarArith (view.getVar s) n = .ok v →
      (∀ c, n = [c] → isSpecialParameter c = false) := by
    rintro v hv c rfl
    by_contra hc
    exact evaluateArith_special _ (by simpa using hc) v hv
  have hlookup : (∀ c, n = [c] → isSpecialParameter c = false) →
      dollarArith (view.getVar s) n = .ok (arithVarValue (view.getVar s n)) := by
    intro hspecial
    cases hn with
    | special hc => exact absurd hc (by simp [hspecial _ rfl])
    | digit hc => exact evaluateArith_digit _ hc
    | name name hlength => exact evaluateArith_name _ hlength
  constructor
  · intro h
    have hspecial := htable d h
    rw [hlookup hspecial] at h
    obtain ⟨hin, hout⟩ := (arithVarValue_agrees hd).mp (Except.ok.inj h)
    exact ⟨hspecial, hin, hout⟩
  · intro h; rw [hlookup h.notSpecial, (arithVarValue_agrees hd).mpr ⟨h.inTable, h.notInTable⟩]

def namerefView : ShellView Unit where
  __ := blankView
  positional _ := ["5".toList]
  getVar _ name :=
    if name = "x".toList then some "10".toList
    else if name = "r".toList then some (arkshNamerefPrefix ++ "x".toList)
    else none

theorem parameterArith_ten :
    PlainValue namerefView () "x".toList "10".toList ∧ DecimalInteger "10".toList 10 ∧
      dollarArith (namerefView.getVar ()) "x".toList = .ok 10 := by
  have hplain : PlainValue namerefView () "x".toList "10".toList :=
    ⟨_, (), .name ⟨"x".toList, by decide⟩ (by decide), rfl⟩
  have hten : DecimalInteger "10".toList 10 := .unsigned (by decide) (all_eq_true.mp rfl)
  refine ⟨hplain, hten, (parameterArith_iff namerefView () hplain hten).mpr ⟨?_, ?_, ?_⟩⟩
  · intro c hc
    cases hc
    rfl
  · intro _
    refine ⟨by decide, fun hzero => ?_⟩
    obtain ⟨c, t, heq⟩ := (leadingZero_iff (.inl rfl) (all_eq_true.mp rfl)).mp hzero
    exact absurd (cons.inj heq).1 (by decide)
  · intro h; exact absurd rfl h

/-- The first positional parameter is 5, and `r` is 10; behind `$((` both count for nothing. -/
theorem not_parameterArith :
    (PlainValue namerefView () "1".toList "5".toList ∧ DecimalInteger "5".toList 5 ∧
        dollarArith (namerefView.getVar ()) "1".toList ≠ .ok 5) ∧
      (PlainValue namerefView () "r".toList "10".toList ∧ DecimalInteger "10".toList 10 ∧
        dollarArith (namerefView.getVar ()) "r".toList ≠ .ok 10) ∧
      (PlainValue namerefView () "#".toList "1".toList ∧ DecimalInteger "1".toList 1 ∧
        dollarArith (namerefView.getVar ()) "#".toList ≠ .ok 1) := by
  have hzero : ∀ {d : Int}, (0 : Int) ≠ d → (Except.ok 0 : Except ArithError Int) ≠ .ok d := by
    intro d hd h
    exact hd (Except.ok.inj h)
  refine ⟨⟨?_, ?_, ?_⟩, ⟨?_, ?_, ?_⟩, ?_, ?_, ?_⟩
  · exact ⟨_, (), .digit (c := '1') rfl, rfl⟩
  · exact .unsigned (by decide) (all_eq_true.mp rfl)
  · exact hzero (by decide)
  · exact ⟨_, (), .name ⟨"r".toList, by decide⟩ (by decide), rfl⟩
  · exact .unsigned (by decide) (all_eq_true.mp rfl)
  · exact hzero (by decide)
  · exact ⟨_, (), .special (c := '#') rfl, rfl⟩
  · exact .unsigned (by decide) (all_eq_true.mp rfl)
  · exact evaluateArith_special _ rfl _

end Arksh
