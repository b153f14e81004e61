/-
  Subject: `c ? t : f` in `evaluate_arith` of `src/expand.c`, for any three expressions.

  `arith_ternary` reads all three operands at the level of `||`. So a branch that is a conditional
  itself ends the reading at its question mark.
-/
import Arksh.Expand.ArithExtend

namespace Arksh

open CText Scan Brackets List

/-- A question mark stands outside of parentheses. -/
def IsConditional (t : Text) : Prop := bare '(' ')' '?' 0 t = true

instance (t : Text) : Decidable (IsConditional t) := inferInstanceAs (Decidable (_ = true))

def conditionalText (c t f : Text) : Text := c ++ ' ' :: '?' :: ' ' :: (t ++ ' ' :: ':' :: ' ' :: f)

/-- `arith_logical_or` -/
def operandAt (getVar : Text → Option Text) (depth : Nat) : ArithParser :=
  levelAt (primaryAt getVar depth) 12

theorem operandAt_reads (getVar : Text → Option Text) (depth : Nat) :
    (operandAt getVar depth).Reads 0 :=
  levelAt_reads (primaryAt_reads getVar depth) 12 le_rfl

theorem evaluateArith_eq (getVar : Text → Option Text) (t : Text) :
    evaluateArith getVar t = evaluateWith (arithTernary (operandAt getVar t.length)) t := by
  rw [evaluateArith, ← levelAt_expr, levelAt_ternary, operandAt]

variable {getVar : Text → Option Text} {t s : Text}

theorem operand_of_ok {v : Int} (h : evaluateArith getVar t = .ok v) : (¬ IsConditional t ∧
        ∃ rest, operandAt getVar t.length t = .ok (v, rest) ∧ arithSkipWs rest = []) ∨
      (IsConditional t ∧
        ∃ x rest w, operandAt getVar t.length t = .ok (x, rest) ∧ arithSkipWs rest = '?' :: w) := by
  rw [evaluateArith_eq] at h
  obtain ⟨rest, hread, hnil⟩ := evaluateWith_ok.mp h
  have hread' := hread
  obtain ⟨⟨x, r⟩, hx, -⟩ := bind_ok.mp hread'
  have hbare : bare '(' ')' '?' 0 t = bare '(' ')' '?' 0 (arithSkipWs r) :=
    (operandAt_reads getVar _ hx).bare.trans (reads_skipWs r).bare
  by_cases hquestion : ∃ w, arithSkipWs r = '?' :: w
  · obtain ⟨w, hw⟩ := hquestion
    rw [hw] at hbare
    exact .inr ⟨hbare, x, r, w, hx, hw⟩
  · have hsingle : ∀ w, arithSkipWs r ≠ '?' :: w := not_exists.mp hquestion
    have hvalue : arithTernary (operandAt getVar t.length) t = .ok (x, arithSkipWs r) :=
      arithTernary_single hx hsingle
    rw [hvalue] at hread
    cases hread
    rw [arithSkipWs_idem] at hnil
    refine .inl ⟨?_, r, hx, hnil⟩
    unfold IsConditional
    rw [hbare, hnil]
    decide

theorem operandAt_extends (getVar : Text → Option Text) {d d' : Nat} (hle : d ≤ d') (hs : Gapped s)
    (hstop : Stops 12 s) : (operandAt getVar d).Extends s (operandAt getVar d') :=
  levelAt_extends hs hstop
    (primaryAt_extends getVar (fun s => arithExpr_extends getVar d d' s hle) hs hstop) 12 le_rfl

/-- **So what stands behind an expression is reached exactly if it is no conditional.** -/
theorem operand_within {v : Int} (h : evaluateArith getVar t = .ok v) {d : Nat} (hle : t.length ≤ d)
    {u : Text} (hs : Gapped s) (hstop : Stops 12 s) (hu : arithSkipWs u = arithSkipWs (t ++ s)) :
    (¬ IsConditional t ∧
        ∃ rest, operandAt getVar d u = .ok (v, rest) ∧ arithSkipWs rest = arithSkipWs s) ∨
      (IsConditional t ∧
        ∃ x rest w, operandAt getVar d u = .ok (x, rest) ∧ arithSkipWs rest = '?' :: w) := by
  have hextends := operandAt_extends getVar hle hs hstop
  obtain ⟨hsingle, r, hread, hnil⟩ | ⟨hcond, x, r, w, hread, hw⟩ := operand_of_ok h
  · obtain ⟨rest, hread', hrest⟩ := hextends hread hu
    exact .inl ⟨hsingle, rest, hread', hrest.trans (arithSkipWs_append_nil hnil s)⟩
  · obtain ⟨rest, hread', hrest⟩ := hextends hread hu
    exact .inr ⟨hcond, x, rest, w ++ s, hread', hrest.trans (arithSkipWs_append_cons hw s)⟩

theorem gapped_space (t : Text) : Gapped (' ' :: t) := by simp [Gapped, isspace]

section Conditional

variable {getVar : Text → Option Text} {c t f : Text} {vc vt vf : Int}

theorem arithTernary_condition (hc : evaluateArith getVar c = .ok vc)
    (hsingle : ¬ IsConditional c) :
    arithTernary (operandAt getVar (conditionalText c t f).length) (conditionalText c t f) =
      (operandAt getVar (conditionalText c t f).length
          (' ' :: (t ++ ' ' :: ':' :: ' ' :: f))).bind fun (v, rest) =>
        ternaryRest (operandAt getVar (conditionalText c t f).length) vc v rest := by
  have hle : c.length ≤ (conditionalText c t f).length := by simp [conditionalText]
  have hstop : Stops 12 (' ' :: '?' :: ' ' :: (t ++ ' ' :: ':' :: ' ' :: f)) :=
    stops_mark gap_space (by simp) _
  obtain ⟨-, rest, hread, hrest⟩ | ⟨hcond, -⟩ :=
    operand_within hc hle (gapped_space _) hstop (u := conditionalText c t f) rfl
  · exact arithTernary_question hread hrest
  · exact absurd hcond hsingle

/-- **The conditional has its value in C exactly if neither branch is a conditional itself.** -/
theorem conditional_iff (hc : evaluateArith getVar c = .ok vc) (hsingle : ¬ IsConditional c)
    (ht : evaluateArith getVar t = .ok vt) (hf : evaluateArith getVar f = .ok vf) :
    evaluateArith getVar (conditionalText c t f) = .ok (if vc ≠ 0 then vt else vf) ↔
      ¬ IsConditional t ∧ ¬ IsConditional f := by
  have hle : t.length ≤ (conditionalText c t f).length := by
    simp only [conditionalText, length_append, length_cons]
    omega
  have hle' : f.length ≤ (conditionalText c t f).length := by
    simp only [conditionalText, length_append, length_cons]
    omega
  have hstop : Stops 12 (' ' :: ':' :: ' ' :: f) := stops_mark gap_space (by simp) _
  rw [evaluateArith_eq, evaluateWith_ok, arithTernary_condition hc hsingle]
  obtain ⟨htsingle, r, hread, hrest⟩ | ⟨htcond, x, r, w, hread, hrest⟩ :=
    operand_within ht hle (gapped_space _) hstop
      (u := ' ' :: (t ++ ' ' :: ':' :: ' ' :: f)) rfl
  · have hmark : arithSkipWs r = ':' :: ' ' :: f := hrest
    rw [hread]
    dsimp only [Except.bind]
    rw [ternaryRest_colon _ _ _ hmark]
    obtain ⟨hfsingle, r', hread', hrest'⟩ | ⟨hfcond, y, r', w, hread', hrest'⟩ :=
      operand_within hf hle' (by simp [Gapped]) (stops_blank blank_nil 12) (u := ' ' :: f)
        (by rw [append_nil]; rfl)
    · refine iff_of_true ⟨r', ?_, hrest'⟩ ⟨htsingle, hfsingle⟩
      rw [hread']
      rfl
    · -- the question mark in the second branch is left over
      refine iff_of_false ?_ fun h => h.2 hfcond
      rintro ⟨rest, hok, hnil⟩
      rw [hread'] at hok
      obtain ⟨-, rfl⟩ := Prod.mk.inj (Except.ok.inj hok)
      rw [hrest'] at hnil
      cases hnil
  · -- the question mark in the first branch stands where the colon is expected
    refine iff_of_false ?_ fun h => h.1 htcond
    rintro ⟨rest, hok, _⟩
    rw [hread] at hok
    dsimp only [Except.bind, ternaryRest] at hok
    rw [hrest] at hok
    cases hok

end Conditional

theorem conditional_three :
    evaluateArith (fun _ => none) (conditionalText "1".toList "2".toList "(0 ? 3 : 4)".toList) =
      .ok 2 := by
  have hc : evaluateArith (fun _ => none) "1".toList = .ok 1 := toOption_some (by decide)
  have ht : evaluateArith (fun _ => none) "2".toList = .ok 2 := toOption_some (by decide)
  have hf : evaluateArith (fun _ => none) "(0 ? 3 : 4)".toList = .ok 4 :=
    toOption_some (by decide +kernel)
  exact (conditional_iff hc (by decide) ht hf).mpr (by decide)

/-- `1 ? 2 : 0 ? 3 : 4` -/
theorem not_conditional_nested : ¬ ∀ (getVar : Text → Option Text) (c t f : Text) (vc vt vf : Int),
      evaluateArith getVar c = .ok vc → ¬ IsConditional c → evaluateArith getVar t = .ok vt →
        evaluateArith getVar f = .ok vf →
          evaluateArith getVar (conditionalText c t f) = .ok (if vc ≠ 0 then vt else vf) := by
  intro h
  have hc : evaluateArith (fun _ => none) "1".toList = .ok 1 := toOption_some (by decide)
  have ht : evaluateArith (fun _ => none) "2".toList = .ok 2 := toOption_some (by decide)
  have hf : evaluateArith (fun _ => none) "0 ? 3 : 4".toList = .ok 4 := toOption_some (by decide)
  have hnested := h _ _ _ _ 1 2 4 hc (by decide) ht hf
  have hnone : (evaluateArith (fun _ => none)
      (conditionalText "1".toList "2".toList "0 ? 3 : 4".toList)).toOption = none := by
    decide
  rw [hnested] at hnone
  cases hnone

end Arksh
