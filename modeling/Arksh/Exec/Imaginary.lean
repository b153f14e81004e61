/-
  Subject: `apply_binary_op` of `src/executor.c`, and where it is arithmetic of complex numbers.

  An IMAGINARY is `b·i`; a sum of a real number and an IMAGINARY has no kind of its own and is a
  STRING `a+bi`. A value stands for a Gaussian integer where its number is one, or where its text
  reads as one.
-/
import Arksh.Lib.DecimalExact
import Arksh.Object.JsonWrite

namespace Arksh

open CText Binary64 Rfc8259 List

/-! ## 1. The operators -/

def arkshValueSetInteger (number : Binary64) : ArkshValue :=
  let n := number.toInt 64
  { arkshValueInit with kind := .integer, number := whole (n < 0) n.natAbs }

def arkshValueSetFloat (number : Binary64) : ArkshValue :=
  { arkshValueInit with kind := .float, number := number.toSingle }

def arkshValueSetDouble (number : Binary64) : ArkshValue :=
  { arkshValueInit with kind := .double, number := number }

def arkshValueSetImaginary (number : Binary64) : ArkshValue :=
  { arkshValueInit with kind := .imaginary, number := number }

def isNumericKind (k : ArkshValueKind) : Bool :=
  k = .number || k = .integer || k = .float || k = .double || k = .imaginary

def promoteKinds (a b : ArkshValueKind) : ArkshValueKind :=
  if a = .imaginary ∨ b = .imaginary then .imaginary
  else
    -- NUMBER is equivalent to DOUBLE
    let a := if a = .number then .double else a
    let b := if b = .number then .double else b
    if a = .double ∨ b = .double then .double
    else if a = .float ∨ b = .float then .float
    else .integer

def unknownOperator (op : Char) : String := "unknown binary operator: " ++ op.toString

/-- The `switch` over the operator on two real numbers. -/
def realOperator (op : Char) (la ra : Binary64) : Except String Binary64 :=
  match op with
  | '+' => .ok (add la ra)
  | '-' => .ok (sub la ra)
  | '*' => .ok (mul la ra)
  | '/' => if ra.isZero then .error "division by zero" else .ok (div la ra)
  | op => .error (unknownOperator op)

/-- The `switch` over the operator on two IMAGINARY. -/
def imaginaryImaginary (op : Char) (la ra : Binary64) : Except String ArkshValue :=
  match op with
  | '+' => .ok (arkshValueSetImaginary (add la ra))
  | '-' => .ok (arkshValueSetImaginary (sub la ra))
  | '*' => .ok (arkshValueSetDouble (neg (mul la ra)))
  | '/' =>
    if ra.isZero then .error "division by zero" else .ok (arkshValueSetDouble (div la ra))
  | op => .error (unknownOperator op)

/-- The buffer of 128 bytes for a text `a+bi`. -/
def setComplexText (text : Text) : ArkshValue := arkshValueSetString (copyString 128 text)

def imaginaryReal (op : Char) (la ra : Binary64) : Except String ArkshValue :=
  match op with
  | '+' => .ok (setComplexText (formatG 15 ra ++ '+' :: (formatG 15 la ++ ['i'])))
  | '-' => .ok (setComplexText (formatG 15 (sub la ra) ++ (formatG 15 (zero false) ++ ['i'])))
  | '*' => .ok (arkshValueSetImaginary (mul la ra))
  | '/' =>
    if ra.isZero then .error "division by zero" else .ok (arkshValueSetImaginary (div la ra))
  | op => .error (unknownOperator op)

def realImaginary (op : Char) (la ra : Binary64) : Except String ArkshValue :=
  match op with
  | '+' => .ok (setComplexText (formatG 15 la ++ '+' :: (formatG 15 ra ++ ['i'])))
  | '-' => .ok (setComplexText (formatG 15 la ++ '-' :: (formatG 15 ra ++ ['i'])))
  | '*' => .ok (arkshValueSetImaginary (mul la ra))
  | '/' =>
    if ra.isZero then .error "division by zero"
    else .ok (arkshValueSetImaginary (neg (div la ra)))
  | op => .error (unknownOperator op)

/-- The setter that the kind of the result asks for. -/
def setPromoted (kind : ArkshValueKind) (number : Binary64) : ArkshValue :=
  match kind with
  | .integer => arkshValueSetInteger number
  | .float => arkshValueSetFloat number
  | .imaginary => arkshValueSetImaginary number
  | _ => arkshValueSetDouble number

def operatorMethod (op : Char) : Option Text :=
  match op with
  | '+' => some "__add__".toList
  | '-' => some "__sub__".toList
  | '*' => some "__mul__".toList
  | '/' => some "__div__".toList
  | _ => none

def applyBinaryOp
    (invokeExtension : ArkshValue → Text → ArkshValue → Except String ArkshValue) (op : Char)
    (lv rv : ArkshValue) : Except String ArkshValue :=
  let la := lv.number
  let ra := rv.number
  if lv.kind = .number ∧ rv.kind = .number then
    (realOperator op la ra).map arkshValueSetNumber
  else if isNumericKind lv.kind ∧ isNumericKind rv.kind then
    if lv.kind = .imaginary ∧ rv.kind = .imaginary then imaginaryImaginary op la ra
    else if lv.kind = .imaginary then imaginaryReal op la ra
    else if rv.kind = .imaginary then realImaginary op la ra
    else (realOperator op la ra).map (setPromoted (promoteKinds lv.kind rv.kind))
  else
    match operatorMethod op with
    | none => .error (unknownOperator op)
    | some name => invokeExtension lv name rv

/-! ## 2. What a value stands for -/

def StandsFor (v : ArkshValue) (z : Zsqrtd (-1)) : Prop :=
  match v.kind with
  | .number | .integer | .float | .double => IsWhole v.number z.re ∧ z.im = 0
  | .imaginary => z.re = 0 ∧ IsWhole v.number z.im
  | .string => ReadsComplex v.text z
  | _ => False

/-- Two numbers, an IMAGINARY among them. -/
def HasImaginary (lv rv : ArkshValue) : Prop :=
  isNumericKind lv.kind = true ∧ isNumericKind rv.kind = true ∧
    (lv.kind = .imaginary ∨ rv.kind = .imaginary)

def ExactResult (op : Char) (l r z : Zsqrtd (-1)) : Prop :=
  match op with
  | '+' => z = l + r
  | '-' => z = l - r
  | '*' => z = l * r
  | '/' => r ≠ 0 ∧ l = z * r
  | _ => False

def Exact (result : Except String ArkshValue) (op : Char) (l r : Zsqrtd (-1)) : Prop :=
  ∀ z v, ExactResult op l r z → result = .ok v → StandsFor v z

def ComplexLaw (invokeExtension : ArkshValue → Text → ArkshValue → Except String ArkshValue)
    (op : Char) (lv rv : ArkshValue) : Prop :=
  ∀ l r, StandsFor lv l → StandsFor rv r →
    Exact (applyBinaryOp invokeExtension op lv rv) op l r

def PrintsBoth (a b : Int) : Prop := HasDigits 15 a.natAbs ∧ HasDigits 15 b.natAbs

/-- When the result of an operation on the coefficients `a` and `b` is the exact one. -/
def ResultFits (op : Char) (lk rk : ArkshValueKind) (a b : Int) : Prop :=
  match op with
  | '+' => if lk = .imaginary ∧ rk = .imaginary then IsDouble (a + b) else PrintsBoth a b
  | '-' =>
    if lk = .imaginary ∧ rk = .imaginary then IsDouble (a - b)
    else lk ≠ .imaginary ∧ PrintsBoth a b
  | '*' => IsDouble (a * b)
  | _ => True

def coefficient (k : ArkshValueKind) (a : Int) : Zsqrtd (-1) :=
  if k = .imaginary then ⟨0, a⟩ else ⟨a, 0⟩

theorem standsFor_iff {v : ArkshValue} {a : Int} (hk : isNumericKind v.kind = true)
    (ha : IsWhole v.number a) (z : Zsqrtd (-1)) : StandsFor v z ↔ z = coefficient v.kind a := by
  obtain ⟨re, im⟩ := z
  have hunique : ∀ b, IsWhole v.number b ↔ b = a :=
    fun b => ⟨fun hb => isWhole_unique hb ha, fun hb => hb ▸ ha⟩
  unfold StandsFor coefficient
  cases hkind : v.kind <;> rw [hkind] at hk <;> cases hk
  all_goals simp only [hunique, reduceCtorEq, if_true, if_false, Zsqrtd.mk.injEq]

/-! ## 3. Texts -/

theorem standsFor_setComplexText {text : Text} (h : text.length < 128) (z : Zsqrtd (-1)) :
    StandsFor (setComplexText text) z ↔ ReadsComplex text z := by
  rw [setComplexText, copyString_of_lt h]
  exact Iff.rfl

theorem standsFor_sum {x y : Binary64} {a b : Int} (hx : IsWhole x a) (hy : IsWhole y b)
    (minus : Bool) :
    StandsFor (setComplexText (formatG 15 x ++ signChar minus :: (formatG 15 y ++ ['i'])))
        ⟨a, if minus then -b else b⟩ ↔ PrintsBoth a b := by
  have hlen : (formatG 15 x ++ signChar minus :: (formatG 15 y ++ ['i'])).length < 128 := by
    have h1 := length_formatG (P := 15) (by decide) x
    have h2 := length_formatG (P := 15) (by decide) y
    simp only [length_append, length_cons, length_nil]
    omega
  obtain ⟨n, hn, hint⟩ := isInt_formatG (P := 15) (by decide) hx
  obtain ⟨m, hm, hint'⟩ := isInt_formatG (P := 15) (by decide) hy
  have hcoefficient : (if minus then -(if minus then -b else b) else if minus then -b else b) = b := by
    cases minus <;> simp
  rw [standsFor_setComplexText hlen, ← hn, ← hm, readsComplex_iff]
  rw [hcoefficient, hint, hint']
  exact Iff.rfl

theorem not_standsFor_difference (x : Binary64) (z : Zsqrtd (-1)) :
    ¬ StandsFor (setComplexText (formatG 15 x ++ (formatG 15 (zero false) ++ ['i']))) z := by
  have hzero : formatG 15 (zero false) = ['0'] := by
    have h := formatG_whole (P := 15) (n := 0) false (by decide) (by decide)
    rw [whole, wholeUnits_zero] at h
    exact h
  have hlen := length_formatG (P := 15) (by decide) x
  rw [hzero, standsFor_setComplexText (by simp; omega)]
  have hletters : ∀ c ∈ ['0'] ++ ['i'], isSign c = false := by
    intro c hc
    simp only [singleton_append, mem_cons, not_mem_nil, or_false] at hc
    rcases hc with rfl | rfl <;> rfl
  exact not_readsComplex (signsInPlace_concat (signsInPlace_formatG 15 x) hletters) z

/-! ## 4. The operators on coefficients -/

variable {op : Char}

theorem exact_ok {l r z : Zsqrtd (-1)} {v : ArkshValue} (h : ∀ w, ExactResult op l r w ↔ w = z) :
    Exact (.ok v) op l r ↔ StandsFor v z := by
  constructor
  · exact fun hexact => hexact z v ((h z).mpr rfl) rfl
  · intro hv w u hw hu
    rw [(h w).mp hw, ← Except.ok.inj hu]
    exact hv

theorem complex_mul (a b c d : Int) :
    (⟨a, b⟩ * ⟨c, d⟩ : Zsqrtd (-1)) = ⟨a * c - b * d, a * d + b * c⟩ := by
  ext
  · rw [Zsqrtd.re_mul]; ring
  · exact Zsqrtd.im_mul _ _

section Coefficients

variable {la ra : Binary64} {a b : Int} (hla : IsWhole la a) (hra : IsWhole ra b)
include hla hra

theorem exact_imaginaryImaginary (hop : op ∈ ['+', '-', '*', '/']) :
    Exact (imaginaryImaginary op la ra) op ⟨0, a⟩ ⟨0, b⟩ ↔
      ResultFits op .imaginary .imaginary a b := by
  simp only [mem_cons, not_mem_nil, or_false] at hop
  rcases hop with rfl | rfl | rfl | rfl
  · refine (exact_ok (z := ⟨0, a + b⟩) fun w => Iff.rfl).trans ?_
    exact (and_iff_right rfl).trans (isWhole_add hla hra)
  · refine (exact_ok (z := ⟨0, a - b⟩) fun w => Iff.rfl).trans ?_
    exact (and_iff_right rfl).trans (isWhole_sub hla hra)
  · have hz : ∀ w, ExactResult '*' ⟨0, a⟩ ⟨0, b⟩ w ↔ w = ⟨-(a * b), 0⟩ := by
      intro w
      show w = _ ↔ _
      rw [complex_mul]
      simp
    refine (exact_ok hz).trans ((and_iff_left rfl).trans ?_)
    exact isWhole_neg.trans (isWhole_mul hla hra)
  · refine iff_of_true ?_ trivial
    rintro ⟨re, im⟩ v ⟨hne, heq⟩ hv
    rw [complex_mul, Zsqrtd.mk.injEq] at heq
    have hb : b ≠ 0 := by rintro rfl; exact hne rfl
    have him : im = 0 := by
      have hzero : im * b = 0 := by linarith [heq.1]
      exact (Int.mul_eq_zero.mp hzero).resolve_right hb
    rw [imaginaryImaginary] at hv
    split at hv
    · cases hv
    · obtain rfl := Except.ok.inj hv; exact ⟨isWhole_div hla hra hb (by linarith [heq.2]), him⟩

theorem exact_imaginaryReal {rk : ArkshValueKind} (hrk : rk ≠ .imaginary)
    (hop : op ∈ ['+', '-', '*', '/']) :
    Exact (imaginaryReal op la ra) op ⟨0, a⟩ ⟨b, 0⟩ ↔ ResultFits op .imaginary rk a b := by
  simp only [mem_cons, not_mem_nil, or_false] at hop
  have hfits : ∀ p : Prop, (if ArkshValueKind.imaginary = .imaginary ∧ rk = .imaginary
      then IsDouble (a + b) else p) = p := fun p => if_neg fun h => hrk h.2
  have hfits' : ∀ p : Prop, (if ArkshValueKind.imaginary = .imaginary ∧ rk = .imaginary
      then IsDouble (a - b) else p) = p := fun p => if_neg fun h => hrk h.2
  rcases hop with rfl | rfl | rfl | rfl
  · have hz : ∀ w, ExactResult '+' ⟨0, a⟩ ⟨b, 0⟩ w ↔ w = ⟨b, a⟩ := by
      intro w
      show w = _ ↔ _
      simp
    refine (exact_ok hz).trans ((standsFor_sum hra hla false).trans ?_)
    rw [ResultFits, hfits]
    exact and_comm
  · refine (exact_ok (z := ⟨0, a⟩ - ⟨b, 0⟩) fun w => Iff.rfl).trans ?_
    rw [ResultFits, hfits']
    exact iff_of_false (not_standsFor_difference _ _) fun h => h.1 rfl
  · have hz : ∀ w, ExactResult '*' ⟨0, a⟩ ⟨b, 0⟩ w ↔ w = ⟨0, a * b⟩ := by
      intro w
      show w = _ ↔ _
      rw [complex_mul]
      simp
    exact (exact_ok hz).trans ((and_iff_right rfl).trans (isWhole_mul hla hra))
  · refine iff_of_true ?_ trivial
    rintro ⟨re, im⟩ v ⟨hne, heq⟩ hv
    rw [complex_mul, Zsqrtd.mk.injEq] at heq
    have hb : b ≠ 0 := by rintro rfl; exact hne rfl
    have hre : re = 0 := by
      have hzero : re * b = 0 := by linarith [heq.1]
      exact (Int.mul_eq_zero.mp hzero).resolve_right hb
    rw [imaginaryReal] at hv
    split at hv
    · cases hv
    · obtain rfl := Except.ok.inj hv; exact ⟨hre, isWhole_div hla hra hb (by linarith [heq.2])⟩

theorem exact_realImaginary {lk : ArkshValueKind} (hlk : lk ≠ .imaginary)
    (hop : op ∈ ['+', '-', '*', '/']) :
    Exact (realImaginary op la ra) op ⟨a, 0⟩ ⟨0, b⟩ ↔ ResultFits op lk .imaginary a b := by
  simp only [mem_cons, not_mem_nil, or_false] at hop
  rcases hop with rfl | rfl | rfl | rfl
  · have hz : ∀ w, ExactResult '+' ⟨a, 0⟩ ⟨0, b⟩ w ↔ w = ⟨a, b⟩ := by
      intro w
      show w = _ ↔ _
      simp
    refine (exact_ok hz).trans ((standsFor_sum hla hra false).trans ?_)
    rw [ResultFits, if_neg fun h => hlk h.1]
  · have hz : ∀ w, ExactResult '-' ⟨a, 0⟩ ⟨0, b⟩ w ↔ w = ⟨a, -b⟩ := by
      intro w
      show w = _ ↔ _
      rw [Zsqrtd.ext_iff, Zsqrtd.ext_iff]
      simp
    refine (exact_ok hz).trans ((standsFor_sum hla hra true).trans ?_)
    rw [ResultFits, if_neg fun h => hlk h.1]
    exact (and_iff_right hlk).symm
  · have hz : ∀ w, ExactResult '*' ⟨a, 0⟩ ⟨0, b⟩ w ↔ w = ⟨0, a * b⟩ := by
      intro w
      show w = _ ↔ _
      rw [complex_mul]
      simp
    exact (exact_ok hz).trans ((and_iff_right rfl).trans (isWhole_mul hla hra))
  · refine iff_of_true ?_ trivial
    rintro ⟨re, im⟩ v ⟨hne, heq⟩ hv
    rw [complex_mul, Zsqrtd.mk.injEq] at heq
    have hb : b ≠ 0 := by rintro rfl; exact hne rfl
    have hre : re = 0 := by
      have hzero : re * b = 0 := by linarith [heq.2]
      exact (Int.mul_eq_zero.mp hzero).resolve_right hb
    rw [realImaginary] at hv
    split at hv
    · cases hv
    · obtain rfl := Except.ok.inj hv
      have hquot : a = -im * b := by linarith [heq.1]
      have h := isWhole_neg.mpr (isWhole_div hla hra hb hquot)
      rw [Int.neg_neg] at h
      exact ⟨hre, h⟩

end Coefficients

/-! ## 5. Complex numbers -/

variable (invokeExtension : ArkshValue → Text → ArkshValue → Except String ArkshValue)

theorem divisionByZero {lv rv : ArkshValue} (h : HasImaginary lv rv)
    (hzero : rv.number.isZero = true) :
    applyBinaryOp invokeExtension '/' lv rv = .error "division by zero" := by
  obtain ⟨hl, hr, himaginary⟩ := h
  have hnumber : ¬ (lv.kind = .number ∧ rv.kind = .number) := by
    rintro ⟨h1, h2⟩
    rw [h1, h2] at himaginary
    rcases himaginary with h | h <;> cases h
  unfold applyBinaryOp
  rw [if_neg hnumber, if_pos ⟨hl, hr⟩]
  split
  · rw [imaginaryImaginary, if_pos hzero]
  split
  · rw [imaginaryReal, if_pos hzero]
  split
  · rw [realImaginary, if_pos hzero]
  · rename_i h1 h2; exact absurd himaginary (not_or.mpr ⟨h1, h2⟩)

/-- **On whole coefficients an operation with an IMAGINARY is that of the complex numbers iff its
    result fits, and dividing by a zero fails.** -/
theorem complexArithmetic {lv rv : ArkshValue} {op : Char} (h : HasImaginary lv rv)
    (hop : op ∈ ['+', '-', '*', '/']) : (op = '/' → rv.number.isZero = true →
        ∃ e, applyBinaryOp invokeExtension op lv rv = .error e) ∧
      ∀ a b, IsWhole lv.number a → IsWhole rv.number b →
        (ComplexLaw invokeExtension op lv rv ↔ ResultFits op lv.kind rv.kind a b) := by
  constructor
  · rintro rfl hzero; exact ⟨_, divisionByZero invokeExtension h hzero⟩
  · intro a b ha hb
    obtain ⟨hl, hr, himaginary⟩ := h
    have hlaw : ComplexLaw invokeExtension op lv rv ↔
        Exact (applyBinaryOp invokeExtension op lv rv) op (coefficient lv.kind a)
          (coefficient rv.kind b) := by
      unfold ComplexLaw
      simp only [standsFor_iff hl ha, standsFor_iff hr hb]
      exact ⟨fun h => h _ _ rfl rfl, fun h l r hl hr => hl ▸ hr ▸ h⟩
    have hnumber : ¬ (lv.kind = .number ∧ rv.kind = .number) := by
      rintro ⟨h1, h2⟩
      rw [h1, h2] at himaginary
      rcases himaginary with h | h <;> cases h
    rw [hlaw]
    unfold applyBinaryOp coefficient
    rw [if_neg hnumber, if_pos ⟨hl, hr⟩]
    by_cases hlk : lv.kind = .imaginary
    · rw [if_pos hlk]
      by_cases hrk : rv.kind = .imaginary
      · rw [if_pos ⟨hlk, hrk⟩, if_pos hrk, hlk, hrk]; exact exact_imaginaryImaginary ha hb hop
      · rw [if_neg fun h => hrk h.2, if_pos hlk, if_neg hrk, hlk]
        exact exact_imaginaryReal ha hb hrk hop
    · have hrk := himaginary.resolve_left hlk
      rw [if_neg fun h => hlk h.1, if_neg hlk, if_neg hlk, if_pos hrk, if_pos hrk, hrk]
      exact exact_realImaginary ha hb hlk hop

theorem isWhole_whole {n : Nat} (h : n < 2 ^ 53) : IsWhole (whole false n) n :=
  (isWhole_ofRatio (a := (n : Int)) rfl).mpr (representable_whole h)

/-- `2 + 3i` -/
theorem complexArithmetic_sum :
    ComplexLaw (fun _ _ _ => .error "no such method") '+' (arkshValueSetDouble (whole false 2))
      (arkshValueSetImaginary (whole false 3)) :=
  ((complexArithmetic _ ⟨rfl, rfl, .inr rfl⟩ (by decide)).2 2 3 (isWhole_whole (by decide))
    (isWhole_whole (by decide))).mpr ⟨⟨2, 0, by decide, rfl⟩, ⟨3, 0, by decide, rfl⟩⟩

/-- `3i - 2` is `10i`. -/
theorem not_complexLaw_difference :
    ¬ ∀ invokeExtension op lv rv, HasImaginary lv rv → op ∈ ['+', '-', '*', '/'] →
      ComplexLaw invokeExtension op lv rv := by
  intro h
  have hlaw := h (fun _ _ _ => .error "no such method") '-'
    (arkshValueSetImaginary (whole false 3)) (arkshValueSetDouble (whole false 2))
    ⟨rfl, rfl, .inl rfl⟩ (by decide)
  exact not_standsFor_difference _ _ (hlaw ⟨0, 3⟩ ⟨2, 0⟩
    ⟨rfl, isWhole_whole (by decide)⟩ ⟨isWhole_whole (by decide), rfl⟩ _ _ rfl rfl)

end Arksh
