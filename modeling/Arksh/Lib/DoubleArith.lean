/-
  Subject: `+`, `-`, `*` and `/` on doubles, and when they are exact on whole numbers.

  Every operation is the exact one, rounded once: a sum of units is a number of units, a product
  and a quotient are ratios of them. `IsWhole x a` says that a double is the integer `a`, and
  `IsDouble a` that `a` is one of the doubles.

  The sign of a NaN is the one that x86 gives: that of the operand, else `-`.
-/
import Arksh.Lib.Binary64
import Mathlib.Data.Nat.Factorization.Basic

namespace Binary64

open Nat

/-! ## 1. Operations -/

def signed (neg : Bool) (n : Nat) : Int := if neg then -(n : Int) else n

/-- `x == 0.0` -/
def isZero : Binary64 → Bool
  | .finite _ u => u.1 = 0
  | _ => false

def zero (neg : Bool) : Binary64 := ofRatio neg 0 1

/-- The double nearest to `s` units; a zero has the sign that is given. -/
def ofUnits (zeroNeg : Bool) (s : Int) : Binary64 :=
  ofRatio (if s = 0 then zeroNeg else decide (s < 0)) s.natAbs 1

def neg : Binary64 → Binary64
  | .nan n => .nan !n
  | .inf n => .inf !n
  | .finite n u => .finite (!n) u

def add : Binary64 → Binary64 → Binary64
  | .nan m, _ => .nan m
  | _, .nan n => .nan n
  | .inf m, .inf n => if m = n then .inf m else .nan true
  | .inf m, .finite _ _ => .inf m
  | .finite _ _, .inf n => .inf n
  | .finite m u, .finite n v => ofUnits (m && n) (signed m u.1 + signed n v.1)

def sub : Binary64 → Binary64 → Binary64
  | .nan m, _ => .nan m
  | _, .nan n => .nan n
  | x, y => add x (neg y)

def mul : Binary64 → Binary64 → Binary64
  | .nan m, _ => .nan m
  | _, .nan n => .nan n
  | .inf m, .inf n => .inf (m ^^ n)
  | .inf m, .finite n v => if v.1 = 0 then .nan true else .inf (m ^^ n)
  | .finite m u, .inf n => if u.1 = 0 then .nan true else .inf (m ^^ n)
  | .finite m u, .finite n v => ofRatio (m ^^ n) (u.1 * v.1) unitsPerOne

def div : Binary64 → Binary64 → Binary64
  | .nan m, _ => .nan m
  | _, .nan n => .nan n
  | .inf _, .inf _ => .nan true
  | .inf m, .finite n _ => .inf (m ^^ n)
  | .finite m _, .inf n => zero (m ^^ n)
  | .finite m u, .finite n v =>
    if v.1 = 0 then if u.1 = 0 then .nan true else .inf (m ^^ n)
    else ofRatio (m ^^ n) (u.1 * unitsPerOne) v.1

/-! ## 2. Whole numbers -/

/-- A double is the integer `a`. -/
def IsWhole : Binary64 → Int → Prop
  | .finite n u, a => signed n u.1 = a * unitsPerOne
  | _, _ => False

def IsDouble (a : Int) : Prop := Representable (wholeUnits a.natAbs)

instance (a : Int) : Decidable (IsDouble a) := by
  unfold IsDouble
  infer_instance

theorem natAbs_signed (n : Bool) (k : Nat) : (signed n k).natAbs = k := by
  cases n <;> simp [signed]

theorem signed_mul (m n : Bool) (j k : Nat) :
    signed m j * signed n k = signed (m ^^ n) (j * k) := by
  cases m <;> cases n <;> simp [signed]

theorem signed_not (n : Bool) (k : Nat) : signed (!n) k = -signed n k := by
  cases n <;> simp [signed]

theorem natAbs_mul_units (a : Int) : (a * unitsPerOne).natAbs = wholeUnits a.natAbs := by
  rw [Int.natAbs_mul, Int.natAbs_natCast, wholeUnits]

variable {a b : Int}

theorem isWhole_iff {n : Bool} {u : { u : Nat // Representable u }} :
    IsWhole (.finite n u) a ↔ u.1 = wholeUnits a.natAbs ∧ a = signed n a.natAbs := by
  have hpos := unitsPerOne_pos
  rw [IsWhole]
  constructor
  · intro h
    have hunits := congrArg Int.natAbs h
    rw [natAbs_signed, natAbs_mul_units] at hunits
    refine ⟨hunits, ?_⟩
    rw [hunits, wholeUnits] at h
    have hscaled : signed n a.natAbs * unitsPerOne = a * unitsPerOne := by
      rw [← h]
      cases n <;> simp [signed]
    have hne : (unitsPerOne : Int) ≠ 0 := by omega
    exact (Int.eq_of_mul_eq_mul_right hne hscaled).symm
  · rintro ⟨hu, ha⟩
    rw [hu, wholeUnits, ha, natAbs_signed]
    cases n <;> simp [signed]

variable {x y : Binary64}

theorem isDouble_of_isWhole (h : IsWhole x a) : IsDouble a := by
  cases x with
  | nan n | inf n => exact h.elim
  | finite n u =>
    have hunits := (isWhole_iff.mp h).1
    unfold IsDouble
    rw [← hunits]
    exact u.2

theorem isWhole_unique (ha : IsWhole x a) (hb : IsWhole x b) : a = b := by
  cases x with
  | nan n | inf n => exact ha.elim
  | finite n u =>
    have hne : (unitsPerOne : Int) ≠ 0 := by have := unitsPerOne_pos; omega
    exact Int.eq_of_mul_eq_mul_right hne (ha.symm.trans hb)

theorem isWhole_ofRatio {n : Bool} (ha : a = signed n a.natAbs) :
    IsWhole (ofRatio n (wholeUnits a.natAbs) 1) a ↔ IsDouble a := by
  constructor
  · exact isDouble_of_isWhole
  · intro h
    rw [ofRatio_of_representable n h]
    exact isWhole_iff.mpr ⟨rfl, ha⟩

theorem isWhole_ofUnits (zeroNeg : Bool) (a : Int) :
    IsWhole (ofUnits zeroNeg (a * unitsPerOne)) a ↔ IsDouble a := by
  have hpos : (0 : Int) < unitsPerOne := by have := unitsPerOne_pos; omega
  unfold ofUnits
  rw [natAbs_mul_units]
  refine isWhole_ofRatio ?_
  split
  · rename_i hzero
    rcases Int.mul_eq_zero.mp hzero with rfl | hunits
    · cases zeroNeg <;> rfl
    · omega
  · have hsign : a * unitsPerOne < 0 ↔ a < 0 := by
      constructor
      · intro h
        by_contra hle
        have := Int.mul_nonneg (Int.not_lt.mp hle) (Int.le_of_lt hpos)
        omega
      · exact fun h => Int.mul_neg_of_neg_of_pos h hpos
    simp only [hsign, signed, decide_eq_true_eq]
    omega

/-! ## 3. Sums -/

theorem isWhole_neg : IsWhole (neg x) (-a) ↔ IsWhole x a := by
  cases x with
  | nan n | inf n => exact Iff.rfl
  | finite n u =>
    show signed (!n) u.1 = -a * unitsPerOne ↔ signed n u.1 = a * unitsPerOne
    rw [signed_not, Int.neg_mul, Int.neg_inj]

theorem isWhole_add (hx : IsWhole x a) (hy : IsWhole y b) :
    IsWhole (add x y) (a + b) ↔ IsDouble (a + b) := by
  cases x with
  | nan m | inf m => exact hx.elim
  | finite m u =>
    cases y with
    | nan n | inf n => exact hy.elim
    | finite n v =>
      have hsum : signed m u.1 + signed n v.1 = (a + b) * unitsPerOne := by
        rw [Int.add_mul, show signed m u.1 = a * unitsPerOne from hx,
          show signed n v.1 = b * unitsPerOne from hy]
      rw [add, hsum]
      exact isWhole_ofUnits _ _

theorem isWhole_sub (hx : IsWhole x a) (hy : IsWhole y b) :
    IsWhole (sub x y) (a - b) ↔ IsDouble (a - b) := by
  cases x with
  | nan m | inf m => exact hx.elim
  | finite m u =>
    cases y with
    | nan n | inf n => exact hy.elim
    | finite n v =>
      exact isWhole_add hx (isWhole_neg.mpr hy)

/-! ## 4. Products -/

variable {c u : Nat}

theorem roundHalfEven_mul_mul (n d : Nat) (hc : 0 < c) :
    roundHalfEven (n * c) (d * c) = roundHalfEven n d := by
  have hmod : 2 * (n * c % (d * c)) = 2 * (n % d) * c := by
    rw [mul_mod_mul_right, mul_assoc]
  unfold roundHalfEven
  rw [hmod, Nat.mul_div_mul_right _ _ hc]
  simp only [Nat.mul_lt_mul_right hc]

theorem roundUnits_mul_mul (n d : Nat) (hc : 0 < c) :
    roundUnits (n * c) (d * c) = roundUnits n d := by
  unfold roundUnits
  rw [Nat.mul_div_mul_right _ _ hc]
  dsimp only
  rw [mul_right_comm, roundHalfEven_mul_mul _ _ hc]

theorem ofRatio_mul_mul (s : Bool) (n d : Nat) (hc : 0 < c) :
    ofRatio s (n * c) (d * c) = ofRatio s n d := by
  unfold ofRatio
  simp only [roundUnits_mul_mul n d hc]

theorem isWhole_mul (hx : IsWhole x a) (hy : IsWhole y b) :
    IsWhole (mul x y) (a * b) ↔ IsDouble (a * b) := by
  cases x with
  | nan m | inf m => exact hx.elim
  | finite m u =>
    cases y with
    | nan n | inf n => exact hy.elim
    | finite n v =>
      obtain ⟨hu, ha⟩ := isWhole_iff.mp hx
      obtain ⟨hv, hb⟩ := isWhole_iff.mp hy
      have hab : a * b = signed (m ^^ n) (a * b).natAbs := by
        rw [Int.natAbs_mul, ← signed_mul, ← ha, ← hb]
      have hunits : u.1 * v.1 = wholeUnits (a * b).natAbs * unitsPerOne := by
        rw [hu, hv, wholeUnits, wholeUnits, wholeUnits, Int.natAbs_mul]
        ring
      have hone : ofRatio (m ^^ n) (u.1 * v.1) unitsPerOne =
          ofRatio (m ^^ n) (wholeUnits (a * b).natAbs) 1 := by
        rw [hunits, ← ofRatio_mul_mul _ _ 1 unitsPerOne_pos, one_mul]
      rw [mul, hone]
      exact isWhole_ofRatio hab

/-! ## 5. Quotients -/

/-- Numbers of at most 53 significant bits. -/
theorem representable_iff :
    Representable u ↔ (∃ m k, m < 2 ^ 53 ∧ u = m * 2 ^ k) ∧ u < overflowUnits := by
  constructor
  · rintro ⟨⟨m, hm⟩, hlt⟩
    refine ⟨⟨m, u.log2 - 52, ?_, by rw [mul_comm]; exact hm⟩, hlt⟩
    by_contra hge
    have hu : u < 2 ^ (u.log2 + 1) := lt_log2_self
    have hpow : 2 ^ (u.log2 + 1) ≤ 2 ^ (u.log2 - 52) * 2 ^ 53 := by
      rw [← pow_add]
      exact Nat.pow_le_pow_right (by decide) (by omega)
    have hmul : 2 ^ (u.log2 - 52) * 2 ^ 53 ≤ 2 ^ (u.log2 - 52) * m :=
      mul_le_mul_left _ (not_lt.mp hge)
    omega
  · rintro ⟨⟨m, k, hm, rfl⟩, hlt⟩
    refine ⟨?_, hlt⟩
    rcases Nat.eq_zero_or_pos m with rfl | hpos
    · rw [Nat.zero_mul]; exact dvd_zero _
    have hlog : (m * 2 ^ k).log2 < 53 + k := by
      rw [log2_lt (by positivity), pow_add]
      exact mul_lt_mul_of_pos_right hm (by positivity)
    exact (pow_dvd_pow 2 (by omega)).trans (dvd_mul_left _ m)

/-- **A divisor of a double is a double.** -/
theorem representable_of_dvd {v : Nat} (hu : Representable u) (hpos : 0 < u) (h : v ∣ u) :
    Representable v := by
  obtain ⟨⟨m, k, hm, rfl⟩, hlt⟩ := representable_iff.mp hu
  have hmpos : 0 < m := Nat.pos_of_mul_pos_right hpos
  have hvpos : v ≠ 0 := by rintro rfl; omega
  obtain ⟨j, w, hodd, rfl⟩ := exists_eq_two_pow_mul_odd hvpos
  refine representable_iff.mpr ⟨⟨w, j, ?_, mul_comm _ _⟩,
    (le_of_dvd hpos h).trans_lt hlt⟩
  -- the odd part of the divisor divides the significand
  have hcoprime : Nat.Coprime w (2 ^ k) := Nat.Coprime.pow_right k hodd.coprime_two_right
  have hdvd : w ∣ m := hcoprime.dvd_of_dvd_mul_right ((dvd_mul_left w _).trans h)
  exact (le_of_dvd hmpos hdvd).trans_lt hm

/-- **A quotient that is an integer is exact.** -/
theorem isWhole_div {q : Int} (hx : IsWhole x a) (hy : IsWhole y b) (hb : b ≠ 0) (hq : a = q * b) :
    IsWhole (div x y) q := by
  have hdouble := isDouble_of_isWhole hx
  cases x with
  | nan m | inf m => exact hx.elim
  | finite m u =>
    cases y with
    | nan n | inf n => exact hy.elim
    | finite n v =>
      obtain ⟨hu, ha⟩ := isWhole_iff.mp hx
      obtain ⟨hv, hb'⟩ := isWhole_iff.mp hy
      have hvpos : 0 < v.1 := by rw [hv]; exact wholeUnits_pos (Int.natAbs_pos.mpr hb)
      have hunits : u.1 * unitsPerOne = wholeUnits q.natAbs * v.1 := by
        rw [hu, hv, hq, Int.natAbs_mul]
        unfold wholeUnits
        ring
      have hone : ofRatio (m ^^ n) (u.1 * unitsPerOne) v.1 =
          ofRatio (m ^^ n) (wholeUnits q.natAbs) 1 := by
        rw [hunits, ← ofRatio_mul_mul _ _ 1 hvpos, one_mul]
      rw [div, if_neg hvpos.ne', hone]
      rcases eq_or_ne q 0 with rfl | hqne
      · have hzero : Representable (wholeUnits (Int.natAbs 0)) := representable_whole (by decide)
        rw [ofRatio_of_representable _ hzero]
        exact isWhole_iff.mpr ⟨rfl, by cases m <;> cases n <;> rfl⟩
      · have hqsign : q = signed (m ^^ n) q.natAbs := by
          have hmul : q * b = signed (m ^^ n) q.natAbs * b := by
            calc q * b = signed m a.natAbs := by rw [← hq]; exact ha
              _ = signed (m ^^ n) q.natAbs * signed n b.natAbs := by
                rw [signed_mul, hq, Int.natAbs_mul]
                cases m <;> cases n <;> rfl
              _ = signed (m ^^ n) q.natAbs * b := by rw [← hb']
          exact Int.eq_of_mul_eq_mul_right hb hmul
        refine (isWhole_ofRatio hqsign).mpr ?_
        have hane : a ≠ 0 := by rw [hq]; exact Int.mul_ne_zero hqne hb
        refine representable_of_dvd hdouble (wholeUnits_pos (Int.natAbs_pos.mpr hane)) ?_
        rw [hq, Int.natAbs_mul, wholeUnits, wholeUnits, mul_right_comm]
        exact dvd_mul_right _ _

end Binary64
