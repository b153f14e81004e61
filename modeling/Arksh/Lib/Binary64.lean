/-
  Subject: The C `double` (IEEE 754 binary64): its values, rounding and `%.Pg`.

  Every finite double is a whole number of units 2^-1074 with at most 53 significant bits, so a
  finite value is its sign and its number of units (`Representable`). Rounding a rational to a
  double is rounding to that grid, ties to even (`roundUnits`); what rounds past the largest
  double is infinite (`ofRatio`).

  `formatG P` is `printf("%.Pg")`: `P` significant digits, the exponent style outside
  10^-4 .. 10^P, trailing zeros removed. Main result: `formatG_whole`, a whole number of at most
  `P` digits prints as its decimal digits.
-/
import Arksh.Lib.Text
import Mathlib.Tactic.Ring
import Mathlib.Tactic.NormNum
import Mathlib.Data.Nat.Log

open CText List Nat

/-- The smallest positive double is `2^-1074`. -/
def unitExponent : Nat := 1074

def unitsPerOne : Nat := 2 ^ unitExponent

/-- Units in `2^1024`, the first power of two past the largest double. -/
def overflowUnits : Nat := 2 ^ (1024 + unitExponent)

/-- Numbers of units a double can hold: at most 53 significant bits, below `2^1024`. -/
def Representable (u : Nat) : Prop := 2 ^ (u.log2 - 52) ∣ u ∧ u < overflowUnits

instance : DecidablePred Representable := fun u => by
  unfold Representable
  infer_instance

/-- A double. -/
inductive Binary64 where
  | nan (neg : Bool)
  | inf (neg : Bool)
  | finite (neg : Bool) (units : { u : Nat // Representable u })
  deriving DecidableEq

namespace Binary64

/-! ## 1. Rounding -/

/-- `n / d` rounded to a whole number, ties to even. -/
def roundHalfEven (n d : Nat) : Nat :=
  if 2 * (n % d) < d then n / d
  else if d < 2 * (n % d) then n / d + 1
  else if n / d % 2 = 0 then n / d
  else n / d + 1

def roundUnits (n d : Nat) : Nat :=
  let k := (n / d).log2 - 52
  roundHalfEven n (d * 2 ^ k) * 2 ^ k

theorem roundHalfEven_le (n d : Nat) : roundHalfEven n d ≤ n / d + 1 := by
  unfold roundHalfEven
  split_ifs <;> omega

theorem roundHalfEven_mul (m : Nat) {d : Nat} (hd : 0 < d) : roundHalfEven (m * d) d = m := by
  simp [roundHalfEven, hd]

theorem roundUnits_dvd (n d : Nat) : 2 ^ ((roundUnits n d).log2 - 52) ∣ roundUnits n d := by
  have hq : n / d < 2 ^ ((n / d).log2 + 1) := lt_log2_self
  generalize hk : (n / d).log2 - 52 = k
  have hq' : n / d < 2 ^ (53 + k) := lt_of_lt_of_le hq (Nat.pow_le_pow_right (by decide) (by omega))
  have hm : roundHalfEven n (d * 2 ^ k) ≤ 2 ^ 53 := by
    refine (roundHalfEven_le _ _).trans ?_
    have : n / (d * 2 ^ k) < 2 ^ 53 := by
      rw [← Nat.div_div_eq_div_mul, Nat.div_lt_iff_lt_mul (by positivity), ← pow_add]
      exact hq'
    omega
  have hu : roundUnits n d = roundHalfEven n (d * 2 ^ k) * 2 ^ k := by simp [roundUnits, hk]
  rw [hu]
  generalize roundHalfEven n (d * 2 ^ k) = m at hm ⊢
  rcases hm.lt_or_eq with hlt | rfl
  · -- 53 bits: the units end in `k` zero bits
    rcases Nat.eq_zero_or_pos m with rfl | hpos
    · simp
    have hlog : (m * 2 ^ k).log2 < 53 + k := by
      rw [log2_lt (by positivity), pow_add]
      exact Nat.mul_lt_mul_of_pos_right hlt (by positivity)
    exact (pow_dvd_pow 2 (by omega)).trans (Dvd.intro_left m rfl)
  · -- the carry into a 54th bit leaves a power of two
    have hlog : (2 ^ 53 * 2 ^ k : Nat).log2 = 53 + k := by rw [← pow_add, log2_two_pow]
    rw [hlog, ← pow_add]
    exact pow_dvd_pow 2 (by omega)

/-- The double nearest to `± n / d · 2^-1074`. -/
def ofRatio (neg : Bool) (n d : Nat) : Binary64 :=
  if h : roundUnits n d < overflowUnits then .finite neg ⟨roundUnits n d, roundUnits_dvd n d, h⟩
  else .inf neg

def wholeUnits (n : Nat) : Nat := n * unitsPerOne

variable {u n P : Nat}

theorem roundUnits_of_representable (h : Representable u) : roundUnits u 1 = u := by
  obtain ⟨m, hm⟩ := h.1
  have hk : roundUnits u 1 = roundHalfEven u (2 ^ (u.log2 - 52)) * 2 ^ (u.log2 - 52) := by
    simp [roundUnits]
  rw [hk]
  generalize u.log2 - 52 = k at hm
  rw [hm, mul_comm _ m, roundHalfEven_mul m (by positivity)]

theorem ofRatio_of_representable (neg : Bool) (h : Representable u) :
    ofRatio neg u 1 = .finite neg ⟨u, h⟩ := by
  simp [ofRatio, roundUnits_of_representable h, h.2]

theorem unitsPerOne_eq : unitsPerOne = 2 ^ unitExponent := rfl

theorem overflowUnits_eq : overflowUnits = 2 ^ (1024 + unitExponent) := rfl

-- only these two equations open the constants: their values are too long to compute with
attribute [irreducible] unitsPerOne overflowUnits

theorem unitsPerOne_pos : 0 < unitsPerOne := by
  rw [unitsPerOne_eq]
  exact Nat.two_pow_pos unitExponent

theorem representable_whole (h : n < 2 ^ 53) : Representable (wholeUnits n) := by
  unfold Representable wholeUnits
  rw [unitsPerOne_eq, overflowUnits_eq]
  generalize unitExponent = k
  rcases Nat.eq_zero_or_pos n with rfl | hpos
  · simp
  have hlt : n * 2 ^ k < 2 ^ (53 + k) := by
    rw [pow_add]
    exact Nat.mul_lt_mul_of_pos_right h (Nat.two_pow_pos k)
  have hlog : (n * 2 ^ k).log2 < 53 + k := (log2_lt (mul_pos hpos (Nat.two_pow_pos k)).ne').mpr hlt
  exact ⟨(pow_dvd_pow 2 (by omega)).trans (dvd_mul_left _ _),
    hlt.trans_le (Nat.pow_le_pow_right (by decide) (by omega))⟩

/-- The whole number `± n` as a double (`-0` is a double of its own). -/
def whole (neg : Bool) (n : Nat) : Binary64 := ofRatio neg (wholeUnits n) 1

theorem whole_eq (neg : Bool) (h : n < 2 ^ 53) :
    whole neg n = .finite neg ⟨wholeUnits n, representable_whole h⟩ :=
  ofRatio_of_representable neg (representable_whole h)

/-- `(double)(float) x`: rounded to 24 significant bits above 2^-149, infinite from 2^128 on. -/
def toSingle : Binary64 → Binary64
  | .finite neg u =>
    let step := 2 ^ max (unitExponent - 149) (u.1.log2 - 23)
    let n := roundHalfEven u.1 step * step
    if n < 2 ^ (128 + unitExponent) then ofRatio neg n 1 else .inf neg
  | x => x

/-- The conversion to a signed integer of `bits` bits; out of range gives the least one, as on
    x86. -/
def toInt (bits : Nat) : Binary64 → Int
  | .finite neg u =>
    let n : Int := u.1 / unitsPerOne
    let v := if neg then -n else n
    if -(2 ^ (bits - 1) : Int) ≤ v ∧ v < 2 ^ (bits - 1) then v else -(2 ^ (bits - 1) : Int)
  | _ => -(2 ^ (bits - 1) : Int)

/-! ## 2. `printf("%.Pg")` -/

def decimalExponent (u : Nat) : Int :=
  if unitsPerOne ≤ u then ((toDigits 10 (u / unitsPerOne)).length : Int) - 1
  else -((((List.range 330).find? fun j => decide (unitsPerOne ≤ u * 10 ^ j)).getD 0 : Nat) : Int)

/-- The first `P` significant digits of `u` units as a number, and the decimal exponent, after
    rounding. -/
def significantDigits (P u : Nat) : Nat × Int :=
  let X := decimalExponent u
  let shift : Int := (P : Int) - 1 - X
  let N := roundHalfEven (u * 10 ^ shift.toNat) (unitsPerOne * 10 ^ (-shift).toNat)
  if N = 10 ^ P then (10 ^ (P - 1), X + 1) else (N, X)

/-- Digits after the point, without trailing zeros, and the point itself only if some remain. -/
def fraction (ds : Text) : Text :=
  match (ds.reverse.dropWhile (· == '0')).reverse with
  | [] => []
  | ds => '.' :: ds

/-- The exponent of the `e` style: a sign and at least two digits. -/
def exponentText (X : Int) : Text :=
  let ds := toDigits 10 X.natAbs
  'e' :: (if X < 0 then '-' else '+') :: (if ds.length < 2 then '0' :: ds else ds)

/-- `%.Pg` of a positive number of units. -/
def formatUnits (P u : Nat) : Text :=
  if u = 0 then ['0']
  else
    let (N, X) := significantDigits P u
    let ds := toDigits 10 N
    if -4 ≤ X ∧ X < P then
      if 0 ≤ X then ds.take (X.toNat + 1) ++ fraction (ds.drop (X.toNat + 1))
      else '0' :: fraction (List.replicate ((-X).toNat - 1) '0' ++ ds)
    else ds.take 1 ++ fraction (ds.drop 1) ++ exponentText X

def signText (neg : Bool) : Text := if neg then ['-'] else []

/-- `printf("%.Pg", x)` -/
def formatG (P : Nat) : Binary64 → Text
  | .nan neg => signText neg ++ ['n', 'a', 'n']
  | .inf neg => signText neg ++ ['i', 'n', 'f']
  | .finite neg u => signText neg ++ formatUnits P u.1

/-! ### Whole numbers -/

theorem toDigits_mul_ten_pow (hn : 0 < n) (k : Nat) :
    toDigits 10 (n * 10 ^ k) = toDigits 10 n ++ List.replicate k '0' := by
  induction k with
  | zero => simp
  | succ k ih =>
    have hpos : 0 < n * 10 ^ k := by positivity
    have h := toDigits_append_toDigits (b := 10) (by decide) hpos (d := 0) (by decide)
    rw [pow_succ, ← mul_assoc, mul_comm, ← add_zero (10 * _), ← h, ih,
      Nat.toDigits_zero, append_assoc, replicate_succ']

theorem fraction_zeros (k : Nat) : fraction (List.replicate k '0') = [] := by
  unfold fraction
  rw [reverse_replicate]
  have h : (List.replicate k '0').dropWhile (· == '0') = [] := by
    induction k with
    | zero => rfl
    | succ k ih => simp [replicate_succ, ih]
  rw [h]
  rfl

theorem decimalExponent_whole (hn : 0 < n) :
    decimalExponent (wholeUnits n) = ((toDigits 10 n).length : Int) - 1 := by
  have h1 : unitsPerOne ≤ wholeUnits n := Nat.le_mul_of_pos_left _ hn
  have h2 : wholeUnits n / unitsPerOne = n := Nat.mul_div_cancel _ unitsPerOne_pos
  rw [decimalExponent, if_pos h1, h2]

theorem significantDigits_whole (hn : 0 < n) (h : n < 10 ^ P) :
    significantDigits P (wholeUnits n) =
      (n * 10 ^ (P - (toDigits 10 n).length), ((toDigits 10 n).length : Int) - 1) := by
  have hP : 0 < P := by
    rcases Nat.eq_zero_or_pos P with rfl | hP
    · simp at h; omega
    · exact hP
  have hlen : (toDigits 10 n).length ≤ P := (length_toDigits_le_iff (by decide) hP).mpr h
  have hpos : 0 < (toDigits 10 n).length := length_toDigits_pos
  have hltL : n < 10 ^ (toDigits 10 n).length :=
    (length_toDigits_le_iff (by decide) hpos).mp (le_refl _)
  unfold significantDigits
  rw [decimalExponent_whole hn]
  generalize (toDigits 10 n).length = L at hlen hpos hltL
  have hs : ((P : Int) - 1 - ((L : Int) - 1)).toNat = P - L := by omega
  have hs' : (-((P : Int) - 1 - ((L : Int) - 1))).toNat = 0 := by omega
  have hN : roundHalfEven (wholeUnits n * 10 ^ (P - L)) (unitsPerOne * 10 ^ 0) =
      n * 10 ^ (P - L) := by
    rw [wholeUnits, mul_right_comm, pow_zero, mul_one]
    exact roundHalfEven_mul _ unitsPerOne_pos
  have hne : n * 10 ^ (P - L) ≠ 10 ^ P := by
    have : n * 10 ^ (P - L) < 10 ^ L * 10 ^ (P - L) :=
      Nat.mul_lt_mul_of_pos_right hltL (by positivity)
    rw [← pow_add, Nat.add_sub_cancel' hlen] at this
    exact this.ne
  simp only [hs, hs', hN, if_neg hne]

theorem wholeUnits_pos (hn : 0 < n) : 0 < wholeUnits n := mul_pos hn unitsPerOne_pos

theorem wholeUnits_zero : wholeUnits 0 = 0 := zero_mul _

theorem formatUnits_whole (h : n < 10 ^ P) : formatUnits P (wholeUnits n) = toDigits 10 n := by
  unfold formatUnits
  rcases Nat.eq_zero_or_pos n with rfl | hn
  · rw [if_pos wholeUnits_zero, Nat.toDigits_zero]
  have hlen : (toDigits 10 n).length ≤ P := by
    rcases Nat.eq_zero_or_pos P with rfl | hP
    · simp at h; omega
    · exact (length_toDigits_le_iff (by decide) hP).mpr h
  have hpos : 0 < (toDigits 10 n).length := length_toDigits_pos
  rw [if_neg (wholeUnits_pos hn).ne', significantDigits_whole hn h]
  dsimp only
  rw [toDigits_mul_ten_pow hn]
  generalize toDigits 10 n = ds at hlen hpos
  have h1 : -4 ≤ (ds.length : Int) - 1 ∧ (ds.length : Int) - 1 < P := by omega
  have h2 : (0 : Int) ≤ (ds.length : Int) - 1 := by omega
  have h3 : ((ds.length : Int) - 1).toNat + 1 = ds.length := by omega
  rw [if_pos h1, if_pos h2, h3, take_left, drop_left, fraction_zeros, append_nil]

/-- **Whole numbers of at most `P` digits print as their decimal digits.** -/
theorem formatG_whole (neg : Bool) (h : n < 10 ^ P) (h53 : n < 2 ^ 53) :
    formatG P (whole neg n) = signText neg ++ toDigits 10 n := by
  rw [whole_eq neg h53, formatG, formatUnits_whole h]

end Binary64
