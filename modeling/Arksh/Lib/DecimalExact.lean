/-
  Subject: Which integers `printf("%.Pg")` prints exactly, and texts `a+bi`.

  A text of the grammar of numbers is exactly an integer or it is none (`Number.IsInt`), and the
  text alone decides that. An integer is printed exactly where it has at most `P` significant
  digits (`HasDigits`): the exponent style then drops zeros only.
-/
import Arksh.Lib.DoubleArith
import Arksh.Lib.JsonText
import Mathlib.NumberTheory.Zsqrtd.Basic

namespace Rfc8259

open CText Binary64 List Nat

/-! ## 1. Numbers that are integers -/

def Number.mantissa (n : Number) : Nat := ofDigitChars 10 (n.int ++ n.frac) 0

def Number.exponent (n : Number) : Int :=
  (match n.exp with | none => 0 | some e => e.value) - n.frac.length

/-- The value of a number is the integer `z`. -/
def Number.IsInt (n : Number) (z : Int) : Prop :=
  signed n.neg n.mantissa * 10 ^ n.exponent.toNat = z * 10 ^ (-n.exponent).toNat

variable {n m : Number}

theorem Number.text_determines (h : n.text = m.text) :
    n.neg = m.neg ∧ n.mantissa = m.mantissa ∧ n.exponent = m.exponent := by
  have hfirst : ∀ k : Number, ∃ d t, k.int = d :: t ∧ d ≠ '-' := by
    intro k
    obtain ⟨d, t, hint⟩ := exists_cons_of_ne_nil k.intNonempty
    refine ⟨d, t, hint, ?_⟩
    have hd : isdigit d = true := k.intDigits d (by rw [hint]; exact mem_cons_self)
    rintro rfl
    exact absurd hd (by decide)
  have hneg : n.neg = m.neg := by
    obtain ⟨d, t, hd, hne⟩ := hfirst n
    obtain ⟨d', t', hd', hne'⟩ := hfirst m
    unfold Number.text at h
    rw [hd, hd'] at h
    cases hn : n.neg <;> cases hm : m.neg
    · rfl
    · rw [hn, hm] at h; exact absurd (cons.inj h).1 hne
    · rw [hn, hm] at h; exact absurd (cons.inj h).1.symm hne'
    · rfl
  have hrest : n.int ++ ((if n.frac = [] then [] else '.' :: n.frac) ++ n.expText) =
      m.int ++ ((if m.frac = [] then [] else '.' :: m.frac) ++ m.expText) := by
    unfold Number.text at h
    rw [hneg] at h
    exact append_cancel_left h
  -- the parts are what the readers of `strtod` find
  have hparts := (pointed_number n).symm.trans ((congrArg (pointed isdigit) hrest).trans
    (pointed_number m))
  simp only [Option.some.injEq, Prod.mk.injEq] at hparts
  obtain ⟨hint, hfrac, hexp⟩ := hparts
  have hvalue := exponentPart_text n
  rw [hexp, exponentPart_text m] at hvalue
  refine ⟨hneg, by rw [Number.mantissa, Number.mantissa, hint, hfrac], ?_⟩
  rw [Number.exponent, Number.exponent, hfrac]
  exact congrArg (· - (m.frac.length : Int)) (Prod.mk.inj hvalue).1.symm

theorem Number.isInt_congr (h : n.text = m.text) (z : Int) : n.IsInt z ↔ m.IsInt z := by
  obtain ⟨hneg, hmantissa, hexponent⟩ := Number.text_determines h
  rw [Number.IsInt, Number.IsInt, hneg, hmantissa, hexponent]

/-! ## 2. What is printed exactly -/

/-- An integer of at most `P` significant digits. -/
def HasDigits (P a : Nat) : Prop := ∃ k j, k < 10 ^ P ∧ a = k * 10 ^ j

theorem ofDigitChars_stripZeros (front ds : Text) : ofDigitChars 10 (front ++ ds) 0 =
      ofDigitChars 10 (front ++ stripZeros ds) 0 * 10 ^ (ds.length - (stripZeros ds).length) := by
  induction ds using List.reverseRecOn with
  | nil => simp [stripZeros]
  | append_singleton ds c ih =>
    by_cases hc : c = '0'
    · have hstrip : stripZeros (ds ++ [c]) = stripZeros ds := by
        simp [stripZeros, hc]
      have hlen := length_stripZeros ds
      have hsub : (ds ++ [c]).length - (stripZeros ds).length =
          ds.length - (stripZeros ds).length + 1 := by
        rw [length_append, length_singleton]
        omega
      rw [hstrip, hsub, pow_succ, ← Nat.mul_assoc, ← ih, hc, ← append_assoc,
        ofDigitChars_append, ofDigitChars_cons, ofDigitChars_nil]
      exact (mul_comm _ _).trans (add_zero _).symm
    · have hstrip : stripZeros (ds ++ [c]) = ds ++ [c] := by
        simp [stripZeros, hc]
      rw [hstrip, Nat.sub_self, pow_zero, Nat.mul_one]

theorem ten_pow_pos (k : Nat) : 0 < 10 ^ k := Nat.pow_pos (by decide)

variable {a P L : Nat}

theorem length_digits (hP : 0 < P) (ha : 10 ^ P ≤ a) :
    10 ^ ((toDigits 10 a).length - 1) ≤ a ∧ a < 10 ^ (toDigits 10 a).length ∧
      P < (toDigits 10 a).length := by
  have hlen : ∀ k, 0 < k → ((toDigits 10 a).length ≤ k ↔ a < 10 ^ k) :=
    fun k hk => length_toDigits_le_iff (by decide) hk
  generalize (toDigits 10 a).length = L at hlen
  have hPL : P < L := not_le.mp fun hle => Nat.not_lt.mpr ha ((hlen P hP).mp hle)
  refine ⟨?_, (hlen L (by omega)).mp (le_refl _), hPL⟩
  refine Nat.not_lt.mp fun hlt => ?_
  have hshort := (hlen (L - 1) (by omega)).mpr hlt
  omega

/-- A number of at most `P` significant digits loses zeros only. -/
theorem HasDigits.split (h : HasDigits P a) (hPL : P < L) (hlow : 10 ^ (L - 1) ≤ a)
    (hhigh : a < 10 ^ L) : ∃ N, a = N * 10 ^ (L - P) ∧ N < 10 ^ P := by
  obtain ⟨k, j, hk, rfl⟩ := h
  have hj : L - P ≤ j := by
    have hlt : 10 ^ (L - 1) < 10 ^ (P + j) := by
      rw [pow_add]
      exact hlow.trans_lt (Nat.mul_lt_mul_of_pos_right hk (ten_pow_pos j))
    have hexp := (Nat.pow_lt_pow_iff_right (by decide)).mp hlt
    omega
  have hsplit : k * 10 ^ j = k * 10 ^ (j - (L - P)) * 10 ^ (L - P) := by
    rw [Nat.mul_assoc, ← pow_add, Nat.sub_add_cancel hj]
  refine ⟨k * 10 ^ (j - (L - P)), hsplit, Nat.lt_of_mul_lt_mul_right (a := 10 ^ (L - P)) ?_⟩
  rw [← hsplit, ← pow_add, Nat.add_sub_cancel' hPL.le]
  exact hhigh

theorem rounded_digits (hP : 0 < P) (hPL : P < L) (hlow : 10 ^ (L - 1) ≤ a) (hhigh : a < 10 ^ L) :
    10 ^ (P - 1) ≤ roundHalfEven a (10 ^ (L - P)) ∧
      (HasDigits P a → roundHalfEven a (10 ^ (L - P)) * 10 ^ (L - P) = a ∧
        roundHalfEven a (10 ^ (L - P)) < 10 ^ P) := by
  constructor
  · have hquot : 10 ^ (P - 1) ≤ a / 10 ^ (L - P) := by
      rw [Nat.le_div_iff_mul_le (ten_pow_pos _), ← pow_add]
      exact (Nat.pow_le_pow_right (by decide) (by omega)).trans hlow
    refine hquot.trans ?_
    unfold roundHalfEven
    split_ifs <;> omega
  · intro h
    obtain ⟨N, ha, hN⟩ := h.split hPL hlow hhigh
    have hround : roundHalfEven a (10 ^ (L - P)) = N := by
      rw [ha, roundHalfEven_mul _ (ten_pow_pos _)]
    rw [hround]
    exact ⟨ha.symm, hN⟩

theorem significantDigits_eq (ha : 0 < a) (hP : P < (toDigits 10 a).length) :
    significantDigits P (wholeUnits a) =
      let L := (toDigits 10 a).length
      let N := roundHalfEven a (10 ^ (L - P))
      if N = 10 ^ P then (10 ^ (P - 1), (L : Int)) else (N, (L : Int) - 1) := by
  unfold significantDigits
  rw [decimalExponent_whole ha]
  generalize (toDigits 10 a).length = L at hP
  have hs : ((P : Int) - 1 - ((L : Int) - 1)).toNat = 0 := by omega
  have hs' : (-((P : Int) - 1 - ((L : Int) - 1))).toNat = L - P := by omega
  have hround : roundHalfEven (wholeUnits a * 10 ^ 0) (unitsPerOne * 10 ^ (L - P)) =
      roundHalfEven a (10 ^ (L - P)) := by
    rw [pow_zero, Nat.mul_one, wholeUnits, mul_comm unitsPerOne,
      roundHalfEven_mul_mul _ _ unitsPerOne_pos]
  simp only [hs, hs', hround, Int.sub_add_cancel]

/-- A number that is too long for `P` digits: what is left of it, and where that is all of it. -/
theorem significantDigits_large (hP : 0 < P) (ha : 10 ^ P ≤ a) :
    ∃ N X : Nat, significantDigits P (wholeUnits a) = (N, (X : Int)) ∧ P ≤ X ∧ 10 ^ (P - 1) ≤ N ∧
      N < 10 ^ P ∧ (N * 10 ^ (X + 1 - P) = a ↔ HasDigits P a) := by
  obtain ⟨hlow, hhigh, hPL⟩ := length_digits hP ha
  have hlt := significantDigits_lt hP (wholeUnits a)
  rw [significantDigits_eq ((ten_pow_pos P).trans_le ha) hPL] at hlt ⊢
  generalize (toDigits 10 a).length = L at hlow hhigh hPL hlt
  obtain ⟨hbelow, hexact⟩ := rounded_digits hP hPL hlow hhigh
  dsimp only at hlt ⊢
  generalize roundHalfEven a (10 ^ (L - P)) = N at hbelow hexact hlt
  by_cases hcarry : N = 10 ^ P
  · rw [if_pos hcarry] at hlt ⊢
    refine ⟨10 ^ (P - 1), L, rfl, hPL.le, le_refl _, hlt, iff_of_false ?_ ?_⟩
    · rw [← pow_add, show P - 1 + (L + 1 - P) = L by omega]; exact hhigh.ne'
    · intro hdigits; exact (hexact hdigits).2.ne hcarry
  · rw [if_neg hcarry] at hlt ⊢
    refine ⟨N, L - 1, ?_, by omega, hbelow, hlt, ?_⟩
    · rw [cast_sub (by omega), cast_one]
    · rw [show L - 1 + 1 - P = L - P by omega]
      exact ⟨fun heq => ⟨N, _, hlt, heq.symm⟩, fun hdigits => (hexact hdigits).1⟩

theorem value_printedExponent (X : Nat) : (printedExponent (X : Int)).value = X := by
  have hdigits : ofDigitChars 10 (printedExponent (X : Int)).digits 0 = X := by
    unfold printedExponent
    dsimp only
    split
    · rw [ofDigitChars_cons]; exact ofDigitChars_ten_toDigits
    · exact ofDigitChars_ten_toDigits
  have hsign : (printedExponent (X : Int)).sign = some false := by
    simp [printedExponent]
  rw [Exponent.value, hsign, hdigits]
  rfl

theorem exponentStyle {N X : Nat} (neg : Bool) (hP : 0 < P) (hX : P ≤ X) (hlow : 10 ^ (P - 1) ≤ N)
    (hhigh : N < 10 ^ P) (a : Nat) :
    ∃ n : Number, n.text = signText neg ++ ((toDigits 10 N).take 1 ++
        fraction ((toDigits 10 N).drop 1) ++ exponentText X) ∧
      (n.IsInt (signed neg a) ↔ N * 10 ^ (X + 1 - P) = a) := by
  have hds : ∀ c ∈ toDigits 10 N, isdigit c = true := fun c => isdigit_of_mem_toDigits
  have hlen : (toDigits 10 N).length = P := by
    have hlen : ∀ k, 0 < k → ((toDigits 10 N).length ≤ k ↔ N < 10 ^ k) :=
      fun k hk => length_toDigits_le_iff (by decide) hk
    have hpos : 0 < (toDigits 10 N).length := length_toDigits_pos
    refine le_antisymm ((hlen P hP).mpr hhigh) (Nat.not_lt.mp fun hlt => ?_)
    have hshort := (hlen (P - 1) (by omega)).mp (by omega)
    omega
  have hvalue : ofDigitChars 10 (toDigits 10 N) 0 = N := ofDigitChars_ten_toDigits
  have hne : (toDigits 10 N).take 1 ≠ [] := by
    intro hnil
    rcases take_eq_nil_iff.mp hnil with hk | hk
    · cases hk
    · exact toDigits_ne_nil hk
  refine ⟨partsNumber neg ((toDigits 10 N).take 1) ((toDigits 10 N).drop 1)
    (some (printedExponent X)) (fun c hc => hds c (mem_of_mem_take hc)) hne
    (fun t => take_noLeadingZero) (fun c hc => hds c (mem_of_mem_drop hc)), ?_, ?_⟩
  · rw [text_partsNumber, Option.map_some, Option.getD_some, text_printedExponent, append_assoc]
  · unfold Number.IsInt Number.mantissa Number.exponent partsNumber
    dsimp only
    have hstrip := ofDigitChars_stripZeros ((toDigits 10 N).take 1) ((toDigits 10 N).drop 1)
    have hdslen : ((toDigits 10 N).drop 1).length = P - 1 := by rw [length_drop, hlen]
    have hle := length_stripZeros ((toDigits 10 N).drop 1)
    rw [take_append_drop, hvalue] at hstrip
    generalize (toDigits 10 N).drop 1 = ds at hstrip hdslen hle ⊢
    have hexponent : (printedExponent (X : Int)).value - ((stripZeros ds).length : Int) =
        ((X - (stripZeros ds).length : Nat) : Int) := by
      rw [value_printedExponent]
      omega
    rw [hexponent, Int.toNat_natCast, show (-((X - (stripZeros ds).length : Nat) : Int)).toNat = 0
      by omega, pow_zero, Int.mul_one]
    generalize ofDigitChars 10 ((toDigits 10 N).take 1 ++ stripZeros ds) 0 = m at hstrip
    have hscale : N * 10 ^ (X + 1 - P) = m * 10 ^ (X - (stripZeros ds).length) := by
      rw [hstrip, Nat.mul_assoc, ← pow_add]
      congr 2
      omega
    rw [hscale]
    cases neg with
    | false => simp only [signed, Bool.false_eq_true, if_false]; exact_mod_cast Iff.rfl
    | true => simp only [signed, if_true, Int.neg_mul, Int.neg_inj]; exact_mod_cast Iff.rfl

/-- **An integer is printed exactly iff it has at most `P` significant digits.** -/
theorem isInt_formatG (hP : 0 < P) {x : Binary64} {a : Int} (hx : IsWhole x a) :
    ∃ n : Number, n.text = formatG P x ∧ (n.IsInt a ↔ HasDigits P a.natAbs) := by
  cases x with
  | nan neg | inf neg => exact hx.elim
  | finite neg u =>
    obtain ⟨hu, ha⟩ := isWhole_iff.mp hx
    rw [formatG, hu]
    generalize a.natAbs = k at ha ⊢
    subst ha
    by_cases hk : k < 10 ^ P
    · refine ⟨⟨neg, toDigits 10 k, [], none, fun c => isdigit_of_mem_toDigits,
        toDigits_ne_nil, fun t => toDigits_noLeadingZero, isdigit_of_mem_nil⟩, ?_, ?_⟩
      · rw [formatUnits_whole hk, Number.text]; simp [Number.expText]
      · refine iff_of_true ?_ ⟨k, 0, hk, (Nat.mul_one k).symm⟩
        simp [Number.IsInt, Number.mantissa, Number.exponent, ofDigitChars_ten_toDigits]
    · obtain ⟨N, X, hsig, hX, hlow, hhigh, hiff⟩ := significantDigits_large hP (Nat.not_lt.mp hk)
      obtain ⟨n, htext, hint⟩ := exponentStyle neg hP hX hlow hhigh k
      have hpos : 0 < k := (Nat.pow_pos (by decide)).trans_le (Nat.not_lt.mp hk)
      refine ⟨n, ?_, hint.trans hiff⟩
      rw [htext, formatUnits, if_neg (wholeUnits_pos hpos).ne', hsig]
      dsimp only
      rw [if_neg (by omega)]

/-! ## 3. Signs in a number -/

def isSign (c : Char) : Bool := c = '+' || c = '-'

/-- Every sign stands at the start or behind the letter of an exponent. -/
def SignsInPlace (t : Text) : Prop := t.IsChain fun c s => isSign s = true → c = 'e' ∨ c = 'E'

variable {c s : Char}

theorem isSign_of_isdigit (h : isdigit c = true) : isSign c = false := by
  by_contra hsign
  simp only [Bool.not_eq_false, isSign, Bool.or_eq_true, decide_eq_true_eq] at hsign
  rcases hsign with rfl | rfl <;> exact absurd h (by decide)

variable {t u : Text}

theorem signsInPlace_cons (ht : SignsInPlace t)
    (h : ∀ s ∈ t.head?, isSign s = true → c = 'e' ∨ c = 'E') : SignsInPlace (c :: t) := by
  cases t with
  | nil => exact isChain_singleton c
  | cons s t => exact isChain_cons_cons.mpr ⟨h s rfl, ht⟩

theorem signsInPlace_append (hu : ∀ c ∈ u, isSign c = false) (ht : SignsInPlace t)
    (h : ∀ s ∈ t.head?, isSign s = false) : SignsInPlace (u ++ t) := by
  induction u with
  | nil => exact ht
  | cons c u ih =>
    refine signsInPlace_cons (ih fun d hd => hu d (mem_cons_of_mem _ hd)) ?_
    intro s hs hsign
    have hfalse : isSign s = false := by
      cases u with
      | nil => exact h s hs
      | cons d u => cases hs; exact hu s (by simp)
    rw [hfalse] at hsign
    cases hsign

theorem signsInPlace_of_none (hu : ∀ c ∈ u, isSign c = false) : SignsInPlace u := by
  have h := signsInPlace_append hu (t := []) isChain_nil (fun s hs => nomatch hs)
  rwa [append_nil] at h

theorem signsInPlace_concat (ht : SignsInPlace t) (hu : ∀ c ∈ u, isSign c = false) :
    SignsInPlace (t ++ u) := by
  have hfalse : ∀ c ∈ u, isSign c = true → False := by
    intro c hc hsign
    rw [hu c hc] at hsign
    cases hsign
  refine isChain_append.mpr ⟨ht, signsInPlace_of_none hu, ?_⟩
  intro c _ s hs hsign
  exact (hfalse s (mem_of_mem_head? hs) hsign).elim

theorem Exponent.signsInPlace (e : Exponent) : SignsInPlace e.text := by
  obtain ⟨upper, sign, digits, hd, hne⟩ := e
  have hdigits : ∀ c ∈ digits, isSign c = false := fun c hc => isSign_of_isdigit (hd c hc)
  have hletter : (if upper then 'E' else 'e') = 'e' ∨ (if upper then 'E' else 'e') = 'E' := by
    cases upper <;> decide
  refine signsInPlace_cons ?_ fun _ _ _ => hletter
  have hplace := signsInPlace_of_none hdigits
  have hhead : ∀ c, ∀ s ∈ digits.head?, isSign s = true → c = 'e' ∨ c = 'E' := by
    intro c s hs hsign
    rw [hdigits s (mem_of_mem_head? hs)] at hsign
    cases hsign
  rcases sign with _ | _ | _
  · exact hplace
  · exact signsInPlace_cons hplace (hhead _)
  · exact signsInPlace_cons hplace (hhead _)

theorem Exponent.text_ends (e : Exponent) : ∃ front, e.text = front ++ e.digits := by
  exact ⟨_ :: _, rfl⟩

theorem Number.signsInPlace (n : Number) :
    SignsInPlace n.text ∧ ∃ t d, n.text = t ++ [d] ∧ isdigit d = true := by
  have hint : ∀ c ∈ n.int, isSign c = false := fun c hc => isSign_of_isdigit (n.intDigits c hc)
  have hfrac : ∀ c ∈ (if n.frac = [] then [] else '.' :: n.frac), isSign c = false := by
    intro c hc
    split at hc
    · cases hc
    · rcases mem_cons.mp hc with rfl | hc
      · rfl
      · exact isSign_of_isdigit (n.fracDigits c hc)
  have hexp : SignsInPlace n.expText ∧ ∀ s ∈ n.expText.head?, isSign s = false := by
    unfold Number.expText
    cases n.exp with
    | none => exact ⟨isChain_nil, fun s hs => nomatch hs⟩
    | some e =>
      refine ⟨e.signsInPlace, fun s hs => ?_⟩
      cases hs
      cases e.upper <;> rfl
  constructor
  · have hbody : SignsInPlace (n.int ++ ((if n.frac = [] then [] else '.' :: n.frac) ++
        n.expText)) := by
      rw [← append_assoc]
      refine signsInPlace_append (fun c hc => ?_) hexp.1 hexp.2
      exact (mem_append.mp hc).elim (hint c) (hfrac c)
    obtain ⟨d, ds, hd⟩ := exists_cons_of_ne_nil n.intNonempty
    unfold Number.text
    cases n.neg with
    | false => exact hbody
    | true =>
      refine signsInPlace_cons hbody fun s hs hsign => ?_
      rw [hd] at hs
      cases hs
      rw [hint d (by rw [hd]; exact mem_cons_self)] at hsign
      cases hsign
  · -- the last character is the last digit of the exponent, the fraction or the whole part
    have hlast : ∀ {ds : Text} (front : Text), (∀ c ∈ ds, isdigit c = true) → ds ≠ [] →
        ∃ t d, front ++ ds = t ++ [d] ∧ isdigit d = true := by
      intro ds front hds hne
      refine ⟨front ++ ds.dropLast, ds.getLast hne, ?_, hds _ (getLast_mem hne)⟩
      rw [append_assoc, dropLast_append_getLast hne]
    unfold Number.text Number.expText
    cases n.exp with
    | some e =>
      obtain ⟨front, hfront⟩ := e.text_ends
      have h := hlast (signText n.neg ++ (n.int ++
        ((if n.frac = [] then [] else '.' :: n.frac) ++ front))) e.isDigits e.nonempty
      simpa only [hfront, append_assoc] using h
    | none =>
      by_cases hf : n.frac = []
      · have h := hlast (signText n.neg) n.intDigits n.intNonempty
        simpa only [hf, if_true, append_nil] using h
      · have h := hlast (signText n.neg ++ (n.int ++ ['.'])) n.fracDigits hf
        simpa only [hf, if_false, append_nil, append_assoc, singleton_append] using h

theorem signsInPlace_formatG (P : Nat) (x : Binary64) : SignsInPlace (formatG P x) := by
  cases hx : x.isFinite with
  | true =>
    obtain ⟨n, hn⟩ := isNumber_formatG hx P
    rw [← hn]
    exact n.signsInPlace.1
  | false =>
    obtain ⟨neg, h | h⟩ := isSpecial_formatG hx P
    · rw [h]; cases neg <;> simp [signText, SignsInPlace, isSign]
    · rw [h]; cases neg <;> simp [signText, SignsInPlace, isSign]

/-! ## 4. Texts `a+bi` -/

def signChar (minus : Bool) : Char := if minus then '-' else '+'

/-- What a text `a+bi` or `a-bi` stands for. -/
def ReadsComplex (text : Text) (z : Zsqrtd (-1)) : Prop :=
  ∃ (a b : Number) (minus : Bool), text = a.text ++ signChar minus :: (b.text ++ ['i']) ∧
    a.IsInt z.re ∧ b.IsInt (if minus then -z.im else z.im)

theorem not_signsInPlace_behind (hs : isSign s = true) (t : Text) :
    ¬ SignsInPlace (n.text ++ s :: t) := by
  obtain ⟨-, u, d, hd, hdigit⟩ := n.signsInPlace
  intro h
  rw [hd, append_assoc, singleton_append] at h
  rcases (isChain_append_cons_cons.mp h).2.1 hs with rfl | rfl <;> exact absurd hdigit (by decide)

theorem isSign_signChar (minus : Bool) : isSign (signChar minus) = true := by
  cases minus <;> rfl

theorem not_readsComplex {text : Text} (h : SignsInPlace text) (z : Zsqrtd (-1)) :
    ¬ ReadsComplex text z := by
  rintro ⟨a, b, minus, rfl, -, -⟩
  exact not_signsInPlace_behind (isSign_signChar minus) _ h

theorem number_sign_unique {a a' : Number} {s' : Char} {r r' : Text} (hs : isSign s = true)
    (hs' : isSign s' = true) (h : a.text ++ s :: r = a'.text ++ s' :: r') :
    a.text = a'.text ∧ s = s' ∧ r = r' := by
  rcases append_eq_append_iff.mp h with ⟨t, ha, ht⟩ | ⟨t, ha, ht⟩
  · cases t with
    | nil =>
      rw [append_nil] at ha
      obtain ⟨rfl, rfl⟩ := cons.inj ht
      exact ⟨ha.symm, rfl, rfl⟩
    | cons c t =>
      obtain ⟨rfl, -⟩ := cons.inj ht
      exact (not_signsInPlace_behind hs t (ha ▸ a'.signsInPlace.1)).elim
  · cases t with
    | nil =>
      rw [append_nil] at ha
      obtain ⟨rfl, rfl⟩ := cons.inj ht
      exact ⟨ha, rfl, rfl⟩
    | cons c t =>
      obtain ⟨rfl, -⟩ := cons.inj ht
      exact (not_signsInPlace_behind hs' t (ha ▸ a.signsInPlace.1)).elim

/-- **A text is taken apart in one way.** -/
theorem readsComplex_iff {a b : Number} {minus : Bool} {z : Zsqrtd (-1)} :
    ReadsComplex (a.text ++ signChar minus :: (b.text ++ ['i'])) z ↔
      a.IsInt z.re ∧ b.IsInt (if minus then -z.im else z.im) := by
  constructor
  · rintro ⟨a', b', minus', heq, ha, hb⟩
    obtain ⟨htext, hsign, hrest⟩ := number_sign_unique (isSign_signChar minus)
      (isSign_signChar minus') heq
    obtain rfl : minus = minus' := by
      cases minus <;> cases minus' <;> first | rfl | exact absurd hsign (by decide)
    exact ⟨(Number.isInt_congr htext _).mpr ha,
      (Number.isInt_congr (append_cancel_right hrest) _).mpr hb⟩
  · rintro ⟨ha, hb⟩; exact ⟨a, b, minus, rfl, ha, hb⟩

end Rfc8259
