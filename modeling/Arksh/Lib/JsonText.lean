/-
  Subject: Texts that are JSON and texts that are not: what `printf("%.Pg")` prints, and the
           letters outside of strings.

  `%.Pg` prints every finite double as a number of the grammar, and the others as `nan` and `inf`.
  Those are no JSON: in a JSON text there are as many `a` as `f` outside of the strings, both from
  `false`, and no `i` at all. `textWeight` counts this.
-/
import Arksh.Lib.Json

namespace Binary64

open CText Rfc8259 List Option Nat

/-! ## 1. The grammar of `%.Pg` -/

def isFinite : Binary64 → Bool
  | .finite _ _ => true
  | _ => false

/-- Digits without the zeros at their end. -/
def stripZeros (ds : Text) : Text := (ds.reverse.dropWhile (· == '0')).reverse

theorem fraction_eq (ds : Text) :
    fraction ds = if stripZeros ds = [] then [] else '.' :: stripZeros ds := by
  unfold fraction stripZeros
  cases (ds.reverse.dropWhile (· == '0')).reverse <;> rfl

theorem mem_stripZeros {ds : Text} {c : Char} (h : c ∈ stripZeros ds) : c ∈ ds := by
  rw [stripZeros, mem_reverse] at h
  exact mem_reverse.mp ((dropWhile_sublist _).subset h)

theorem length_stripZeros (ds : Text) : (stripZeros ds).length ≤ ds.length := by
  have h := (ds.reverse.dropWhile_sublist (· == '0')).length_le
  rwa [length_reverse, ← length_reverse] at h

theorem length_fraction (ds : Text) : (fraction ds).length ≤ ds.length + 1 := by
  rw [fraction_eq]
  have hstrip := length_stripZeros ds
  split
  · exact zero_le _
  · rw [length_cons]; omega

def printedExponent (X : Int) : Exponent where
  upper := false
  sign := some (decide (X < 0))
  digits :=
    let ds := toDigits 10 X.natAbs
    if ds.length < 2 then '0' :: ds else ds
  isDigits := by
    intro c hc
    dsimp only at hc
    split at hc
    · rcases List.mem_cons.mp hc with rfl | hc
      · rfl
      · exact isdigit_of_mem_toDigits hc
    · exact isdigit_of_mem_toDigits hc
  nonempty := by
    dsimp only
    split
    · exact List.cons_ne_nil _ _
    · exact Nat.toDigits_ne_nil

theorem text_printedExponent (X : Int) : (printedExponent X).text = exponentText X := by
  unfold exponentText Exponent.text printedExponent
  by_cases h : X < 0 <;> simp [h]

/-- Digits in front of the point, digits behind it without the zeros at the end, an exponent. -/
def partsNumber (neg : Bool) (int frac : Text) (exp : Option Exponent)
    (hint : ∀ c ∈ int, isdigit c = true) (hne : int ≠ [])
    (hlead : ∀ t, int = '0' :: t → t = []) (hfrac : ∀ c ∈ frac, isdigit c = true) : Number where
  neg := neg
  int := int
  frac := stripZeros frac
  exp := exp
  intDigits := hint
  intNonempty := hne
  noLeadingZero := hlead
  fracDigits c hc := hfrac c (mem_stripZeros hc)

theorem text_partsNumber (neg : Bool) {int frac : Text} (exp : Option Exponent)
    (hint : ∀ c ∈ int, isdigit c = true) (hne : int ≠ [])
    (hlead : ∀ t, int = '0' :: t → t = []) (hfrac : ∀ c ∈ frac, isdigit c = true) :
    (partsNumber neg int frac exp hint hne hlead hfrac).text =
      signText neg ++ (int ++ (fraction frac ++ (exp.map Exponent.text).getD [])) := by
  rw [Number.text, fraction_eq]
  cases exp <;> rfl

theorem isNumber_parts (neg : Bool) (int frac : Text) (exp : Option Exponent)
    (hint : ∀ c ∈ int, isdigit c = true) (hne : int ≠ [])
    (hlead : ∀ t, int = '0' :: t → t = []) (hfrac : ∀ c ∈ frac, isdigit c = true) :
    IsNumber (signText neg ++ (int ++ (fraction frac ++ (exp.map Exponent.text).getD []))) :=
  ⟨partsNumber neg int frac exp hint hne hlead hfrac, text_partsNumber ..⟩

theorem isdigit_of_mem_zero : ∀ c ∈ ['0'], isdigit c = true := by
  intro c hc
  rw [mem_singleton.mp hc]
  rfl

theorem take_noLeadingZero {n k : Nat} {t : Text}
    (h : (toDigits 10 n).take k = '0' :: t) : t = [] := by
  cases hds : toDigits 10 n with
  | nil => exact absurd hds toDigits_ne_nil
  | cons d ds =>
    cases k with
    | zero => cases h
    | succ k =>
      rw [hds, take_succ_cons] at h
      obtain ⟨rfl, rfl⟩ := cons.inj h
      rw [toDigits_noLeadingZero hds]
      exact take_nil

theorem isNumber_formatUnits (neg : Bool) (P u : Nat) :
    IsNumber (signText neg ++ formatUnits P u) := by
  unfold formatUnits
  split
  · exact isNumber_parts neg ['0'] [] none isdigit_of_mem_zero (cons_ne_nil _ _)
      (fun t h => (cons.inj h).2.symm) isdigit_of_mem_nil
  generalize significantDigits P u = p
  obtain ⟨N, X⟩ := p
  have hds : ∀ c ∈ toDigits 10 N, isdigit c = true := fun c => isdigit_of_mem_toDigits
  dsimp only
  split
  · split
    · have h := isNumber_parts neg ((toDigits 10 N).take (X.toNat + 1))
        ((toDigits 10 N).drop (X.toNat + 1)) none
        (fun c hc => hds c (mem_of_mem_take hc)) ?_ (fun t => take_noLeadingZero)
        (fun c hc => hds c (mem_of_mem_drop hc))
      · simpa using h
      · intro hnil
        rcases take_eq_nil_iff.mp hnil with hk | hk
        · cases hk
        · exact toDigits_ne_nil hk
    · have h := isNumber_parts neg ['0']
        (List.replicate ((-X).toNat - 1) '0' ++ toDigits 10 N) none isdigit_of_mem_zero
        (cons_ne_nil _ _) (fun t h => (cons.inj h).2.symm) ?_
      · simpa using h
      · intro c hc
        rcases mem_append.mp hc with hc | hc
        · rw [eq_of_mem_replicate hc]; rfl
        · exact hds c hc
  · have h := isNumber_parts neg ((toDigits 10 N).take 1)
      ((toDigits 10 N).drop 1) (some (printedExponent X))
      (fun c hc => hds c (mem_of_mem_take hc)) ?_ (fun t => take_noLeadingZero)
      (fun c hc => hds c (mem_of_mem_drop hc))
    · rw [map_some, getD_some, text_printedExponent] at h; simpa using h
    · intro hnil
      rcases take_eq_nil_iff.mp hnil with hk | hk
      · cases hk
      · exact toDigits_ne_nil hk

variable {x : Binary64}

/-- **A finite double is printed as a number of the grammar.** -/
theorem isNumber_formatG (h : x.isFinite = true) (P : Nat) : IsNumber (formatG P x) := by
  cases x with
  | finite neg u => exact isNumber_formatUnits neg P u.1
  | nan neg | inf neg => cases h

/-! ## 2. Its length -/

theorem lt_of_decimalExponent (u : Nat) :
    (0 ≤ decimalExponent u → u < unitsPerOne * 10 ^ ((decimalExponent u).toNat + 1)) ∧
      (decimalExponent u < 0 → u * 10 ^ ((-decimalExponent u).toNat - 1) < unitsPerOne) := by
  unfold decimalExponent
  split
  · have hpos : 0 < (toDigits 10 (u / unitsPerOne)).length := length_toDigits_pos
    have hlt := (length_toDigits_le_iff (b := 10) (by decide) hpos).mp (le_refl _)
    generalize (toDigits 10 (u / unitsPerOne)).length = L at hpos hlt
    refine ⟨fun _ => ?_, fun h => by omega⟩
    have hL : ((L : Int) - 1).toNat + 1 = L := by omega
    rw [hL, mul_comm]
    exact (Nat.div_lt_iff_lt_mul unitsPerOne_pos).mp hlt
  · rename_i hlt
    have hone : unitsPerOne ≤ unitsPerOne * 10 := Nat.le_mul_of_pos_right _ (by decide)
    cases hfind : (List.range 330).find? fun j => decide (unitsPerOne ≤ u * 10 ^ j) with
    | none => refine ⟨fun _ => ?_, fun h => by simp at h⟩; exact (not_le.mp hlt).trans_le hone
    | some j =>
      obtain ⟨-, -, hbefore⟩ := find?_range_eq_some.mp hfind
      rw [getD_some]
      refine ⟨fun h => ?_, fun h => ?_⟩
      · obtain rfl : j = 0 := by omega
        exact (not_le.mp hlt).trans_le hone
      · have hj := hbefore (j - 1) (by omega); simpa using hj

variable {P u : Nat}

theorem scaled_lt (hP : 0 < P) : u * 10 ^ ((P : Int) - 1 - decimalExponent u).toNat <
      10 ^ P * (unitsPerOne * 10 ^ (-((P : Int) - 1 - decimalExponent u)).toNat) := by
  obtain ⟨hle, hlt⟩ := lt_of_decimalExponent u
  generalize decimalExponent u = X at hle hlt
  have hten : ∀ k : Nat, 0 < 10 ^ k := fun k => Nat.pow_pos (by decide)
  rcases lt_or_ge X 0 with hX | hX
  · have h1 : ((P : Int) - 1 - X).toNat = ((-X).toNat - 1) + P := by omega
    have h2 : (-((P : Int) - 1 - X)).toNat = 0 := by omega
    rw [h1, h2, pow_add, ← mul_assoc, pow_zero, mul_one, mul_comm (10 ^ P)]
    exact mul_lt_mul_of_pos_right (hlt hX) (hten P)
  · have h := hle hX
    rcases lt_or_ge ((P : Int) - 1 - X) 0 with hs | hs
    · -- digits in front of the point that are not printed
      have h1 : ((P : Int) - 1 - X).toNat = 0 := by omega
      have h2 : X.toNat + 1 = P + (-((P : Int) - 1 - X)).toNat := by omega
      rw [h2, pow_add] at h
      rw [h1, pow_zero, mul_one]
      calc u < unitsPerOne * (10 ^ P * 10 ^ (-((P : Int) - 1 - X)).toNat) := h
        _ = 10 ^ P * (unitsPerOne * 10 ^ (-((P : Int) - 1 - X)).toNat) := mul_left_comm _ _ _
    · have h1 : (-((P : Int) - 1 - X)).toNat = 0 := by omega
      have h2 : P = (X.toNat + 1) + ((P : Int) - 1 - X).toNat := by omega
      rw [h1, pow_zero, mul_one]
      calc u * 10 ^ ((P : Int) - 1 - X).toNat
          < unitsPerOne * 10 ^ (X.toNat + 1) * 10 ^ ((P : Int) - 1 - X).toNat :=
            mul_lt_mul_of_pos_right h (hten _)
        _ = unitsPerOne * 10 ^ P := by rw [mul_assoc, ← pow_add, ← h2]
        _ = 10 ^ P * unitsPerOne := mul_comm _ _

theorem significantDigits_lt (hP : 0 < P) (u : Nat) : (significantDigits P u).1 < 10 ^ P := by
  have hlt := scaled_lt (u := u) hP
  unfold significantDigits
  dsimp only
  split
  · exact Nat.pow_lt_pow_right (by decide) (by omega)
  · rename_i hne
    refine lt_of_le_of_ne ?_ hne
    refine (roundHalfEven_le _ _).trans (succ_le_of_lt ?_)
    refine (Nat.div_lt_iff_lt_mul ?_).mpr hlt
    exact Nat.mul_pos unitsPerOne_pos (Nat.pow_pos (by decide))

theorem abs_decimalExponent (h : u < overflowUnits) :
    -330 < decimalExponent u ∧ decimalExponent u < 310 := by
  unfold decimalExponent
  split
  · have hlt : u / unitsPerOne < 10 ^ 309 := by
      rw [Nat.div_lt_iff_lt_mul unitsPerOne_pos]
      refine h.trans_le ?_
      rw [overflowUnits_eq, pow_add, ← unitsPerOne_eq]
      exact mul_le_mul_right _ (by decide +kernel)
    have hlen := (length_toDigits_le_iff (b := 10) (by decide) (by decide)).mpr hlt
    omega
  · cases hfind : (List.range 330).find? fun j => decide (unitsPerOne ≤ u * 10 ^ j) with
    | none => simp
    | some j =>
      obtain ⟨-, hmem, -⟩ := find?_range_eq_some.mp hfind
      have hj := mem_range.mp hmem
      rw [getD_some]
      omega

theorem abs_significantDigits (h : u < overflowUnits) (P : Nat) :
    (significantDigits P u).2.natAbs < 1000 := by
  have hX := abs_decimalExponent h
  unfold significantDigits
  dsimp only
  split <;> dsimp only <;> omega

theorem length_exponentText {X : Int} (h : X.natAbs < 1000) : (exponentText X).length ≤ 5 := by
  have hlen := (length_toDigits_le_iff (b := 10) (k := 3) (by decide) (by decide)).mpr h
  unfold exponentText
  rw [length_cons, length_cons]
  split
  · rw [length_cons]; omega
  · omega

theorem length_formatUnits (hP : 0 < P) (h : u < overflowUnits) :
    (formatUnits P u).length ≤ P + 6 := by
  unfold formatUnits
  split
  · rw [length_singleton]; omega
  have hN := significantDigits_lt hP u
  have hX := abs_significantDigits h P
  generalize significantDigits P u = p at hN hX
  obtain ⟨N, X⟩ := p
  have hlen := (length_toDigits_le_iff (b := 10) (by decide) hP).mpr hN
  dsimp only at hX ⊢
  generalize toDigits 10 N = ds at hlen
  split
  · split
    · have hfrac := length_fraction (ds.drop (X.toNat + 1))
      rw [length_drop] at hfrac
      rw [length_append, length_take]
      omega
    · have hfrac := length_fraction (List.replicate ((-X).toNat - 1) '0' ++ ds)
      rw [length_append, length_replicate] at hfrac
      rw [length_cons]
      omega
  · have hfrac := length_fraction (ds.drop 1)
    have hexp := length_exponentText hX
    rw [length_drop] at hfrac
    rw [length_append, length_append, length_take]
    omega

theorem length_signText (neg : Bool) : (signText neg).length ≤ 1 := by
  cases neg <;> decide

/-- **What is printed of a double is a few characters longer than its digits.** -/
theorem length_formatG (hP : 0 < P) (x : Binary64) : (formatG P x).length ≤ P + 7 := by
  cases x with
  | nan neg | inf neg =>
    have hsign := length_signText neg
    rw [formatG, length_append]
    simp only [length_cons, length_nil]
    omega
  | finite neg u =>
    have hsign := length_signText neg
    have hlen := length_formatUnits hP u.2.2
    rw [formatG, length_append]
    omega

/-- What is printed of the doubles that are not finite. -/
def IsSpecial (t : Text) : Prop := ∃ neg, t = signText neg ++ ['n', 'a', 'n'] ∨
  t = signText neg ++ ['i', 'n', 'f']

theorem isSpecial_formatG (h : x.isFinite = false) (P : Nat) : IsSpecial (formatG P x) := by
  cases x with
  | finite neg u => cases h
  | nan neg => exact ⟨neg, .inl rfl⟩
  | inf neg => exact ⟨neg, .inr rfl⟩

end Binary64

namespace Rfc8259

open CText Binary64 List

/-! ## 3. Letters outside of strings -/

def letterWeight (c : Char) : Int :=
  if c = 'a' then 1 else if c = 'f' then -1 else if c = 'i' then 2 else 0

def textWeight (t : Text) : Int := (t.map letterWeight).sum

/-- Where a scan of a JSON text stands. -/
inductive Place where
  | outside | inside | escaped

def weigh : Place → Text → Int
  | _, [] => 0
  | .outside, c :: t => if c = '"' then weigh .inside t else letterWeight c + weigh .outside t
  | .inside, c :: t =>
    if c = '"' then weigh .outside t
    else if c = '\\' then weigh .escaped t
    else weigh .inside t
  | .escaped, _ :: t => weigh .inside t

theorem textWeight_cons (c : Char) (t : Text) :
    textWeight (c :: t) = letterWeight c + textWeight t := by
  rw [textWeight, map_cons, List.sum_cons, textWeight]

variable {t : Text} {ts : List Text}

theorem textWeight_eq_zero (h : ∀ c ∈ t, letterWeight c = 0) : textWeight t = 0 := by
  induction t with
  | nil => rfl
  | cons c t ih =>
    rw [textWeight_cons, h c mem_cons_self, ih fun d hd => h d (mem_cons_of_mem _ hd)]
    rfl

theorem weigh_outside (ht : '"' ∉ t) (rest : Text) :
    weigh .outside (t ++ rest) = textWeight t + weigh .outside rest := by
  induction t with
  | nil =>
    exact (Int.zero_add _).symm
  | cons c t ih =>
    rw [mem_cons, not_or] at ht
    obtain ⟨hc, ht⟩ := ht
    rw [cons_append, weigh, if_neg (Ne.symm hc), ih ht, textWeight_cons, Int.add_assoc]

theorem weigh_ws (ws : Ws) (rest : Text) : weigh .outside (ws.1 ++ rest) = weigh .outside rest := by
  have hquote : '"' ∉ ws.1 := fun h => absurd (ws.2 _ h) (by decide)
  have hzero : textWeight ws.1 = 0 := by
    refine textWeight_eq_zero fun c hc => ?_
    have hws := ws.2 c hc
    simp only [isWs, Bool.or_eq_true, decide_eq_true_eq] at hws
    rcases hws with ((rfl | rfl) | rfl) | rfl <;> rfl
  rw [weigh_outside hquote, hzero, Int.zero_add]

theorem weigh_item (i : StrItem) (rest : Text) :
    weigh .inside (i.text ++ rest) = weigh .inside rest := by
  cases i with
  | plain c =>
    obtain ⟨c, hc⟩ := c
    simp only [isUnescaped, Bool.and_eq_true, decide_eq_true_eq] at hc
    rw [StrItem.text, singleton_append, weigh, if_neg hc.1.2, if_neg hc.2]
  | escape e => rfl
  | unicode q =>
    obtain ⟨digits, -, hex⟩ := q
    have hdigits : ∀ ds : Text, (∀ c ∈ ds, isxdigit c = true) →
        weigh .inside (ds ++ rest) = weigh .inside rest := by
      intro ds hds
      induction ds with
      | nil => rfl
      | cons d ds ih =>
        have hd := hds d mem_cons_self
        have hquote : d ≠ '"' := by rintro rfl; exact absurd hd (by decide)
        have hslash : d ≠ '\\' := by rintro rfl; exact absurd hd (by decide)
        rw [cons_append, weigh, if_neg hquote, if_neg hslash]
        exact ih fun c hc => hds c (mem_cons_of_mem _ hc)
    exact hdigits digits hex

theorem weigh_quoted (s : Str) (rest : Text) :
    weigh .outside (s.quoted ++ rest) = weigh .outside rest := by
  have hinside : weigh .inside (s.text ++ '"' :: rest) = weigh .outside rest := by
    induction s with
    | nil => rfl
    | cons i s ih => rw [Str.text_cons, append_assoc, weigh_item, ih]
  rw [Str.quoted, cons_append, append_assoc]
  exact hinside

theorem weigh_cons {c : Char} (hc : c ≠ '"' ∧ letterWeight c = 0) (rest : Text) :
    weigh .outside (c :: rest) = weigh .outside rest := by
  rw [weigh, if_neg hc.1, hc.2, Int.zero_add]

def weightSum (ts : List Text) : Int := (ts.map textWeight).sum

theorem weightSum_append (ss ts : List Text) :
    weightSum (ss ++ ts) = weightSum ss + weightSum ts := by
  rw [weightSum, map_append, List.sum_append, weightSum, weightSum]

mutual

/-- **A value weighs as much as its numbers.** -/
theorem weigh_value : ∀ (v : Value) (rest : Text), (∀ t ∈ v.numerals, '"' ∉ t) →
    weigh .outside (v.text ++ rest) = weightSum v.numerals + weigh .outside rest
  | .null, rest, _ => weigh_outside (t := ['n', 'u', 'l', 'l']) (by decide) rest
  | .bool true, rest, _ => weigh_outside (t := ['t', 'r', 'u', 'e']) (by decide) rest
  | .bool false, rest, _ => weigh_outside (t := ['f', 'a', 'l', 's', 'e']) (by decide) rest
  | .num t, rest, h => by
    rw [Value.text, weigh_outside (h t mem_cons_self)]
    simp [Value.numerals, weightSum]
  | .str s, rest, _ => (weigh_quoted s rest).trans (Int.zero_add _).symm
  | .emptyArr ws, rest, _ => by
    rw [Value.text, cons_append, append_assoc, weigh_cons (by decide), weigh_ws,
      singleton_append, weigh_cons (by decide)]
    exact (Int.zero_add _).symm
  | .arr es, rest, h => by
    rw [Value.text, cons_append, append_assoc, weigh_cons (by decide),
      weigh_elements es _ h, singleton_append, weigh_cons (by decide), Value.numerals]
  | .emptyObj ws, rest, _ => by
    rw [Value.text, cons_append, append_assoc, weigh_cons (by decide), weigh_ws,
      singleton_append, weigh_cons (by decide)]
    exact (Int.zero_add _).symm
  | .obj ms, rest, h => by
    rw [Value.text, cons_append, append_assoc, weigh_cons (by decide),
      weigh_members ms _ h, singleton_append, weigh_cons (by decide), Value.numerals]

theorem weigh_elements : ∀ (es : Elements) (rest : Text), (∀ t ∈ es.numerals, '"' ∉ t) →
    weigh .outside (es.text ++ rest) = weightSum es.numerals + weigh .outside rest
  | .one pre v post, rest, h => by
    rw [Elements.text, append_assoc, append_assoc, weigh_ws, weigh_value v _ h, weigh_ws,
      Elements.numerals]
  | .more pre v post es, rest, h => by
    simp only [Elements.text, append_assoc, cons_append]
    rw [weigh_ws, weigh_value v _ (fun t ht => h t (mem_append_left _ ht)), weigh_ws,
      weigh_cons (by decide), weigh_elements es _ (fun t ht => h t (mem_append_right _ ht)),
      Elements.numerals, weightSum_append, Int.add_assoc]

theorem weigh_members : ∀ (ms : Members) (rest : Text), (∀ t ∈ ms.numerals, '"' ∉ t) →
    weigh .outside (ms.text ++ rest) = weightSum ms.numerals + weigh .outside rest
  | .one pre key mid₁ mid₂ v post, rest, h => by
    simp only [Members.text, append_assoc, cons_append]
    rw [weigh_ws, weigh_quoted, weigh_ws, weigh_cons (by decide), weigh_ws, weigh_value v _ h,
      weigh_ws, Members.numerals]
  | .more pre key mid₁ mid₂ v post ms, rest, h => by
    simp only [Members.text, append_assoc, cons_append]
    rw [weigh_ws, weigh_quoted, weigh_ws, weigh_cons (by decide), weigh_ws,
      weigh_value v _ (fun t ht => h t (mem_append_left _ ht)), weigh_ws,
      weigh_cons (by decide), weigh_members ms _ (fun t ht => h t (mem_append_right _ ht)),
      Members.numerals, weightSum_append, Int.add_assoc]

end

/-! ## 4. Numbers and what is printed in their place -/

theorem weight_number (h : IsNumber t) : '"' ∉ t ∧ textWeight t = 0 := by
  obtain ⟨n, rfl⟩ := h
  refine ⟨fun hq => ?_, textWeight_eq_zero fun c hc => ?_⟩
  · rcases Number.mem_text hq with hq | hq <;> exact absurd hq (by decide)
  · rcases Number.mem_text hc with hc | hc
    · have hne : ∀ d, isdigit d = false → c ≠ d := by
        rintro d hd rfl
        rw [hc] at hd
        cases hd
      rw [letterWeight, if_neg (hne _ (by decide)), if_neg (hne _ (by decide)),
        if_neg (hne _ (by decide))]
    · simp only [mem_cons, not_mem_nil, or_false] at hc
      rcases hc with rfl | rfl | rfl | rfl | rfl <;> rfl

theorem weight_special (h : IsSpecial t) : '"' ∉ t ∧ textWeight t = 1 := by
  obtain ⟨neg, rfl | rfl⟩ := h <;> cases neg <;> decide

theorem weightSum_cons (t : Text) (ts : List Text) :
    weightSum (t :: ts) = textWeight t + weightSum ts := by
  rw [weightSum, map_cons, List.sum_cons, weightSum]

theorem weightSum_eq_zero (h : ∀ t ∈ ts, IsNumber t) : weightSum ts = 0 := by
  induction ts with
  | nil => rfl
  | cons t ts ih =>
    rw [weightSum_cons, (weight_number (h t mem_cons_self)).2,
      ih fun s hs => h s (mem_cons_of_mem _ hs)]
    rfl

theorem weightSum_nonneg (h : ∀ t ∈ ts, IsNumber t ∨ IsSpecial t) :
    0 ≤ weightSum ts ∧ (weightSum ts = 0 → ∀ t ∈ ts, IsNumber t) := by
  induction ts with
  | nil => exact ⟨Int.le_refl _, fun _ t ht => nomatch ht⟩
  | cons t ts ih =>
    obtain ⟨hnonneg, hall⟩ := ih fun s hs => h s (mem_cons_of_mem _ hs)
    rw [weightSum_cons]
    rcases h t mem_cons_self with ht | ht
    · rw [(weight_number ht).2, Int.zero_add]
      refine ⟨hnonneg, fun hzero s hs => ?_⟩
      rcases mem_cons.mp hs with rfl | hs
      · exact ht
      · exact hall hzero s hs
    · rw [(weight_special ht).2]; exact ⟨by omega, fun hzero => by omega⟩

/-- **Where every number of a value is of the grammar or `nan` or `inf`, its text is JSON only if
    all are of the grammar.** -/
theorem isJson_numerals {v : Value} (h : ∀ t ∈ v.numerals, IsNumber t ∨ IsSpecial t) :
    IsJson v.text ↔ ∀ t ∈ v.numerals, IsNumber t := by
  constructor
  · rintro ⟨d, hd, hnumbers⟩
    have hv := weigh_value v [] fun t ht =>
      (h t ht).elim (fun hn => (weight_number hn).1) fun hs => (weight_special hs).1
    have hd' : weigh .outside (d.text ++ []) = weightSum d.value.numerals := by
      have hvalue := weigh_value d.value (d.post.1 ++ []) fun t ht =>
        (weight_number (hnumbers t ht)).1
      rw [Document.text, append_assoc, append_assoc, weigh_ws, hvalue, weigh_ws]
      exact Int.add_zero _
    have hzero : weightSum d.value.numerals = 0 := weightSum_eq_zero hnumbers
    refine (weightSum_nonneg h).2 ?_
    rw [hd, hv] at hd'
    rw [← hzero, ← hd']
    exact (Int.add_zero _).symm
  · intro hnumbers
    refine ⟨⟨Ws.none, v, Ws.none⟩, ?_, hnumbers⟩
    simp [Document.text, Ws.none]

end Rfc8259
