/-
  Subject: C11 `strtod` in the "C" locale (7.22.1.3): the longest decimal, hexadecimal,
           infinity or NaN numeral at the start of a text, its double, and the text behind it.
-/
import Arksh.Lib.Binary64
import Arksh.Lib.Decimal

open CText List Option Bool

namespace Binary64

/-! ## 1. The function -/

def scaled (neg : Bool) (m b : Nat) (e : Int) : Binary64 :=
  ofRatio neg (m * b ^ e.toNat * unitsPerOne) (b ^ (-e).toNat)

/-- An optional exponent: a letter, an optional sign, digits. Without digits nothing is read. -/
def exponentPart (lower upper : Char) (s : Text) : Int × Text :=
  match s with
  | [] => (0, [])
  | c :: t =>
    if c = lower ∨ c = upper then
      match t with
      | [] => (0, s)
      | g :: t' =>
        let body := if g = '+' ∨ g = '-' then t' else t
        let ds := body.takeWhile isdigit
        if ds = [] then (0, s)
        else
          let v : Int := Nat.ofDigitChars 10 ds 0
          (if g = '-' then -v else v, body.dropWhile isdigit)
    else (0, s)

/-- Digits, optionally a point and more digits, at least one in all: those before and after the
    point, and the rest. -/
def pointed (digit : Char → Bool) (s : Text) : Option (Text × Text × Text) :=
  let int := s.takeWhile digit
  match s.dropWhile digit with
  | [] => if int = [] then none else some (int, [], [])
  | c :: t =>
    if c = '.' then
      let frac := t.takeWhile digit
      if int = [] ∧ frac = [] then none else some (int, frac, t.dropWhile digit)
    else if int = [] then none else some (int, [], c :: t)

def decimalNumeral (neg : Bool) (s : Text) : Option (Binary64 × Text) :=
  match pointed isdigit s with
  | none => none
  | some (int, frac, s) =>
    let (e, s) := exponentPart 'e' 'E' s
    some (scaled neg (Nat.ofDigitChars 10 (int ++ frac) 0) 10 (e - frac.length), s)

/-- A hexadecimal numeral, behind its `0x`. -/
def hexNumeral (neg : Bool) (s : Text) : Option (Binary64 × Text) :=
  match pointed isxdigit s with
  | none => none
  | some (int, frac, s) =>
    let (e, s) := exponentPart 'p' 'P' s
    some (scaled neg (hexValue (int ++ frac)) 2 (e - 4 * frac.length), s)

/-- Case-insensitive prefix: the text behind `word` (in lower case), if `s` starts with it. -/
def stripWord : Text → Text → Option Text
  | [], s => some s
  | _ :: _, [] => none
  | w :: word, c :: s => if c = w ∨ c = w.toUpper then stripWord word s else none

/-- The optional `(n-char-sequence)` behind `nan`. -/
def nanPayload (s : Text) : Text :=
  match s with
  | [] => []
  | c :: t =>
    if c = '(' then
      match t.dropWhile fun c => isalnum c || c = '_' with
      | [] => s
      | d :: rest => if d = ')' then rest else s
    else s

def infNan (neg : Bool) (s : Text) : Option (Binary64 × Text) :=
  match stripWord ['i', 'n', 'f'] s with
  | some t =>
    match stripWord ['i', 'n', 'i', 't', 'y'] t with
    | some r => some (.inf neg, r)
    | none => some (.inf neg, t)
  | none =>
    match stripWord ['n', 'a', 'n'] s with
    | some t => some (.nan neg, nanPayload t)
    | none => none

def unsignedNumeral (neg : Bool) (s : Text) : Option (Binary64 × Text) :=
  let hex := match s with
    | z :: x :: t => if z = '0' ∧ (x = 'x' ∨ x = 'X') then hexNumeral neg t else none
    | _ => none
  match hex with
  | some r => some r
  | none =>
    match decimalNumeral neg s with
    | some r => some r
    | none => infNan neg s

/-- `strtod(s, &end)`: the value and the text at `end`; `none` where no conversion is made
    (`end == s`). -/
def strtod (s : Text) : Option (Binary64 × Text) :=
  match s.dropWhile isspace with
  | [] => none
  | c :: t =>
    if c = '-' then unsignedNumeral true t
    else if c = '+' then unsignedNumeral false t
    else unsignedNumeral false (c :: t)

/-! ## 2. Where a numeral ends -/

def numeralChar (c : Char) : Bool :=
  isalnum c || c = '.' || c = '+' || c = '-' || c = '(' || c = ')' || c = '_'

/-- `rest` starts with a character no numeral contains, or is empty. -/
def Stops (rest : Text) : Prop := ∀ c t, rest = c :: t → numeralChar c = false

theorem Stops.ne {c d : Char} {t : Text} (h : Stops (c :: t)) (hd : numeralChar d = true) :
    c ≠ d := by
  rintro rfl
  rw [h c t rfl] at hd
  cases hd

theorem isdigit_of_stops (c : Char) (hc : numeralChar c = false) : isdigit c = false := by
  simp only [numeralChar, isalnum, or_eq_false_iff] at hc
  tauto

theorem isxdigit_of_stops (c : Char) (hc : numeralChar c = false) : isxdigit c = false := by
  simp only [numeralChar, isalnum, isalpha, or_eq_false_iff, and_eq_false_imp,
    decide_eq_true_eq, decide_eq_false_iff_not] at hc
  obtain ⟨⟨⟨⟨⟨⟨⟨⟨h1, h2⟩, h3⟩, _⟩, _⟩, _⟩, _⟩, _⟩, _⟩ := hc
  simp only [isxdigit, isdigit, or_eq_false_iff, and_eq_false_imp,
    decide_eq_true_eq, decide_eq_false_iff_not]
  have hf : ('f' : Char) ≤ 'z' := by decide
  have hF : ('F' : Char) ≤ 'Z' := by decide
  refine ⟨⟨?_, fun h h' => h1 h (Char.le_trans h' hf)⟩, fun h h' => h2 h (Char.le_trans h' hF)⟩
  simpa [isdigit] using h3

section Append

variable {rest : Text} (hr : Stops rest)

include hr

section

variable {p : Char → Bool} (hp : ∀ c, numeralChar c = false → p c = false) (s : Text)
include hp s

theorem run_append_stops :
    (s ++ rest).takeWhile p = s.takeWhile p ∧ (s ++ rest).dropWhile p = s.dropWhile p ++ rest := by
  refine run_append ?_ s
  intro c hc
  obtain ⟨t, ht⟩ := head?_eq_some_iff.mp hc
  exact hp c (hr c t ht)

theorem takeWhile_append_stops :
    (s ++ rest).takeWhile p = s.takeWhile p := (run_append_stops hr hp s).1

theorem dropWhile_append_stops :
    (s ++ rest).dropWhile p = s.dropWhile p ++ rest := (run_append_stops hr hp s).2

end

theorem pointed_append {digit : Char → Bool}
    (hp : ∀ c, numeralChar c = false → digit c = false) (s : Text) :
    pointed digit (s ++ rest) = (pointed digit s).map fun p => (p.1, p.2.1, p.2.2 ++ rest) := by
  unfold pointed
  rw [takeWhile_append_stops hr hp, dropWhile_append_stops hr hp]
  cases s.dropWhile digit with
  | nil =>
    cases rest with
    | nil => simp only [nil_append]; split <;> rfl
    | cons c t =>
      have hc : c ≠ '.' := hr.ne (by decide)
      simp only [nil_append, if_neg hc]
      split <;> rfl
  | cons c t =>
    simp only [cons_append, takeWhile_append_stops hr hp, dropWhile_append_stops hr hp]
    split <;> split <;> rfl

theorem exponentPart_append {l u : Char} (hl : numeralChar l = true) (hu : numeralChar u = true)
    (s : Text) :
    exponentPart l u (s ++ rest) = ((exponentPart l u s).1, (exponentPart l u s).2 ++ rest) := by
  have hd := isdigit_of_stops
  cases s with
  | nil =>
    cases rest with
    | nil => rfl
    | cons c t => simp [exponentPart, hr.ne hl, hr.ne hu]
  | cons c s =>
    by_cases hc : c = l ∨ c = u
    · cases s with
      | nil =>
        cases rest with
        | nil => simp [exponentPart, hc]
        | cons g t =>
          have hg : ¬ (g = '+' ∨ g = '-') := not_or.mpr ⟨hr.ne (by decide), hr.ne (by decide)⟩
          simp [exponentPart, hc, hg, hd g (hr g t rfl)]
      | cons g s =>
        simp only [exponentPart, cons_append, if_pos hc]
        have hbody : (if g = '+' ∨ g = '-' then s ++ rest else g :: (s ++ rest)) =
            (if g = '+' ∨ g = '-' then s else g :: s) ++ rest := by split <;> rfl
        rw [hbody, takeWhile_append_stops hr hd, dropWhile_append_stops hr hd]
        generalize (if g = '+' ∨ g = '-' then s else g :: s) = body
        by_cases hb : body.takeWhile isdigit = []
        · simp only [if_pos hb, cons_append]
        · simp only [if_neg hb]
    · simp [exponentPart, hc]

theorem stripWord_append {word : Text} (hw : ∀ c ∈ word, numeralChar c = true ∧
    numeralChar c.toUpper = true) (s : Text) :
    stripWord word (s ++ rest) = (stripWord word s).map (· ++ rest) := by
  induction word generalizing s with
  | nil => rfl
  | cons w word ih =>
    obtain ⟨h1, h2⟩ := hw w mem_cons_self
    cases s with
    | nil =>
      cases rest with
      | nil => rfl
      | cons c t => simp [stripWord, hr.ne h1, hr.ne h2]
    | cons c s =>
      simp only [cons_append, stripWord]
      rw [ih fun c hc => hw c (mem_cons_of_mem _ hc)]
      split <;> rfl

theorem nanPayload_append (s : Text) : nanPayload (s ++ rest) = nanPayload s ++ rest := by
  have hp : ∀ c, numeralChar c = false → (isalnum c || decide (c = '_')) = false := by
    intro c hc
    simp only [numeralChar, or_eq_false_iff] at hc
    simp [hc]
  cases s with
  | nil =>
    cases rest with
    | nil => rfl
    | cons c t => simp [nanPayload, hr.ne (show numeralChar '(' = true by decide)]
  | cons c s =>
    by_cases hc : c = '('
    · simp only [cons_append, nanPayload, if_pos hc, dropWhile_append_stops hr hp]
      cases s.dropWhile fun c => isalnum c || decide (c = '_') with
      | nil =>
        cases rest with
        | nil => rfl
        | cons d t => simp [hr.ne (show numeralChar ')' = true by decide)]
      | cons d s' =>
        simp only [cons_append]
        split <;> rfl
    · simp [nanPayload, hc]

section

variable (neg : Bool)

theorem decimalNumeral_append (s : Text) : decimalNumeral neg (s ++ rest) =
      (decimalNumeral neg s).map fun p => (p.1, p.2 ++ rest) := by
  unfold decimalNumeral
  rw [pointed_append hr isdigit_of_stops]
  cases pointed isdigit s with
  | none => rfl
  | some p =>
    simp only [map_some, exponentPart_append hr (l := 'e') (u := 'E') rfl rfl]

theorem hexNumeral_append (s : Text) :
    hexNumeral neg (s ++ rest) = (hexNumeral neg s).map fun p => (p.1, p.2 ++ rest) := by
  unfold hexNumeral
  rw [pointed_append hr isxdigit_of_stops]
  cases pointed isxdigit s with
  | none => rfl
  | some p =>
    simp only [map_some, exponentPart_append hr (l := 'p') (u := 'P') rfl rfl]

theorem infNan_append (s : Text) :
    infNan neg (s ++ rest) = (infNan neg s).map fun p => (p.1, p.2 ++ rest) := by
  unfold infNan
  rw [stripWord_append hr (forall_mem_of_all (by decide)),
    stripWord_append hr (forall_mem_of_all (by decide))]
  cases stripWord ['i', 'n', 'f'] s with
  | some t =>
    have hletters : ∀ c ∈ ['i', 'n', 'i', 't', 'y'],
        numeralChar c = true ∧ numeralChar c.toUpper = true :=
      forall_mem_of_all (by decide)
    have hw := stripWord_append hr hletters t
    simp only [map_some, hw]
    cases stripWord ['i', 'n', 'i', 't', 'y'] t <;> rfl
  | none =>
    cases stripWord ['n', 'a', 'n'] s with
    | some t => simp only [map_none, map_some, nanPayload_append hr]
    | none => rfl

theorem unsignedNumeral_append (s : Text) : unsignedNumeral neg (s ++ rest) =
      (unsignedNumeral neg s).map fun p => (p.1, p.2 ++ rest) := by
  unfold unsignedNumeral
  rw [decimalNumeral_append hr, infNan_append hr]
  have hhex : (match s ++ rest with
      | z :: x :: t => if z = '0' ∧ (x = 'x' ∨ x = 'X') then hexNumeral neg t else none
      | _ => none) = (match s with
      | z :: x :: t => if z = '0' ∧ (x = 'x' ∨ x = 'X') then hexNumeral neg t else none
      | _ => none).map fun p : Binary64 × Text => (p.1, p.2 ++ rest) := by
    match s with
    | [] =>
      match rest with
      | [] => rfl
      | [_] => rfl
      | z :: x :: t => simp [hr.ne (show numeralChar '0' = true by decide)]
    | [z] =>
      match rest with
      | [] => rfl
      | x :: t =>
        simp [hr.ne (show numeralChar 'x' = true by decide),
          hr.ne (show numeralChar 'X' = true by decide)]
    | z :: x :: t =>
      simp only [cons_append, hexNumeral_append hr]
      split <;> rfl
  simp only [hhex]
  generalize (match s with
      | z :: x :: t => if z = '0' ∧ (x = 'x' ∨ x = 'X') then hexNumeral neg t else none
      | _ => none) = hex
  cases hex with
  | some r => rfl
  | none => cases decimalNumeral neg s <;> rfl

end

/-- **A character no numeral contains ends the reading**: what stands behind it changes nothing. -/
theorem strtod_append {c : Char} (hc : isspace c = false) (s : Text) :
    strtod (c :: s ++ rest) = (strtod (c :: s)).map fun p => (p.1, p.2 ++ rest) := by
  have hd : ∀ t : Text, (c :: t).dropWhile isspace = c :: t := fun t => by simp [hc]
  unfold strtod
  rw [cons_append, hd, hd]
  dsimp only
  rw [← cons_append, unsignedNumeral_append hr, unsignedNumeral_append hr,
    unsignedNumeral_append hr]
  split
  · rfl
  · split <;> rfl

end Append

/-! ### What is left is a proper suffix -/

variable {s r : Text} {neg : Bool}

theorem pointed_suffix {digit : Char → Bool} {int frac : Text}
    (h : pointed digit s = some (int, frac, r)) : r <:+ s ∧ r.length < s.length := by
  have hlen := congrArg List.length (takeWhile_append_dropWhile (p := digit) (l := s))
  rw [length_append] at hlen
  unfold pointed at h
  have hsuf : s.dropWhile digit <:+ s := dropWhile_suffix digit
  generalize s.takeWhile digit = i at h hlen
  cases hd : s.dropWhile digit with
  | nil =>
    rw [hd] at h hsuf hlen
    dsimp only at h
    split at h
    · cases h
    · rename_i hi
      cases h
      have := length_pos_iff.mpr hi
      exact ⟨hsuf, by omega⟩
  | cons c t =>
    rw [hd] at h hsuf hlen
    dsimp only at h
    rw [length_cons] at hlen
    have ht : t <:+ s := (suffix_cons c t).trans hsuf
    split at h
    · have hf : t.dropWhile digit <:+ t := dropWhile_suffix digit
      split at h
      · cases h
      · cases h
        have := hf.length_le
        exact ⟨hf.trans ht, by omega⟩
    · split at h
      · cases h
      · rename_i hi
        cases h
        have := length_pos_iff.mpr hi
        exact ⟨hsuf, by rw [length_cons]; omega⟩

theorem exponentPart_suffix (l u : Char) (s : Text) : (exponentPart l u s).2 <:+ s := by
  cases s with
  | nil => exact suffix_refl _
  | cons c t =>
    unfold exponentPart
    dsimp only
    split
    · cases t with
      | nil => exact suffix_refl _
      | cons g t' =>
        have hbody : (if g = '+' ∨ g = '-' then t' else g :: t') <:+ c :: g :: t' := by
          split
          · exact (suffix_cons g t').trans (suffix_cons c _)
          · exact suffix_cons c _
        dsimp only
        generalize (if g = '+' ∨ g = '-' then t' else g :: t') = body at hbody ⊢
        by_cases hb : body.takeWhile isdigit = []
        · simp only [if_pos hb]; exact suffix_refl _
        · simp only [if_neg hb]; exact (dropWhile_suffix isdigit).trans hbody
    · exact suffix_refl _

theorem stripWord_suffix {word : Text} (h : stripWord word s = some r) :
    r <:+ s ∧ r.length + word.length = s.length := by
  induction word generalizing s with
  | nil => cases h; exact ⟨suffix_refl _, rfl⟩
  | cons w word ih =>
    cases s with
    | nil => cases h
    | cons c s =>
      unfold stripWord at h
      split at h
      · obtain ⟨h1, h2⟩ := ih h
        exact ⟨h1.trans (suffix_cons c s), by simp only [length_cons]; omega⟩
      · cases h

theorem nanPayload_suffix (s : Text) : nanPayload s <:+ s := by
  cases s with
  | nil => exact suffix_refl _
  | cons c t =>
    unfold nanPayload
    dsimp only
    split
    · have hsuf : (t.dropWhile fun c => isalnum c || decide (c = '_')) <:+ t := dropWhile_suffix _
      split
      · exact suffix_refl _
      · rename_i d rest hd
        rw [hd] at hsuf
        split
        · exact ((suffix_cons d rest).trans hsuf).trans (suffix_cons c t)
        · exact suffix_refl _
    · exact suffix_refl _

variable {v : Binary64}

theorem decimalNumeral_suffix (h : decimalNumeral neg s = some (v, r)) :
    r <:+ s ∧ r.length < s.length := by
  unfold decimalNumeral at h
  split at h
  · cases h
  · rename_i int frac t ht
    obtain ⟨h1, h2⟩ := pointed_suffix ht
    have he := exponentPart_suffix 'e' 'E' t
    cases h
    exact ⟨he.trans h1, lt_of_le_of_lt he.length_le h2⟩

theorem hexNumeral_suffix (h : hexNumeral neg s = some (v, r)) : r <:+ s ∧ r.length < s.length := by
  unfold hexNumeral at h
  split at h
  · cases h
  · rename_i int frac t ht
    obtain ⟨h1, h2⟩ := pointed_suffix ht
    have he := exponentPart_suffix 'p' 'P' t
    cases h
    exact ⟨he.trans h1, lt_of_le_of_lt he.length_le h2⟩

theorem infNan_suffix (h : infNan neg s = some (v, r)) : r <:+ s ∧ r.length < s.length := by
  unfold infNan at h
  split at h
  · rename_i t ht
    obtain ⟨h1, h2⟩ := stripWord_suffix ht
    rw [show (['i', 'n', 'f'] : Text).length = 3 from rfl] at h2
    split at h
    · rename_i r' hr'
      obtain ⟨h3, h4⟩ := stripWord_suffix hr'
      cases h
      exact ⟨h3.trans h1, by have := h3.length_le; omega⟩
    · cases h; exact ⟨h1, by omega⟩
  · split at h
    · rename_i t ht
      obtain ⟨h1, h2⟩ := stripWord_suffix ht
      rw [show (['n', 'a', 'n'] : Text).length = 3 from rfl] at h2
      have h3 := nanPayload_suffix t
      cases h
      exact ⟨h3.trans h1, by have := h3.length_le; omega⟩
    · cases h

theorem unsignedNumeral_suffix (h : unsignedNumeral neg s = some (v, r)) :
    r <:+ s ∧ r.length < s.length := by
  unfold unsignedNumeral at h
  dsimp only at h
  split at h
  · rename_i p hp
    cases h
    split at hp
    · rename_i z x t
      split at hp
      · obtain ⟨h1, h2⟩ := hexNumeral_suffix hp
        have h3 : t <:+ z :: x :: t := (suffix_cons x t).trans (suffix_cons z _)
        exact ⟨h1.trans h3, lt_of_lt_of_le h2 h3.length_le⟩
      · cases hp
    · cases hp
  · split at h
    · rename_i p hp
      cases h
      exact decimalNumeral_suffix hp
    · exact infNan_suffix h

/-- **What `strtod` leaves is a proper suffix of the text.** -/
theorem strtod_suffix (h : strtod s = some (v, r)) : r <:+ s ∧ r.length < s.length := by
  unfold strtod at h
  have hs : s.dropWhile isspace <:+ s := dropWhile_suffix isspace
  split at h
  · cases h
  · rename_i c t hd
    rw [hd] at hs
    have ht : t <:+ c :: t := suffix_cons c t
    have key : r <:+ c :: t ∧ r.length < (c :: t).length := by
      split at h
      · obtain ⟨h1, h2⟩ := unsignedNumeral_suffix h
        exact ⟨h1.trans ht, lt_of_lt_of_le h2 ht.length_le⟩
      · split at h
        · obtain ⟨h1, h2⟩ := unsignedNumeral_suffix h
          exact ⟨h1.trans ht, lt_of_lt_of_le h2 ht.length_le⟩
        · exact unsignedNumeral_suffix h
    exact ⟨key.1.trans hs, lt_of_lt_of_le key.2 hs.length_le⟩

/-! ## 3. Whole numbers -/

theorem strtod_of_isdigit {c : Char} (hc : isdigit c = true) (t : Text) :
    strtod (c :: t) = unsignedNumeral false (c :: t) := by
  have h1 : c ≠ '-' := by rintro rfl; exact absurd hc (by decide)
  have h2 : c ≠ '+' := by rintro rfl; exact absurd hc (by decide)
  simp [strtod, isspace_of_isdigit hc, h1, h2]

theorem strtod_minus (t : Text) : strtod ('-' :: t) = unsignedNumeral true t := by
  simp [strtod, isspace]

theorem unsignedNumeral_decimal {neg : Bool} {r : Binary64 × Text}
    (hx : ∀ x t, s = '0' :: x :: t → x ≠ 'x' ∧ x ≠ 'X') (h : decimalNumeral neg s = some r) :
    unsignedNumeral neg s = some r := by
  unfold unsignedNumeral
  rw [h]
  match s with
  | [] => rfl
  | [_] => rfl
  | z :: x :: t =>
    by_cases hz : z = '0'
    · subst hz
      have := hx x t rfl
      simp [this]
    · simp [hz]

theorem decimalNumeral_whole (neg : Bool) (n : Nat) :
    decimalNumeral neg (Nat.toDigits 10 n) = some (whole neg n, []) := by
  have hall : ∀ c ∈ Nat.toDigits 10 n, isdigit c = true := fun c => isdigit_of_mem_toDigits
  have hp : pointed isdigit (Nat.toDigits 10 n) = some (Nat.toDigits 10 n, [], []) := by
    simp only [pointed, takeWhile_eq_self_iff.mpr hall, dropWhile_eq_nil_iff.mpr hall,
      if_neg Nat.toDigits_ne_nil]
  rw [decimalNumeral, hp]
  simp only [exponentPart, append_nil, Nat.ofDigitChars_ten_toDigits, scaled, whole,
    wholeUnits, length_nil, Nat.cast_zero, sub_zero, neg_zero, Int.toNat_zero, pow_zero,
    Nat.mul_one]

/-- **The decimal digits of a whole number read as that number.** -/
theorem strtod_whole (neg : Bool) (n : Nat) :
    strtod (signText neg ++ Nat.toDigits 10 n) = some (whole neg n, []) := by
  have hu : ∀ b, unsignedNumeral b (Nat.toDigits 10 n) = some (whole b n, []) := fun b => by
    refine unsignedNumeral_decimal (fun x t h => ?_) (decimalNumeral_whole b n)
    have hx : isdigit x = true := isdigit_of_mem_toDigits (n := n) (by rw [h]; simp)
    constructor <;> rintro rfl <;> exact absurd hx (by decide)
  cases neg with
  | true => simpa [signText, strtod_minus] using hu true
  | false =>
    have := hu false
    obtain ⟨c, t, hct⟩ := exists_cons_of_ne_nil (Nat.toDigits_ne_nil (n := n) (b := 10))
    have hc : isdigit c = true := isdigit_of_mem_toDigits (n := n) (by rw [hct]; simp)
    rw [hct] at this ⊢
    simpa [signText, strtod_of_isdigit hc] using this

end Binary64
