/-
  Subject: Decimal numerals: what `printf` writes with `%lld`, and what `strtoll` reads.
-/
import Arksh.Lib.Strtoll
import Mathlib.Tactic.Ring

namespace CText

open List Nat

/-! ## 1. Digits -/

variable {c : Char} {n : Nat} {t : Text} {v : Int}

theorem isspace_of_isdigit (h : isdigit c = true) : isspace c = false := by
  simp only [isdigit, Bool.and_eq_true, decide_eq_true_eq] at h
  obtain ⟨h1, -⟩ := h
  simp only [isspace, Bool.or_eq_false_iff, decide_eq_false_iff_not]
  refine ⟨⟨⟨⟨⟨?_, ?_⟩, ?_⟩, ?_⟩, ?_⟩, ?_⟩ <;> rintro rfl <;> exact absurd h1 (by decide)

theorem isalpha_of_isdigit (h : isdigit c = true) : isalpha c = false := by
  simp only [isdigit, Bool.and_eq_true, decide_eq_true_eq] at h
  simp only [isalpha, Bool.or_eq_false_iff, Bool.and_eq_false_imp, decide_eq_true_eq,
    decide_eq_false_iff_not]
  have ha : ¬ ('a' : Char) ≤ '9' := by decide
  have hA : ¬ ('A' : Char) ≤ '9' := by decide
  exact ⟨fun hle => absurd (Char.le_trans hle h.2) ha, fun hle => absurd (Char.le_trans hle h.2) hA⟩

theorem isdigit_of_mem_toDigits {n : Nat} {c : Char} (h : c ∈ toDigits 10 n) :
    isdigit c = true := by
  exact isDigit_of_mem_toDigits (by decide) (by decide) h

variable {ds : Text}

theorem ofDigitChars_lt (h : ∀ c ∈ ds, isdigit c = true) :
    ofDigitChars 10 ds 0 < 10 ^ ds.length := by
  induction ds with
  | nil => simp
  | cons c ds ih =>
    have hc := h c mem_cons_self
    have hlt : c.toNat - '0'.toNat < 10 := by
      simp only [isdigit, Bool.and_eq_true, decide_eq_true_eq, Char.le_def, UInt32.le_iff_toNat_le] at hc
      have h9 : '9'.val.toNat = 57 := rfl
      have h0 : '0'.toNat = 48 := rfl
      have hn : c.toNat = c.val.toNat := rfl
      omega
    have hds := ih fun d hd => h d (mem_cons_of_mem _ hd)
    rw [ofDigitChars_cons, ofDigitChars_eq_ofDigitChars_zero, length_cons, pow_succ]
    have hmul : 10 ^ ds.length * (10 * 0 + (c.toNat - '0'.toNat)) ≤ 10 ^ ds.length * 9 :=
      mul_le_mul_left _ (by omega)
    omega

theorem toDigits_noLeadingZero (h : toDigits 10 n = '0' :: t) : t = [] := by
  by_contra hne
  have hpos : 0 < t.length := length_pos_iff.mpr hne
  have hdig : ∀ c ∈ t, isdigit c = true := by
    intro c hc
    exact @isdigit_of_mem_toDigits n c (by rw [h]; exact mem_cons_of_mem _ hc)
  have hval : ofDigitChars 10 t 0 = n := by
    have := @ofDigitChars_ten_toDigits n
    rw [h, ofDigitChars_cons] at this
    exact this
  have hlt := ofDigitChars_lt hdig
  rw [hval] at hlt
  have hlen := (length_toDigits_le_iff (b := 10) (by decide) hpos).mpr hlt
  rw [h, length_cons] at hlen
  omega

/-! ## 2. Numerals -/

theorem digitsValue_eq (h : ∀ c ∈ ds, isdigit c = true) :
    digitsValue 10 ds = ofDigitChars 10 ds 0 := by
  have hfold : ∀ v, ds.foldl (fun v c => 10 * v + hexDigitValue c) v = ofDigitChars 10 ds v := by
    induction ds with
    | nil => intro v; simp
    | cons c ds ih =>
      intro v
      have hc := h c mem_cons_self
      have hds := ih fun d hd => h d (mem_cons_of_mem _ hd)
      have hvalue : hexDigitValue c = c.toNat - '0'.toNat := by simp [hexDigitValue, hc]
      rw [foldl_cons, hds, hvalue, ofDigitChars_cons]
  exact hfold 0

theorem digitsValue_toDigits (n : Nat) : digitsValue 10 (toDigits 10 n) = n := by
  rw [digitsValue_eq fun c => isdigit_of_mem_toDigits, ofDigitChars_ten_toDigits]

/-- What follows a numeral and is not part of it. -/
def EndsNumeral (rest : Text) : Prop := ∀ c ∈ rest.head?, isalnum c = false

theorem takeWhile_append_stop {p : Char → Bool} {ds rest : Text} (hds : ∀ c ∈ ds, p c = true)
    (hrest : ∀ c ∈ rest.head?, p c = false) :
    (ds ++ rest).takeWhile p = ds ∧ (ds ++ rest).dropWhile p = rest := by
  obtain ⟨htake, hdrop⟩ := run_append hrest ds
  rw [htake, hdrop, takeWhile_eq_self_iff.mpr hds, dropWhile_eq_nil_iff.mpr hds]
  exact ⟨rfl, rfl⟩

variable {rest : Text}

theorem EndsNumeral.isdigit (h : EndsNumeral rest) : ∀ c ∈ rest.head?, isdigit c = false := by
  intro c hc
  have halnum := h c hc
  simp only [isalnum, Bool.or_eq_false_iff] at halnum
  exact halnum.2

theorem unsignedNumeral_toDigits (n : Nat) (hrest : EndsNumeral rest) :
    unsignedNumeral (toDigits 10 n ++ rest) = some (n, rest) := by
  have hdigits : ∀ c ∈ toDigits 10 n, isdigit c = true := fun c => isdigit_of_mem_toDigits
  cases hds : toDigits 10 n with
  | nil => exact absurd hds toDigits_ne_nil
  | cons d ds =>
    by_cases hd : d = '0'
    · -- a zero is a numeral in base 8 of no further digit
      subst hd
      obtain rfl := toDigits_noLeadingZero hds
      have hn : n = 0 := by
        have hvalue := digitsValue_toDigits n
        rw [hds] at hvalue
        exact hvalue.symm
      have hoct : ∀ c ∈ rest.head?, isoctdigit c = false := by
        intro c hc
        by_contra h
        have hdigit := isdigit_of_isoctdigit (Bool.eq_true_of_not_eq_false h)
        rw [hrest.isdigit c hc] at hdigit
        cases hdigit
      obtain ⟨htake, hdrop⟩ := @takeWhile_append_stop isoctdigit [] rest (by simp) hoct
      rw [hn]
      match rest, hrest, htake, hdrop with
      | [], _, _, _ => rfl
      | [x], _, htake, hdrop =>
        rw [nil_append] at htake hdrop
        simp only [singleton_append, unsignedNumeral, htake, hdrop]
        rfl
      | x :: h :: rest, hrest, htake, hdrop =>
        rw [nil_append] at htake hdrop
        have hx : ¬ (x = 'x' ∨ x = 'X') := by
          have halnum := hrest x (by simp)
          rintro (rfl | rfl) <;> exact absurd halnum (by decide)
        simp only [singleton_append, unsignedNumeral, hx, false_and, if_false, htake, hdrop]
        rfl
    · rw [hds] at hdigits
      have hvalue := digitsValue_toDigits n
      rw [hds] at hvalue
      obtain ⟨htake, hdrop⟩ := takeWhile_append_stop hdigits hrest.isdigit
      rw [cons_append] at htake hdrop ⊢
      have hfirst := hdigits d mem_cons_self
      unfold unsignedNumeral
      split
      · rename_i heq; exact absurd (cons.inj heq).1 hd
      · rename_i heq; exact absurd (cons.inj heq).1 hd
      · rename_i heq
        obtain ⟨rfl, rfl⟩ := cons.inj heq
        rw [if_pos hfirst, htake, hdrop, hvalue]
      · rename_i heq; cases heq

/-- **The digits of a number are read as that number, as far as a `long long` goes.** -/
theorem strtoll_toDigits (n : Nat) (hrest : EndsNumeral rest) :
    strtoll (toDigits 10 n ++ rest) = (clamp n, rest) := by
  have hnumeral := unsignedNumeral_toDigits n hrest
  cases hds : toDigits 10 n with
  | nil => exact absurd hds toDigits_ne_nil
  | cons d ds =>
    have hd : isdigit d = true := isdigit_of_mem_toDigits (n := n) (by simp [hds])
    have hspace := isspace_of_isdigit hd
    rw [hds] at hnumeral
    rw [cons_append] at hnumeral ⊢
    unfold strtoll
    rw [dropWhile_cons_of_neg (by simp [hspace])]
    dsimp only
    split
    · rename_i heq
      cases heq
      exact absurd hd (by decide)
    · rename_i heq
      cases heq
      exact absurd hd (by decide)
    · rw [hnumeral]; rfl

/-- What `%lld` prints. -/
def decimal (v : Int) : Text := (if v < 0 then ['-'] else []) ++ toDigits 10 v.natAbs

theorem clamp_of_inRange (h : InRange v) : clamp v = v := by
  unfold InRange at h
  unfold clamp
  omega

/-- **Every `long long` is read from its numeral.** -/
theorem strtoll_decimal (h : InRange v) : strtoll (decimal v) = (v, []) := by
  have hends : EndsNumeral [] := by intro c hc; cases hc
  unfold decimal
  by_cases hneg : v < 0
  · have hnumeral := unsignedNumeral_toDigits v.natAbs hends
    have habs : -(v.natAbs : Int) = v := by omega
    rw [append_nil] at hnumeral
    rw [if_pos hneg, singleton_append]
    unfold strtoll
    rw [dropWhile_cons_of_neg (by decide)]
    simp only [hnumeral, if_true, habs, clamp_of_inRange h]
  · have habs : (v.natAbs : Int) = v := by omega
    have hread := strtoll_toDigits v.natAbs hends
    rw [append_nil, habs, clamp_of_inRange h] at hread
    rw [if_neg hneg, nil_append]
    exact hread

/-- A small number is read from its numeral. -/
theorem atoiSigned_decimal (h : n < 2 ^ 31) : atoiSigned (decimal n) = n := by
  have hdigits : ∀ c ∈ toDigits 10 n, isdigit c = true := fun c => isdigit_of_mem_toDigits
  have htext : decimal n = toDigits 10 n := by
    rw [decimal, if_neg (by omega), nil_append, Int.natAbs_natCast]
  have hvalue : (clamp (n : Int)).bmod (2 ^ 32) = n := by
    rw [clamp_of_inRange (by unfold InRange; omega)]
    exact Int.bmod_eq_of_le (by omega) (by omega)
  have hread := digitsValue_toDigits n
  rw [htext]
  cases hds : toDigits 10 n with
  | nil => exact absurd hds toDigits_ne_nil
  | cons d ds =>
    rw [hds] at hdigits hread
    have hd := hdigits d mem_cons_self
    have hspace := isspace_of_isdigit hd
    unfold atoiSigned
    rw [dropWhile_cons_of_neg (by rw [hspace]; decide)]
    split
    next heq => obtain ⟨rfl, -⟩ := cons.inj heq; exact absurd hd (by decide)
    next heq => obtain ⟨rfl, -⟩ := cons.inj heq; exact absurd hd (by decide)
    · dsimp only
      rw [takeWhile_eq_self_iff.mpr hdigits, hread]
      exact hvalue

/-! ## 3. Numerals with leading zeros -/

inductive DecimalInteger : Text → Int → Prop where
  | unsigned {ds : Text} : ds ≠ [] → (∀ c ∈ ds, isdigit c = true) →
      DecimalInteger ds (digitsValue 10 ds)
  | plus {ds : Text} : ds ≠ [] → (∀ c ∈ ds, isdigit c = true) →
      DecimalInteger ('+' :: ds) (digitsValue 10 ds)
  | minus {ds : Text} : ds ≠ [] → (∀ c ∈ ds, isdigit c = true) →
      DecimalInteger ('-' :: ds) (-digitsValue 10 ds)

theorem digitsValue_concat (base : Nat) (ds : Text) (c : Char) :
    digitsValue base (ds ++ [c]) = base * digitsValue base ds + hexDigitValue c := by
  simp [digitsValue]

theorem hexDigitValue_of_isdigit (h : isdigit c = true) :
    hexDigitValue c = c.toNat - '0'.toNat := by
  simp [hexDigitValue, h]

theorem isoctdigit_iff (h : isdigit c = true) : isoctdigit c = true ↔ hexDigitValue c < 8 := by
  rw [hexDigitValue_of_isdigit h]
  simp only [isdigit, Bool.and_eq_true, decide_eq_true_eq, Char.le_def, UInt32.le_iff_toNat_le] at h
  simp only [isoctdigit, Bool.and_eq_true, decide_eq_true_eq, Char.le_def, UInt32.le_iff_toNat_le]
  have h7 : '7'.val.toNat = 55 := rfl
  have h0 : '0'.toNat = 48 := rfl
  have hn : c.toNat = c.val.toNat := rfl
  omega

theorem digitsValue_octal (h : ∀ c ∈ ds, isoctdigit c = true) :
    (digitsValue 10 ds < 8 → digitsValue 8 ds = digitsValue 10 ds) ∧
    (8 ≤ digitsValue 10 ds → digitsValue 8 ds < digitsValue 10 ds) := by
  induction ds using List.reverseRecOn with
  | nil => simp [digitsValue]
  | append_singleton ds c ih =>
    have hc := h c (by simp)
    have hlt := (isoctdigit_iff (isdigit_of_isoctdigit hc)).mp hc
    have hds := ih fun d hd => h d (mem_append_left _ hd)
    rw [digitsValue_concat, digitsValue_concat]
    omega

theorem digitsValue_of_not_octal (hds : ∀ c ∈ ds, isdigit c = true)
    (h : ∃ c ∈ ds, isoctdigit c = false) : 8 ≤ digitsValue 10 ds := by
  induction ds using List.reverseRecOn with
  | nil => simp at h
  | append_singleton ds c ih =>
    rw [digitsValue_concat]
    obtain ⟨d, hd, hoct⟩ := h
    rcases mem_append.mp hd with hd | hd
    · have := ih (fun d hd => hds d (mem_append_left _ hd)) ⟨d, hd, hoct⟩; omega
    · obtain rfl := mem_singleton.mp hd
      have hge : ¬ hexDigitValue d < 8 := by rw [← isoctdigit_iff (hds d (by simp)), hoct]; simp
      omega

theorem unsignedNumeral_zero (ht : ∀ c ∈ t, isdigit c = true) :
    unsignedNumeral ('0' :: t) = some (digitsValue 8 (t.takeWhile isoctdigit),
      t.dropWhile isoctdigit) := by
  match t, ht with
  | [], _ => rfl
  | [x], _ => rfl
  | x :: h :: t, ht =>
    have hx : ¬ (x = 'x' ∨ x = 'X') := by
      have hdigit := ht x (by simp)
      rintro (rfl | rfl) <;> exact absurd hdigit (by decide)
    simp only [unsignedNumeral, hx, false_and, if_false]

theorem unsignedNumeral_digits {d : Char} (hd : d ≠ '0') (h : ∀ c ∈ d :: ds, isdigit c = true) :
    unsignedNumeral (d :: ds) = some (digitsValue 10 (d :: ds), []) := by
  obtain ⟨htake, hdrop⟩ := @takeWhile_append_stop isdigit (d :: ds) [] h (by simp)
  rw [append_nil] at htake hdrop
  unfold unsignedNumeral
  split
  · rename_i heq; exact absurd (cons.inj heq).1 hd
  · rename_i heq; exact absurd (cons.inj heq).1 hd
  · rename_i heq
    obtain ⟨rfl, rfl⟩ := cons.inj heq
    rw [if_pos (h d mem_cons_self), htake, hdrop]
  · rename_i heq; cases heq

def LeadingZero (text : Text) : Prop :=
  ∃ sign c t, text = sign ++ '0' :: c :: t ∧ (sign = [] ∨ sign = ['+'] ∨ sign = ['-'])

theorem unsignedNumeral_cases (hne : ds ≠ []) (hds : ∀ c ∈ ds, isdigit c = true) :
    ∃ m rest, unsignedNumeral ds = some (m, rest) ∧ (∀ c ∈ rest, isdigit c = true) ∧
      (m = digitsValue 10 ds ∧ rest = [] ∧ ((∃ c t, ds = '0' :: c :: t) → digitsValue 10 ds < 8) ∨
        (∃ c t, ds = '0' :: c :: t) ∧ 8 ≤ digitsValue 10 ds ∧
          (rest = [] → m < digitsValue 10 ds)) := by
  obtain ⟨d, t, rfl⟩ := exists_cons_of_ne_nil hne
  by_cases hd : d = '0'
  · subst hd
    have ht : ∀ c ∈ t, isdigit c = true := fun c hc => hds c (mem_cons_of_mem _ hc)
    have hvalue : digitsValue 10 ('0' :: t) = digitsValue 10 t := rfl
    have hrest : ∀ c ∈ t.dropWhile isoctdigit, isdigit c = true :=
      fun c hc => ht c ((dropWhile_suffix _).subset hc)
    refine ⟨_, _, unsignedNumeral_zero ht, hrest, ?_⟩
    rw [hvalue]
    by_cases hoct : ∀ c ∈ t, isoctdigit c = true
    · obtain ⟨hsmall, hlarge⟩ := digitsValue_octal hoct
      rw [takeWhile_eq_self_iff.mpr hoct, dropWhile_eq_nil_iff.mpr hoct]
      by_cases hlt : digitsValue 10 t < 8
      · exact .inl ⟨hsmall hlt, rfl, fun _ => hlt⟩
      · refine .inr ⟨?_, not_lt.mp hlt, fun _ => hlarge (not_lt.mp hlt)⟩
        cases t with
        | nil => exact absurd (by decide) hlt
        | cons c t => exact ⟨c, t, rfl⟩
    · have hother : ∃ c ∈ t, isoctdigit c = false := by
        simpa using hoct
      obtain ⟨c, hc, hfalse⟩ := hother
      refine .inr ⟨?_, digitsValue_of_not_octal ht ⟨c, hc, hfalse⟩, fun hnil => ?_⟩
      · cases t with
        | nil => cases hc
        | cons c t => exact ⟨c, t, rfl⟩
      · have hall := dropWhile_eq_nil_iff.mp hnil c hc
        rw [hfalse] at hall
        cases hall
  · refine ⟨_, _, unsignedNumeral_digits hd hds, by simp, .inl ⟨rfl, rfl, ?_⟩⟩
    intro ⟨c, u, heq⟩
    exact absurd (cons.inj heq).1 hd

/-- What is read of a number behind a sign, compared with what it is worth. -/
theorem numeral_eq_iff (neg : Bool) {zero : Prop} {m : Nat} (hrest : ∀ c ∈ rest, isdigit c = true)
    (hcases : m = n ∧ rest = [] ∧ (zero → n < 8) ∨ zero ∧ 8 ≤ n ∧ (rest = [] → m < n)) :
    (if rest.dropWhile isspace = [] then clamp (if neg then -m else m) else 0) =
        (if neg then -n else n : Int) ↔ InRange (if neg then -n else n) ∧ (zero → n < 8) := by
  have hdrop : rest.dropWhile isspace = [] ↔ rest = [] := by
    cases rest with
    | nil => simp
    | cons c rest => have hspace := isspace_of_isdigit (hrest c (by simp)); simp [hspace]
  simp only [hdrop]
  rcases hcases with ⟨rfl, rfl, hsmall⟩ | ⟨hzero, hlarge, hless⟩
  · rw [if_pos rfl, and_iff_left hsmall]
    constructor
    · intro heq
      rw [← heq]
      exact clamp_inRange _
    · exact clamp_of_inRange
  · refine iff_of_false (fun heq => ?_) fun hsmall =>
      absurd (hsmall.2 hzero) (not_lt.mpr hlarge)
    by_cases hnil : rest = []
    · have hm := hless hnil
      unfold clamp at heq
      split at heq <;> omega
    · rw [if_neg hnil] at heq
      split at heq <;> omega

theorem leadingZero_iff {sign : Text} (hsign : sign = [] ∨ sign = ['+'] ∨ sign = ['-'])
    (hds : ∀ c ∈ ds, isdigit c = true) : LeadingZero (sign ++ ds) ↔ ∃ c t, ds = '0' :: c :: t := by
  have hfirst : ∀ {c : Char} {u : Text}, ds = c :: u → isdigit c = true := by
    rintro c u rfl
    exact hds c (by simp)
  constructor
  · intro ⟨sign', c, t, heq, hsign'⟩
    refine ⟨c, t, ?_⟩
    rcases hsign with rfl | rfl | rfl <;> rcases hsign' with rfl | rfl | rfl
    all_goals simp only [nil_append, cons_append, cons.injEq] at heq
    all_goals first
      | exact heq
      | exact heq.2
      | exact absurd (hfirst heq) (by decide)
      | exact absurd heq.1 (by decide)
  · rintro ⟨c, t, rfl⟩; exact ⟨sign, c, t, rfl, hsign⟩

theorem strtoll_digits (hne : ds ≠ []) (hds : ∀ c ∈ ds, isdigit c = true) {m : Nat}
    (h : unsignedNumeral ds = some (m, rest)) :
    strtoll ds = (clamp m, rest) ∧ strtoll ('+' :: ds) = (clamp m, rest) ∧
      strtoll ('-' :: ds) = (clamp (-m), rest) := by
  obtain ⟨d, t, rfl⟩ := exists_cons_of_ne_nil hne
  have hd := hds d (by simp)
  have hspace := isspace_of_isdigit hd
  refine ⟨?_, ?_, ?_⟩
  · unfold strtoll
    rw [dropWhile_cons_of_neg (by simp [hspace])]
    dsimp only
    split
    · rename_i heq
      cases heq
      exact absurd hd (by decide)
    · rename_i heq
      cases heq
      exact absurd hd (by decide)
    · rw [h]; rfl
  · unfold strtoll
    rw [dropWhile_cons_of_neg (by decide)]
    simp [h]
  · unfold strtoll
    rw [dropWhile_cons_of_neg (by decide)]
    simp [h]

/-- **A decimal integer is read for what it is worth exactly if 64 bits hold it and it has no
    leading zero, or is below 8.** -/
theorem strtoll_decimalInteger {text : Text} {d : Int} (h : DecimalInteger text d) :
    (if (strtoll text).2.dropWhile isspace = [] then (strtoll text).1 else 0) = d ↔
      InRange d ∧ (LeadingZero text → d.natAbs < 8) := by
  cases h with
  | unsigned hne hds =>
    obtain ⟨m, rest, hnumeral, hrest, hcases⟩ := unsignedNumeral_cases hne hds
    have hzero := leadingZero_iff (.inl rfl) hds
    rw [nil_append] at hzero
    rw [(strtoll_digits hne hds hnumeral).1, hzero, Int.natAbs_natCast]
    exact numeral_eq_iff false hrest hcases
  | @plus ds hne hds =>
    obtain ⟨m, rest, hnumeral, hrest, hcases⟩ := unsignedNumeral_cases hne hds
    have hzero : LeadingZero ('+' :: ds) ↔ _ := leadingZero_iff (.inr (.inl rfl)) hds
    rw [(strtoll_digits hne hds hnumeral).2.1, hzero, Int.natAbs_natCast]
    exact numeral_eq_iff false hrest hcases
  | @minus ds hne hds =>
    obtain ⟨m, rest, hnumeral, hrest, hcases⟩ := unsignedNumeral_cases hne hds
    have hzero : LeadingZero ('-' :: ds) ↔ _ := leadingZero_iff (.inr (.inr rfl)) hds
    rw [(strtoll_digits hne hds hnumeral).2.2, hzero, Int.natAbs_neg, Int.natAbs_natCast]
    exact numeral_eq_iff true hrest hcases

end CText
