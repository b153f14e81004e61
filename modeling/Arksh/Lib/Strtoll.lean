/-
  Subject: C11 `strtoll` in base 0 (7.22.1.4), for a `long long` of 64 bits.
-/
import Arksh.Lib.Text
import Mathlib.Algebra.Group.Int.Defs
import Mathlib.Algebra.Group.Nat.Defs
import Mathlib.Data.List.TakeWhile

namespace CText

open List Bool

/-! ## 1. Sixty-four bits -/

/-- The values of a `long long`. -/
def InRange (v : Int) : Prop := -2 ^ 63 ≤ v ∧ v < 2 ^ 63

instance (v : Int) : Decidable (InRange v) := inferInstanceAs (Decidable (_ ∧ _))

/-- The nearest `long long`. -/
def clamp (v : Int) : Int := max (-2 ^ 63) (min (2 ^ 63 - 1) v)

theorem clamp_inRange (v : Int) : InRange (clamp v) := by
  unfold InRange clamp
  omega

/-! ## 2. The function -/

def isoctdigit (c : Char) : Bool := '0' ≤ c && c ≤ '7'

def digitsValue (base : Nat) (ds : Text) : Nat := ds.foldl (fun v c => base * v + hexDigitValue c) 0

/-- A numeral without a sign: hexadecimal behind `0x`, octal behind `0`, or else decimal. -/
def unsignedNumeral (t : Text) : Option (Nat × Text) :=
  match t with
  | '0' :: x :: h :: t =>
    if (x = 'x' ∨ x = 'X') ∧ isxdigit h then
      some (digitsValue 16 ((h :: t).takeWhile isxdigit), (h :: t).dropWhile isxdigit)
    else
      some (digitsValue 8 ((x :: h :: t).takeWhile isoctdigit), (x :: h :: t).dropWhile isoctdigit)
  | '0' :: t => some (digitsValue 8 (t.takeWhile isoctdigit), t.dropWhile isoctdigit)
  | d :: t =>
    if isdigit d then
      some (digitsValue 10 ((d :: t).takeWhile isdigit), (d :: t).dropWhile isdigit)
    else none
  | [] => none

/-- `strtoll(text, &end, 0)`: the value, and the text at `end`. -/
def strtoll (t : Text) : Int × Text :=
  let numeral (neg : Bool) (u : Text) : Int × Text :=
    match unsignedNumeral u with
    | some (m, rest) => (clamp (if neg then -m else m), rest)
    | none => (0, t)
  match t.dropWhile isspace with
  | '-' :: u => numeral true u
  | '+' :: u => numeral false u
  | u => numeral false u

theorem strtoll_inRange (t : Text) : InRange (strtoll t).1 := by
  have hnumeral : ∀ neg u, InRange (match unsignedNumeral u with
      | some (m, rest) => ((clamp (if neg = true then -m else m), rest) : Int × Text)
      | none => (0, t)).1 := by
    intro neg u
    cases unsignedNumeral u with
    | none => exact (by decide : InRange 0)
    | some p => exact clamp_inRange _
  unfold strtoll
  split
  · exact hnumeral true _
  · exact hnumeral false _
  · exact hnumeral false _

/-! ## 3. What it reads -/

variable {c d : Char} {rest : Text} {m : Nat}

theorem isalnum_of_isxdigit (h : isxdigit c = true) : isalnum c = true := by
  simp only [isxdigit, isalnum, isalpha, or_eq_true, and_eq_true, decide_eq_true_eq] at *
  rcases h with (h | h) | h
  · exact Or.inr h
  · exact Or.inl (Or.inl ⟨h.1, Char.le_trans h.2 (by decide : 'f' ≤ 'z')⟩)
  · exact Or.inl (Or.inr ⟨h.1, Char.le_trans h.2 (by decide : 'F' ≤ 'Z')⟩)

theorem isdigit_of_isoctdigit (h : isoctdigit c = true) : isdigit c = true := by
  simp only [isoctdigit, isdigit, and_eq_true, decide_eq_true_eq] at *
  exact ⟨h.1, Char.le_trans h.2 (by decide : '7' ≤ '9')⟩

theorem isalnum_of_isdigit (h : isdigit c = true) : isalnum c = true := by
  unfold isalnum
  rw [h, Bool.or_true]

theorem run_split (p q : Char → Bool) (hpq : ∀ c, p c = true → q c = true) (t : Text) :
    ∃ seg, t = seg ++ t.dropWhile p ∧ ∀ c ∈ seg, q c = true := by
  refine ⟨t.takeWhile p, takeWhile_append_dropWhile.symm, ?_⟩
  intro c hc
  exact hpq c (mem_takeWhile_imp hc)

variable {t s : Text}

theorem unsignedNumeral_reads (h : unsignedNumeral t = some (m, rest)) :
    ∃ seg, t = seg ++ rest ∧ ∀ c ∈ seg, isalnum c = true := by
  have hoct : ∀ c, isoctdigit c = true → isalnum c = true := fun c hc =>
    isalnum_of_isdigit (isdigit_of_isoctdigit hc)
  unfold unsignedNumeral at h
  split at h
  · rename_i x g u
    split at h
    · -- behind `0x`
      rename_i hx
      cases h
      obtain ⟨seg, hsplit, hseg⟩ := run_split isxdigit isalnum (fun _ => isalnum_of_isxdigit) (g :: u)
      refine ⟨'0' :: x :: seg, ?_, ?_⟩
      · exact congrArg (fun v => '0' :: x :: v) hsplit
      · intro c hc
        rcases mem_cons.mp hc with rfl | hc
        · decide
        rcases mem_cons.mp hc with rfl | hc
        · rcases hx.1 with rfl | rfl <;> decide
        · exact hseg c hc
    · cases h
      obtain ⟨seg, hsplit, hseg⟩ := run_split isoctdigit isalnum hoct (x :: g :: u)
      refine ⟨'0' :: seg, congrArg ('0' :: ·) hsplit, ?_⟩
      intro c hc
      rcases mem_cons.mp hc with rfl | hc
      · decide
      · exact hseg c hc
  · rename_i u _
    cases h
    obtain ⟨seg, hsplit, hseg⟩ := run_split isoctdigit isalnum hoct u
    refine ⟨'0' :: seg, congrArg ('0' :: ·) hsplit, ?_⟩
    intro c hc
    rcases mem_cons.mp hc with rfl | hc
    · decide
    · exact hseg c hc
  · rename_i d u _ _
    split at h
    · cases h; exact run_split isdigit isalnum (fun _ => isalnum_of_isdigit) (d :: u)
    · cases h
  · cases h

theorem strtoll_digit (hd : isdigit d = true) (t : Text) :
    ∃ m rest, unsignedNumeral (d :: t) = some (m, rest) ∧ strtoll (d :: t) = (clamp m, rest) := by
  have hdrop : (d :: t).dropWhile isspace = d :: t := by
    refine dropWhile_cons_of_neg ?_
    intro hs
    simp only [isdigit, isspace, and_eq_true, or_eq_true, decide_eq_true_eq] at hd hs
    rcases hs with ((((rfl | rfl) | rfl) | rfl) | rfl) | rfl <;> exact absurd hd (by decide)
  obtain ⟨⟨m, rest⟩, hnumeral⟩ : ∃ r, unsignedNumeral (d :: t) = some r := by
    unfold unsignedNumeral
    split
    · split <;> exact ⟨_, rfl⟩
    · exact ⟨_, rfl⟩
    · rename_i heq
      cases heq
      exact ⟨_, if_pos hd⟩
    · rename_i heq; cases heq
  refine ⟨m, rest, hnumeral, ?_⟩
  unfold strtoll
  rw [hdrop]
  dsimp only
  split
  · exact absurd hd (by rename_i h; cases h; decide)
  · exact absurd hd (by rename_i h; cases h; decide)
  · rw [hnumeral]; rfl

theorem strtoll_reads (hd : isdigit d = true) (t : Text) :
    ∃ seg, d :: t = seg ++ (strtoll (d :: t)).2 ∧ ∀ c ∈ seg, isalnum c = true := by
  obtain ⟨m, rest, hnumeral, hread⟩ := strtoll_digit hd t
  rw [hread]
  exact unsignedNumeral_reads hnumeral

/-! ## 4. What stands behind it -/

theorem run_append {p : Char → Bool} (hs : ∀ c ∈ s.head?, p c = false) (t : Text) :
    (t ++ s).takeWhile p = t.takeWhile p ∧ (t ++ s).dropWhile p = t.dropWhile p ++ s := by
  induction t with
  | nil =>
    cases s with
    | nil => exact ⟨rfl, rfl⟩
    | cons c s => have hc := hs c rfl; simp [hc]
  | cons d t ih =>
    cases hd : p d with
    | true => simp [hd, ih]
    | false => simp [hd]

theorem unsignedNumeral_octal
    (h : ∀ x g u, t = x :: g :: u → ¬ ((x = 'x' ∨ x = 'X') ∧ isxdigit g = true)) :
    unsignedNumeral ('0' :: t) =
      some (digitsValue 8 (t.takeWhile isoctdigit), t.dropWhile isoctdigit) := by
  match t, h with
  | [], _ => rfl
  | [_], _ => rfl
  | x :: g :: u, h => exact if_neg (h x g u rfl)

theorem unsignedNumeral_append (hs : ∀ c ∈ s.head?, isalnum c = false)
    (h : unsignedNumeral t = some (m, rest)) : unsignedNumeral (t ++ s) = some (m, rest ++ s) := by
  have hclass : ∀ {p : Char → Bool}, (∀ c, p c = true → isalnum c = true) →
      ∀ c ∈ s.head?, p c = false := by
    intro p hp c hc
    rw [eq_false_iff]
    intro hpc
    exact absurd ((hs c hc).symm.trans (hp c hpc)) (by decide)
  have hhex := hclass fun _ => isalnum_of_isxdigit
  have hoct : ∀ c ∈ s.head?, isoctdigit c = false :=
    hclass fun _ hc => isalnum_of_isdigit (isdigit_of_isoctdigit hc)
  have hdec := hclass fun _ => isalnum_of_isdigit
  unfold unsignedNumeral at h
  split at h
  · rename_i x g u
    split at h
    · rename_i hx
      obtain ⟨htake, hdrop⟩ := run_append hhex (g :: u)
      cases h
      rw [← htake, ← hdrop]
      exact if_pos hx
    · rename_i hx
      obtain ⟨htake, hdrop⟩ := run_append hoct (x :: g :: u)
      cases h
      rw [← htake, ← hdrop]
      exact if_neg hx
  · -- at most one character stands behind the zero
    rename_i u hshort
    obtain ⟨htake, hdrop⟩ := run_append hoct u
    cases h
    rw [← htake, ← hdrop]
    refine unsignedNumeral_octal ?_
    intro x g w heq ⟨hx, hg⟩
    match u, hshort, heq with
    | [], _, heq =>
      have hfirst := hs x (by rw [show s = x :: g :: w from heq]; rfl)
      rcases hx with rfl | rfl <;> cases hfirst
    | [_], _, heq =>
      have hsecond := hhex g (by rw [show s = g :: w from (cons.inj heq).2]; rfl)
      exact absurd (hsecond.symm.trans hg) (by decide)
    | a :: b :: u, hshort, _ => exact hshort a b u rfl
  · rename_i d u _ hzero
    split at h
    · rename_i hd
      obtain ⟨htake, hdrop⟩ := run_append hdec (d :: u)
      cases h
      rw [← htake, ← hdrop, cons_append]
      have hne : d ≠ '0' := fun hd => hzero hd
      rw [unsignedNumeral.eq_3 d (u ++ s) (fun _ _ _ hd _ => hne hd) hne, if_pos hd]
    · cases h
  · cases h

/-- **In front of a digit `strtoll` reads no more if neither a letter nor a digit is added.** -/
theorem strtoll_append (hs : ∀ c ∈ s.head?, isalnum c = false) (hd : isdigit d = true) {v : Int}
    (h : strtoll (d :: t) = (v, rest)) : strtoll (d :: (t ++ s)) = (v, rest ++ s) := by
  obtain ⟨m, rest', hnumeral, hread⟩ := strtoll_digit hd t
  obtain ⟨m', rest'', hnumeral', hread'⟩ := strtoll_digit hd (t ++ s)
  have happend := unsignedNumeral_append hs hnumeral
  rw [cons_append, hnumeral'] at happend
  cases happend
  rw [hread] at h
  cases h
  exact hread'

/-! ## 5. `atoi` -/

/-- `atoi`: the `long` of a decimal numeral cut to an `int`, and 0 where there is no numeral. -/
def atoiSigned (t : Text) : Int :=
  let numeral (neg : Bool) (u : Text) : Int :=
    let m : Int := digitsValue 10 (u.takeWhile isdigit)
    (clamp (if neg then -m else m)).bmod (2 ^ 32)
  match t.dropWhile isspace with
  | '-' :: u => numeral true u
  | '+' :: u => numeral false u
  | u => numeral false u

end CText
