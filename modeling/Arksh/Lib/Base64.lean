/-
  Subject: Base64 (RFC 4648, section 4): octets as digits of six bits, in groups of four.

  Three octets are one number of 24 bits and four digits. A group of one or two octets at the end
  is filled up with zero bits; the digits that have none of its bits are written as `=`.
-/
import Mathlib.Algebra.Group.Nat.Defs
import Mathlib.Data.List.Basic

namespace Base64

open List Nat

/-! ## 1. Digits -/

def alphabet : List Char :=
  "ABCDEFGHIJKLMNOPQRSTUVWXYZabcdefghijklmnopqrstuvwxyz0123456789+/".toList

/-- The digit of a number below 64. -/
def digit (v : Nat) : Char := alphabet.getD v '='

/-- The number of a digit. -/
def value (c : Char) : Option Nat := alphabet.findIdx? (· = c)

variable {v a b : Nat}

theorem value_digit (h : v < 64) : value (digit v) = some v := by
  have hall : ∀ v : Fin 64, value (digit v) = some v.1 := by decide +kernel
  exact hall ⟨v, h⟩

theorem digit_value {c : Char} (h : value c = some v) : v < 64 ∧ digit v = c := by
  obtain ⟨hlt, hc, -⟩ := findIdx?_eq_some_iff_getElem.mp h
  refine ⟨hlt, ?_⟩
  rw [digit, getD_eq_getElem?_getD, getElem?_eq_getElem hlt]
  exact of_decide_eq_true hc

theorem value_padding : value '=' = none := by decide

/-! ## 2. Texts -/

/-- The four digits of 24 bits. -/
def group (g : Nat) : List Char :=
  [digit (g / 2 ^ 18), digit (g / 2 ^ 12 % 64), digit (g / 2 ^ 6 % 64), digit (g % 64)]

/-- The text of octets. -/
def encode : List Nat → List Char
  | [] => []
  | [a] => (group (2 ^ 16 * a)).take 2 ++ ['=', '=']
  | [a, b] => (group (2 ^ 16 * a + 2 ^ 8 * b)).take 3 ++ ['=']
  | a :: b :: c :: rest => group (2 ^ 16 * a + 2 ^ 8 * b + c) ++ encode rest

/-- The octets of four digits. -/
def firstOctet (v₀ v₁ : Nat) : Nat := 4 * v₀ + v₁ / 16
def secondOctet (v₁ v₂ : Nat) : Nat := 16 * (v₁ % 16) + v₂ / 4
def thirdOctet (v₂ v₃ : Nat) : Nat := 64 * (v₂ % 4) + v₃

inductive IsText (allowed : Nat → Prop) : List Char → Prop
  | nil : IsText allowed []
  | one {c₀ c₁ : Char} {v₀ v₁ : Nat} (h₀ : value c₀ = some v₀) (h₁ : value c₁ = some v₁)
      (hzero : v₁ % 16 = 0) (hfirst : allowed (firstOctet v₀ v₁)) :
      IsText allowed [c₀, c₁, '=', '=']
  | two {c₀ c₁ c₂ : Char} {v₀ v₁ v₂ : Nat} (h₀ : value c₀ = some v₀) (h₁ : value c₁ = some v₁)
      (h₂ : value c₂ = some v₂) (hzero : v₂ % 4 = 0) (hfirst : allowed (firstOctet v₀ v₁))
      (hsecond : allowed (secondOctet v₁ v₂)) : IsText allowed [c₀, c₁, c₂, '=']
  | three {c₀ c₁ c₂ c₃ : Char} {v₀ v₁ v₂ v₃ : Nat} {rest : List Char} (h₀ : value c₀ = some v₀)
      (h₁ : value c₁ = some v₁) (h₂ : value c₂ = some v₂) (h₃ : value c₃ = some v₃)
      (hfirst : allowed (firstOctet v₀ v₁)) (hsecond : allowed (secondOctet v₁ v₂))
      (hthird : allowed (thirdOctet v₂ v₃)) (hrest : IsText allowed rest) :
      IsText allowed (c₀ :: c₁ :: c₂ :: c₃ :: rest)

/-! ## 3. Group by group -/

section Group

variable {v₀ v₁ v₂ v₃ : Nat}

theorem group_octets (h₁ : v₁ < 64) (h₂ : v₂ < 64) (h₃ : v₃ < 64) :
    group (2 ^ 16 * firstOctet v₀ v₁ + 2 ^ 8 * secondOctet v₁ v₂ + thirdOctet v₂ v₃) =
      [digit v₀, digit v₁, digit v₂, digit v₃] := by
  have hsum : 2 ^ 16 * firstOctet v₀ v₁ + 2 ^ 8 * secondOctet v₁ v₂ + thirdOctet v₂ v₃ =
      2 ^ 18 * v₀ + 2 ^ 12 * v₁ + 2 ^ 6 * v₂ + v₃ := by
    unfold firstOctet secondOctet thirdOctet
    omega
  have hzeroth : (2 ^ 18 * v₀ + 2 ^ 12 * v₁ + 2 ^ 6 * v₂ + v₃) / 2 ^ 18 = v₀ := by omega
  have hfirst : (2 ^ 18 * v₀ + 2 ^ 12 * v₁ + 2 ^ 6 * v₂ + v₃) / 2 ^ 12 % 64 = v₁ := by omega
  have hsecond : (2 ^ 18 * v₀ + 2 ^ 12 * v₁ + 2 ^ 6 * v₂ + v₃) / 2 ^ 6 % 64 = v₂ := by omega
  have hthird : (2 ^ 18 * v₀ + 2 ^ 12 * v₁ + 2 ^ 6 * v₂ + v₃) % 64 = v₃ := by omega
  rw [hsum, group, hzeroth, hfirst, hsecond, hthird]

theorem encode_three (h₁ : v₁ < 64) (h₂ : v₂ < 64) (h₃ : v₃ < 64) (rest : List Nat) :
    encode (firstOctet v₀ v₁ :: secondOctet v₁ v₂ :: thirdOctet v₂ v₃ :: rest) =
      digit v₀ :: digit v₁ :: digit v₂ :: digit v₃ :: encode rest := by
  rw [encode, group_octets h₁ h₂ h₃]
  rfl

theorem encode_two (h₁ : v₁ < 64) (h₂ : v₂ < 64) (hzero : v₂ % 4 = 0) :
    encode [firstOctet v₀ v₁, secondOctet v₁ v₂] = [digit v₀, digit v₁, digit v₂, '='] := by
  have hgroup := @group_octets v₀ v₁ v₂ 0 h₁ h₂ (Nat.zero_lt_succ 63)
  have hthird : thirdOctet v₂ 0 = 0 := by unfold thirdOctet; omega
  rw [hthird, Nat.add_zero] at hgroup
  rw [encode, hgroup]
  rfl

theorem encode_one (h₁ : v₁ < 64) (hzero : v₁ % 16 = 0) :
    encode [firstOctet v₀ v₁] = [digit v₀, digit v₁, '=', '='] := by
  have hgroup := @group_octets v₀ v₁ 0 0 h₁ (Nat.zero_lt_succ 63) (Nat.zero_lt_succ 63)
  have hsecond : secondOctet v₁ 0 = 0 := by unfold secondOctet; omega
  rw [hsecond, show thirdOctet 0 0 = 0 from rfl, Nat.mul_zero, Nat.add_zero] at hgroup
  rw [encode, hgroup]
  rfl

theorem octets_three {c : Nat} (ha : a < 256) (hb : b < 256) (hc : c < 256) :
    ∃ v₀ v₁ v₂ v₃, v₀ < 64 ∧ v₁ < 64 ∧ v₂ < 64 ∧ v₃ < 64 ∧ firstOctet v₀ v₁ = a ∧
      secondOctet v₁ v₂ = b ∧ thirdOctet v₂ v₃ = c := by
  refine ⟨a / 4, a % 4 * 16 + b / 16, b % 16 * 4 + c / 64, c % 64, ?_⟩
  unfold firstOctet secondOctet thirdOctet
  omega

theorem octets_two (ha : a < 256) (hb : b < 256) :
    ∃ v₀ v₁ v₂, v₀ < 64 ∧ v₁ < 64 ∧ v₂ < 64 ∧ v₂ % 4 = 0 ∧ firstOctet v₀ v₁ = a ∧
      secondOctet v₁ v₂ = b := by
  refine ⟨a / 4, a % 4 * 16 + b / 16, b % 16 * 4, ?_⟩
  unfold firstOctet secondOctet
  omega

theorem octets_one (ha : a < 256) :
    ∃ v₀ v₁, v₀ < 64 ∧ v₁ < 64 ∧ v₁ % 16 = 0 ∧ firstOctet v₀ v₁ = a := by
  refine ⟨a / 4, a % 4 * 16, ?_⟩
  unfold firstOctet
  omega

theorem firstOctet_lt (h₀ : v₀ < 64) (h₁ : v₁ < 64) : firstOctet v₀ v₁ < 256 := by
  unfold firstOctet
  omega

theorem secondOctet_lt (v₁ : Nat) (h₂ : v₂ < 64) : secondOctet v₁ v₂ < 256 := by
  unfold secondOctet
  omega

theorem thirdOctet_lt (v₂ : Nat) (h₃ : v₃ < 64) : thirdOctet v₂ v₃ < 256 := by
  unfold thirdOctet
  omega

theorem encode_length (bytes : List Nat) : (encode bytes).length = (bytes.length + 2) / 3 * 4 := by
  induction bytes using encode.induct with
  | case1 => rfl
  | case2 a | case3 a b => simp [encode, group]
  | case4 a b c rest ih =>
    rw [encode, length_append, ih]
    simp only [group, length_cons, length_nil]
    omega

end Group

section IsText

variable {allowed : Nat → Prop} {text : List Char}

theorem isText_encode {bytes : List Nat} (h : ∀ b ∈ bytes, b < 256 ∧ allowed b) :
    IsText allowed (encode bytes) := by
  induction bytes using encode.induct with
  | case1 => exact .nil
  | case2 a =>
    obtain ⟨ha, hallowed⟩ := h a (by simp)
    obtain ⟨v₀, v₁, h₀, h₁, hzero, rfl⟩ := octets_one ha
    rw [encode_one h₁ hzero]
    exact .one (value_digit h₀) (value_digit h₁) hzero hallowed
  | case3 a b =>
    obtain ⟨ha, hallowedA⟩ := h a (by simp)
    obtain ⟨hb, hallowedB⟩ := h b (by simp)
    obtain ⟨v₀, v₁, v₂, h₀, h₁, h₂, hzero, rfl, rfl⟩ := octets_two ha hb
    rw [encode_two h₁ h₂ hzero]
    exact .two (value_digit h₀) (value_digit h₁) (value_digit h₂) hzero hallowedA hallowedB
  | case4 a b c rest ih =>
    obtain ⟨ha, hallowedA⟩ := h a (by simp)
    obtain ⟨hb, hallowedB⟩ := h b (by simp)
    obtain ⟨hc, hallowedC⟩ := h c (by simp)
    obtain ⟨v₀, v₁, v₂, v₃, h₀, h₁, h₂, h₃, rfl, rfl, rfl⟩ := octets_three ha hb hc
    rw [encode_three h₁ h₂ h₃]
    refine .three (value_digit h₀) (value_digit h₁) (value_digit h₂) (value_digit h₃) hallowedA
      hallowedB hallowedC (ih fun x hx => h x ?_)
    simp [hx]

theorem IsText.exists_octets (h : IsText allowed text) :
    ∃ bytes, (∀ b ∈ bytes, b < 256 ∧ allowed b) ∧ text = encode bytes := by
  induction h with
  | nil => exact ⟨[], by simp, rfl⟩
  | @one c₀ c₁ v₀ v₁ h₀ h₁ hzero hfirst =>
    obtain ⟨hv₀, rfl⟩ := digit_value h₀
    obtain ⟨hv₁, rfl⟩ := digit_value h₁
    refine ⟨[firstOctet v₀ v₁], ?_, (encode_one hv₁ hzero).symm⟩
    intro b hb
    rw [mem_singleton.mp hb]
    exact ⟨firstOctet_lt hv₀ hv₁, hfirst⟩
  | @two c₀ c₁ c₂ v₀ v₁ v₂ h₀ h₁ h₂ hzero hfirst hsecond =>
    obtain ⟨hv₀, rfl⟩ := digit_value h₀
    obtain ⟨hv₁, rfl⟩ := digit_value h₁
    obtain ⟨hv₂, rfl⟩ := digit_value h₂
    refine ⟨[firstOctet v₀ v₁, secondOctet v₁ v₂], ?_, (encode_two hv₁ hv₂ hzero).symm⟩
    intro b hb
    simp only [mem_cons, not_mem_nil, or_false] at hb
    rcases hb with rfl | rfl
    · exact ⟨firstOctet_lt hv₀ hv₁, hfirst⟩
    · exact ⟨secondOctet_lt v₁ hv₂, hsecond⟩
  | @three c₀ c₁ c₂ c₃ v₀ v₁ v₂ v₃ rest h₀ h₁ h₂ h₃ hfirst hsecond hthird hrest ih =>
    obtain ⟨hv₀, rfl⟩ := digit_value h₀
    obtain ⟨hv₁, rfl⟩ := digit_value h₁
    obtain ⟨hv₂, rfl⟩ := digit_value h₂
    obtain ⟨hv₃, rfl⟩ := digit_value h₃
    obtain ⟨bytes, hbytes, rfl⟩ := ih
    refine ⟨firstOctet v₀ v₁ :: secondOctet v₁ v₂ :: thirdOctet v₂ v₃ :: bytes, ?_,
      (encode_three hv₁ hv₂ hv₃ bytes).symm⟩
    intro b hb
    simp only [mem_cons] at hb
    rcases hb with rfl | rfl | rfl | hb
    · exact ⟨firstOctet_lt hv₀ hv₁, hfirst⟩
    · exact ⟨secondOctet_lt v₁ hv₂, hsecond⟩
    · exact ⟨thirdOctet_lt v₂ hv₃, hthird⟩
    · exact hbytes b hb

end IsText

end Base64
