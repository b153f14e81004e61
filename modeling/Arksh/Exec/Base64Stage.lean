/-
  Subject: The stages `base64_encode` and `base64_decode` of `src/executor.c`.

  The encoder packs three bytes into four characters with shifts and masks. The decoder takes every
  group of four by itself: it looks neither at the bits that no byte has, nor at where the padding
  stands, and what it has decoded is read as a C string, which ends at the first NUL.
-/
import Arksh.Lib.Base64
import Arksh.Object.JsonRfc
import Mathlib.Data.Bool.AllAny

namespace Arksh

open CText List Nat

/-! ## 1. Encoding -/

def base64Alphabet : Text :=
  "ABCDEFGHIJKLMNOPQRSTUVWXYZabcdefghijklmnopqrstuvwxyz0123456789+/".toList

def base64Char (v : Nat) : Char := base64Alphabet.getD (v &&& 0x3F) '\x00'

/-- The body of the loop of `apply_base64_encode_stage`; the last two bytes may not be there. -/
def encodeBytes (b0 : Nat) (b1 b2 : Option Nat) : Text :=
  [ base64Char (b0 >>> 2),
    base64Char ((b0 <<< 4) ||| (b1.getD 0 >>> 4)),
    if b1.isSome then base64Char ((b1.getD 0 <<< 2) ||| (b2.getD 0 >>> 6)) else '=',
    if b2.isSome then base64Char (b2.getD 0) else '=' ]

/-- `(unsigned char) c` -/
def byteOf (c : Char) : Nat := c.toNat

def base64EncodeLoop : Text → Text
  | [] => []
  | [a] => encodeBytes (byteOf a) none none
  | [a, b] => encodeBytes (byteOf a) (some (byteOf b)) none
  | a :: b :: c :: rest =>
    encodeBytes (byteOf a) (some (byteOf b)) (some (byteOf c)) ++ base64EncodeLoop rest

def applyBase64EncodeStage (value : ArkshValue) : Except String ArkshValue :=
  if value.kind ≠ .string then .error "base64_encode: expects a string"
  else if value.text = [] then .ok (arkshValueSetString [])
  else if (value.text.length + 2) / 3 * 4 ≥ arkshMaxOutput then
    .error "base64_encode: input too long"
  else .ok (arkshValueSetString (base64EncodeLoop value.text))

/-! ## 2. Decoding -/

def decodeTable : List Int :=
  List.replicate 43 (-1) ++ [62] ++ List.replicate 3 (-1) ++ [63] ++
    [52, 53, 54, 55, 56, 57, 58, 59, 60, 61] ++ List.replicate 3 (-1) ++ [-2] ++
    List.replicate 3 (-1) ++
    [0, 1, 2, 3, 4, 5, 6, 7, 8, 9, 10, 11, 12, 13, 14, 15, 16, 17, 18, 19, 20, 21, 22, 23, 24, 25] ++
    List.replicate 6 (-1) ++
    [ 26, 27, 28, 29, 30, 31, 32, 33, 34, 35, 36, 37, 38, 39, 40, 41, 42, 43, 44, 45, 46, 47, 48, 49,
      50, 51 ] ++
    List.replicate 5 (-1) ++ List.replicate 128 (-1)

def decodeChar (c : Char) : Int := decodeTable.getD (byteOf c) (-1)

def unsignedChar (c : Int) : Nat := (c % 256).toNat

/-- A `char` of a buffer. -/
def byteChar (b : Nat) : Char := Char.ofNat (b % 256)

/-- What the body of the loop of `apply_base64_decode_stage` writes. -/
def decodeGroup (c0 c1 c2 c3 : Int) : Text :=
  [byteChar ((unsignedChar c0 <<< 2) ||| (unsignedChar c1 >>> 4))] ++
    (if c2 ≠ -2 then
      [byteChar (((unsignedChar c1 &&& 0x0F) <<< 4) ||| (unsignedChar c2 >>> 2))] else []) ++
    (if c3 ≠ -2 then
      [byteChar (((unsignedChar c2 &&& 0x03) <<< 6) ||| unsignedChar c3)] else [])

def invalidCharacter (position : Nat) : String :=
  "base64_decode: invalid character at position " ++ toString position

def base64DecodeLoop : Nat → Text → Text → Except String Text
  | i, decoded, a :: b :: c :: d :: rest =>
    if decodeChar a < 0 then .error (invalidCharacter i)
    else if decodeChar b < 0 then .error (invalidCharacter (i + 1))
    else if decodeChar c = -1 then .error (invalidCharacter (i + 2))
    else if decodeChar d = -1 then .error (invalidCharacter (i + 3))
    else if decoded.length + 3 ≥ arkshMaxOutput then .error "base64_decode: output too long"
    else
      base64DecodeLoop (i + 4)
        (decoded ++ decodeGroup (decodeChar a) (decodeChar b) (decodeChar c) (decodeChar d)) rest
  | _, decoded, _ => .ok decoded

def applyBase64DecodeStage (value : ArkshValue) : Except String ArkshValue :=
  if value.kind ≠ .string then .error "base64_decode: expects a string"
  else if value.text = [] then .ok (arkshValueSetString [])
  else if value.text.length % 4 ≠ 0 then
    .error "base64_decode: invalid input length (must be multiple of 4)"
  else
    (base64DecodeLoop 0 [] value.text).map fun decoded => arkshValueSetString (cString decoded)

/-! ## 3. Bits -/

section Bits

variable {a b c : Nat}

theorem base64Char_eq (v : Nat) : base64Char v = Base64.digit (v % 64) := by
  have hmask : v &&& 0x3F = v % 64 := and_two_pow_sub_one_eq_mod v 6
  have hlt : v % 64 < base64Alphabet.length := mod_lt v (by decide)
  rw [base64Char, hmask, Base64.digit, getD_eq_getElem?_getD, getD_eq_getElem?_getD]
  show (base64Alphabet)[v % 64]?.getD _ = (base64Alphabet)[v % 64]?.getD _
  rw [getElem?_eq_getElem hlt]
  rfl

theorem or_shiftRight (high : Nat) {low i j : Nat} (h : low < 2 ^ (i + j)) :
    (high <<< i) ||| (low >>> j) = high * 2 ^ i + low / 2 ^ j := by
  have hlt : low >>> j < 2 ^ i := by
    rw [Nat.shiftRight_eq_div_pow]
    exact Nat.div_lt_of_lt_mul (by rw [← pow_add, Nat.add_comm]; exact h)
  rw [← Nat.shiftLeft_add_eq_or_of_lt hlt, Nat.shiftLeft_eq, Nat.shiftRight_eq_div_pow]

theorem encodeBytes_three (ha : a < 256) (hb : b < 256) (hc : c < 256) :
    encodeBytes a (some b) (some c) = Base64.group (2 ^ 16 * a + 2 ^ 8 * b + c) := by
  have hsecond : (a <<< 4) ||| (b >>> 4) = a * 2 ^ 4 + b / 2 ^ 4 := or_shiftRight a hb
  have hthird : (b <<< 2) ||| (c >>> 6) = b * 2 ^ 2 + c / 2 ^ 6 := or_shiftRight b hc
  have h₀ : a / 2 ^ 2 % 64 = (2 ^ 16 * a + 2 ^ 8 * b + c) / 2 ^ 18 := by omega
  have h₁ : (a * 2 ^ 4 + b / 2 ^ 4) % 64 = (2 ^ 16 * a + 2 ^ 8 * b + c) / 2 ^ 12 % 64 := by omega
  have h₂ : (b * 2 ^ 2 + c / 2 ^ 6) % 64 = (2 ^ 16 * a + 2 ^ 8 * b + c) / 2 ^ 6 % 64 := by omega
  have h₃ : c % 64 = (2 ^ 16 * a + 2 ^ 8 * b + c) % 64 := by omega
  simp only [encodeBytes, Option.getD_some, Option.isSome_some, if_true, base64Char_eq]
  rw [hsecond, hthird, Nat.shiftRight_eq_div_pow, h₀, h₁, h₂, h₃, Base64.group]

end Bits

variable {text : Text}

theorem base64EncodeLoop_eq (h : ∀ c ∈ text, byteOf c < 256) :
    base64EncodeLoop text = Base64.encode (text.map byteOf) := by
  induction text using base64EncodeLoop.induct with
  | case1 => rfl
  | case2 a =>
    have hgroup := @encodeBytes_three (byteOf a) 0 0 (h a (by simp)) (by decide) (by decide)
    have htake : encodeBytes (byteOf a) none none =
        (encodeBytes (byteOf a) (some 0) (some 0)).take 2 ++ ['=', '='] := rfl
    rw [base64EncodeLoop, htake, hgroup]
    rfl
  | case3 a b =>
    have hgroup :=
      @encodeBytes_three (byteOf a) (byteOf b) 0 (h a (by simp)) (h b (by simp)) (by decide)
    have htake : encodeBytes (byteOf a) (some (byteOf b)) none =
        (encodeBytes (byteOf a) (some (byteOf b)) (some 0)).take 3 ++ ['='] := rfl
    rw [base64EncodeLoop, htake, hgroup]
    rfl
  | case4 a b c rest ih =>
    rw [base64EncodeLoop, encodeBytes_three (h a (by simp)) (h b (by simp)) (h c (by simp)),
      ih fun x hx => h x (by simp [hx])]
    rfl

/-! ## 4. Groups -/

theorem decodeTable_entries : decodeTable.zipIdx.all (fun entry => decide (entry.1 = -1 ∨
    entry.2 = 61 ∨ (Base64.digit entry.1.toNat).toNat = entry.2 ∧ entry.1.toNat < 64)) = true := by
  decide +kernel

theorem decodeTable_entry {n : Nat} {code : Int} (h : decodeTable[n]? = some code) :
    code = -1 ∨ n = 61 ∨ (Base64.digit code.toNat).toNat = n ∧ code.toNat < 64 := by
  have hmem : (code, n) ∈ decodeTable.zipIdx := mem_zipIdx_iff_getElem?.mpr h
  exact of_decide_eq_true (all_eq_true.mp decodeTable_entries _ hmem)

theorem decodeChar_alphabet : ∀ v : Fin 64, decodeChar (Base64.digit v) = v.1 := by
  decide +kernel

theorem decodeChar_cases (c : Char) :
    (∃ v, Base64.value c = some v ∧ decodeChar c = v) ∨ c = '=' ∧ decodeChar c = -2 ∨
      Base64.value c = none ∧ c ≠ '=' ∧ decodeChar c = -1 := by
  cases hvalue : Base64.value c with
  | some v =>
    obtain ⟨hlt, hdigit⟩ := Base64.digit_value hvalue
    refine .inl ⟨v, rfl, ?_⟩
    rw [← hdigit]
    exact decodeChar_alphabet ⟨v, hlt⟩
  | none =>
    by_cases hpad : c = '='
    · exact .inr (.inl ⟨hpad, by rw [hpad]; decide⟩)
    refine .inr (.inr ⟨rfl, hpad, ?_⟩)
    rw [decodeChar, byteOf, getD_eq_getElem?_getD]
    cases hentry : decodeTable[c.toNat]? with
    | none => rfl
    | some code =>
      rcases decodeTable_entry hentry with h | h | ⟨h, hlt⟩
      · exact h
      · exact absurd (Char.toNat_inj.mp h) hpad
      · have hdigit := Base64.value_digit hlt
        rw [Char.toNat_inj.mp h, hvalue] at hdigit
        cases hdigit

section Octets

variable {v₀ v₁ v₂ v₃ : Nat}

theorem unsignedChar_natCast {v : Nat} (h : v < 64) : unsignedChar v = v := by
  unfold unsignedChar
  omega

theorem firstOctet_eq (v₀ : Nat) (h₁ : v₁ < 64) :
    (v₀ <<< 2) ||| (v₁ >>> 4) = Base64.firstOctet v₀ v₁ := by
  rw [or_shiftRight v₀ h₁, Base64.firstOctet, mul_comm]
  rfl

theorem secondOctet_eq (v₁ : Nat) (h₂ : v₂ < 64) :
    ((v₁ &&& 0x0F) <<< 4) ||| (v₂ >>> 2) = Base64.secondOctet v₁ v₂ := by
  have hmask : v₁ &&& 0x0F = v₁ % 16 := and_two_pow_sub_one_eq_mod v₁ 4
  rw [hmask, or_shiftRight (v₁ % 16) h₂, Base64.secondOctet, mul_comm]
  rfl

theorem thirdOctet_eq (v₂ : Nat) (h₃ : v₃ < 64) :
    ((v₂ &&& 0x03) <<< 6) ||| v₃ = Base64.thirdOctet v₂ v₃ := by
  have hmask : v₂ &&& 0x03 = v₂ % 4 := and_two_pow_sub_one_eq_mod v₂ 2
  rw [hmask, ← Nat.shiftLeft_add_eq_or_of_lt h₃, Nat.shiftLeft_eq, Base64.thirdOctet, mul_comm]

theorem decodeGroup_one (h₀ : v₀ < 64) (h₁ : v₁ < 64) :
    decodeGroup v₀ v₁ (-2) (-2) = [byteChar (Base64.firstOctet v₀ v₁)] := by
  simp only [decodeGroup, unsignedChar_natCast h₀, unsignedChar_natCast h₁, firstOctet_eq v₀ h₁]
  rfl

theorem decodeGroup_two (h₀ : v₀ < 64) (h₁ : v₁ < 64) (h₂ : v₂ < 64) : decodeGroup v₀ v₁ v₂ (-2) =
      [byteChar (Base64.firstOctet v₀ v₁), byteChar (Base64.secondOctet v₁ v₂)] := by
  simp only [decodeGroup, unsignedChar_natCast h₀, unsignedChar_natCast h₁,
    unsignedChar_natCast h₂, firstOctet_eq v₀ h₁, secondOctet_eq v₁ h₂]
  rfl

theorem decodeGroup_three (h₀ : v₀ < 64) (h₁ : v₁ < 64) (h₂ : v₂ < 64) (h₃ : v₃ < 64) :
    decodeGroup v₀ v₁ v₂ v₃ =
      [ byteChar (Base64.firstOctet v₀ v₁), byteChar (Base64.secondOctet v₁ v₂),
        byteChar (Base64.thirdOctet v₂ v₃) ] := by
  simp only [decodeGroup, unsignedChar_natCast h₀, unsignedChar_natCast h₁,
    unsignedChar_natCast h₂, unsignedChar_natCast h₃, firstOctet_eq v₀ h₁, secondOctet_eq v₁ h₂,
    thirdOctet_eq v₂ h₃]
  rfl

end Octets

def isDigitOrPadding (c : Char) : Prop := (Base64.value c).isSome = true ∨ c = '='

variable {c : Char}

theorem decodeChar_digit {v : Nat} (h : Base64.value c = some v) : decodeChar c = v := by
  rcases decodeChar_cases c with ⟨w, hw, hc⟩ | ⟨rfl, -⟩ | ⟨hnone, -⟩
  · rw [hc, Option.some.inj (hw.symm.trans h)]
  · rw [Base64.value_padding] at h; cases h
  · rw [hnone] at h; cases h

theorem decodeChar_padding : decodeChar '=' = -2 := by decide

theorem decodeChar_nonneg : ¬ decodeChar c < 0 ↔ (Base64.value c).isSome = true := by
  rcases decodeChar_cases c with ⟨v, hv, hc⟩ | ⟨rfl, hc⟩ | ⟨hnone, -, hc⟩
  · rw [hc, hv]; simp
  · rw [hc, Base64.value_padding]; decide
  · rw [hc, hnone]; decide

theorem decodeChar_valid : decodeChar c ≠ -1 ↔ isDigitOrPadding c := by
  rcases decodeChar_cases c with ⟨v, hv, hc⟩ | ⟨rfl, hc⟩ | ⟨hnone, hne, hc⟩
  · rw [hc]
    refine iff_of_true (by omega) (.inl ?_)
    rw [hv]
    rfl
  · rw [hc]; exact iff_of_true (by decide) (.inr rfl)
  · rw [hc]
    refine iff_of_false (fun h => h rfl) ?_
    rintro (h | h)
    · rw [hnone] at h; cases h
    · exact hne h

theorem base64DecodeLoop_group {a b d : Char} (ha : (Base64.value a).isSome = true)
    (hb : (Base64.value b).isSome = true) (hc : isDigitOrPadding c) (hd : isDigitOrPadding d)
    (i : Nat) (decoded rest : Text) : base64DecodeLoop i decoded (a :: b :: c :: d :: rest) =
      if decoded.length + 3 ≥ arkshMaxOutput then .error "base64_decode: output too long"
      else base64DecodeLoop (i + 4) (decoded ++ decodeGroup (decodeChar a) (decodeChar b)
        (decodeChar c) (decodeChar d)) rest := by
  rw [base64DecodeLoop, if_neg (decodeChar_nonneg.mpr ha), if_neg (decodeChar_nonneg.mpr hb),
    if_neg (decodeChar_valid.mpr hc), if_neg (decodeChar_valid.mpr hd)]

/-! ## 5. The round trip -/

theorem byteOf_byteChar {b : Nat} (h : b < 256) : byteOf (byteChar b) = b := by
  have hall : ∀ b : Fin 256, byteOf (byteChar b) = b.1 := by decide +kernel
  exact hall ⟨b, h⟩

theorem byteChar_byteOf (h : byteOf c < 256) : byteChar (byteOf c) = c := by
  rw [byteChar, mod_eq_of_lt h]
  exact Char.ofNat_toNat c

theorem base64DecodeLoop_encode {bytes : List Nat} (h : ∀ b ∈ bytes, b < 256) (i : Nat)
    (decoded : Text) : base64DecodeLoop i decoded (Base64.encode bytes) =
      if bytes ≠ [] ∧ decoded.length + (bytes.length + 2) / 3 * 3 ≥ arkshMaxOutput then
        .error "base64_decode: output too long" else .ok (decoded ++ bytes.map byteChar) := by
  induction bytes using Base64.encode.induct generalizing i decoded with
  | case1 => rw [if_neg fun hne => hne.1 rfl, map_nil, append_nil]; rfl
  | case2 a =>
    obtain ⟨v₀, v₁, h₀, h₁, hzero, rfl⟩ := Base64.octets_one (h a (by simp))
    have hvalue₀ := Base64.value_digit h₀
    have hvalue₁ := Base64.value_digit h₁
    rw [Base64.encode_one h₁ hzero, base64DecodeLoop_group (by rw [hvalue₀]; rfl)
      (by rw [hvalue₁]; rfl) (.inr rfl) (.inr rfl), decodeChar_digit hvalue₀,
      decodeChar_digit hvalue₁, decodeChar_padding, decodeGroup_one h₀ h₁]
    exact if_congr (by simp) rfl rfl
  | case3 a b =>
    obtain ⟨v₀, v₁, v₂, h₀, h₁, h₂, hzero, rfl, rfl⟩ :=
      Base64.octets_two (h a (by simp)) (h b (by simp))
    have hvalue₀ := Base64.value_digit h₀
    have hvalue₁ := Base64.value_digit h₁
    have hvalue₂ := Base64.value_digit h₂
    rw [Base64.encode_two h₁ h₂ hzero, base64DecodeLoop_group (by rw [hvalue₀]; rfl)
      (by rw [hvalue₁]; rfl) (.inl (by rw [hvalue₂]; rfl)) (.inr rfl), decodeChar_digit hvalue₀,
      decodeChar_digit hvalue₁, decodeChar_digit hvalue₂, decodeChar_padding,
      decodeGroup_two h₀ h₁ h₂]
    exact if_congr (by simp) rfl rfl
  | case4 a b c rest ih =>
    obtain ⟨v₀, v₁, v₂, v₃, h₀, h₁, h₂, h₃, rfl, rfl, rfl⟩ :=
      Base64.octets_three (h a (by simp)) (h b (by simp)) (h c (by simp))
    have hvalue₀ := Base64.value_digit h₀
    have hvalue₁ := Base64.value_digit h₁
    have hvalue₂ := Base64.value_digit h₂
    have hvalue₃ := Base64.value_digit h₃
    rw [Base64.encode_three h₁ h₂ h₃, base64DecodeLoop_group (by rw [hvalue₀]; rfl)
      (by rw [hvalue₁]; rfl) (.inl (by rw [hvalue₂]; rfl)) (.inl (by rw [hvalue₃]; rfl)),
      decodeChar_digit hvalue₀, decodeChar_digit hvalue₁, decodeChar_digit hvalue₂,
      decodeChar_digit hvalue₃, decodeGroup_three h₀ h₁ h₂ h₃, ih fun x hx => h x (by simp [hx])]
    have hsize : (rest.length + 1 + 1 + 1 + 2) / 3 * 3 = (rest.length + 2) / 3 * 3 + 3 := by omega
    simp only [length_append, length_cons, length_nil, map_cons,
      append_assoc, cons_append, nil_append, hsize]
    by_cases hroom : decoded.length + 3 ≥ arkshMaxOutput
    · rw [if_pos hroom, if_pos ⟨by simp, by omega⟩]
    · rw [if_neg hroom]
      refine if_congr ?_ rfl rfl
      constructor
      · exact fun h => ⟨by simp, by omega⟩
      · intro h
        refine ⟨?_, by omega⟩
        rintro rfl
        exact hroom (by simpa using h.2)

structure IsByteText (text : Text) : Prop where
  byte : ∀ c ∈ text, byteOf c < 256
  nul : '\x00' ∉ text

theorem map_byteChar_byteOf (h : ∀ c ∈ text, byteOf c < 256) :
    (text.map byteOf).map byteChar = text := by
  rw [map_map]
  conv_rhs => rw [← map_id text]
  exact map_congr_left fun c hc => byteChar_byteOf (h c hc)

theorem applyBase64DecodeStage_eq {value : ArkshValue} (hkind : value.kind = .string)
    (hne : value.text ≠ []) (hmultiple : value.text.length % 4 = 0) : applyBase64DecodeStage value =
      (base64DecodeLoop 0 [] value.text).map fun decoded =>
        arkshValueSetString (cString decoded) := by
  rw [applyBase64DecodeStage, if_neg (not_not_intro hkind), if_neg hne,
    if_neg (not_not_intro hmultiple)]

/-- **Base64 round trip.** A text that fits is encoded as RFC 4648 has it, and decoded to itself. -/
theorem base64_roundTrip {value : ArkshValue} (hkind : value.kind = .string)
    (hbytes : IsByteText value.text)
    (hfits : (Base64.encode (value.text.map byteOf)).length < arkshMaxOutput) :
    applyBase64EncodeStage value =
        .ok (arkshValueSetString (Base64.encode (value.text.map byteOf))) ∧
      applyBase64DecodeStage (arkshValueSetString (Base64.encode (value.text.map byteOf))) =
        .ok (arkshValueSetString value.text) := by
  have hlength := Base64.encode_length (value.text.map byteOf)
  rw [length_map] at hlength
  by_cases hnil : value.text = []
  · rw [hnil]
    constructor
    · rw [applyBase64EncodeStage, if_neg (not_not_intro hkind), if_pos hnil]; rfl
    · rfl
  · have hpos := length_pos_of_ne_nil hnil
    constructor
    · rw [applyBase64EncodeStage, if_neg (not_not_intro hkind), if_neg hnil, if_neg (by omega),
        base64EncodeLoop_eq hbytes.byte]
    · have hne : Base64.encode (value.text.map byteOf) ≠ [] := by
        rw [← length_pos_iff_ne_nil]
        omega
      have hroom : ¬ (value.text.map byteOf ≠ [] ∧
          ([] : Text).length + ((value.text.map byteOf).length + 2) / 3 * 3 ≥ arkshMaxOutput) := by
        rintro ⟨-, hge⟩
        rw [length_map, length_nil] at hge
        omega
      have hoctets : ∀ b ∈ value.text.map byteOf, b < 256 := by
        intro b hb
        obtain ⟨c, hc, rfl⟩ := mem_map.mp hb
        exact hbytes.byte c hc
      have hmultiple : (Base64.encode (value.text.map byteOf)).length % 4 = 0 := by omega
      rw [applyBase64DecodeStage_eq rfl hne hmultiple]
      show (base64DecodeLoop 0 [] (Base64.encode (value.text.map byteOf))).map _ = _
      rw [base64DecodeLoop_encode hoctets, if_neg hroom, nil_append,
        map_byteChar_byteOf hbytes.byte]
      exact congrArg (fun text => Except.ok (arkshValueSetString text))
        (cString_of_nul_notMem hbytes.nul)

/-- The string `arksh`. -/
theorem base64_roundTrip_arksh : IsByteText "arksh".toList ∧
      (Base64.encode ("arksh".toList.map byteOf)).length < arkshMaxOutput ∧
      applyBase64EncodeStage (arkshValueSetString "arksh".toList) =
        .ok (arkshValueSetString (Base64.encode ("arksh".toList.map byteOf))) := by
  have hbytes : IsByteText (arkshValueSetString "arksh".toList).text :=
    ⟨all_iff_forall_prop.mp (by decide), by decide⟩
  exact ⟨hbytes, by decide, (base64_roundTrip rfl hbytes (by decide)).1⟩

/-! ## 6. Strictness -/

/-- The texts that the decoder takes behind so many bytes: groups of two digits and two digits or
    paddings, with room for each. -/
def Decodes : Nat → Text → Prop
  | size, a :: b :: c :: d :: rest =>
    (Base64.value a).isSome = true ∧ (Base64.value b).isSome = true ∧ isDigitOrPadding c ∧
      isDigitOrPadding d ∧ size + 3 < arkshMaxOutput ∧
      Decodes (size + 1 + (if c = '=' then 0 else 1) + (if d = '=' then 0 else 1)) rest
  | _, rest => rest = []

theorem decodeGroup_length {a b : Int} (c d : Char) :
    (decodeGroup a b (decodeChar c) (decodeChar d)).length =
      1 + (if c = '=' then 0 else 1) + (if d = '=' then 0 else 1) := by
  have hpadding : ∀ c, decodeChar c ≠ -2 ↔ c ≠ '=' := by
    intro c
    rcases decodeChar_cases c with ⟨v, hv, hc⟩ | ⟨rfl, hc⟩ | ⟨-, hne, hc⟩
    · rw [hc]
      refine iff_of_true (by omega) ?_
      rintro rfl
      cases hv
    · simp [hc]
    · rw [hc]; exact iff_of_true (by decide) hne
  simp only [decodeGroup, hpadding, length_append, length_singleton, ne_eq, ite_not]
  split <;> split <;> rfl

/-- **The decoder takes exactly those.** -/
theorem base64DecodeLoop_ok_iff (hmultiple : text.length % 4 = 0) (i : Nat) (decoded : Text) :
    (∃ result, base64DecodeLoop i decoded text = .ok result) ↔ Decodes decoded.length text := by
  generalize hsize : decoded.length = size
  induction size, text using Decodes.induct generalizing i decoded with
  | case1 size a b c d rest ih =>
    have hrest : rest.length % 4 = 0 := by simp only [length_cons] at hmultiple; omega
    -- what the loop looks at in turn, each with its own message
    by_cases ha : decodeChar a < 0
    · rw [base64DecodeLoop, if_pos ha]
      exact iff_of_false (by simp) fun h => decodeChar_nonneg.mpr h.1 ha
    by_cases hb : decodeChar b < 0
    · rw [base64DecodeLoop, if_neg ha, if_pos hb]
      exact iff_of_false (by simp) fun h => decodeChar_nonneg.mpr h.2.1 hb
    by_cases hc : decodeChar c = -1
    · rw [base64DecodeLoop, if_neg ha, if_neg hb, if_pos hc]
      exact iff_of_false (by simp) fun h => decodeChar_valid.mpr h.2.2.1 hc
    by_cases hd : decodeChar d = -1
    · rw [base64DecodeLoop, if_neg ha, if_neg hb, if_neg hc, if_pos hd]
      exact iff_of_false (by simp) fun h => decodeChar_valid.mpr h.2.2.2.1 hd
    have ha' := decodeChar_nonneg.mp ha
    have hb' := decodeChar_nonneg.mp hb
    have hc' := decodeChar_valid.mp hc
    have hd' := decodeChar_valid.mp hd
    rw [base64DecodeLoop_group ha' hb' hc' hd']
    by_cases hroom : decoded.length + 3 ≥ arkshMaxOutput
    · rw [if_pos hroom]
      refine iff_of_false (by simp) ?_
      rintro ⟨-, -, -, -, hlt, -⟩
      omega
    · have hlength : (decoded ++ decodeGroup (decodeChar a) (decodeChar b) (decodeChar c)
          (decodeChar d)).length =
          size + 1 + (if c = '=' then 0 else 1) + (if d = '=' then 0 else 1) := by
        rw [length_append, decodeGroup_length, hsize]
        omega
      rw [if_neg hroom, ih hrest (i + 4) _ hlength]
      constructor
      · exact fun h => ⟨ha', hb', hc', hd', by omega, h⟩
      · exact fun h => h.2.2.2.2.2
  | case2 size rest hshort =>
    have hnil : rest = [] := by
      rcases rest with _ | ⟨a, _ | ⟨b, _ | ⟨c, _ | ⟨d, rest⟩⟩⟩⟩
      · rfl
      · simp at hmultiple
      · simp at hmultiple
      · simp at hmultiple
      · exact (hshort a b c d rest rfl).elim
    rw [hnil]
    exact iff_of_true ⟨decoded, rfl⟩ rfl

theorem isDigitOrPadding.not_isspace (h : isDigitOrPadding c) : isspace c = false := by
  have hall : ∀ v : Fin 64, isspace (Base64.digit v) = false := by decide +kernel
  rcases h with h | rfl
  · obtain ⟨v, hv⟩ := Option.isSome_iff_exists.mp h
    obtain ⟨hlt, rfl⟩ := Base64.digit_value hv
    exact hall ⟨v, hlt⟩
  · rfl

theorem Decodes.not_isspace {size : Nat} (h : Decodes size text) :
    ∀ c ∈ text, isspace c = false := by
  induction size, text using Decodes.induct with
  | case1 size a b c d rest ih =>
    obtain ⟨ha, hb, hc, hd, -, hrest⟩ := h
    intro x hx
    simp only [mem_cons] at hx
    rcases hx with rfl | rfl | rfl | rfl | hx
    · exact isDigitOrPadding.not_isspace (.inl ha)
    · exact isDigitOrPadding.not_isspace (.inl hb)
    · exact hc.not_isspace
    · exact hd.not_isspace
    · exact ih hrest x hx
  | case2 size rest hshort =>
    have hnil : rest = [] := by
      rw [Decodes] at h
      · exact h
      · exact hshort
    intro x hx
    rw [hnil] at hx
    cases hx

theorem base64DecodeLoop_byte {i : Nat} {decoded result : Text}
    (hdecoded : ∀ c ∈ decoded, byteOf c < 256) (h : base64DecodeLoop i decoded text = .ok result) :
    ∀ c ∈ result, byteOf c < 256 := by
  have hbyte : ∀ b, byteOf (byteChar b) < 256 := by
    intro b
    have hlt : b % 256 < 256 := mod_lt b (by decide)
    have hmod : byteChar b = byteChar (b % 256) := by rw [byteChar, byteChar, mod_mod]
    rw [hmod, byteOf_byteChar hlt]
    exact hlt
  induction i, decoded, text using base64DecodeLoop.induct with
  | case1 i decoded a b c d rest ha => rw [base64DecodeLoop, if_pos ha] at h; cases h
  | case2 i decoded a b c d rest ha hb => rw [base64DecodeLoop, if_neg ha, if_pos hb] at h; cases h
  | case3 i decoded a b c d rest ha hb hc =>
    rw [base64DecodeLoop, if_neg ha, if_neg hb, if_pos hc] at h
    cases h
  | case4 i decoded a b c d rest ha hb hc hd =>
    rw [base64DecodeLoop, if_neg ha, if_neg hb, if_neg hc, if_pos hd] at h
    cases h
  | case5 i decoded a b c d rest ha hb hc hd hroom =>
    rw [base64DecodeLoop, if_neg ha, if_neg hb, if_neg hc, if_neg hd, if_pos hroom] at h
    cases h
  | case6 i decoded a b c d rest ha hb hc hd hroom ih =>
    rw [base64DecodeLoop, if_neg ha, if_neg hb, if_neg hc, if_neg hd, if_neg hroom] at h
    refine ih ?_ h
    intro x hx
    rcases mem_append.mp hx with hx | hx
    · exact hdecoded x hx
    · obtain ⟨n, rfl⟩ : ∃ n, x = byteChar n := by
        simp only [decodeGroup, mem_append, mem_singleton] at hx
        rcases hx with (rfl | hx) | hx
        · exact ⟨_, rfl⟩
        · split_ifs at hx
          · exact ⟨_, mem_singleton.mp hx⟩
          · cases hx
        · split_ifs at hx
          · exact ⟨_, mem_singleton.mp hx⟩
          · cases hx
      exact hbyte n
  | case7 i decoded text hshort =>
    rw [base64DecodeLoop] at h
    · cases h; exact hdecoded
    · exact hshort

def StrictLaw (text : Text) : Prop :=
  ∀ value result : ArkshValue, value.kind = .string → value.text = text →
    applyBase64DecodeStage value = .ok result →
      base64EncodeLoop result.text = text.filter fun c => !isspace c

theorem byteOf_eq_zero (h : byteOf c = 0) : c = '\x00' := by
  rw [← Char.ofNat_toNat c, show c.toNat = 0 from h]

/-- **The decoder is strict exactly if it refuses the text, or that is the text of bytes, none of
    them NUL.** -/
theorem strictLaw_iff (text : Text) : StrictLaw text ↔
    (text.length % 4 = 0 → Decodes 0 text → Base64.IsText (· ≠ 0) text) := by
  have hfilter : Decodes 0 text → text.filter (fun c => !isspace c) = text := fun h =>
    filter_eq_self.mpr fun c hc => by rw [h.not_isspace c hc]; rfl
  constructor
  · intro hlaw hmultiple hdecodes
    by_cases hnil : text = []
    · rw [hnil]; exact .nil
    obtain ⟨decoded, hdecoded⟩ := (base64DecodeLoop_ok_iff hmultiple 0 []).mpr hdecodes
    have hbyte := base64DecodeLoop_byte (by simp) hdecoded
    have hkind : (arkshValueSetString text).kind = .string := rfl
    have hstage := applyBase64DecodeStage_eq hkind hnil hmultiple
    have hencoded := hlaw (arkshValueSetString text) (arkshValueSetString (cString decoded)) rfl rfl
      (hstage.trans (by rw [show (arkshValueSetString text).text = text from rfl, hdecoded]; rfl))
    have hsubset : ∀ c ∈ cString decoded, c ∈ decoded := fun c hc =>
      (takeWhile_sublist _).subset hc
    rw [hfilter hdecodes] at hencoded
    rw [← hencoded]
    show Base64.IsText _ (base64EncodeLoop (cString decoded))
    rw [base64EncodeLoop_eq fun c hc => hbyte c (hsubset c hc)]
    refine Base64.isText_encode fun b hb => ?_
    obtain ⟨c, hc, rfl⟩ := mem_map.mp hb
    refine ⟨hbyte c (hsubset c hc), fun hzero => ?_⟩
    have hmem := mem_takeWhile_imp hc
    rw [byteOf_eq_zero hzero] at hmem
    simp at hmem
  · rintro hcanonical value result hkind rfl hok
    by_cases hnil : value.text = []
    · rw [applyBase64DecodeStage, if_neg (not_not_intro hkind), if_pos hnil] at hok
      cases hok
      rw [hnil]
      rfl
    by_cases hmultiple : value.text.length % 4 = 0
    swap
    · rw [applyBase64DecodeStage, if_neg (not_not_intro hkind), if_neg hnil, if_pos hmultiple] at hok
      cases hok
    rw [applyBase64DecodeStage_eq hkind hnil hmultiple] at hok
    cases hloop : base64DecodeLoop 0 [] value.text with
    | error message => rw [hloop] at hok; cases hok
    | ok decoded =>
      rw [hloop] at hok
      cases hok
      have hdecodes := (base64DecodeLoop_ok_iff hmultiple 0 []).mp ⟨decoded, hloop⟩
      obtain ⟨bytes, hbytes, htext⟩ := (hcanonical hmultiple hdecodes).exists_octets
      have hround : (bytes.map byteChar).map byteOf = bytes := by
        rw [map_map]
        conv_rhs => rw [← map_id bytes]
        exact map_congr_left fun b hb => byteOf_byteChar (hbytes b hb).1
      have hbyte : ∀ c ∈ bytes.map byteChar, byteOf c < 256 := by
        intro c hc
        obtain ⟨b, hb, rfl⟩ := mem_map.mp hc
        rw [byteOf_byteChar (hbytes b hb).1]
        exact (hbytes b hb).1
      have hnul : '\x00' ∉ bytes.map byteChar := by
        intro hmem
        obtain ⟨b, hb, hzero⟩ := mem_map.mp hmem
        have hb₀ := byteOf_byteChar (hbytes b hb).1
        rw [hzero] at hb₀
        exact (hbytes b hb).2 hb₀.symm
      have hdecoded : decoded = bytes.map byteChar := by
        rw [htext, base64DecodeLoop_encode fun b hb => (hbytes b hb).1] at hloop
        split_ifs at hloop
        cases hloop
        rfl
      rw [hfilter hdecodes, hdecoded]
      show base64EncodeLoop (cString (bytes.map byteChar)) = value.text
      rw [cString_of_nul_notMem hnul, base64EncodeLoop_eq hbyte, hround, htext]

/-- `QR==` has bits behind its byte, `QQ==QQ==` has padding before its end, and `QQBB` has a NUL. -/
theorem not_strictLaw : ¬ StrictLaw "QR==".toList ∧ ¬ StrictLaw "QQ==QQ==".toList ∧
    ¬ StrictLaw "QQBB".toList := by
  refine ⟨fun h => ?_, fun h => ?_, fun h => ?_⟩
  · have hbits := h (arkshValueSetString "QR==".toList) (arkshValueSetString "A".toList) rfl rfl rfl
    revert hbits
    decide
  · have hpadding :=
      h (arkshValueSetString "QQ==QQ==".toList) (arkshValueSetString "AA".toList) rfl rfl rfl
    revert hpadding
    decide
  · have hnul := h (arkshValueSetString "QQBB".toList) (arkshValueSetString "A".toList) rfl rfl rfl
    revert hnul
    decide

end Arksh
