/-
  Subject: The string and number scanners of the parser against the grammar.
-/
import Arksh.Object.JsonMeaning

namespace Arksh

open CText Binary64 Rfc8259 List Option Nat

/-! ## 1. UTF-8 -/

theorem or_eq_add {i a b : Nat} (h : b < 2 ^ i) : 2 ^ i * a ||| b = 2 ^ i * a + b :=
  (two_pow_add_eq_or_of_lt h a).symm

theorem tail_byte (n : Nat) : 0x80 ||| n &&& 0x3F = n % 64 + 0x80 := by
  have h : n &&& 0x3F = n % 64 := and_two_pow_sub_one_eq_mod n 6
  have h2 : (0x80 : Nat) ||| n % 64 = 0x80 + n % 64 := @or_eq_add 6 2 (n % 64) (by omega)
  rw [h, h2, add_comm]

variable {cp size v : Nat} {message : String} {rest : Text}

/-- **The parser appends the UTF-8 bytes of a code point.** -/
theorem jsonUtf8_eq (h : cp.isValidChar) : jsonUtf8 cp = utf8 cp := by
  have hval : (Char.ofNat cp).val.toNat = cp := by rw [Char.ofNat, dif_pos h]; rfl
  have hlt : cp < 0x110000 := by
    rcases h with h | h
    · omega
    · exact h.2
  unfold jsonUtf8 utf8 String.utf8EncodeChar
  simp only [hval, shiftRight_eq_div_pow, tail_byte]
  by_cases h1 : cp ≤ 0x7F
  · have : cp % 256 = cp := by omega
    simp [h1, this]
  by_cases h2 : cp ≤ 0x7FF
  · have ha : (0xC0 : Nat) ||| cp / 2 ^ 6 = 0xC0 + cp / 2 ^ 6 :=
      @or_eq_add 5 6 (cp / 2 ^ 6) (by omega)
    have e1 : (cp / 64 % 32 + 192) % 256 = 192 + cp / 64 := by omega
    have e2 : (cp % 64 + 128) % 256 = cp % 64 + 128 := by omega
    simp only [if_neg h1, if_pos h2, ha, map_cons, map_nil, UInt8.toNat_ofNat']
    simp [e1, e2]
  by_cases h3 : cp ≤ 0xFFFF
  · have ha : (0xE0 : Nat) ||| cp / 2 ^ 12 = 0xE0 + cp / 2 ^ 12 :=
      @or_eq_add 4 14 (cp / 2 ^ 12) (by omega)
    have e1 : (cp / 4096 % 16 + 224) % 256 = 224 + cp / 4096 := by omega
    have e2 : (cp / 64 % 64 + 128) % 256 = cp / 64 % 64 + 128 := by omega
    have e3 : (cp % 64 + 128) % 256 = cp % 64 + 128 := by omega
    simp only [if_neg h1, if_neg h2, if_pos h3, ha, map_cons, map_nil, UInt8.toNat_ofNat']
    simp [e1, e2, e3]
  · have ha : (0xF0 : Nat) ||| cp / 2 ^ 18 = 0xF0 + cp / 2 ^ 18 :=
      @or_eq_add 3 30 (cp / 2 ^ 18) (by omega)
    have e1 : (cp / 262144 % 8 + 240) % 256 = 240 + cp / 262144 := by omega
    have e2 : (cp / 4096 % 64 + 128) % 256 = cp / 4096 % 64 + 128 := by omega
    have e3 : (cp / 64 % 64 + 128) % 256 = cp / 64 % 64 + 128 := by omega
    have e4 : (cp % 64 + 128) % 256 = cp % 64 + 128 := by omega
    simp only [if_neg h1, if_neg h2, if_neg h3, ha, map_cons, map_nil, UInt8.toNat_ofNat']
    simp [e1, e2, e3, e4]

/-! ## 2. Escapes -/

theorem appendChars_iff {out out' cs : Text} (ho : out.length < size) :
    appendChars size out cs = some out' ↔ out'.length < size ∧ out' = out ++ cs := by
  induction cs generalizing out with
  | nil =>
    rw [appendChars, append_nil]
    constructor
    · rintro ⟨⟩; exact ⟨ho, rfl⟩
    · rintro ⟨-, rfl⟩; rfl
  | cons c cs ih =>
    rw [appendChars]
    by_cases hc : out.length + 1 < size
    · have happ : appendChar size out c = some (out ++ [c]) := appendChar_eq_some.mpr ⟨hc, rfl⟩
      rw [happ, bind_some, ih (by simpa using hc), append_assoc, singleton_append]
    · have happ : appendChar size out c = none := by
        rw [appendChar, if_pos (by omega)]
      rw [happ, bind_none]
      constructor
      · rintro ⟨⟩
      · rintro ⟨hlt, rfl⟩
        simp only [length_append, length_cons] at hlt
        omega

theorem jsonHexDigits_append (message : String) {ds : Text} (h : ∀ c ∈ ds, isxdigit c = true)
    (acc : Nat) (rest : Text) : jsonHexDigits message ds.length acc (ds ++ rest) =
      .ok (ds.foldl (fun v c => 16 * v + hexDigitValue c) acc, rest) := by
  induction ds generalizing acc with
  | nil => rfl
  | cons c ds ih =>
    rw [length_cons, cons_append, jsonHexDigits, if_pos (h c mem_cons_self),
      ih (fun c hc => h c (mem_cons_of_mem _ hc)), foldl_cons]

theorem jsonHexDigits_quad (message : String) (q : HexQuad) (rest : Text) :
    jsonHexDigits message 4 0 (q.digits ++ rest) = .ok (q.value, rest) := by
  have h := jsonHexDigits_append message q.hex 0 rest
  rw [q.length] at h
  exact h

variable {s t : Text}

theorem jsonHexDigits_sound {n acc : Nat} (h : jsonHexDigits message n acc s = .ok (v, rest)) :
    ∃ ds : Text, ds.length = n ∧ (∀ c ∈ ds, isxdigit c = true) ∧ s = ds ++ rest ∧
      v = ds.foldl (fun v c => 16 * v + hexDigitValue c) acc := by
  induction n generalizing acc s with
  | zero => cases h; exact ⟨[], rfl, fun _ hc => absurd hc not_mem_nil, rfl, rfl⟩
  | succ n ih =>
    cases s with
    | nil => cases h
    | cons c s =>
      rw [jsonHexDigits] at h
      split at h
      · rename_i hc
        obtain ⟨ds, hlen, hds, rfl, rfl⟩ := ih h
        refine ⟨c :: ds, by rw [length_cons, hlen], ?_, rfl, rfl⟩
        intro d hd
        rcases mem_cons.mp hd with rfl | hd
        · exact hc
        · exact hds d hd
      · cases h

theorem quad_of_jsonHexDigits (h : jsonHexDigits message 4 0 s = .ok (v, rest)) :
    ∃ q : HexQuad, s = q.digits ++ rest ∧ v = q.value := by
  obtain ⟨ds, hlen, hds, rfl, rfl⟩ := jsonHexDigits_sound h
  exact ⟨⟨ds, hlen, hds⟩, rfl, rfl⟩

variable {c : Char}

theorem hexDigitValue_lt (h : isxdigit c = true) : hexDigitValue c < 16 := by
  simp only [isxdigit, isdigit, Bool.or_eq_true, Bool.and_eq_true, decide_eq_true_eq,
    Char.le_def, UInt32.le_iff_toNat_le] at h
  simp only [hexDigitValue, isdigit, Bool.and_eq_true, decide_eq_true_eq, Char.le_def,
    UInt32.le_iff_toNat_le, Char.toNat]
  simp only [show '0'.val.toNat = 48 from rfl, show '9'.val.toNat = 57 from rfl,
    show 'a'.val.toNat = 97 from rfl, show 'f'.val.toNat = 102 from rfl,
    show 'A'.val.toNat = 65 from rfl, show 'F'.val.toNat = 70 from rfl] at h ⊢
  split_ifs <;> omega

theorem HexQuad.value_lt (q : HexQuad) : q.value < 0x10000 := by
  obtain ⟨ds, hlen, hds⟩ := q
  match ds, hlen with
  | [a, b, c, d], _ =>
    have ha := hexDigitValue_lt (hds a (by simp))
    have hb := hexDigitValue_lt (hds b (by simp))
    have hc := hexDigitValue_lt (hds c (by simp))
    have hd := hexDigitValue_lt (hds d (by simp))
    simp only [HexQuad.value, hexValue, foldl_cons, foldl_nil]
    omega

inductive CodePointEscape : Str → Nat → Prop
  | single (q : HexQuad) (hh : isHighSurrogate q.value = false)
      (hl : isLowSurrogate q.value = false) : CodePointEscape [.unicode q] q.value
  | pair (q r : HexQuad) (hh : isHighSurrogate q.value = true)
      (hl : isLowSurrogate r.value = true) :
      CodePointEscape [.unicode q, .unicode r] (pairValue q.value r.value)

theorem isHighSurrogate_iff : isHighSurrogate v = true ↔ 0xD800 ≤ v ∧ v ≤ 0xDBFF := by
  simp [isHighSurrogate]

theorem isLowSurrogate_iff : isLowSurrogate v = true ↔ 0xDC00 ≤ v ∧ v ≤ 0xDFFF := by
  simp [isLowSurrogate]

theorem CodePointEscape.isValidChar {s : Str} (h : CodePointEscape s cp) : cp.isValidChar := by
  cases h with
  | single q hh hl =>
    have := HexQuad.value_lt q
    have hh' := mt isHighSurrogate_iff.mpr (by rw [hh]; decide)
    have hl' := mt isLowSurrogate_iff.mpr (by rw [hl]; decide)
    omega
  | pair q r hh hl =>
    have hh' := isHighSurrogate_iff.mp hh
    have hl' := isLowSurrogate_iff.mp hl
    unfold Nat.isValidChar pairValue
    omega

theorem CodePointEscape.decode {s : Str} (h : CodePointEscape s cp) (t : Str) :
    Rfc8259.decode (s ++ t) = (Rfc8259.decode t).map (utf8 cp ++ ·) := by
  cases h with
  | single q hh hl => rw [singleton_append, Rfc8259.decode.eq_def]; simp [hh, hl]
  | pair q r hh hl => simp [Rfc8259.decode, hh, hl]

theorem jsonCodePoint_append {s : Str} (h : CodePointEscape s cp) (rest : Text) :
    ∃ t, s.text = '\\' :: 'u' :: t ∧ jsonCodePoint (t ++ rest) = .ok (cp, rest) := by
  cases h with
  | single q hh hl =>
    refine ⟨q.digits, by simp [StrItem.text], ?_⟩
    have hh' := mt isHighSurrogate_iff.mpr (by rw [hh]; decide)
    have hl' := mt isLowSurrogate_iff.mpr (by rw [hl]; decide)
    rw [jsonCodePoint, jsonHexDigits_quad]
    simp only [if_neg hh', if_neg hl']
  | pair q r hh hl =>
    refine ⟨q.digits ++ '\\' :: 'u' :: r.digits, by simp [StrItem.text], ?_⟩
    have hh' := isHighSurrogate_iff.mp hh
    have hl' := isLowSurrogate_iff.mp hl
    have hn : ¬ (r.value < 0xDC00 ∨ 0xDFFF < r.value) := by omega
    rw [jsonCodePoint, append_assoc, jsonHexDigits_quad]
    simp only [if_pos hh', cons_append, jsonHexDigits_quad, if_neg hn]
    rfl

theorem escape_of_jsonCodePoint (h : jsonCodePoint s = .ok (cp, rest)) :
    ∃ e : Str, CodePointEscape e cp ∧ '\\' :: 'u' :: s = e.text ++ rest := by
  unfold jsonCodePoint at h
  split at h
  · cases h
  rename_i v cursor hq
  obtain ⟨q, rfl, rfl⟩ := quad_of_jsonHexDigits hq
  split at h
  · rename_i hh
    split at h
    · rename_i cursor'
      split at h
      · cases h
      rename_i low cursor'' hr
      obtain ⟨r, rfl, rfl⟩ := quad_of_jsonHexDigits hr
      split at h
      · cases h
      simp only [Except.ok.injEq, Prod.mk.injEq] at h
      obtain ⟨rfl, rfl⟩ := h
      exact ⟨_, .pair q r (isHighSurrogate_iff.mpr hh) (isLowSurrogate_iff.mpr (by omega)),
        by simp [StrItem.text]⟩
    · cases h
  · rename_i hh
    split at h
    · cases h
    rename_i hl
    cases h
    refine ⟨_, .single q ?_ ?_, by simp [StrItem.text]⟩
    · exact Bool.eq_false_of_not_eq_true (mt isHighSurrogate_iff.mp hh)
    · exact Bool.eq_false_of_not_eq_true (mt isLowSurrogate_iff.mp hl)

theorem jsonSimpleEscape_letter (e : Escape) : jsonSimpleEscape e.letter = some e.value := by
  cases e <;> rfl

theorem escape_of_jsonSimpleEscape {v : Char} (h : jsonSimpleEscape c = some v) :
    ∃ e : Escape, c = e.letter ∧ v = e.value := by
  unfold jsonSimpleEscape at h
  split at h
  · rename_i hc; exact ⟨.quote, hc, (Option.some.inj h).symm⟩
  split at h
  · rename_i hc; exact ⟨.backslash, hc, (Option.some.inj h).symm⟩
  split at h
  · rename_i hc; exact ⟨.slash, hc, (Option.some.inj h).symm⟩
  split at h
  · rename_i hc; exact ⟨.backspace, hc, (Option.some.inj h).symm⟩
  split at h
  · rename_i hc; exact ⟨.formFeed, hc, (Option.some.inj h).symm⟩
  split at h
  · rename_i hc; exact ⟨.lineFeed, hc, (Option.some.inj h).symm⟩
  split at h
  · rename_i hc; exact ⟨.carriageReturn, hc, (Option.some.inj h).symm⟩
  split at h
  · rename_i hc; exact ⟨.tab, hc, (Option.some.inj h).symm⟩
  · cases h

/-! ## 3. Strings -/

theorem isUnescaped_iff : isUnescaped c = true ↔ 0x20 ≤ c.toNat ∧ c ≠ '"' ∧ c ≠ '\\' := by
  simp [isUnescaped, and_assoc]

theorem decode_cases {s : Str} (h : decode s = some t) : (s = [] ∧ t = []) ∨
    (∃ c s' t', s = .plain c :: s' ∧ decode s' = some t' ∧ t = c.1 :: t') ∨
    (∃ e s' t', s = .escape e :: s' ∧ decode s' = some t' ∧ t = e.value :: t') ∨
    (∃ e cp s' t', CodePointEscape e cp ∧ s = e ++ s' ∧ decode s' = some t' ∧
      t = utf8 cp ++ t') := by
  cases s with
  | nil => cases h; exact .inl ⟨rfl, rfl⟩
  | cons i s =>
    refine .inr ?_
    cases i with
    | plain c =>
      rw [decode, map_eq_some_iff] at h
      obtain ⟨t', ht, rfl⟩ := h
      exact .inl ⟨c, s, t', rfl, ht, rfl⟩
    | escape e =>
      rw [decode, map_eq_some_iff] at h
      obtain ⟨t', ht, rfl⟩ := h
      exact .inr (.inl ⟨e, s, t', rfl, ht, rfl⟩)
    | unicode q =>
      refine .inr (.inr ?_)
      rw [decode.eq_def] at h
      simp only at h
      split at h
      · rename_i hh
        split at h
        · rename_i r s'
          split at h
          · rename_i hl
            rw [map_eq_some_iff] at h
            obtain ⟨t', ht, rfl⟩ := h
            exact ⟨_, _, s', t', .pair q r hh hl, rfl, ht, rfl⟩
          · cases h
        · cases h
      · rename_i hh
        split at h
        · cases h
        · rename_i hl
          rw [map_eq_some_iff] at h
          obtain ⟨t', ht, rfl⟩ := h
          exact ⟨_, _, s, t', .single q (Bool.eq_false_of_not_eq_true hh)
            (Bool.eq_false_of_not_eq_true hl), rfl, ht, rfl⟩

theorem jsonStringLoop_text (n : Nat) :
    ∀ {s : Str} {t : Text} (out : Text) (fuel : Nat), s.length ≤ n → decode s = some t →
      out.length + t.length < size → s.text.length < fuel → ∀ rest,
      jsonStringLoop size fuel out (s.text ++ '"' :: rest) = .ok (out ++ t, rest) := by
  induction n with
  | zero =>
    intro s t out fuel hn hd _ hf rest
    obtain rfl := length_eq_zero_iff.mp (le_zero.mp hn)
    cases hd
    obtain ⟨fuel, rfl⟩ := Nat.exists_eq_add_of_lt hf
    simp [jsonStringLoop]
  | succ n ih =>
    intro s t out fuel hn hd hsz hf rest
    rcases fuel with _ | fuel
    · omega
    rcases decode_cases hd with ⟨rfl, rfl⟩ | ⟨c, s', t', rfl, hs, rfl⟩ |
      ⟨e, s', t', rfl, hs, rfl⟩ | ⟨e, cp, s', t', he, rfl, hs, rfl⟩
    · simp [jsonStringLoop]
    · -- a plain character
      have hc := isUnescaped_iff.mp c.2
      simp only [length_cons, Str.text_cons, StrItem.text, length_append, length_nil] at hn hsz hf
      have happ : appendChar size out c.1 = some (out ++ [c.1]) :=
        appendChar_eq_some.mpr ⟨by omega, rfl⟩
      have hrec := ih (out ++ [c.1]) fuel (by omega) hs
        (by simp only [length_append, length_cons, length_nil]; omega)
        (by omega) rest
      simp only [Str.text_cons, StrItem.text, cons_append, nil_append, jsonStringLoop]
      rw [if_neg hc.2.1, if_neg (by omega), if_pos hc.2.2, happ]
      simpa using hrec
    · -- a two-character escape
      simp only [length_cons, Str.text_cons, StrItem.text, length_append, length_nil] at hn hsz hf
      have happ : appendChar size out e.value = some (out ++ [e.value]) :=
        appendChar_eq_some.mpr ⟨by omega, rfl⟩
      have hrec := ih (out ++ [e.value]) fuel (by omega) hs
        (by simp only [length_append, length_cons, length_nil]; omega)
        (by omega) rest
      simp only [Str.text_cons, StrItem.text, cons_append, nil_append, jsonStringLoop]
      simp only [jsonSimpleEscape_letter, happ]
      simpa using hrec
    · -- the escape of a code point
      obtain ⟨u, hu, hcp⟩ := jsonCodePoint_append he (s'.text ++ '"' :: rest)
      have hlen : 0 < e.length := by cases he <;> simp
      have htext : (e ++ s' : Str).text = '\\' :: 'u' :: (u ++ s'.text) := by
        have : (e ++ s' : Str).text = e.text ++ s'.text := by simp [Str.text]
        rw [this, hu]
        rfl
      simp only [length_append, htext, length_cons] at hn hsz hf
      have happ : appendChars size out (utf8 cp) = some (out ++ utf8 cp) :=
        (appendChars_iff (by omega)).mpr ⟨by rw [length_append]; omega, rfl⟩
      have hrec := ih (out ++ utf8 cp) fuel (by omega) hs
        (by rw [length_append]; omega) (by omega) rest
      have hesc : jsonParseUnicodeEscape size out (u ++ (s'.text ++ '"' :: rest)) =
          .ok (out ++ utf8 cp, s'.text ++ '"' :: rest) := by
        rw [jsonParseUnicodeEscape, hcp]
        simp only [jsonUtf8_eq he.isValidChar, happ]
      rw [htext]
      simp only [cons_append, append_assoc, jsonStringLoop]
      simp only [show jsonSimpleEscape 'u' = none from rfl, if_true, hesc]
      simpa using hrec

theorem text_of_jsonStringLoop (fuel : Nat) :
    ∀ {s out out' rest : Text}, out.length < size →
      jsonStringLoop size fuel out s = .ok (out', rest) →
      ∃ (str : Str) (t : Text), s = str.text ++ '"' :: rest ∧ decode str = some t ∧
        out' = out ++ t ∧ out'.length < size := by
  induction fuel with
  | zero => intro s out out' rest _ h; cases h
  | succ fuel ih =>
    intro s out out' rest ho h
    cases s with
    | nil => cases h
    | cons c s =>
      rw [jsonStringLoop.eq_def] at h
      simp only at h
      split at h
      · rename_i hq
        cases h
        exact ⟨[], [], by rw [hq]; rfl, rfl, by simp, ho⟩
      rename_i hq
      split at h
      · cases h
      split at h
      · rename_i hb
        split at h
        · cases h
        rename_i o happ
        obtain ⟨hlt, rfl⟩ := appendChar_eq_some.mp happ
        obtain ⟨str, t, rfl, hd, rfl, hsz⟩ := ih (by simpa using hlt) h
        have hc : isUnescaped c = true := isUnescaped_iff.mpr ⟨by omega, hq, hb⟩
        exact ⟨.plain ⟨c, hc⟩ :: str, c :: t, rfl, by rw [decode, hd]; rfl, by simp, hsz⟩
      · rename_i hb
        obtain rfl : c = '\\' := Classical.not_not.mp hb
        cases s with
        | nil => cases h
        | cons e s =>
          simp only at h
          split at h
          · rename_i v hv
            obtain ⟨e, rfl, rfl⟩ := escape_of_jsonSimpleEscape hv
            split at h
            · cases h
            rename_i o happ
            obtain ⟨hlt, rfl⟩ := appendChar_eq_some.mp happ
            obtain ⟨str, t, rfl, hd, rfl, hsz⟩ := ih (by simpa using hlt) h
            exact ⟨.escape e :: str, e.value :: t, rfl, by rw [decode, hd]; rfl, by simp, hsz⟩
          · split at h
            · rename_i hu
              subst hu
              split at h
              · cases h
              rename_i o cursor hesc
              unfold jsonParseUnicodeEscape at hesc
              split at hesc
              · cases hesc
              rename_i cp cursor' hcp
              split at hesc
              · cases hesc
              rename_i o' happ
              cases hesc
              obtain ⟨esc, he, htext⟩ := escape_of_jsonCodePoint hcp
              obtain ⟨hlt, rfl⟩ := (appendChars_iff ho).mp happ
              obtain ⟨str, t, rfl, hd, rfl, hsz⟩ := ih hlt h
              refine ⟨esc ++ str, utf8 cp ++ t, ?_, ?_, ?_, hsz⟩
              · have : (esc ++ str : Str).text = esc.text ++ str.text := by simp [Str.text]
                rw [htext, this, append_assoc]
              · rw [he.decode, hd]; rfl
              · rw [jsonUtf8_eq he.isValidChar, append_assoc]
            · cases h

/-- **A string is read iff the grammar derives it and what it decodes to fits.** -/
theorem jsonParseString_iff (hs : 0 < size) :
    jsonParseString size s = .ok (t, rest) ↔
      ∃ str : Str, s = str.quoted ++ rest ∧ decode str = some t ∧ t.length < size := by
  constructor
  · intro h
    unfold jsonParseString at h
    split at h
    · rename_i cursor
      obtain ⟨str, t', rfl, hd, rfl, hsz⟩ := text_of_jsonStringLoop _ hs h
      exact ⟨str, by simp [Str.quoted], by simpa using hd, hsz⟩
    · cases h
  · rintro ⟨str, rfl, hd, hsz⟩
    have h := jsonStringLoop_text str.length [] ((str.text ++ '"' :: rest).length + 1)
      (le_refl _) hd (by simpa using hsz) (by simp only [length_append]; omega) rest
    simpa [Str.quoted, jsonParseString] using h

/-! ## 4. Numbers -/

theorem isNumberDelimiter_iff : jsonIsNumberDelimiter s = true ↔ Delimited s := by
  cases s with
  | nil => exact ⟨fun _ => delimited_nil, fun _ => rfl⟩
  | cons c s =>
    have he : jsonIsNumberDelimiter (c :: s) = isDelimiter c := by
      simp [jsonIsNumberDelimiter, isDelimiter, isWs, Bool.or_assoc]
    rw [he]
    exact ⟨fun h => delimited_cons h, fun h => h c s rfl⟩

theorem stops_of_delimited (h : Delimited s) : Stops s := by
  rintro c t rfl
  have hc := h c t rfl
  simp only [isDelimiter, isWs, Bool.or_eq_true, decide_eq_true_eq] at hc
  rcases hc with ((rfl | rfl) | rfl) | ((rfl | rfl) | rfl) | rfl <;> rfl

theorem isspace_of_startsNumber (h : startsNumber c = true) : isspace c = false := by
  simp only [startsNumber, Bool.or_eq_true, decide_eq_true_eq] at h
  rcases h with rfl | h
  · rfl
  · exact isspace_of_isdigit h

theorem isdigit_of_delimited (h : Delimited (c :: t)) : isdigit c = false := by
  have hc := h c t rfl
  simp only [isDelimiter, isWs, Bool.or_eq_true, decide_eq_true_eq] at hc
  rcases hc with ((rfl | rfl) | rfl) | ((rfl | rfl) | rfl) | rfl <;> rfl

theorem zeroBeforeDigit_append (hr : Delimited rest) (hne : t ≠ []) :
    zeroBeforeDigit (t ++ rest) = zeroBeforeDigit t := by
  match t, hne with
  | [z], _ =>
    cases rest with
    | nil => rfl
    | cons d rest => simp [zeroBeforeDigit, isdigit_of_delimited hr]
  | z :: d :: t, _ => rfl

theorem leadingZero_append (hr : Delimited rest) (hne : c = '-' → t ≠ []) :
    jsonLeadingZero (c :: t ++ rest) = jsonLeadingZero (c :: t) := by
  rw [cons_append, jsonLeadingZero, jsonLeadingZero]
  by_cases hc : c = '-'
  · rw [if_pos hc, if_pos hc, zeroBeforeDigit_append hr (hne hc)]
  · rw [if_neg hc, if_neg hc, ← cons_append, zeroBeforeDigit_append hr (cons_ne_nil c t)]

variable {x : Binary64}

/-- **A number the parser takes is read, whatever delimits it.** -/
theorem jsonParseNumber_token (h : parserNumber t = some x) (hr : Delimited rest) :
    jsonLeadingZero (t ++ rest) = false ∧ jsonParseNumber (t ++ rest) = .ok (x, rest) := by
  obtain ⟨c, t', rfl, hc, hz, hst⟩ := startsNumber_of_parserNumber h
  refine ⟨?_, ?_⟩
  · rw [leadingZero_append hr, hz]
    rintro rfl rfl
    cases hst
  · rw [jsonParseNumber, strtod_append (stops_of_delimited hr) (isspace_of_startsNumber hc), hst]
    simp only [map_some, nil_append]
    rw [if_pos (isNumberDelimiter_iff.mpr hr)]

theorem token_of_jsonParseNumber (hc : startsNumber c = true)
    (hz : jsonLeadingZero (c :: s) = false) (h : jsonParseNumber (c :: s) = .ok (x, rest)) :
    ∃ t, c :: s = t ++ rest ∧ parserNumber t = some x ∧ Delimited rest := by
  unfold jsonParseNumber at h
  split at h
  · cases h
  rename_i v endptr hst
  split at h
  · rename_i hdel
    cases h
    have hr : Delimited rest := isNumberDelimiter_iff.mp hdel
    obtain ⟨⟨t, ht⟩, hlen⟩ := strtod_suffix hst
    cases t with
    | nil =>
      rw [nil_append] at ht
      rw [ht] at hlen
      exact absurd hlen (lt_irrefl _)
    | cons b t =>
      obtain ⟨rfl, rfl⟩ : b = c ∧ t ++ rest = s := by
        rw [cons_append, cons.injEq] at ht
        exact ht
      have hsp := isspace_of_startsNumber hc
      rw [← cons_append, strtod_append (stops_of_delimited hr) hsp, map_eq_some_iff] at hst
      obtain ⟨⟨v, r⟩, hst, heq⟩ := hst
      simp only [Prod.mk.injEq, append_left_eq_self] at heq
      obtain ⟨rfl, rfl⟩ := heq
      have hne : b = '-' → t ≠ [] := by rintro rfl rfl; cases hst
      have hz' : jsonLeadingZero (b :: t) = false := by
        rw [← leadingZero_append hr hne, cons_append, hz]
      refine ⟨b :: t, rfl, ?_, hr⟩
      unfold parserNumber
      simp only [hc, hz', and_self, if_true, hst]
  · cases h

theorem isToken_of_parserNumber (h : parserNumber t = some x) : IsToken t := by
  obtain ⟨c, t', rfl, hc, -, hst⟩ := startsNumber_of_parserNumber h
  refine ⟨⟨c, t', rfl, hc⟩, fun e he => ?_⟩
  cases hd : isDelimiter e with
  | false => rfl
  | true =>
    -- a delimiter inside would have ended the number
    obtain ⟨a, b, hab⟩ := append_of_mem he
    have hstop : Delimited (e :: b) := delimited_cons hd
    cases a with
    | nil =>
      obtain ⟨rfl, -⟩ := cons.inj hab
      simp only [isDelimiter, isWs, Bool.or_eq_true, decide_eq_true_eq] at hd
      rcases hd with ((rfl | rfl) | rfl) | ((rfl | rfl) | rfl) | rfl <;>
        exact absurd hc (by decide)
    | cons a₀ a =>
      obtain ⟨rfl, rfl⟩ := cons.inj hab
      have happ := strtod_append (stops_of_delimited hstop) (isspace_of_startsNumber hc) a
      have hst' := happ.symm.trans hst
      rw [map_eq_some_iff] at hst'
      obtain ⟨⟨v, r⟩, -, heq⟩ := hst'
      simp at heq

/-! ## 5. Tokens and heads -/

mutual

theorem Value.tokens_of_eval (v : Value) {d : Datum} (h : v.eval parserReading = some d) :
    ∀ t ∈ v.numerals, IsToken t := by
  match v with
  | .null | .bool _ | .str _ | .emptyArr _ | .emptyObj _ => intro t ht; cases ht
  | .num n =>
    intro t ht
    obtain rfl := mem_singleton.mp ht
    obtain ⟨x, hx, -⟩ := map_eq_some_iff.mp h
    exact isToken_of_parserNumber hx
  | .arr es => obtain ⟨ds, hds, -⟩ := map_eq_some_iff.mp h; exact Elements.tokens_of_eval es hds
  | .obj ms => obtain ⟨ops, hops, -⟩ := map_eq_some_iff.mp h; exact Members.tokens_of_eval ms hops

theorem Elements.tokens_of_eval (es : Elements) {ds : List Datum}
    (h : es.eval parserReading = some ds) : ∀ t ∈ es.numerals, IsToken t := by
  match es with
  | .one _ v _ => obtain ⟨d, hd, -⟩ := map_eq_some_iff.mp h; exact Value.tokens_of_eval v hd
  | .more _ v _ es =>
    obtain ⟨d, hd, h⟩ := bind_eq_some_iff.mp h
    obtain ⟨ds, hds, -⟩ := map_eq_some_iff.mp h
    intro t ht
    rcases mem_append.mp ht with ht | ht
    · exact Value.tokens_of_eval v hd t ht
    · exact Elements.tokens_of_eval es hds t ht

theorem Members.tokens_of_eval (ms : Members) {ops : List (Text × Datum)}
    (h : ms.eval parserReading = some ops) : ∀ t ∈ ms.numerals, IsToken t := by
  match ms with
  | .one _ key _ _ v _ =>
    obtain ⟨k, -, h⟩ := bind_eq_some_iff.mp h
    obtain ⟨d, hd, -⟩ := map_eq_some_iff.mp h
    exact Value.tokens_of_eval v hd
  | .more _ key _ _ v _ ms =>
    obtain ⟨k, -, h⟩ := bind_eq_some_iff.mp h
    obtain ⟨d, hd, h⟩ := bind_eq_some_iff.mp h
    obtain ⟨ops, hops, -⟩ := map_eq_some_iff.mp h
    intro t ht
    rcases mem_append.mp ht with ht | ht
    · exact Value.tokens_of_eval v hd t ht
    · exact Members.tokens_of_eval ms hops t ht

end

theorem Value.head_of_eval {v : Value} {d : Datum} (h : v.eval parserReading = some d) :
    ∃ c t, v.text = c :: t ∧ startsValue c = true :=
  v.text_head (Value.tokens_of_eval v h)

end Arksh
