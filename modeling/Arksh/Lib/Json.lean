/-
  Subject: The JSON grammar of RFC 8259, as concrete syntax trees and the text of each.

  A tree holds every choice the grammar leaves open, white space included, so that a text is a
  JSON text exactly where it is the text of a tree. A number is any text, and what counts as a
  number is said by a predicate (`Document.NumbersAre`), because readers differ in it.

  The grammar is about characters, `%x20-10FFFF`; how they are encoded is not part of it.
-/
import Arksh.Lib.Strtod

namespace Rfc8259

open CText Binary64 List

/-! ## 1. White space and strings -/

/-- `ws`: blank, tab, line feed, carriage return -/
def isWs (c : Char) : Bool := c = ' ' || c = '\t' || c = '\n' || c = '\r'

/-- A run of white space. -/
abbrev Ws := { t : Text // ∀ c ∈ t, isWs c = true }

def Ws.append (a b : Ws) : Ws :=
  ⟨a.1 ++ b.1, fun c hc => (List.mem_append.mp hc).elim (a.2 c) (b.2 c)⟩

/-- The white space a text starts with. -/
def Ws.takeFrom (t : Text) : Ws := ⟨t.takeWhile isWs, fun _ hc => List.mem_takeWhile_imp hc⟩

def Ws.none : Ws := ⟨[], fun _ hc => nomatch hc⟩

/-- `unescaped`: no control character, quotation mark or backslash -/
def isUnescaped (c : Char) : Bool := 0x20 ≤ c.toNat && c ≠ '"' && c ≠ '\\'

/-- The two-character escapes. -/
inductive Escape where
  | quote | backslash | slash | backspace | formFeed | lineFeed | carriageReturn | tab
  deriving DecidableEq

def Escape.letter : Escape → Char
  | .quote => '"'
  | .backslash => '\\'
  | .slash => '/'
  | .backspace => 'b'
  | .formFeed => 'f'
  | .lineFeed => 'n'
  | .carriageReturn => 'r'
  | .tab => 't'

def Escape.value : Escape → Char
  | .quote => '"'
  | .backslash => '\\'
  | .slash => '/'
  | .backspace => '\x08'
  | .formFeed => '\x0c'
  | .lineFeed => '\n'
  | .carriageReturn => '\r'
  | .tab => '\t'

/-- The four digits of a `\uXXXX`. -/
structure HexQuad where
  digits : Text
  length : digits.length = 4
  hex : ∀ c ∈ digits, isxdigit c = true

def HexQuad.value (q : HexQuad) : Nat := hexValue q.digits

/-- `char` -/
inductive StrItem where
  | plain (c : { c : Char // isUnescaped c = true })
  | escape (e : Escape)
  | unicode (q : HexQuad)

def StrItem.text : StrItem → Text
  | .plain c => [c.1]
  | .escape e => ['\\', e.letter]
  | .unicode q => '\\' :: 'u' :: q.digits

/-- The characters between the quotation marks of a `string`. -/
abbrev Str := List StrItem

def Str.text (s : Str) : Text := s.flatMap StrItem.text

@[simp] theorem Str.text_nil : Str.text [] = [] := rfl

@[simp] theorem Str.text_cons (i : StrItem) (s : Str) : Str.text (i :: s) = i.text ++ Str.text s :=
  rfl

/-- `string` -/
def Str.quoted (s : Str) : Text := '"' :: (s.text ++ ['"'])

def isHighSurrogate (v : Nat) : Bool := 0xD800 ≤ v && v ≤ 0xDBFF

def isLowSurrogate (v : Nat) : Bool := 0xDC00 ≤ v && v ≤ 0xDFFF

/-- The code point of a surrogate pair. -/
def pairValue (high low : Nat) : Nat := 0x10000 + (high - 0xD800) * 0x400 + (low - 0xDC00)

/-- The UTF-8 bytes of a code point. -/
def utf8 (v : Nat) : Text := (String.utf8EncodeChar (Char.ofNat v)).map fun b => Char.ofNat b.toNat

def decode : Str → Option Text
  | [] => some []
  | .plain c :: s => (decode s).map (c.1 :: ·)
  | .escape e :: s => (decode s).map (e.value :: ·)
  | .unicode q :: s =>
    if isHighSurrogate q.value then
      match s with
      | .unicode r :: s =>
        if isLowSurrogate r.value then (decode s).map (utf8 (pairValue q.value r.value) ++ ·)
        else none
      | _ => none
    else if isLowSurrogate q.value then none
    else (decode s).map (utf8 q.value ++ ·)

/-! ## 2. Numbers -/

/-- `exp` -/
structure Exponent where
  upper : Bool
  sign : Option Bool
  digits : Text
  isDigits : ∀ c ∈ digits, isdigit c = true
  nonempty : digits ≠ []

def Exponent.text (e : Exponent) : Text :=
  (if e.upper then 'E' else 'e') ::
    ((match e.sign with | none => [] | some true => ['-'] | some false => ['+']) ++ e.digits)

def Exponent.value (e : Exponent) : Int :=
  let v : Int := Nat.ofDigitChars 10 e.digits 0
  if e.sign = some true then -v else v

/-- `number`; an empty `frac` is the absence of a fraction. -/
structure Number where
  neg : Bool
  int : Text
  frac : Text
  exp : Option Exponent
  intDigits : ∀ c ∈ int, isdigit c = true
  intNonempty : int ≠ []
  noLeadingZero : ∀ t, int = '0' :: t → t = []
  fracDigits : ∀ c ∈ frac, isdigit c = true

theorem isdigit_of_mem_nil : ∀ c ∈ ([] : Text), isdigit c = true :=
  fun _ hc => absurd hc not_mem_nil

def Number.expText (n : Number) : Text :=
  match n.exp with
  | none => []
  | some e => e.text

def Number.text (n : Number) : Text :=
  signText n.neg ++ (n.int ++ ((if n.frac = [] then [] else '.' :: n.frac) ++ n.expText))

/-- The double nearest to a number. -/
def Number.value (n : Number) : Binary64 :=
  scaled n.neg (Nat.ofDigitChars 10 (n.int ++ n.frac) 0) 10
    ((match n.exp with | none => 0 | some e => e.value) - n.frac.length)

def IsNumber (t : Text) : Prop := ∃ n : Number, n.text = t

theorem exponentPart_text (n : Number) :
    exponentPart 'e' 'E' n.expText = (match n.exp with | none => 0 | some e => e.value, []) := by
  unfold Number.expText
  cases n.exp with
  | none => rfl
  | some e =>
    obtain ⟨upper, sign, digits, hd, hne⟩ := e
    obtain ⟨d, ds, rfl⟩ := exists_cons_of_ne_nil hne
    have htake : (d :: ds).takeWhile isdigit = d :: ds := takeWhile_eq_self_iff.mpr hd
    have hdrop : (d :: ds).dropWhile isdigit = [] := dropWhile_eq_nil_iff.mpr hd
    have hd0 : isdigit d = true := hd d mem_cons_self
    have h1 : d ≠ '+' := by rintro rfl; exact absurd hd0 (by decide)
    have h2 : d ≠ '-' := by rintro rfl; exact absurd hd0 (by decide)
    rcases sign with _ | _ | _ <;> cases upper <;>
      simp [Exponent.text, exponentPart, Exponent.value, h1, h2, htake, hdrop]

theorem expText_stops (n : Number) :
    n.expText = [] ∨ ∃ c t, n.expText = c :: t ∧ isdigit c = false ∧ c ≠ '.' := by
  unfold Number.expText
  cases n.exp with
  | none => exact .inl rfl
  | some e => refine .inr ⟨_, _, rfl, ?_⟩; cases e.upper <;> decide

variable {t x y : Text} {c : Char} {ws : Ws}

theorem takeWhile_digits {ds : Text} (hd : ∀ c ∈ ds, isdigit c = true)
    (ht : t = [] ∨ ∃ c t', t = c :: t' ∧ isdigit c = false) :
    (ds ++ t).takeWhile isdigit = ds ∧ (ds ++ t).dropWhile isdigit = t := by
  have htake : t.takeWhile isdigit = [] ∧ t.dropWhile isdigit = t := by
    rcases ht with rfl | ⟨c, t', rfl, hc⟩
    · exact ⟨rfl, rfl⟩
    · simp [hc]
  rw [takeWhile_append_of_pos hd, dropWhile_append_of_pos hd, htake.1, htake.2]
  simp

theorem pointed_number (n : Number) :
    pointed isdigit (n.int ++ ((if n.frac = [] then [] else '.' :: n.frac) ++ n.expText)) =
      some (n.int, n.frac, n.expText) := by
  have hne := n.intNonempty
  unfold pointed
  by_cases hf : n.frac = []
  · rw [if_pos hf, nil_append, hf]
    rcases expText_stops n with he | ⟨c, t, he, hc, hdot⟩
    · have := takeWhile_digits n.intDigits (.inl he)
      rw [this.1, this.2, he]
      simp [hne]
    · have := takeWhile_digits n.intDigits (.inr ⟨c, t, he, hc⟩)
      rw [this.1, this.2, he]
      simp [hne, hdot]
  · rw [if_neg hf]
    have h1 := takeWhile_digits (t := '.' :: n.frac ++ n.expText) n.intDigits
      (.inr ⟨'.', n.frac ++ n.expText, rfl, by decide⟩)
    have h2 := takeWhile_digits (t := n.expText) n.fracDigits (by
      rcases expText_stops n with he | ⟨c, t, he, hc, -⟩
      · exact .inl he
      · exact .inr ⟨c, t, he, hc⟩)
    rw [h1.1, h1.2]
    simp [h2.1, h2.2, hne]

theorem decimalNumeral_number (n : Number) : decimalNumeral n.neg
        (n.int ++ ((if n.frac = [] then [] else '.' :: n.frac) ++ n.expText)) =
      some (n.value, []) := by
  rw [decimalNumeral, pointed_number]
  dsimp only
  rw [exponentPart_text]
  rfl

/-- **`strtod` reads every number whole.** -/
theorem strtod_number (n : Number) : strtod n.text = some (n.value, []) := by
  have hdec := decimalNumeral_number n
  obtain ⟨d, ds, hint⟩ := exists_cons_of_ne_nil n.intNonempty
  have hd0 : isdigit d = true := n.intDigits d (by rw [hint]; exact mem_cons_self)
  have hu := @unsignedNumeral_decimal _ n.neg _ (fun x t h => by
    -- a leading `0` stands alone: what follows it is a point, an exponent or nothing
    rw [hint, cons_append, cons.injEq] at h
    obtain ⟨rfl, h⟩ := h
    obtain rfl := n.noLeadingZero ds hint
    rw [nil_append] at h
    by_cases hf : n.frac = []
    · rw [if_pos hf, nil_append] at h
      unfold Number.expText at h
      cases he : n.exp with
      | none => rw [he] at h; cases h
      | some e =>
        rw [he] at h
        obtain ⟨rfl, -⟩ := h
        cases e.upper <;> decide
    · rw [if_neg hf, cons_append, cons.injEq] at h
      obtain ⟨rfl, -⟩ := h
      decide) hdec
  unfold Number.text
  cases hn : n.neg with
  | true => rw [hn] at hu; simpa [signText, strtod_minus] using hu
  | false =>
    rw [hn, hint] at hu
    rw [hint]
    simpa [signText, strtod_of_isdigit hd0] using hu

theorem Number.mem_text {n : Number} (h : c ∈ n.text) :
    isdigit c = true ∨ c ∈ ['-', '+', '.', 'e', 'E'] := by
  obtain ⟨neg, int, frac, exp, hint, _, _, hfrac⟩ := n
  simp only [Number.text, mem_append] at h
  rcases h with h | h | h | h
  · cases neg
    · cases h
    · exact .inr (by simp_all [signText])
  · exact .inl (hint c h)
  · split at h
    · cases h
    · rcases mem_cons.mp h with rfl | h
      · exact .inr (by decide)
      · exact .inl (hfrac c h)
  · unfold Number.expText at h
    cases exp with
    | none => cases h
    | some e =>
      obtain ⟨upper, sign, digits, hd, _⟩ := e
      simp only [Exponent.text, mem_cons, mem_append] at h
      rcases h with rfl | h | h
      · exact .inr (by cases upper <;> simp)
      · rcases sign with _ | _ | _
        · cases h
        · exact .inr (by simp_all)
        · exact .inr (by simp_all)
      · exact .inl (hd c h)

/-! ## 3. Values -/

mutual

/-- `value`; the text of a number is checked apart. -/
inductive Value where
  | null
  | bool (b : Bool)
  | num (t : Text)
  | str (s : Str)
  | emptyArr (ws : Ws)
  | arr (es : Elements)
  | emptyObj (ws : Ws)
  | obj (ms : Members)

/-- The values of an `array`, each with the white space around it. -/
inductive Elements where
  | one (pre : Ws) (v : Value) (post : Ws)
  | more (pre : Ws) (v : Value) (post : Ws) (es : Elements)

/-- The members of an `object`, each with the white space around its four parts. -/
inductive Members where
  | one (pre : Ws) (key : Str) (mid₁ mid₂ : Ws) (v : Value) (post : Ws)
  | more (pre : Ws) (key : Str) (mid₁ mid₂ : Ws) (v : Value) (post : Ws) (ms : Members)

end

mutual

def Value.text : Value → Text
  | .null => ['n', 'u', 'l', 'l']
  | .bool true => ['t', 'r', 'u', 'e']
  | .bool false => ['f', 'a', 'l', 's', 'e']
  | .num t => t
  | .str s => s.quoted
  | .emptyArr ws => '[' :: (ws.1 ++ [']'])
  | .arr es => '[' :: (es.text ++ [']'])
  | .emptyObj ws => '{' :: (ws.1 ++ ['}'])
  | .obj ms => '{' :: (ms.text ++ ['}'])

def Elements.text : Elements → Text
  | .one pre v post => pre.1 ++ (v.text ++ post.1)
  | .more pre v post es => pre.1 ++ (v.text ++ (post.1 ++ ',' :: es.text))

def Members.text : Members → Text
  | .one pre key mid₁ mid₂ v post =>
    pre.1 ++ (key.quoted ++ (mid₁.1 ++ ':' :: (mid₂.1 ++ (v.text ++ post.1))))
  | .more pre key mid₁ mid₂ v post ms =>
    pre.1 ++ (key.quoted ++ (mid₁.1 ++ ':' :: (mid₂.1 ++ (v.text ++ (post.1 ++ ',' :: ms.text)))))

end

mutual

def Value.numerals : Value → List Text
  | .num t => [t]
  | .arr es => es.numerals
  | .obj ms => ms.numerals
  | _ => []

def Elements.numerals : Elements → List Text
  | .one _ v _ => v.numerals
  | .more _ v _ es => v.numerals ++ es.numerals

def Members.numerals : Members → List Text
  | .one _ _ _ _ v _ => v.numerals
  | .more _ _ _ _ v _ ms => v.numerals ++ ms.numerals

end

mutual

def Value.strings : Value → List Str
  | .str s => [s]
  | .arr es => es.strings
  | .obj ms => ms.strings
  | _ => []

def Elements.strings : Elements → List Str
  | .one _ v _ => v.strings
  | .more _ v _ es => v.strings ++ es.strings

def Members.strings : Members → List Str
  | .one _ _ _ _ v _ => v.strings
  | .more _ _ _ _ v _ ms => v.strings ++ ms.strings

end

mutual

/-- The member names of a value, at every depth. -/
def Value.keys : Value → List Str
  | .arr es => es.keys
  | .obj ms => ms.keys
  | _ => []

def Elements.keys : Elements → List Str
  | .one _ v _ => v.keys
  | .more _ v _ es => v.keys ++ es.keys

def Members.keys : Members → List Str
  | .one _ key _ _ v _ => key :: v.keys
  | .more _ key _ _ v _ ms => key :: (v.keys ++ ms.keys)

end

mutual

/-- How many arrays and objects the innermost value stands in. -/
def Value.nesting : Value → Nat
  | .arr es => es.nesting + 1
  | .obj ms => ms.nesting + 1
  | _ => 0

def Elements.nesting : Elements → Nat
  | .one _ v _ => v.nesting
  | .more _ v _ es => max v.nesting es.nesting

def Members.nesting : Members → Nat
  | .one _ _ _ _ v _ => v.nesting
  | .more _ _ _ _ v _ ms => max v.nesting ms.nesting

end

/-- `JSON-text` -/
structure Document where
  pre : Ws
  value : Value
  post : Ws

def Document.text (d : Document) : Text := d.pre.1 ++ (d.value.text ++ d.post.1)

def Document.NumbersAre (p : Text → Prop) (d : Document) : Prop := ∀ t ∈ d.value.numerals, p t

def IsJson (t : Text) : Prop := ∃ d : Document, d.text = t ∧ d.NumbersAre IsNumber

/-! ## 4. A text has one tree -/

/-- What may follow a number: white space, a comma or a closing bracket. -/
def isDelimiter (c : Char) : Bool := c = ',' || c = ']' || c = '}' || isWs c

/-- What may follow a value. -/
def Delimited (rest : Text) : Prop := ∀ c t, rest = c :: t → isDelimiter c = true

def startsNumber (c : Char) : Bool := c = '-' || isdigit c

def startsValue (c : Char) : Bool :=
  c = '"' || c = '[' || c = '{' || c = 't' || c = 'f' || c = 'n' || startsNumber c

/-- A text that can be told from what is around it: it starts like a number and has no delimiter in
    it. -/
def IsToken (t : Text) : Prop :=
  (∃ c t', t = c :: t' ∧ startsNumber c = true) ∧ ∀ c ∈ t, isDelimiter c = false

theorem delimited_nil : Delimited [] := fun _ _ h => nomatch h

theorem delimited_cons (h : isDelimiter c = true) : Delimited (c :: t) := by
  rintro _ _ ⟨⟩
  exact h

theorem isDelimiter_of_isWs (h : isWs c = true) : isDelimiter c = true := by
  simp [isDelimiter, h]

theorem Ws.delimited (ws : Ws) {rest : Text} (h : Delimited rest) : Delimited (ws.1 ++ rest) := by
  obtain ⟨ws, hws⟩ := ws
  cases ws with
  | nil => exact h
  | cons c ws => exact delimited_cons (isDelimiter_of_isWs (hws c mem_cons_self))

theorem startsValue_ne (h : startsValue c = true) : isWs c = false ∧ c ≠ ']' ∧ c ≠ '\x7d' := by
  refine ⟨?_, ?_, ?_⟩
  · cases hw : isWs c with
    | false => rfl
    | true =>
      simp only [isWs, Bool.or_eq_true, decide_eq_true_eq] at hw
      rcases hw with ((rfl | rfl) | rfl) | rfl <;> exact absurd h (by decide)
  · rintro rfl; exact absurd h (by decide)
  · rintro rfl; exact absurd h (by decide)

theorem Value.text_head (v : Value) (h : ∀ t ∈ v.numerals, IsToken t) :
    ∃ c t, v.text = c :: t ∧ startsValue c = true := by
  cases v with
  | num t =>
    obtain ⟨⟨c, t', rfl, hc⟩, -⟩ := h t (mem_singleton_self t)
    exact ⟨c, t', rfl, by simp [startsValue, hc]⟩
  | bool b => cases b <;> exact ⟨_, _, rfl, rfl⟩
  | _ => exact ⟨_, _, rfl, rfl⟩

theorem split_unique {p : Char → Bool} {a b : Text} (ha : ∀ c ∈ a, p c = true)
    (hb : ∀ c ∈ b, p c = true) (hx : ∀ c t, x = c :: t → p c = false)
    (hy : ∀ c t, y = c :: t → p c = false) (h : a ++ x = b ++ y) : a = b ∧ x = y := by
  have key : ∀ {a x : Text}, (∀ c ∈ a, p c = true) → (∀ c t, x = c :: t → p c = false) →
      (a ++ x).takeWhile p = a := by
    intro a x ha hx
    rw [takeWhile_append_of_pos ha]
    cases x with
    | nil => simp
    | cons c t => simp [hx c t rfl]
  have hab : a = b := by
    rw [← key ha hx, h, key hb hy]
  subst hab
  exact ⟨rfl, append_cancel_left h⟩

theorem Ws.unique {a b : Ws} (hx : ∀ c t, x = c :: t → isWs c = false)
    (hy : ∀ c t, y = c :: t → isWs c = false) (h : a.1 ++ x = b.1 ++ y) : a = b ∧ x = y := by
  obtain ⟨hab, hxy⟩ := split_unique a.2 b.2 hx hy h
  exact ⟨Subtype.ext hab, hxy⟩

theorem head_not_ws (hc : isWs c = false) (x : Text) : ∀ d t, c :: x = d :: t → isWs d = false := by
  intro d t h
  obtain ⟨rfl, -⟩ := cons.inj h
  exact hc

theorem token_unique {u r q : Text} (ht : IsToken t) (hu : IsToken u) (hr : Delimited r)
    (hq : Delimited q) (h : t ++ r = u ++ q) : t = u ∧ r = q := by
  refine split_unique (p := fun c => !isDelimiter c) ?_ ?_ ?_ ?_ h
  · intro c hc; simp [ht.2 c hc]
  · intro c hc; simp [hu.2 c hc]
  · intro c s hs; simp [hr c s hs]
  · intro c s hs; simp [hq c s hs]

theorem token_ne {r : Text} (ht : IsToken t) (hc : startsNumber c = false) : t ++ r ≠ c :: x := by
  obtain ⟨⟨d, t, rfl, hd⟩, -⟩ := ht
  intro h
  obtain ⟨rfl, -⟩ := cons.inj h
  rw [hc] at hd
  cases hd

theorem StrItem.unique {i j : StrItem} (h : i.text ++ x = j.text ++ y) : i = j ∧ x = y := by
  have hplain : ∀ c : { c : Char // isUnescaped c = true }, c.1 ≠ '\\' := by
    intro c hc
    have := c.2
    rw [hc] at this
    exact absurd this (by decide)
  have hletter : ∀ e : Escape, e.letter ≠ 'u' := by intro e; cases e <;> decide
  cases i with
  | plain c =>
    cases j with
    | plain d => obtain ⟨h1, h2⟩ := cons.inj h; exact ⟨by rw [Subtype.ext h1], h2⟩
    | escape e | unicode q => exact absurd (cons.inj h).1 (hplain c)
  | escape e =>
    cases j with
    | plain d => exact absurd (cons.inj h).1.symm (hplain d)
    | escape f =>
      obtain ⟨h1, h2⟩ := cons.inj (cons.inj h).2
      have hinj : e = f := by
        cases e <;> cases f <;> first | rfl | exact absurd h1 (by decide)
      exact ⟨by rw [hinj], h2⟩
    | unicode q => exact absurd (cons.inj (cons.inj h).2).1 (hletter e)
  | unicode q =>
    cases j with
    | plain d => exact absurd (cons.inj h).1.symm (hplain d)
    | escape f => exact absurd (cons.inj (cons.inj h).2).1.symm (hletter f)
    | unicode r =>
      have hd : q.digits ++ x = r.digits ++ y := (cons.inj (cons.inj h).2).2
      obtain ⟨h1, h2⟩ := append_inj hd (by rw [q.length, r.length])
      obtain ⟨dq, _, _⟩ := q
      obtain ⟨dr, _, _⟩ := r
      obtain rfl : dq = dr := h1
      exact ⟨rfl, h2⟩

theorem StrItem.text_ne_quote (i : StrItem) (x y : Text) : i.text ++ x ≠ '"' :: y := by
  intro h
  cases i with
  | plain c =>
    have hc := c.2
    rw [(cons.inj h).1] at hc
    exact absurd hc (by decide)
  | escape e | unicode q => exact absurd (cons.inj h).1 (by decide)

theorem Str.unique {s t : Str} (h : s.text ++ '"' :: x = t.text ++ '"' :: y) : s = t ∧ x = y := by
  induction s generalizing t with
  | nil =>
    cases t with
    | nil => exact ⟨rfl, (cons.inj h).2⟩
    | cons j t => rw [Str.text_cons, append_assoc] at h; exact absurd h.symm (j.text_ne_quote _ _)
  | cons i s ih =>
    rw [Str.text_cons, append_assoc] at h
    cases t with
    | nil => exact absurd h (i.text_ne_quote _ _)
    | cons j t =>
      rw [Str.text_cons, append_assoc] at h
      obtain ⟨hij, h₁⟩ := StrItem.unique h
      obtain ⟨hst, h₂⟩ := ih h₁
      exact ⟨by rw [hij, hst], h₂⟩

theorem Str.quoted_unique {s t : Str} (h : s.quoted ++ x = t.quoted ++ y) : s = t ∧ x = y := by
  simp only [Str.quoted, cons_append, append_assoc, nil_append] at h
  exact Str.unique (cons.inj h).2

theorem Value.text_not_ws (v : Value) (h : ∀ t ∈ v.numerals, IsToken t) (x : Text) :
    ∀ d t, v.text ++ x = d :: t → isWs d = false := by
  obtain ⟨c, t, ht, hc⟩ := v.text_head h
  rw [ht]
  exact head_not_ws (startsValue_ne hc).1 _

theorem Str.quoted_not_ws (s : Str) (x : Text) : ∀ d t, s.quoted ++ x = d :: t → isWs d = false :=
  head_not_ws (by decide) _

theorem ws_ne_elements {es : Elements} (h : ∀ t ∈ es.numerals, IsToken t) :
    ws.1 ++ ']' :: x ≠ es.text ++ y := by
  intro he
  have key : ∀ (pre : Ws) (v : Value) (z : Text), (∀ t ∈ v.numerals, IsToken t) →
      ws.1 ++ ']' :: x ≠ pre.1 ++ (v.text ++ z) := by
    intro pre v z hv he
    obtain ⟨-, h2⟩ := Ws.unique (head_not_ws (by decide) _) (v.text_not_ws hv z) he
    obtain ⟨c, t, ht, hc⟩ := v.text_head hv
    rw [ht] at h2
    exact (startsValue_ne hc).2.1 (cons.inj h2).1.symm
  cases es with
  | one pre v post => rw [Elements.text, append_assoc, append_assoc] at he; exact key pre v _ h he
  | more pre v post es =>
    rw [Elements.text, append_assoc, append_assoc] at he
    exact key pre v _ (fun t ht => h t (mem_append_left _ ht)) he

theorem ws_ne_members {ms : Members} : ws.1 ++ '\x7d' :: x ≠ ms.text ++ y := by
  intro he
  have key : ∀ (pre : Ws) (key : Str) (z : Text),
      ws.1 ++ '\x7d' :: x ≠ pre.1 ++ (key.quoted ++ z) := by
    intro pre key z he
    obtain ⟨-, h2⟩ := Ws.unique (head_not_ws (by decide) _) (key.quoted_not_ws z) he
    exact absurd (cons.inj h2).1 (by decide)
  cases ms with
  | one pre k _ _ _ _ | more pre k _ _ _ _ _ =>
    rw [Members.text, append_assoc, append_assoc] at he
    exact key pre k _ he

def Value.lead : Value → Option Char
  | .null => some 'n'
  | .bool true => some 't'
  | .bool false => some 'f'
  | .num _ => none
  | .str _ => some '"'
  | .emptyArr _ | .arr _ => some '['
  | .emptyObj _ | .obj _ => some '\x7b'

variable {v : Value}

theorem Value.text_of_lead (h : v.lead = some c) :
    startsNumber c = false ∧ ∃ t, v.text = c :: t := by
  cases v with
  | num t => cases h
  | bool b =>
    cases b with
    | true | false => cases h; exact ⟨rfl, _, rfl⟩
  | _ => cases h; exact ⟨rfl, _, rfl⟩

theorem Value.num_of_lead (h : v.lead = none) : ∃ t, v = .num t := by
  cases v with
  | num t => exact ⟨t, rfl⟩
  | bool b => cases b <;> cases h
  | _ => cases h

theorem Value.lead_eq {w : Value} {r q : Text} (hv : ∀ t ∈ v.numerals, IsToken t)
    (hw : ∀ t ∈ w.numerals, IsToken t) (h : v.text ++ r = w.text ++ q) : v.lead = w.lead := by
  cases hleft : v.lead with
  | none =>
    obtain ⟨t, rfl⟩ := Value.num_of_lead hleft
    cases hright : w.lead with
    | none => rfl
    | some d =>
      obtain ⟨hd, y, hy⟩ := Value.text_of_lead hright
      rw [hy] at h
      exact absurd h (token_ne (hv t (mem_singleton_self t)) hd)
  | some c =>
    obtain ⟨hc, x, hx⟩ := Value.text_of_lead hleft
    rw [hx] at h
    cases hright : w.lead with
    | none =>
      obtain ⟨t, rfl⟩ := Value.num_of_lead hright
      exact absurd h.symm (token_ne (hw t (mem_singleton_self t)) hc)
    | some d =>
      obtain ⟨_, y, hy⟩ := Value.text_of_lead hright
      rw [hy] at h
      rw [(cons.inj h).1]

theorem Value.emptyArr_append (ws : Ws) (r : Text) :
    (Value.emptyArr ws).text ++ r = '[' :: (ws.1 ++ ']' :: r) := by
  simp [Value.text]

theorem Value.arr_append (es : Elements) (r : Text) :
    (Value.arr es).text ++ r = '[' :: (es.text ++ ']' :: r) := by
  simp [Value.text]

theorem Value.emptyObj_append (ws : Ws) (r : Text) :
    (Value.emptyObj ws).text ++ r = '\x7b' :: (ws.1 ++ '\x7d' :: r) := by
  simp [Value.text]

theorem Value.obj_append (ms : Members) (r : Text) :
    (Value.obj ms).text ++ r = '\x7b' :: (ms.text ++ '\x7d' :: r) := by
  simp [Value.text]

mutual

theorem Value.unique (v w : Value) {r q : Text} (hv : ∀ t ∈ v.numerals, IsToken t)
    (hw : ∀ t ∈ w.numerals, IsToken t) (hr : Delimited r) (hq : Delimited q)
    (h : v.text ++ r = w.text ++ q) : v = w ∧ r = q := by
  have hlead := Value.lead_eq hv hw h
  match v with
  | .null =>
    cases w with
    | null => exact ⟨rfl, append_cancel_left h⟩
    | bool b => cases b <;> cases hlead
    | _ => cases hlead
  | .bool b =>
    cases w with
    | bool d =>
      have hbd : b = d := by cases b <;> cases d <;> first | rfl | cases hlead
      rw [hbd] at h ⊢
      exact ⟨rfl, append_cancel_left h⟩
    | _ => cases b <;> cases hlead
  | .num t =>
    cases w with
    | num u =>
      obtain ⟨htu, h₁⟩ := token_unique (hv t (mem_singleton_self t))
        (hw u (mem_singleton_self u)) hr hq h
      exact ⟨by rw [htu], h₁⟩
    | bool b => cases b <;> cases hlead
    | _ => cases hlead
  | .str s =>
    cases w with
    | str t => obtain ⟨hst, h₁⟩ := Str.quoted_unique h; exact ⟨by rw [hst], h₁⟩
    | bool b => cases b <;> cases hlead
    | _ => cases hlead
  | .emptyArr ws =>
    cases w with
    | emptyArr ws' =>
      rw [Value.emptyArr_append, Value.emptyArr_append] at h
      obtain ⟨hws, h₁⟩ := Ws.unique (head_not_ws (by decide) _) (head_not_ws (by decide) _)
        (cons.inj h).2
      exact ⟨by rw [hws], (cons.inj h₁).2⟩
    | arr es =>
      rw [Value.emptyArr_append, Value.arr_append] at h
      exact absurd (cons.inj h).2 (ws_ne_elements hw)
    | bool b => cases b <;> cases hlead
    | _ => cases hlead
  | .arr es =>
    cases w with
    | emptyArr ws' =>
      rw [Value.arr_append, Value.emptyArr_append] at h
      exact absurd (cons.inj h).2.symm (ws_ne_elements hv)
    | arr fs =>
      rw [Value.arr_append, Value.arr_append] at h
      obtain ⟨hes, h₁⟩ := Elements.unique es fs hv hw (cons.inj h).2
      exact ⟨by rw [hes], h₁⟩
    | bool b => cases b <;> cases hlead
    | _ => cases hlead
  | .emptyObj ws =>
    cases w with
    | emptyObj ws' =>
      rw [Value.emptyObj_append, Value.emptyObj_append] at h
      obtain ⟨hws, h₁⟩ := Ws.unique (head_not_ws (by decide) _) (head_not_ws (by decide) _)
        (cons.inj h).2
      exact ⟨by rw [hws], (cons.inj h₁).2⟩
    | obj ms =>
      rw [Value.emptyObj_append, Value.obj_append] at h
      exact absurd (cons.inj h).2 ws_ne_members
    | bool b => cases b <;> cases hlead
    | _ => cases hlead
  | .obj ms =>
    cases w with
    | emptyObj ws' =>
      rw [Value.obj_append, Value.emptyObj_append] at h
      exact absurd (cons.inj h).2.symm ws_ne_members
    | obj ns =>
      rw [Value.obj_append, Value.obj_append] at h
      obtain ⟨hms, h₁⟩ := Members.unique ms ns hv hw (cons.inj h).2
      exact ⟨by rw [hms], h₁⟩
    | bool b => cases b <;> cases hlead
    | _ => cases hlead

/-- One element behind its white space, and the white space and punctuation behind it. -/
theorem Value.unique_padded (v w : Value) {pre pre' post post' : Ws} {c d : Char} {r q : Text}
    (hv : ∀ t ∈ v.numerals, IsToken t) (hw : ∀ t ∈ w.numerals, IsToken t)
    (hc : isDelimiter c = true ∧ isWs c = false) (hd : isDelimiter d = true ∧ isWs d = false)
    (h : pre.1 ++ (v.text ++ (post.1 ++ c :: r)) = pre'.1 ++ (w.text ++ (post'.1 ++ d :: q))) :
    pre = pre' ∧ v = w ∧ post = post' ∧ c = d ∧ r = q := by
  obtain ⟨h1, k1⟩ := Ws.unique (v.text_not_ws hv _) (w.text_not_ws hw _) h
  obtain ⟨h2, k2⟩ := Value.unique v w hv hw (post.delimited (delimited_cons hc.1))
    (post'.delimited (delimited_cons hd.1)) k1
  obtain ⟨h3, k3⟩ := Ws.unique (head_not_ws hc.2 _) (head_not_ws hd.2 _) k2
  obtain ⟨h4, h5⟩ := cons.inj k3
  exact ⟨h1, h2, h3, h4, h5⟩

theorem Elements.unique (es fs : Elements) {r q : Text} (he : ∀ t ∈ es.numerals, IsToken t)
    (hf : ∀ t ∈ fs.numerals, IsToken t) (h : es.text ++ ']' :: r = fs.text ++ ']' :: q) :
    es = fs ∧ r = q := by
  have hb : isDelimiter ']' = true ∧ isWs ']' = false := by decide
  have hc : isDelimiter ',' = true ∧ isWs ',' = false := by decide
  match es with
  | .one pre v post =>
    cases fs with
    | one pre' w post' =>
      simp only [Elements.text, append_assoc] at h
      obtain ⟨h1, h2, h3, -, h4⟩ := Value.unique_padded v w he hf hb hb h
      exact ⟨by rw [h1, h2, h3], h4⟩
    | more pre' w post' fs =>
      simp only [Elements.text, append_assoc, cons_append] at h
      obtain ⟨-, -, -, h4, -⟩ := Value.unique_padded v w he
        (fun t ht => hf t (mem_append_left _ ht)) hb hc h
      exact absurd h4 (by decide)
  | .more pre v post es =>
    cases fs with
    | one pre' w post' =>
      simp only [Elements.text, append_assoc, cons_append] at h
      obtain ⟨-, -, -, h4, -⟩ := Value.unique_padded v w
        (fun t ht => he t (mem_append_left _ ht)) hf hc hb h
      exact absurd h4 (by decide)
    | more pre' w post' fs =>
      simp only [Elements.text, append_assoc, cons_append] at h
      obtain ⟨h1, h2, h3, -, h4⟩ := Value.unique_padded v w
        (fun t ht => he t (mem_append_left _ ht))
        (fun t ht => hf t (mem_append_left _ ht)) hc hc h
      obtain ⟨h5, h6⟩ := Elements.unique es fs (fun t ht => he t (mem_append_right _ ht))
        (fun t ht => hf t (mem_append_right _ ht)) h4
      exact ⟨by rw [h1, h2, h3, h5], h6⟩

theorem Members.unique (ms ns : Members) {r q : Text} (hm : ∀ t ∈ ms.numerals, IsToken t)
    (hn : ∀ t ∈ ns.numerals, IsToken t) (h : ms.text ++ '\x7d' :: r = ns.text ++ '\x7d' :: q) :
    ms = ns ∧ r = q := by
  have hb : isDelimiter '\x7d' = true ∧ isWs '\x7d' = false := by decide
  have hc : isDelimiter ',' = true ∧ isWs ',' = false := by decide
  have hcolon : isWs ':' = false := by decide
  -- the name and the colon of a member
  have hname : ∀ {pre pre' : Ws} {key key' : Str} {mid mid' : Ws} {x y : Text},
      pre.1 ++ (key.quoted ++ (mid.1 ++ ':' :: x)) =
        pre'.1 ++ (key'.quoted ++ (mid'.1 ++ ':' :: y)) →
      pre = pre' ∧ key = key' ∧ mid = mid' ∧ x = y := by
    intro pre pre' key key' mid mid' x y h
    obtain ⟨h1, k1⟩ := Ws.unique (key.quoted_not_ws _) (key'.quoted_not_ws _) h
    obtain ⟨h2, k2⟩ := Str.quoted_unique k1
    obtain ⟨h3, k3⟩ := Ws.unique (head_not_ws hcolon _) (head_not_ws hcolon _) k2
    exact ⟨h1, h2, h3, (cons.inj k3).2⟩
  match ms with
  | .one pre key mid₁ mid₂ v post =>
    cases ns with
    | one pre' key' mid₁' mid₂' w post' =>
      simp only [Members.text, append_assoc, cons_append] at h
      obtain ⟨h1, h2, h3, k⟩ := hname h
      obtain ⟨h4, h5, h6, -, h7⟩ := Value.unique_padded v w hm hn hb hb k
      exact ⟨by rw [h1, h2, h3, h4, h5, h6], h7⟩
    | more pre' key' mid₁' mid₂' w post' ns =>
      simp only [Members.text, append_assoc, cons_append] at h
      obtain ⟨-, -, -, k⟩ := hname h
      obtain ⟨-, -, -, h4, -⟩ := Value.unique_padded v w hm
        (fun t ht => hn t (mem_append_left _ ht)) hb hc k
      exact absurd h4 (by decide)
  | .more pre key mid₁ mid₂ v post ms =>
    cases ns with
    | one pre' key' mid₁' mid₂' w post' =>
      simp only [Members.text, append_assoc, cons_append] at h
      obtain ⟨-, -, -, k⟩ := hname h
      obtain ⟨-, -, -, h4, -⟩ := Value.unique_padded v w
        (fun t ht => hm t (mem_append_left _ ht)) hn hc hb k
      exact absurd h4 (by decide)
    | more pre' key' mid₁' mid₂' w post' ns =>
      simp only [Members.text, append_assoc, cons_append] at h
      obtain ⟨h1, h2, h3, k⟩ := hname h
      obtain ⟨h4, h5, h6, -, h7⟩ := Value.unique_padded v w
        (fun t ht => hm t (mem_append_left _ ht))
        (fun t ht => hn t (mem_append_left _ ht)) hc hc k
      obtain ⟨h8, h9⟩ := Members.unique ms ns (fun t ht => hm t (mem_append_right _ ht))
        (fun t ht => hn t (mem_append_right _ ht)) h7
      exact ⟨by rw [h1, h2, h3, h4, h5, h6, h8], h9⟩

end

/-- **A text has one tree.** -/
theorem Document.text_injective {d e : Document} (hd : d.NumbersAre IsToken)
    (he : e.NumbersAre IsToken) (h : d.text = e.text) : d = e := by
  obtain ⟨pre, v, post⟩ := d
  obtain ⟨pre', w, post'⟩ := e
  have hdel : ∀ ws : Ws, Delimited ws.1 := by
    intro ws
    have := ws.delimited delimited_nil
    rwa [append_nil] at this
  obtain ⟨h1, k1⟩ := Ws.unique (v.text_not_ws hd _) (w.text_not_ws he _) h
  obtain ⟨h2, k2⟩ := Value.unique v w hd he (hdel post) (hdel post') k1
  obtain rfl : pre = pre' := h1
  obtain rfl : v = w := h2
  obtain rfl : post = post' := Subtype.ext k2
  rfl

end Rfc8259
