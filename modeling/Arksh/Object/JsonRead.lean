/-
  Subject: `arksh_value_parse_json`: the recursive-descent JSON parser of `src/object.c`.

  The cursor is the text that is still to be read; every function returns the cursor it leaves,
  and an error carries the cursor it stopped at, from which the offset in the message is counted.
  Error buffers are taken to be large enough for their message.

  The loops carry fuel. `arkshValueParseJson` gives them more than the text is long, and every
  round consumes a character: the equations that run out of it are never reached (this is part
  of `JsonComplete`).
-/
import Arksh.Object.Store
import Arksh.Lib.Strtod

namespace Arksh

open CText Binary64

structure JsonError where
  message : String
  cursor : Text

/-! ## 1. Strings -/

def jsonIsWs (c : Char) : Bool := c = ' ' || c = '\t' || c = '\n' || c = '\r'

def jsonSkipWs (cursor : Text) : Text := cursor.dropWhile jsonIsWs

/-- The four-digit loops of `json_parse_unicode_escape`: the value of the digits. -/
def jsonHexDigits (message : String) : Nat → Nat → Text → Except JsonError (Nat × Text)
  | 0, cp, cursor => .ok (cp, cursor)
  | _ + 1, _, [] => .error ⟨message, []⟩
  | n + 1, cp, h :: cursor =>
    if isxdigit h then jsonHexDigits message n (16 * cp + hexDigitValue h) cursor
    else .error ⟨message, h :: cursor⟩

/-- The UTF-8 bytes that `json_parse_unicode_escape` appends for a code point. -/
def jsonUtf8 (cp : Nat) : Text :=
  if cp ≤ 0x7F then [Char.ofNat cp]
  else if cp ≤ 0x7FF then [Char.ofNat (0xC0 ||| cp >>> 6), Char.ofNat (0x80 ||| cp &&& 0x3F)]
  else if cp ≤ 0xFFFF then
    [Char.ofNat (0xE0 ||| cp >>> 12), Char.ofNat (0x80 ||| cp >>> 6 &&& 0x3F),
      Char.ofNat (0x80 ||| cp &&& 0x3F)]
  else
    [Char.ofNat (0xF0 ||| cp >>> 18), Char.ofNat (0x80 ||| cp >>> 12 &&& 0x3F),
      Char.ofNat (0x80 ||| cp >>> 6 &&& 0x3F), Char.ofNat (0x80 ||| cp &&& 0x3F)]

/-- `append_char` for one byte after the other. -/
def appendChars (size : Nat) : Text → Text → Option Text
  | out, [] => some out
  | out, c :: cs => (appendChar size out c).bind fun out => appendChars size out cs

/-- The code point of a `\u` escape, from behind the `u`; a high surrogate takes the next escape as
    well. -/
def jsonCodePoint (cursor : Text) : Except JsonError (Nat × Text) :=
  match jsonHexDigits "invalid \\u escape: expected 4 hex digits" 4 0 cursor with
  | .error e => .error e
  | .ok (cp, cursor) =>
    if 0xD800 ≤ cp ∧ cp ≤ 0xDBFF then
      match cursor with
      | '\\' :: 'u' :: cursor =>
        match jsonHexDigits "invalid \\u escape: expected 4 hex digits in low surrogate" 4 0
            cursor with
        | .error e => .error e
        | .ok (low, cursor) =>
          if low < 0xDC00 ∨ 0xDFFF < low then
            .error ⟨"invalid \\u escape: expected low surrogate (DC00-DFFF)", cursor⟩
          else .ok (0x10000 + (cp - 0xD800) * 0x400 + (low - 0xDC00), cursor)
      | _ => .error ⟨"invalid \\u escape: high surrogate not followed by \\uXXXX", cursor⟩
    else if 0xDC00 ≤ cp ∧ cp ≤ 0xDFFF then
      .error ⟨"invalid \\u escape: unexpected low surrogate", cursor⟩
    else .ok (cp, cursor)

def jsonParseUnicodeEscape (size : Nat) (out cursor : Text) : Except JsonError (Text × Text) :=
  match jsonCodePoint cursor with
  | .error e => .error e
  | .ok (cp, cursor) =>
    match appendChars size out (jsonUtf8 cp) with
    | none => .error ⟨"", cursor⟩
    | some out => .ok (out, cursor)

/-- The one-character cases of the escape `switch`. -/
def jsonSimpleEscape (c : Char) : Option Char :=
  if c = '"' then some '"'
  else if c = '\\' then some '\\'
  else if c = '/' then some '/'
  else if c = 'b' then some '\x08'
  else if c = 'f' then some '\x0c'
  else if c = 'n' then some '\n'
  else if c = 'r' then some '\r'
  else if c = 't' then some '\t'
  else none

/-- The two lower-case hexadecimal digits of a byte. -/
def hex2 (n : Nat) : Text := [Nat.digitChar (n / 16 % 16), Nat.digitChar (n % 16)]

def jsonStringLoop (size : Nat) : Nat → Text → Text → Except JsonError (Text × Text)
  | 0, _, cursor => .error ⟨"", cursor⟩
  | _ + 1, _, [] => .error ⟨"unterminated JSON string", []⟩
  | fuel + 1, out, c :: cursor =>
    if c = '"' then .ok (out, cursor)
    else if c.toNat < 0x20 then
      .error ⟨"invalid JSON string: unescaped control character (0x" ++
        String.ofList (hex2 c.toNat) ++ ")", c :: cursor⟩
    else if c ≠ '\\' then
      match appendChar size out c with
      | none => .error ⟨"JSON string is too large", c :: cursor⟩
      | some out => jsonStringLoop size fuel out cursor
    else
      match cursor with
      | [] => .error ⟨"unterminated JSON escape", []⟩
      | e :: cursor =>
        match jsonSimpleEscape e with
        | some value =>
          match appendChar size out value with
          | none => .error ⟨"JSON string is too large", cursor⟩
          | some out => jsonStringLoop size fuel out cursor
        | none =>
          if e = 'u' then
            match jsonParseUnicodeEscape size out cursor with
            | .error e => .error e
            | .ok (out, cursor) => jsonStringLoop size fuel out cursor
          else .error ⟨"invalid JSON escape: '\\" ++ String.ofList [e] ++ "'", cursor⟩

def jsonParseString (size : Nat) (cursor : Text) : Except JsonError (Text × Text) :=
  match cursor with
  | '"' :: cursor => jsonStringLoop size (cursor.length + 1) [] cursor
  | _ => .error ⟨"expected JSON string", cursor⟩

def cString (buffer : Text) : Text := buffer.takeWhile (· ≠ '\x00')

def jsonParseStringAlloc (cursor : Text) : Except JsonError (Text × Text) :=
  match jsonParseString arkshMaxOutput cursor with
  | .error e => .error e
  | .ok (buffer, cursor) => .ok (cString buffer, cursor)

/-! ## 2. Numbers -/

/-- `json_is_number_delimiter` of the character under the cursor; the end counts as one. -/
def jsonIsNumberDelimiter (cursor : Text) : Bool :=
  match cursor with
  | [] => true
  | c :: _ => c = ',' || c = ']' || c = '}' || c = ' ' || c = '\t' || c = '\n' || c = '\r'

def jsonParseNumber (cursor : Text) : Except JsonError (Binary64 × Text) :=
  match strtod cursor with
  | none => .error ⟨"invalid JSON number", cursor⟩
  | some (number, endptr) =>
    if jsonIsNumberDelimiter endptr then .ok (number, endptr)
    else .error ⟨"invalid JSON number", cursor⟩

def zeroBeforeDigit : Text → Bool
  | z :: d :: _ => z = '0' && isdigit d
  | _ => false

def jsonLeadingZero : Text → Bool
  | [] => false
  | c :: cursor =>
    if c = '-' then zeroBeforeDigit cursor else zeroBeforeDigit (c :: cursor)

/-! ## 3. Values -/

def jsonMaxDepth : Nat := 128

mutual

/-- `json_parse_value_internal` -/
def jsonParseValue : Nat → Nat → Text → Except JsonError (ArkshValue × Text)
  | 0, _, cursor => .error ⟨"", cursor⟩
  | fuel + 1, depth, cursor =>
    if depth > jsonMaxDepth then .error ⟨"JSON nesting too deep (max 128 levels)", cursor⟩
    else
      match jsonSkipWs cursor with
      | [] => .error ⟨"invalid JSON value", []⟩
      | c :: cursor =>
        if c = '"' then
          match jsonParseStringAlloc (c :: cursor) with
          | .error e => .error e
          | .ok (text, cursor) => .ok (arkshValueSetString text, cursor)
        else if c = '[' then
          -- `json_parse_array`
          match jsonSkipWs cursor with
          | ']' :: cursor => .ok ({ arkshValueInit with kind := .list }, cursor)
          | cursor =>
            jsonArrayLoop fuel (depth + 1) { arkshValueInit with kind := .list } cursor
        else if c = '{' then
          -- `json_parse_object`
          match jsonSkipWs cursor with
          | '}' :: cursor => .ok (arkshValueSetMap, cursor)
          | cursor => jsonObjectLoop fuel (depth + 1) arkshValueSetMap cursor
        else if let some cursor := ['t', 'r', 'u', 'e'].isPrefixOf? (c :: cursor) then
          .ok (arkshValueSetBoolean true, cursor)
        else if let some cursor := ['f', 'a', 'l', 's', 'e'].isPrefixOf? (c :: cursor) then
          .ok (arkshValueSetBoolean false, cursor)
        else if let some cursor := ['n', 'u', 'l', 'l'].isPrefixOf? (c :: cursor) then
          .ok (arkshValueInit, cursor)
        else if c = '-' ∨ isdigit c then
          if jsonLeadingZero (c :: cursor) then
            .error ⟨"invalid JSON number: leading zero not allowed", c :: cursor⟩
          else
            match jsonParseNumber (c :: cursor) with
            | .error e => .error e
            | .ok (number, cursor) => .ok (arkshValueSetNumber number, cursor)
        else .error ⟨"invalid JSON value", c :: cursor⟩

def jsonArrayLoop : Nat → Nat → ArkshValue → Text → Except JsonError (ArkshValue × Text)
  | 0, _, _, cursor => .error ⟨"", cursor⟩
  | _ + 1, _, _, [] => .error ⟨"unterminated JSON array", []⟩
  | fuel + 1, depth, out, c :: cursor =>
    match jsonParseValue fuel depth (c :: cursor) with
    | .error e => .error e
    | .ok (parsed, cursor) =>
      match arkshValueListAppendValue out parsed with
      | none => .error ⟨"unable to grow JSON array", cursor⟩
      | some out =>
        match jsonSkipWs cursor with
        | ']' :: cursor => .ok (out, cursor)
        | ',' :: cursor => jsonArrayLoop fuel depth out (jsonSkipWs cursor)
        | cursor => .error ⟨"expected ',' or ']' in JSON array", cursor⟩

def jsonObjectLoop : Nat → Nat → ArkshValue → Text → Except JsonError (ArkshValue × Text)
  | 0, _, _, cursor => .error ⟨"", cursor⟩
  | _ + 1, _, _, [] => .error ⟨"unterminated JSON object", []⟩
  | fuel + 1, depth, out, c :: cursor =>
    if c ≠ '"' then .error ⟨"expected JSON object key", c :: cursor⟩
    else
      match jsonParseString arkshMaxName (c :: cursor) with
      | .error e => .error e
      | .ok (key, cursor) =>
        match jsonSkipWs cursor with
        | ':' :: cursor =>
          match jsonParseValue fuel depth (jsonSkipWs cursor) with
          | .error e => .error e
          | .ok (parsed, cursor) =>
            match arkshValueMapSet out (cString key) parsed with
            | none => .error ⟨"unable to grow JSON object", cursor⟩
            | some out =>
              match jsonSkipWs cursor with
              | '}' :: cursor => .ok (out, cursor)
              | ',' :: cursor => jsonObjectLoop fuel depth out (jsonSkipWs cursor)
              | cursor => .error ⟨"expected ',' or '\x7d' in JSON object", cursor⟩
        | cursor => .error ⟨"expected ':' after JSON object key", cursor⟩

end

def arkshValueParseJson (text : Text) : Except String ArkshValue :=
  match jsonParseValue (2 * text.length + 1) 0 text with
  | .error e =>
    .error (if e.message = "" then "" else e.message ++ offset e.cursor)
  | .ok (value, cursor) =>
    match jsonSkipWs cursor with
    | [] => .ok value
    | rest => .error ("unexpected trailing JSON content" ++ offset rest)
where
  offset (cursor : Text) : String := " (at offset " ++ toString (text.length - cursor.length) ++ ")"

end Arksh
