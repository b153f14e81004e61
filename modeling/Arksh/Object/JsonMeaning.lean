/-
  Subject: What a JSON tree means, by RFC 8259 and by the parser.

  Two readers of one document differ in how they read strings, member names and numbers, and in
  nothing else: a `JsonReading` holds these three, `Value.eval` is the datum a tree stands for
  under a reading. An object is the run of its members' writes, so a repeated name keeps its
  last value.

  * `parserReading` -- the buffers of the parser: what is too long for them is not read, and a
    text ends at its first NUL; a name must not be empty.
-/
import Arksh.Object.JsonRead
import Arksh.Lib.Json

namespace Arksh

open CText Binary64 Rfc8259 Assoc

/-! ## 1. Readings -/

structure JsonReading where
  string : Str → Option Text
  key : Str → Option Text
  number : Text → Option Binary64

def bufferText (size : Nat) (s : Str) : Option Text :=
  (decode s).bind fun t => if t.length < size then some (cString t) else none

/-- The numbers the parser takes: a minus or a digit first, no leading zero, read whole by
    `strtod`. -/
def parserNumber (t : Text) : Option Binary64 :=
  match t with
  | [] => none
  | c :: _ =>
    if startsNumber c = true ∧ jsonLeadingZero t = false then
      match strtod t with
      | some (v, []) => some v
      | _ => none
    else none

def parserReading : JsonReading where
  string := bufferText arkshMaxOutput
  key s := (bufferText arkshMaxName s).bind fun k => if k = [] then none else some k
  number := parserNumber

/-- The reading of RFC 8259; numbers are the doubles nearest to them (`strtod_number`). -/
def rfcReading : JsonReading where
  string := decode
  key := decode
  number t := (strtod t).map Prod.fst

end Arksh

namespace Rfc8259

open Arksh Assoc CText

/-! ## 2. Meaning -/

mutual

def Value.eval (R : JsonReading) : Value → Option Datum
  | .null => some .empty
  | .bool b => some (.boolean b)
  | .num t => (R.number t).map .number
  | .str s => (R.string s).map .string
  | .emptyArr _ => some (.list [])
  | .arr es => (es.eval R).map .list
  | .emptyObj _ => some (.map [])
  | .obj ms => (ms.eval R).map fun ops => .map (putAll [] ops)

def Elements.eval (R : JsonReading) : Elements → Option (List Datum)
  | .one _ v _ => (v.eval R).map fun d => [d]
  | .more _ v _ es => (v.eval R).bind fun d => (es.eval R).map fun ds => d :: ds

/-- The writes of an object, in order. -/
def Members.eval (R : JsonReading) : Members → Option (List (Text × Datum))
  | .one _ key _ _ v _ => (R.key key).bind fun k => (v.eval R).map fun d => [(k, d)]
  | .more _ key _ _ v _ ms => (R.key key).bind fun k => (v.eval R).bind fun d =>
      (ms.eval R).map fun ops => (k, d) :: ops

end

variable {R : JsonReading}

theorem Value.stored_eval {v : Value} {d : Datum} (h : v.eval R = some d) : d.stored = d := by
  cases v with
  | null | bool | emptyArr | emptyObj => cases h; rfl
  | num t | str t | arr t | obj t =>
    rw [Value.eval, Option.map_eq_some_iff] at h
    obtain ⟨_, _, rfl⟩ := h
    rfl

theorem startsNumber_of_parserNumber {t : Text} {x : Binary64} (h : parserNumber t = some x) :
    ∃ c t', t = c :: t' ∧ startsNumber c = true ∧ jsonLeadingZero t = false ∧
      Binary64.strtod t = some (x, []) := by
  unfold parserNumber at h
  split at h
  · cases h
  rename_i c t'
  split at h
  · rename_i hc
    split at h
    · rename_i v hs
      cases h
      exact ⟨c, t', rfl, hc.1, hc.2, hs⟩
    · cases h
  · cases h

/-! ## 3. White space in front -/

/-- The white space in front of a list of elements, made longer. -/
def Elements.pad (ws : Ws) : Elements → Elements
  | .one pre v post => .one (ws.append pre) v post
  | .more pre v post es => .more (ws.append pre) v post es

def Members.pad (ws : Ws) : Members → Members
  | .one pre key mid₁ mid₂ v post => .one (ws.append pre) key mid₁ mid₂ v post
  | .more pre key mid₁ mid₂ v post ms => .more (ws.append pre) key mid₁ mid₂ v post ms

@[simp] theorem Elements.text_pad (ws : Ws) (es : Elements) :
    (es.pad ws).text = ws.1 ++ es.text := by
  cases es <;> simp [Elements.pad, Elements.text, Ws.append]

@[simp] theorem Members.text_pad (ws : Ws) (ms : Members) : (ms.pad ws).text = ws.1 ++ ms.text := by
  cases ms <;> simp [Members.pad, Members.text, Ws.append]

@[simp] theorem Elements.eval_pad (ws : Ws) (es : Elements) : (es.pad ws).eval R = es.eval R := by
  cases es <;> simp [Elements.pad, Elements.eval]

@[simp] theorem Members.eval_pad (ws : Ws) (ms : Members) : (ms.pad ws).eval R = ms.eval R := by
  cases ms <;> simp [Members.pad, Members.eval]

@[simp] theorem Elements.nesting_pad (ws : Ws) (es : Elements) :
    (es.pad ws).nesting = es.nesting := by
  cases es <;> simp [Elements.pad, Elements.nesting]

@[simp] theorem Members.nesting_pad (ws : Ws) (ms : Members) :
    (ms.pad ws).nesting = ms.nesting := by
  cases ms <;> simp [Members.pad, Members.nesting]

/-! ## 4. `json_skip_ws` -/

theorem takeFrom_append_skipWs (s : Text) : (Ws.takeFrom s).1 ++ jsonSkipWs s = s :=
  List.takeWhile_append_dropWhile

theorem skipWs_ws (ws : Ws) (s : Text) : jsonSkipWs (ws.1 ++ s) = jsonSkipWs s := by
  rw [jsonSkipWs, jsonSkipWs, List.dropWhile_append_of_pos]
  exact ws.2

theorem skipWs_cons {c : Char} (h : jsonIsWs c = false) (s : Text) :
    jsonSkipWs (c :: s) = c :: s := by
  simp [jsonSkipWs, h]

theorem skipWs_skipWs (s : Text) : jsonSkipWs (jsonSkipWs s) = jsonSkipWs s := by
  have h := skipWs_ws (Ws.takeFrom s) (jsonSkipWs s)
  rw [takeFrom_append_skipWs] at h
  exact h.symm

end Rfc8259
