/-
  Subject: The parser accepts the trees that mean something to it, and returns what they mean.
-/
import Arksh.Object.JsonString

namespace Arksh

open CText Binary64 Rfc8259 Assoc List Option

/-! ## 1. Trees are read -/

variable {t : Text} {s : Str} {d : Datum} {fuel : Nat}

theorem bufferText_eq_some {size : Nat} : bufferText size s = some t ↔
      ∃ u, decode s = some u ∧ u.length < size ∧ t = cString u := by
  unfold bufferText
  rw [bind_eq_some_iff]
  constructor
  · intro ⟨u, hu, h⟩
    split at h
    · rename_i hlt; exact ⟨u, hu, hlt, (Option.some.inj h).symm⟩
    · cases h
  · rintro ⟨u, hu, hlt, rfl⟩; exact ⟨u, hu, if_pos hlt⟩

theorem parserKey_eq_some {k : Text} (h : parserReading.key s = some k) :
    ∃ u, decode s = some u ∧ u.length < arkshMaxName ∧ k = cString u ∧ k ≠ [] ∧
      k.length < arkshMaxName := by
  obtain ⟨t, ht, hk⟩ := bind_eq_some_iff.mp h
  obtain ⟨u, hu, hlt, rfl⟩ := bufferText_eq_some.mp ht
  split at hk
  · cases hk
  · rename_i hne
    cases hk
    have hle : (cString u).length ≤ u.length := (List.takeWhile_prefix _).length_le
    exact ⟨u, hu, hlt, rfl, hne, by omega⟩

theorem parserKey_of {u : Text} (hu : decode s = some u) (hlt : u.length < arkshMaxName)
    (hne : cString u ≠ []) : parserReading.key s = some (cString u) := by
  have hb : bufferText arkshMaxName s = some (cString u) := bufferText_eq_some.mpr ⟨u, hu, hlt, rfl⟩
  show (bufferText arkshMaxName s).bind _ = _
  rw [hb, bind_some, if_neg hne]

section Read

variable {fuel depth : Nat} {s rest body : Text} (hd : depth ≤ jsonMaxDepth)

include hd

theorem parse_null (hs : jsonSkipWs s = 'n' :: 'u' :: 'l' :: 'l' :: rest) :
    jsonParseValue (fuel + 1) depth s = .ok (arkshValueInit, rest) := by
  -- the body behind the check of the depth
  change ite _ _ _ = _
  rw [if_neg (by omega), hs]
  rfl

theorem parse_true (hs : jsonSkipWs s = 't' :: 'r' :: 'u' :: 'e' :: rest) :
    jsonParseValue (fuel + 1) depth s = .ok (arkshValueSetBoolean true, rest) := by
  change ite _ _ _ = _
  rw [if_neg (by omega), hs]
  rfl

theorem parse_false (hs : jsonSkipWs s = 'f' :: 'a' :: 'l' :: 's' :: 'e' :: rest) :
    jsonParseValue (fuel + 1) depth s = .ok (arkshValueSetBoolean false, rest) := by
  change ite _ _ _ = _
  rw [if_neg (by omega), hs]
  rfl

theorem parse_string {str : Str} (ht : bufferText arkshMaxOutput str = some t)
    (hs : jsonSkipWs s = str.quoted ++ rest) :
    jsonParseValue (fuel + 1) depth s = .ok (arkshValueSetString t, rest) := by
  obtain ⟨u, hu, hlt, rfl⟩ := bufferText_eq_some.mp ht
  have hp : jsonParseString arkshMaxOutput (str.quoted ++ rest) = .ok (u, rest) :=
    (jsonParseString_iff (by decide)).mpr ⟨str, rfl, hu, hlt⟩
  have ha : jsonParseStringAlloc (str.quoted ++ rest) = .ok (cString u, rest) := by
    rw [jsonParseStringAlloc, hp]
  change ite _ _ _ = _
  rw [if_neg (by omega), hs]
  simp only [Str.quoted, cons_append, if_true] at ha ⊢
  rw [ha]

theorem parse_number {x : Binary64} (ht : parserNumber t = some x) (hr : Delimited rest)
    (hs : jsonSkipWs s = t ++ rest) :
    jsonParseValue (fuel + 1) depth s = .ok (arkshValueSetNumber x, rest) := by
  obtain ⟨hz, hp⟩ := jsonParseNumber_token ht hr
  obtain ⟨c, t', rfl, hc, -⟩ := startsNumber_of_parserNumber ht
  have hne : ∀ d, startsNumber d = false → c ≠ d := by
    rintro d hd rfl
    rw [hd] at hc
    cases hc
  have hcd : c = '-' ∨ isdigit c = true := by
    simpa [startsNumber] using hc
  change ite _ _ _ = _
  rw [if_neg (by omega), hs]
  simp only [cons_append] at hz hp ⊢
  simp [hne '"' rfl, hne '[' rfl, hne '{' rfl, (hne 't' rfl).symm, (hne 'f' rfl).symm,
    (hne 'n' rfl).symm, List.isPrefixOf?, hcd, hz, hp]

theorem parse_emptyArr (ws : Ws) (hs : jsonSkipWs s = '[' :: (ws.1 ++ ']' :: rest)) :
    jsonParseValue (fuel + 1) depth s = .ok ({ arkshValueInit with kind := .list }, rest) := by
  have hw : jsonSkipWs (ws.1 ++ ']' :: rest) = ']' :: rest := by
    rw [skipWs_ws, skipWs_cons rfl]
  change ite _ _ _ = _
  rw [if_neg (by omega), hs]
  simp [hw]

theorem parse_emptyObj (ws : Ws) (hs : jsonSkipWs s = '{' :: (ws.1 ++ '\x7d' :: rest)) :
    jsonParseValue (fuel + 1) depth s = .ok (arkshValueSetMap, rest) := by
  have hw : jsonSkipWs (ws.1 ++ '\x7d' :: rest) = '\x7d' :: rest := by
    rw [skipWs_ws, skipWs_cons rfl]
  change ite _ _ _ = _
  rw [if_neg (by omega), hs]
  simp [hw]

theorem parse_arr (hs : jsonSkipWs s = '[' :: body) (hb : ∀ t, jsonSkipWs body ≠ ']' :: t) :
    jsonParseValue (fuel + 1) depth s =
      jsonArrayLoop fuel (depth + 1) { arkshValueInit with kind := .list } (jsonSkipWs body) := by
  change ite _ _ _ = _
  rw [if_neg (by omega), hs]
  simp only [show '[' ≠ '"' by decide, if_false, if_true]

theorem parse_obj (hs : jsonSkipWs s = '{' :: body) (hb : ∀ t, jsonSkipWs body ≠ '\x7d' :: t) :
    jsonParseValue (fuel + 1) depth s =
      jsonObjectLoop fuel (depth + 1) arkshValueSetMap (jsonSkipWs body) := by
  change ite _ _ _ = _
  rw [if_neg (by omega), hs]
  simp only [show '{' ≠ '"' by decide, show '{' ≠ '[' by decide, if_false, if_true]

end Read

theorem denote_emptyList : ({ arkshValueInit with kind := .list } : ArkshValue).denote = .list [] :=
  rfl

theorem Elements.text_head {es : Elements} {ds : List Datum}
    (h : es.eval parserReading = some ds) (rest : Text) :
    ∃ c t, jsonSkipWs (es.text ++ rest) = c :: t ∧ startsValue c = true := by
  cases es with
  | one pre v post | more pre v post es =>
    simp only [Elements.eval, map_eq_some_iff, bind_eq_some_iff] at h
    obtain ⟨d, hv, -⟩ := h
    obtain ⟨c, t, ht, hc⟩ := Value.head_of_eval hv
    rw [Elements.text, append_assoc, skipWs_ws, ht, append_assoc, cons_append,
      skipWs_cons (startsValue_ne hc).1]
    exact ⟨c, _, rfl, hc⟩

theorem Members.text_head (ms : Members) (rest : Text) :
    ∃ t, jsonSkipWs (ms.text ++ rest) = '"' :: t := by
  cases ms with
  | one pre key mid₁ mid₂ v post | more pre key mid₁ mid₂ v post ms =>
    rw [Members.text, append_assoc, skipWs_ws]
    exact ⟨_, skipWs_cons rfl _⟩

theorem skipWs_value {v : Value} (h : v.eval parserReading = some d) (ws : Ws) (rest : Text) :
    jsonSkipWs (ws.1 ++ (v.text ++ rest)) = v.text ++ rest := by
  obtain ⟨c, t, ht, hc⟩ := Value.head_of_eval h
  rw [skipWs_ws, ht, cons_append, skipWs_cons (startsValue_ne hc).1]

def ReadIn (fuel depth : Nat) (behind : Text) (v : Value) (d : Datum) : Prop :=
  v.eval parserReading = some d ∧ ∀ s, jsonSkipWs s = v.text ++ behind →
    ∃ w, jsonParseValue fuel depth s = .ok (w, behind) ∧ w.denote = d

section Turn

variable {v : Value} {d : Datum} {fuel depth : Nat} {c : Char} {tail : Text} {out : ArkshValue}
  {post : Ws} (hread : ReadIn fuel depth (post.1 ++ c :: tail) v d)

include hread

theorem arrayLoop_value {xs : List Datum} (hc : c = ']' ∨ c = ',') (ho : out.denote = .list xs)
    (pre : Ws) : ∃ out', out'.denote = .list (xs ++ [d]) ∧
      jsonArrayLoop (fuel + 1) depth out (jsonSkipWs (pre.1 ++ (v.text ++ (post.1 ++ c :: tail)))) =
        if c = ']' then .ok (out', tail) else jsonArrayLoop fuel depth out' (jsonSkipWs tail) := by
  obtain ⟨hv, hread⟩ := hread
  have hskip := skipWs_value hv pre (post.1 ++ c :: tail)
  obtain ⟨x, t, ht, -⟩ := Value.head_of_eval hv
  have hskip' : jsonSkipWs (v.text ++ (post.1 ++ c :: tail)) = v.text ++ (post.1 ++ c :: tail) := by
    rw [← hskip, skipWs_skipWs]
  obtain ⟨w, hw, rfl⟩ := hread _ hskip'
  obtain ⟨out', hout, hod⟩ := denote_listAppendValue ho w
  refine ⟨out', by rw [hod, Value.stored_eval hv], ?_⟩
  rw [hskip]
  rw [ht, cons_append] at hw ⊢
  rw [jsonArrayLoop, hw]
  simp only [hout]
  rcases hc with rfl | rfl <;> rw [skipWs_ws, skipWs_cons rfl] <;> rfl

theorem objectLoop_value {entries : List (Text × Datum)} {key : Str} {k : Text}
    (hc : c = '\x7d' ∨ c = ',') (ho : out.denote = .map entries)
    (hk : parserReading.key key = some k) (pre mid₁ mid₂ : Ws) :
    ∃ out', out'.denote = .map (put k d entries) ∧
      jsonObjectLoop (fuel + 1) depth out (jsonSkipWs (pre.1 ++ (key.quoted ++
        (mid₁.1 ++ ':' :: (mid₂.1 ++ (v.text ++ (post.1 ++ c :: tail))))))) =
        if c = '\x7d' then .ok (out', tail) else jsonObjectLoop fuel depth out' (jsonSkipWs tail) := by
  obtain ⟨hv, hread⟩ := hread
  obtain ⟨u, hu, hlt, rfl, hne, hklt⟩ := parserKey_eq_some hk
  obtain ⟨w, hw, rfl⟩ := hread (jsonSkipWs (mid₂.1 ++ (v.text ++ (post.1 ++ c :: tail))))
    (by rw [skipWs_skipWs, skipWs_value hv])
  obtain ⟨out', hout, hod⟩ := denote_mapSet ho hne hklt w
  refine ⟨out', by rw [hod, Value.stored_eval hv], ?_⟩
  generalize hbody : mid₁.1 ++ ':' :: (mid₂.1 ++ (v.text ++ (post.1 ++ c :: tail))) = body
  have hkey : jsonParseString arkshMaxName (key.quoted ++ body) = .ok (u, body) :=
    (jsonParseString_iff (by decide)).mpr ⟨key, rfl, hu, hlt⟩
  have hmid : jsonSkipWs body = ':' :: (mid₂.1 ++ (v.text ++ (post.1 ++ c :: tail))) := by
    rw [← hbody, skipWs_ws, skipWs_cons rfl]
  rw [skipWs_ws, Str.quoted, cons_append, skipWs_cons rfl, jsonObjectLoop, if_neg (by simp)]
  rw [Str.quoted, cons_append] at hkey
  simp only [hkey, hmid, hw, hout]
  rcases hc with rfl | rfl <;> rw [skipWs_ws, skipWs_cons rfl] <;> rfl

end Turn

mutual

/-- **A value that means something is read, whatever delimits it.** -/
theorem Value.parsed (v : Value) {d : Datum} {fuel depth : Nat} {s rest : Text}
    (he : v.eval parserReading = some d) (hn : depth + v.nesting ≤ jsonMaxDepth)
    (hs : jsonSkipWs s = v.text ++ rest) (hr : Delimited rest)
    (hf : 2 * (v.text ++ rest).length + 1 ≤ fuel) :
    ∃ w, jsonParseValue fuel depth s = .ok (w, rest) ∧ w.denote = d := by
  rcases fuel with _ | fuel
  · omega
  have hd : depth ≤ jsonMaxDepth := by omega
  match v with
  | .null => cases he; exact ⟨_, parse_null hd hs, rfl⟩
  | .bool true => cases he; exact ⟨_, parse_true hd hs, rfl⟩
  | .bool false => cases he; exact ⟨_, parse_false hd hs, rfl⟩
  | .num t =>
    rw [Value.eval, map_eq_some_iff] at he
    obtain ⟨x, hx, rfl⟩ := he
    exact ⟨_, parse_number hd hx hr hs, rfl⟩
  | .str str =>
    rw [Value.eval, map_eq_some_iff] at he
    obtain ⟨t, ht, rfl⟩ := he
    exact ⟨_, parse_string hd ht hs, rfl⟩
  | .emptyArr ws =>
    cases he
    refine ⟨_, parse_emptyArr hd ws ?_, rfl⟩
    rw [hs]
    simp [Value.text]
  | .emptyObj ws =>
    cases he
    refine ⟨_, parse_emptyObj hd ws ?_, rfl⟩
    rw [hs]
    simp [Value.text]
  | .arr es =>
    rw [Value.eval, map_eq_some_iff] at he
    obtain ⟨ds, hds, rfl⟩ := he
    have hs' : jsonSkipWs s = '[' :: (es.text ++ ']' :: rest) := by rw [hs]; simp [Value.text]
    have hhead := Elements.text_head hds (']' :: rest)
    have hb : ∀ t, jsonSkipWs (es.text ++ ']' :: rest) ≠ ']' :: t := by
      intro t ht
      obtain ⟨c, t', hc, hv⟩ := hhead
      rw [hc] at ht
      exact (startsValue_ne hv).2.1 (cons.inj ht).1
    simp only [Value.nesting] at hn
    simp only [Value.text, length_append, length_cons, length_nil] at hf
    have hn' : depth + 1 + es.nesting ≤ jsonMaxDepth := by omega
    have hf' : 2 * (es.text ++ ']' :: rest).length + 2 ≤ fuel := by
      simp only [length_append, length_cons]
      omega
    obtain ⟨w, hw, hwd⟩ := Elements.parsed es hds hn' hr hf' denote_emptyList
    exact ⟨w, by rw [parse_arr hd hs' hb, hw], hwd⟩
  | .obj ms =>
    rw [Value.eval, map_eq_some_iff] at he
    obtain ⟨ops, hops, rfl⟩ := he
    have hs' : jsonSkipWs s = '{' :: (ms.text ++ '\x7d' :: rest) := by rw [hs]; simp [Value.text]
    have hb : ∀ t, jsonSkipWs (ms.text ++ '\x7d' :: rest) ≠ '\x7d' :: t := by
      intro t ht
      obtain ⟨t', hc⟩ := Members.text_head ms ('\x7d' :: rest)
      rw [hc] at ht
      exact absurd (cons.inj ht).1 (by decide)
    simp only [Value.nesting] at hn
    simp only [Value.text, length_append, length_cons, length_nil] at hf
    have hn' : depth + 1 + ms.nesting ≤ jsonMaxDepth := by omega
    have hf' : 2 * (ms.text ++ '\x7d' :: rest).length + 2 ≤ fuel := by
      simp only [length_append, length_cons]
      omega
    obtain ⟨w, hw, hwd⟩ := Members.parsed ms hops hn' hr hf'
      (show arkshValueSetMap.denote = .map [] from rfl)
    exact ⟨w, by rw [parse_obj hd hs' hb, hw], hwd⟩

theorem Elements.parsed (es : Elements) {ds xs : List Datum} {fuel depth : Nat} {rest : Text}
    {out : ArkshValue} (he : es.eval parserReading = some ds)
    (hn : depth + es.nesting ≤ jsonMaxDepth) (hr : Delimited rest)
    (hf : 2 * (es.text ++ ']' :: rest).length + 2 ≤ fuel) (ho : out.denote = .list xs) :
    ∃ w, jsonArrayLoop fuel depth out (jsonSkipWs (es.text ++ ']' :: rest)) = .ok (w, rest) ∧
      w.denote = .list (xs ++ ds) := by
  rcases fuel with _ | fuel
  · omega
  match es with
  | .one pre v post =>
    rw [Elements.eval, map_eq_some_iff] at he
    obtain ⟨d, hv, rfl⟩ := he
    simp only [Elements.nesting, Elements.text, append_assoc, length_append, length_cons] at hn hf ⊢
    have hread : ReadIn fuel depth (post.1 ++ ']' :: rest) v d :=
      ⟨hv, fun s hs => Value.parsed v hv hn hs (post.delimited (delimited_cons rfl)) (by
        simp only [length_append, length_cons]
        omega)⟩
    obtain ⟨out', hod, hstep⟩ := arrayLoop_value hread (.inl rfl) ho pre
    exact ⟨out', hstep, hod⟩
  | .more pre v post es =>
    rw [Elements.eval, bind_eq_some_iff] at he
    obtain ⟨d, hv, he⟩ := he
    obtain ⟨ds, hds, rfl⟩ := map_eq_some_iff.mp he
    simp only [Elements.nesting, Elements.text, append_assoc, cons_append, length_append,
      length_cons] at hn hf ⊢
    have hlen : 0 < v.text.length := by
      obtain ⟨c', t', ht', -⟩ := Value.head_of_eval hv
      rw [ht']
      exact Nat.succ_pos _
    have hread : ReadIn fuel depth (post.1 ++ ',' :: (es.text ++ ']' :: rest)) v d :=
      ⟨hv, fun s hs => Value.parsed v hv (by omega) hs (post.delimited (delimited_cons rfl)) (by
        simp only [length_append, length_cons]
        omega)⟩
    obtain ⟨out', hod, hstep⟩ := arrayLoop_value hread (.inr rfl) ho pre
    have hf' : 2 * (es.text ++ ']' :: rest).length + 2 ≤ fuel := by
      simp only [length_append, length_cons]
      omega
    have hn' : depth + es.nesting ≤ jsonMaxDepth := by omega
    obtain ⟨w, hw, hwd⟩ := Elements.parsed es hds hn' hr hf' hod
    exact ⟨w, by rw [hstep, if_neg (by decide), hw], by rw [hwd, append_assoc, singleton_append]⟩

theorem Members.parsed (ms : Members) {ops entries : List (Text × Datum)} {fuel depth : Nat}
    {rest : Text} {out : ArkshValue} (he : ms.eval parserReading = some ops)
    (hn : depth + ms.nesting ≤ jsonMaxDepth) (hr : Delimited rest)
    (hf : 2 * (ms.text ++ '\x7d' :: rest).length + 2 ≤ fuel) (ho : out.denote = .map entries) :
    ∃ w, jsonObjectLoop fuel depth out (jsonSkipWs (ms.text ++ '\x7d' :: rest)) = .ok (w, rest) ∧
      w.denote = .map (putAll entries ops) := by
  rcases fuel with _ | fuel
  · omega
  match ms with
  | .one pre key mid₁ mid₂ v post =>
    rw [Members.eval, bind_eq_some_iff] at he
    obtain ⟨k, hk, he⟩ := he
    obtain ⟨d, hv, rfl⟩ := map_eq_some_iff.mp he
    simp only [Members.nesting, Members.text, append_assoc, cons_append, length_append,
      length_cons] at hn hf ⊢
    have hread : ReadIn fuel depth (post.1 ++ '\x7d' :: rest) v d :=
      ⟨hv, fun s hs => Value.parsed v hv hn hs (post.delimited (delimited_cons rfl)) (by
        simp only [length_append, length_cons]
        omega)⟩
    obtain ⟨out', hod, hstep⟩ := objectLoop_value hread (.inl rfl) ho hk pre mid₁ mid₂
    exact ⟨out', hstep, hod⟩
  | .more pre key mid₁ mid₂ v post ms =>
    rw [Members.eval, bind_eq_some_iff] at he
    obtain ⟨k, hk, he⟩ := he
    obtain ⟨d, hv, he⟩ := bind_eq_some_iff.mp he
    obtain ⟨ops, hops, rfl⟩ := map_eq_some_iff.mp he
    simp only [Members.nesting, Members.text, append_assoc, cons_append, length_append,
      length_cons] at hn hf ⊢
    have hread : ReadIn fuel depth (post.1 ++ ',' :: (ms.text ++ '\x7d' :: rest)) v d :=
      ⟨hv, fun s hs => Value.parsed v hv (by omega) hs (post.delimited (delimited_cons rfl)) (by
        simp only [length_append, length_cons]
        omega)⟩
    obtain ⟨out', hod, hstep⟩ := objectLoop_value hread (.inr rfl) ho hk pre mid₁ mid₂
    have hf' : 2 * (ms.text ++ '\x7d' :: rest).length + 2 ≤ fuel := by
      simp only [length_append, length_cons]
      omega
    have hn' : depth + ms.nesting ≤ jsonMaxDepth := by omega
    obtain ⟨w, hw, hwd⟩ := Members.parsed ms hops hn' hr hf' hod
    exact ⟨w, by rw [hstep, if_neg (by decide), hw], by rw [hwd, putAll_cons]⟩

end

/-! ## 2. What is read is the text of a tree -/

def ValueSound (fuel : Nat) : Prop :=
  ∀ {depth : Nat} {s rest : Text} {w : ArkshValue},
    jsonParseValue fuel depth s = .ok (w, rest) →
    ∃ v : Value, jsonSkipWs s = v.text ++ rest ∧ v.eval parserReading = some w.denote ∧
      depth + v.nesting ≤ jsonMaxDepth

def ArraySound (fuel : Nat) : Prop :=
  ∀ {depth : Nat} {s rest : Text} {out w : ArkshValue} {xs : List Datum},
    jsonArrayLoop fuel depth out s = .ok (w, rest) → out.denote = .list xs →
    ∃ (es : Elements) (ds : List Datum), s = es.text ++ ']' :: rest ∧
      es.eval parserReading = some ds ∧ w.denote = .list (xs ++ ds) ∧
      depth + es.nesting ≤ jsonMaxDepth

def ObjectSound (fuel : Nat) : Prop :=
  ∀ {depth : Nat} {s rest : Text} {out w : ArkshValue} {entries : List (Text × Datum)},
    jsonObjectLoop fuel depth out s = .ok (w, rest) → out.denote = .map entries →
    ∃ (ms : Members) (ops : List (Text × Datum)), s = ms.text ++ '\x7d' :: rest ∧
      ms.eval parserReading = some ops ∧ w.denote = .map (putAll entries ops) ∧
      depth + ms.nesting ≤ jsonMaxDepth

theorem literal_of_isPrefixOf {lit s rest : Text} (h : lit.isPrefixOf? s = some rest) :
    s = lit ++ rest :=
  (isPrefixOf?_eq_some_iff_append_eq.mp h).symm

theorem valueSound_succ (ha : ArraySound fuel) (hb : ObjectSound fuel) : ValueSound (fuel + 1) := by
  intro depth s rest w h
  rw [jsonParseValue] at h
  split at h
  · cases h
  have hd' : depth ≤ jsonMaxDepth := by omega
  split at h
  · cases h
  rename_i c cursor hs
  rw [hs]
  split at h
  · -- a string
    unfold jsonParseStringAlloc at h
    split at h
    · cases h
    rename_i t cursor' hstr
    split at hstr
    · cases hstr
    rename_i buffer cursor'' hp
    cases hstr
    cases h
    obtain ⟨str, hq, hdec, hlt⟩ := (jsonParseString_iff (by decide)).mp hp
    refine ⟨.str str, hq, ?_, hd'⟩
    have hb : bufferText arkshMaxOutput str = some (cString buffer) :=
      bufferText_eq_some.mpr ⟨buffer, hdec, hlt, rfl⟩
    show (bufferText arkshMaxOutput str).map Datum.string = _
    rw [hb]
    rfl
  split at h
  · -- an array
    rename_i hc
    subst hc
    have hsplit := takeFrom_append_skipWs cursor
    split at h
    · rename_i cursor' he
      cases h
      rw [he] at hsplit
      exact ⟨.emptyArr (Ws.takeFrom cursor), by simp [Value.text, hsplit], rfl, hd'⟩
    · obtain ⟨es, ds, hes, heval, hw, hn⟩ := ha h denote_emptyList
      rw [hes] at hsplit
      refine ⟨.arr (es.pad (Ws.takeFrom cursor)), ?_, ?_, ?_⟩
      · simp [Value.text, hsplit]
      · rw [Value.eval, Elements.eval_pad, heval, hw]; rfl
      · rw [Value.nesting, Elements.nesting_pad]; omega
  split at h
  · -- an object
    rename_i hc
    subst hc
    have hsplit := takeFrom_append_skipWs cursor
    split at h
    · rename_i cursor' he
      cases h
      rw [he] at hsplit
      exact ⟨.emptyObj (Ws.takeFrom cursor), by simp [Value.text, hsplit], rfl, hd'⟩
    · obtain ⟨ms, ops, hms, heval, hw, hn⟩ := hb h (show arkshValueSetMap.denote = .map [] from rfl)
      rw [hms] at hsplit
      refine ⟨.obj (ms.pad (Ws.takeFrom cursor)), ?_, ?_, ?_⟩
      · simp [Value.text, hsplit]
      · rw [Value.eval, Members.eval_pad, heval, hw]; rfl
      · rw [Value.nesting, Members.nesting_pad]; omega
  split at h
  · rename_i cursor' hl
    cases h
    exact ⟨.bool true, literal_of_isPrefixOf hl, rfl, hd'⟩
  split at h
  · rename_i cursor' hl
    cases h
    exact ⟨.bool false, literal_of_isPrefixOf hl, rfl, hd'⟩
  split at h
  · rename_i cursor' hl
    cases h
    exact ⟨.null, literal_of_isPrefixOf hl, rfl, hd'⟩
  split at h
  · -- a number
    rename_i hc
    split at h
    · cases h
    rename_i hz
    split at h
    · cases h
    rename_i x cursor' hp
    cases h
    have hstart : startsNumber c = true := by simpa [startsNumber] using hc
    obtain ⟨t, ht, hx, -⟩ := token_of_jsonParseNumber hstart (Bool.eq_false_of_not_eq_true hz) hp
    refine ⟨.num t, ht, ?_, hd'⟩
    show (parserNumber t).map Datum.number = _
    rw [hx]
    rfl
  · cases h

theorem arraySound_succ (hv : ValueSound fuel) (ha : ArraySound fuel) : ArraySound (fuel + 1) := by
  intro depth s rest out w xs h ho
  cases s with
  | nil => cases h
  | cons c s =>
    rw [jsonArrayLoop] at h
    split at h
    · cases h
    rename_i parsed cursor hp
    obtain ⟨v, hs, heval, hn⟩ := hv hp
    obtain ⟨out', hout, hod⟩ := denote_listAppendValue ho parsed
    rw [Value.stored_eval heval] at hod
    simp only [hout] at h
    have hpre := takeFrom_append_skipWs (c :: s)
    have hpost := takeFrom_append_skipWs cursor
    rw [hs] at hpre
    split at h
    · -- the last element
      rename_i cursor' he
      cases h
      rw [he] at hpost
      refine ⟨.one (Ws.takeFrom (c :: s)) v (Ws.takeFrom cursor), [parsed.denote], ?_, ?_, hod, hn⟩
      · rw [Elements.text, append_assoc, append_assoc, hpost, hpre]
      · rw [Elements.eval, heval]; rfl
    · -- a comma
      rename_i cursor' he
      obtain ⟨es, ds, hes, heval', hw, hn'⟩ := ha h hod
      have hpad := takeFrom_append_skipWs cursor'
      rw [hes] at hpad
      rw [he] at hpost
      refine ⟨.more (Ws.takeFrom (c :: s)) v (Ws.takeFrom cursor) (es.pad (Ws.takeFrom cursor')),
        parsed.denote :: ds, ?_, ?_, ?_, ?_⟩
      · simp only [Elements.text, Elements.text_pad, append_assoc, cons_append]
        rw [hpad, hpost, hpre]
      · rw [Elements.eval, heval, bind_some, Elements.eval_pad, heval']; rfl
      · rw [hw, append_assoc, singleton_append]
      · rw [Elements.nesting, Elements.nesting_pad]; omega
    · cases h

theorem objectSound_succ (hv : ValueSound fuel) (hb : ObjectSound fuel) :
    ObjectSound (fuel + 1) := by
  intro depth s rest out w entries h ho
  cases s with
  | nil => cases h
  | cons c s =>
    rw [jsonObjectLoop] at h
    split at h
    · cases h
    split at h
    · cases h
    rename_i u cursor hk
    obtain ⟨key, hq, hdec, hlt⟩ := (jsonParseString_iff (by decide)).mp hk
    split at h
    · rename_i cursor₁ hcolon
      split at h
      · cases h
      rename_i parsed cursor₂ hp
      obtain ⟨v, hs, heval, hn⟩ := hv hp
      rw [skipWs_skipWs] at hs
      split at h
      · cases h
      rename_i out' hout
      have hne : cString u ≠ [] := (mapSet_some hout).1
      have hkey : parserReading.key key = some (cString u) := parserKey_of hdec hlt hne
      have hklt : (cString u).length < arkshMaxName :=
        Nat.lt_of_le_of_lt (List.takeWhile_prefix _).length_le hlt
      obtain ⟨out'', hout', hod⟩ := denote_mapSet ho hne hklt parsed
      obtain rfl : out' = out'' := by
        rw [hout] at hout'
        exact Option.some.inj hout'
      rw [Value.stored_eval heval] at hod
      have hmid₁ := takeFrom_append_skipWs cursor
      rw [hcolon] at hmid₁
      have hmid₂ := takeFrom_append_skipWs cursor₁
      rw [hs] at hmid₂
      have hpost := takeFrom_append_skipWs cursor₂
      split at h
      · -- the last member
        rename_i cursor' he
        cases h
        rw [he] at hpost
        refine ⟨.one Ws.none key (Ws.takeFrom cursor) (Ws.takeFrom cursor₁) v
          (Ws.takeFrom cursor₂), [(cString u, parsed.denote)], ?_, ?_, hod, hn⟩
        · simp only [Members.text, Ws.none, nil_append, append_assoc, cons_append]
          rw [hpost, hmid₂, hmid₁, hq]
        · rw [Members.eval, hkey, bind_some, heval]; rfl
      · -- a comma
        rename_i cursor' he
        obtain ⟨ms, ops, hms, heval', hw, hn'⟩ := hb h hod
        have hpad := takeFrom_append_skipWs cursor'
        rw [hms] at hpad
        rw [he] at hpost
        refine ⟨.more Ws.none key (Ws.takeFrom cursor) (Ws.takeFrom cursor₁) v
          (Ws.takeFrom cursor₂) (ms.pad (Ws.takeFrom cursor')),
          (cString u, parsed.denote) :: ops, ?_, ?_, ?_, ?_⟩
        · simp only [Members.text, Members.text_pad, Ws.none, nil_append, append_assoc, cons_append]
          rw [hpad, hpost, hmid₂, hmid₁, hq]
        · rw [Members.eval, hkey, bind_some, heval, bind_some, Members.eval_pad, heval']; rfl
        · rw [hw, putAll_cons]
        · rw [Members.nesting, Members.nesting_pad]; omega
      · cases h
    · cases h

/-- **What is read is the text of a tree that means what is returned.** -/
theorem parse_sound (fuel : Nat) : ValueSound fuel ∧ ArraySound fuel ∧ ObjectSound fuel := by
  induction fuel with
  | zero =>
    refine ⟨?_, ?_, ?_⟩
    · intro depth s rest w h; cases h
    · intro depth s rest out w xs h; cases h
    · intro depth s rest out w entries h; cases h
  | succ fuel ih =>
    obtain ⟨hv, ha, hb⟩ := ih
    exact ⟨valueSound_succ ha hb, arraySound_succ hv ha, objectSound_succ hv hb⟩

/-! ## 3. Whole texts -/

/-- A text that the parser can take: a JSON text with numbers that `strtod` reads, strings and names
    that pair their surrogates and fit, names that are not empty, and at most 128 levels. `d` is
    what it means to the parser. -/
def ParserReads (text : Text) (d : Datum) : Prop :=
  ∃ doc : Document, doc.text = text ∧ doc.value.nesting ≤ jsonMaxDepth ∧
    doc.value.eval parserReading = some d

theorem skipWs_eq_nil {s : Text} (h : jsonSkipWs s = []) : (Ws.takeFrom s).1 = s := by
  have hs := takeFrom_append_skipWs s
  rw [h, append_nil] at hs
  exact hs

theorem parseJson_iff {text : Text} :
    (∃ w, arkshValueParseJson text = .ok w ∧ w.denote = d) ↔ ParserReads text d := by
  constructor
  · rintro ⟨w, h, rfl⟩
    unfold arkshValueParseJson at h
    split at h
    · cases h
    rename_i value cursor hp
    split at h
    · rename_i hnil
      cases h
      obtain ⟨v, hs, heval, hn⟩ := (parse_sound _).1 hp
      rw [Nat.zero_add] at hn
      refine ⟨⟨Ws.takeFrom text, v, Ws.takeFrom cursor⟩, ?_, hn, heval⟩
      rw [Document.text, skipWs_eq_nil hnil, ← hs, takeFrom_append_skipWs]
    · cases h
  · rintro ⟨⟨pre, v, post⟩, rfl, hn, heval⟩
    have hdel : Delimited post.1 := by
      have := post.delimited delimited_nil
      rwa [append_nil] at this
    have hskip : jsonSkipWs (pre.1 ++ (v.text ++ post.1)) = v.text ++ post.1 :=
      skipWs_value heval pre post.1
    have hf : 2 * (v.text ++ post.1).length + 1 ≤
        2 * (pre.1 ++ (v.text ++ post.1)).length + 1 := by
      simp only [length_append]
      omega
    have hn' : 0 + v.nesting ≤ jsonMaxDepth := by rw [Nat.zero_add]; exact hn
    obtain ⟨w, hw, hwd⟩ := Value.parsed v heval hn' hskip hdel hf
    have hpost : jsonSkipWs post.1 = [] := by
      have := skipWs_ws post []
      rw [append_nil] at this
      exact this
    refine ⟨w, ?_, hwd⟩
    rw [Document.text, arkshValueParseJson, hw]
    simp only [hpost]

end Arksh
