/-
  Subject: The parser against RFC 8259: what it takes beyond the grammar, and what it loses.
-/
import Arksh.Object.JsonParse

namespace Arksh

open CText Binary64 Rfc8259 Assoc List Option

/-! ## 1. Numbers of RFC 8259 -/

theorem isdigit_head_of_int (n : Number) : ∃ d ds, n.int = d :: ds ∧ isdigit d = true := by
  obtain ⟨d, ds, hint⟩ := exists_cons_of_ne_nil n.intNonempty
  exact ⟨d, ds, hint, n.intDigits d (by rw [hint]; exact mem_cons_self)⟩

theorem zeroBeforeDigit_of_ne {d : Char} (h : d ≠ '0') (t : Text) :
    zeroBeforeDigit (d :: t) = false := by
  cases t <;> simp [zeroBeforeDigit, h]

theorem zeroBeforeDigit_number (n : Number) :
    zeroBeforeDigit (n.int ++ ((if n.frac = [] then [] else '.' :: n.frac) ++ n.expText)) =
      false := by
  obtain ⟨d, ds, hint, -⟩ := isdigit_head_of_int n
  rw [hint]
  by_cases hd : d = '0'
  · subst hd
    obtain rfl := n.noLeadingZero ds hint
    rcases expText_stops n with he | ⟨c, t, he, hc, -⟩
    · by_cases hf : n.frac = []
      · simp [hf, he, zeroBeforeDigit]
      · simp [hf, zeroBeforeDigit, isdigit]
    · by_cases hf : n.frac = []
      · simp [hf, he, zeroBeforeDigit, hc]
      · simp [hf, zeroBeforeDigit, isdigit]
  · exact zeroBeforeDigit_of_ne hd _

/-- **The parser takes every number of RFC 8259.** -/
theorem parserNumber_number (n : Number) : parserNumber n.text = some n.value := by
  have hst := strtod_number n
  have hz := zeroBeforeDigit_number n
  obtain ⟨d, ds, hint, hd⟩ := isdigit_head_of_int n
  have hlead : ∃ c t, n.text = c :: t ∧ startsNumber c = true ∧ jsonLeadingZero n.text = false := by
    unfold Number.text
    cases n.neg with
    | true => exact ⟨'-', _, rfl, rfl, hz⟩
    | false =>
      refine ⟨d, _, by simp only [signText, hint]; rfl, by simp [startsNumber, hd], ?_⟩
      have hne : d ≠ '-' := by rintro rfl; exact absurd hd (by decide)
      rw [hint] at hz ⊢
      simp only [signText, Bool.false_eq_true, if_false, nil_append, cons_append,
        jsonLeadingZero, if_neg hne] at hz ⊢
      exact hz
  obtain ⟨c, t, ht, hc, hz'⟩ := hlead
  rw [ht] at hst hz' ⊢
  unfold parserNumber
  simp only [hc, hz', and_self, if_true, hst]

variable {t : Text}

theorem isToken_of_isNumber (h : IsNumber t) : IsToken t := by
  obtain ⟨n, rfl⟩ := h
  exact isToken_of_parserNumber (parserNumber_number n)

/-! ## 2. Acceptance -/

def Accepts (text : Text) : Prop := ∃ w, arkshValueParseJson text = .ok w

theorem accepts_iff {text : Text} : Accepts text ↔ ∃ d, ParserReads text d := by
  constructor
  · intro ⟨w, hw⟩; exact ⟨w.denote, parseJson_iff.mp ⟨w, hw, rfl⟩⟩
  · intro ⟨d, hd⟩
    obtain ⟨w, hw, -⟩ := parseJson_iff.mpr hd
    exact ⟨w, hw⟩

/-- A text in the parser's own language (`ParserReads`) with a number that is none of
    RFC 8259. -/
def HasForeignNumber (text : Text) : Prop :=
  ∃ doc : Document, doc.text = text ∧ doc.value.nesting ≤ jsonMaxDepth ∧
    (∃ d, doc.value.eval parserReading = some d) ∧ ∃ t ∈ doc.value.numerals, ¬ IsNumber t

/-- **What the parser accepts is JSON, unless it holds a number that only `strtod` knows.** -/
theorem accepts_isJson_iff (text : Text) :
    (Accepts text → IsJson text) ↔ ¬ HasForeignNumber text := by
  constructor
  · rintro h ⟨doc, rfl, hn, ⟨d, hd⟩, t, ht, hnot⟩
    obtain ⟨doc', htext, hnum⟩ := h (accepts_iff.mpr ⟨d, doc, rfl, hn, hd⟩)
    -- the JSON tree of the text is the tree the parser reads
    have he : doc' = doc := Document.text_injective
      (fun u hu => isToken_of_isNumber (hnum u hu)) (Value.tokens_of_eval doc.value hd) htext
    rw [he] at hnum
    exact hnot (hnum t ht)
  · intro h hacc
    obtain ⟨d, doc, rfl, hn, hd⟩ := accepts_iff.mp hacc
    refine ⟨doc, rfl, ?_⟩
    intro t ht
    by_contra hnot
    exact h ⟨doc, rfl, hn, ⟨d, hd⟩, t, ht, hnot⟩

/-- `0x10` is read as 16. -/
theorem not_isJson_hex : ¬ (Accepts ['0', 'x', '1', '0'] → IsJson ['0', 'x', '1', '0']) := by
  intro h
  have hp : parserNumber ['0', 'x', '1', '0'] ≠ none := by
    rw [parserNumber, if_pos ⟨by decide, by decide⟩]
    have hst : ∃ v, strtod ['0', 'x', '1', '0'] = some (v, []) := ⟨_, rfl⟩
    obtain ⟨v, hv⟩ := hst
    rw [hv]
    simp
  obtain ⟨x, hx⟩ := ne_none_iff_exists'.mp hp
  have hd : (Value.num ['0', 'x', '1', '0']).eval parserReading = some (.number x) := by
    rw [Value.eval, show parserReading.number = parserNumber from rfl, hx]
    rfl
  have hacc : Accepts ['0', 'x', '1', '0'] :=
    accepts_iff.mpr ⟨_, ⟨Ws.none, .num ['0', 'x', '1', '0'], Ws.none⟩, rfl, by decide, hd⟩
  obtain ⟨doc, htext, hnum⟩ := h hacc
  have he : doc = ⟨Ws.none, .num ['0', 'x', '1', '0'], Ws.none⟩ := Document.text_injective
    (fun u hu => isToken_of_isNumber (hnum u hu)) (Value.tokens_of_eval _ hd) htext
  rw [he] at hnum
  obtain ⟨n, hn⟩ := hnum ['0', 'x', '1', '0'] (mem_singleton_self _)
  have hc : 'x' ∈ n.text := by rw [hn]; decide
  rcases Number.mem_text hc with h | h <;> exact absurd h (by decide)

/-! ## 3. NUL -/

inductive Datum.NulFree : Datum → Prop
  | empty : NulFree .empty
  | boolean (b : Bool) : NulFree (.boolean b)
  | number (x : Binary64) : NulFree (.number x)
  | string {t : Text} (h : '\x00' ∉ t) : NulFree (.string t)
  | list {items : List Datum} (h : ∀ d ∈ items, NulFree d) : NulFree (.list items)
  | map {entries : List (Text × Datum)} (hk : ∀ p ∈ entries, '\x00' ∉ p.1)
      (hd : ∀ p ∈ entries, NulFree p.2) : NulFree (.map entries)

theorem nul_notMem_cString (t : Text) : '\x00' ∉ cString t := by
  intro h
  have := mem_takeWhile_imp h
  simp at this

theorem cString_of_nul_notMem (h : '\x00' ∉ t) : cString t = t := by
  refine takeWhile_eq_self_iff.mpr ?_
  intro c hc
  have : c ≠ '\x00' := by rintro rfl; exact h hc
  simpa using this

def Keeps (d' d : Datum) : Prop := d'.NulFree ∧ (d.NulFree → d' = d)

def KeepsWrite (p' p : Text × Datum) : Prop := p'.1 = cString p.1 ∧ Keeps p'.2 p.2

theorem lookup_keepsWrites {ops' ops : List (Text × Datum)}
    (h : List.Forall₂ KeepsWrite ops' ops) (hk : ∀ p ∈ ops, '\x00' ∉ p.1) {k : Text}
    (hv : ∀ v, ops.lookup k = some v → v.NulFree) : ops'.lookup k = ops.lookup k := by
  induction h with
  | nil => rfl
  | @cons p' p ops' ops hp _ ih =>
    obtain ⟨hkey, -, hval⟩ := hp
    have hcut := cString_of_nul_notMem (hk p mem_cons_self)
    rw [hcut] at hkey
    rw [lookup_cons_ite, lookup_cons_ite, hkey]
    rw [lookup_cons_ite] at hv
    by_cases hkp : k = p.1
    · rw [if_pos hkp, if_pos hkp, hval (hv p.2 (if_pos hkp))]
    · rw [if_neg hkp, if_neg hkp]
      refine ih (fun q hq => hk q (mem_cons_of_mem _ hq)) ?_
      intro v hlv
      exact hv v (by rw [if_neg hkp, hlv])

theorem keeps_putAll {ops' ops : List (Text × Datum)} (h : List.Forall₂ KeepsWrite ops' ops) :
    Keeps (.map (putAll [] ops')) (.map (putAll [] ops)) := by
  constructor
  · have hmem : ∀ p' ∈ ops', '\x00' ∉ p'.1 ∧ p'.2.NulFree := by
      induction h with
      | nil => intro p' hp'; cases hp'
      | @cons q' q ops' ops hq _ ih =>
        intro p' hp'
        rcases mem_cons.mp hp' with rfl | hp'
        · refine ⟨?_, hq.2.1⟩
          rw [hq.1]
          exact nul_notMem_cString _
        · exact ih p' hp'
    exact .map (fun p hp => (hmem p (mem_putAll hp)).1) (fun p hp => (hmem p (mem_putAll hp)).2)
  · intro hfree
    cases hfree with
    | map hk hd =>
      have hkeys : ∀ p ∈ ops, '\x00' ∉ p.1 := by
        intro p hp
        have hmem : p.1 ∈ (putAll [] ops).map Prod.fst := mem_keys_putAll.mpr (mem_map_of_mem hp)
        obtain ⟨q, hq, he⟩ := mem_map.mp hmem
        rw [← he]
        exact hk q hq
      have hfst : ops'.map Prod.fst = ops.map Prod.fst := by
        clear hk hd
        induction h with
        | nil => rfl
        | @cons p' p ops' ops hp _ ih =>
          have hcut := cString_of_nul_notMem (hkeys p mem_cons_self)
          rw [map_cons, map_cons, hp.1, hcut, ih fun q hq => hkeys q (mem_cons_of_mem _ hq)]
      have heq : putAll [] ops' = putAll [] ops := by
        refine eq_of_keys_of_lookup (nodup_putAll ops') (keys_putAll_congr hfst [] [] rfl) ?_
        intro k _
        rw [lookup_putAll, lookup_putAll, lastWrite, lastWrite]
        refine lookup_keepsWrites (rel_reverse h) ?_ ?_
        · intro p hp; exact hkeys p (mem_reverse.mp hp)
        · intro v hv
          have hl : (putAll [] ops).lookup k = some v := by rw [lookup_putAll]; exact hv
          obtain ⟨l₁, l₂, he, -⟩ := lookup_eq_some_iff.mp hl
          have hmem : (k, v) ∈ putAll [] ops := by rw [he]; exact mem_append_right _ mem_cons_self
          exact hd (k, v) hmem
      rw [heq]

/-! ## 4. Fidelity -/

def StringsFit (ss : List Str) : Prop := ∀ s ∈ ss, ∃ t, decode s = some t ∧ t.length < arkshMaxOutput

def KeysFit (ks : List Str) : Prop := ∀ k ∈ ks, ∃ t, decode k = some t ∧ t.length < arkshMaxName

/-- The names neither are empty nor start with NUL. -/
def KeysUsable (ks : List Str) : Prop := ∀ k ∈ ks, ∃ c t, decode k = some (c :: t) ∧ c ≠ '\x00'

theorem cString_cons_ne_nil {c : Char} (h : c ≠ '\x00') (t : Text) : cString (c :: t) ≠ [] := by
  simp [cString, h]

theorem usable_of_cString (h : cString t ≠ []) : ∃ c u, t = c :: u ∧ c ≠ '\x00' := by
  cases t with
  | nil => exact absurd rfl h
  | cons c t =>
    refine ⟨c, t, rfl, ?_⟩
    rintro rfl
    exact h (by simp [cString])

theorem keysUsable_of_parserKey {k : Str} (h : parserReading.key k = some t) :
    ∃ c u, decode k = some (c :: u) ∧ c ≠ '\x00' := by
  obtain ⟨u, hu, -, rfl, hne, -⟩ := parserKey_eq_some h
  obtain ⟨c, u', rfl, hc⟩ := usable_of_cString hne
  exact ⟨c, u', hu, hc⟩

theorem eval_number (h : IsNumber t) :
    ∃ x, parserNumber t = some x ∧ rfcReading.number t = some x := by
  obtain ⟨n, rfl⟩ := h
  refine ⟨n.value, parserNumber_number n, ?_⟩
  show (strtod n.text).map Prod.fst = _
  rw [strtod_number]
  rfl

theorem mem_append_imp {p : Text → Prop} {a b : List Text} (h : ∀ t ∈ a ++ b, p t) :
    (∀ t ∈ a, p t) ∧ ∀ t ∈ b, p t :=
  ⟨fun t ht => h t (mem_append_left _ ht), fun t ht => h t (mem_append_right _ ht)⟩

variable {a b ks : List Str}

theorem StringsFit.append (h : StringsFit (a ++ b)) : StringsFit a ∧ StringsFit b :=
  ⟨fun s hs => h s (mem_append_left _ hs), fun s hs => h s (mem_append_right _ hs)⟩

theorem KeysFit.append (h : KeysFit (a ++ b)) : KeysFit a ∧ KeysFit b :=
  ⟨fun s hs => h s (mem_append_left _ hs), fun s hs => h s (mem_append_right _ hs)⟩

theorem KeysFit.cons {k : Str} (h : KeysFit (k :: ks)) :
    (∃ t, decode k = some t ∧ t.length < arkshMaxName) ∧ KeysFit ks :=
  ⟨h k mem_cons_self, fun s hs => h s (mem_cons_of_mem _ hs)⟩

theorem KeysUsable.append (h : KeysUsable (a ++ b)) : KeysUsable a ∧ KeysUsable b :=
  ⟨fun s hs => h s (mem_append_left _ hs), fun s hs => h s (mem_append_right _ hs)⟩

theorem KeysUsable.cons {k : Str} (h : KeysUsable (k :: ks)) :
    (∃ c t, decode k = some (c :: t) ∧ c ≠ '\x00') ∧ KeysUsable ks :=
  ⟨h k mem_cons_self, fun s hs => h s (mem_cons_of_mem _ hs)⟩

mutual

/-- **What fits the buffers means something to the parser, and that is what it keeps.** -/
theorem Value.eval_keeps (v : Value) (hn : ∀ t ∈ v.numerals, IsNumber t)
    (hs : StringsFit v.strings) (hk : KeysFit v.keys) (hu : KeysUsable v.keys) :
    ∃ d' d, v.eval parserReading = some d' ∧ v.eval rfcReading = some d ∧ Keeps d' d := by
  match v with
  | .null => exact ⟨_, _, rfl, rfl, .empty, fun _ => rfl⟩
  | .bool b => exact ⟨_, _, rfl, rfl, .boolean b, fun _ => rfl⟩
  | .emptyArr _ => exact ⟨_, _, rfl, rfl, .list (fun _ h => nomatch h), fun _ => rfl⟩
  | .emptyObj _ =>
    exact ⟨_, _, rfl, rfl, .map (fun _ h => nomatch h) (fun _ h => nomatch h), fun _ => rfl⟩
  | .num t =>
    obtain ⟨x, hx, hx'⟩ := eval_number (hn t (mem_singleton_self t))
    refine ⟨.number x, .number x, ?_, ?_, .number x, fun _ => rfl⟩
    · show (parserNumber t).map Datum.number = _
      rw [hx]
      rfl
    · rw [Value.eval, hx']; rfl
  | .str s =>
    obtain ⟨t, ht, hlt⟩ := hs s (mem_singleton_self s)
    refine ⟨.string (cString t), .string t, ?_, ?_, .string (nul_notMem_cString t), ?_⟩
    · have hb : bufferText arkshMaxOutput s = some (cString t) :=
        bufferText_eq_some.mpr ⟨t, ht, hlt, rfl⟩
      show (bufferText arkshMaxOutput s).map Datum.string = _
      rw [hb]
      rfl
    · show (decode s).map Datum.string = _
      rw [ht]
      rfl
    · intro hfree
      cases hfree with
      | string h => rw [cString_of_nul_notMem h]
  | .arr es =>
    obtain ⟨ds', ds, h1, h2, hfree, heq⟩ := Elements.eval_keeps es hn hs hk hu
    refine ⟨.list ds', .list ds, ?_, ?_, .list hfree, ?_⟩
    · rw [Value.eval, h1]; rfl
    · rw [Value.eval, h2]; rfl
    · intro h
      cases h with
      | list h => rw [heq h]
  | .obj ms =>
    obtain ⟨ops', ops, h1, h2, hops⟩ := Members.eval_keeps ms hn hs hk hu
    refine ⟨.map (putAll [] ops'), .map (putAll [] ops), ?_, ?_, keeps_putAll hops⟩
    · rw [Value.eval, h1]; rfl
    · rw [Value.eval, h2]; rfl

theorem Elements.eval_keeps (es : Elements) (hn : ∀ t ∈ es.numerals, IsNumber t)
    (hs : StringsFit es.strings) (hk : KeysFit es.keys) (hu : KeysUsable es.keys) :
    ∃ ds' ds, es.eval parserReading = some ds' ∧ es.eval rfcReading = some ds ∧
      (∀ d ∈ ds', d.NulFree) ∧ ((∀ d ∈ ds, d.NulFree) → ds' = ds) := by
  match es with
  | .one _ v _ =>
    obtain ⟨d', d, h1, h2, hfree, heq⟩ := Value.eval_keeps v hn hs hk hu
    refine ⟨[d'], [d], ?_, ?_, ?_, ?_⟩
    · rw [Elements.eval, h1]; rfl
    · rw [Elements.eval, h2]; rfl
    · intro e he
      rw [mem_singleton.mp he]
      exact hfree
    · intro h; rw [heq (h d (mem_singleton_self d))]
  | .more _ v _ es =>
    obtain ⟨hn₁, hn₂⟩ := mem_append_imp hn
    obtain ⟨hs₁, hs₂⟩ := StringsFit.append hs
    obtain ⟨hk₁, hk₂⟩ := KeysFit.append hk
    obtain ⟨hu₁, hu₂⟩ := KeysUsable.append hu
    obtain ⟨d', d, h1, h2, hfree, heq⟩ := Value.eval_keeps v hn₁ hs₁ hk₁ hu₁
    obtain ⟨ds', ds, h3, h4, hfree', heq'⟩ := Elements.eval_keeps es hn₂ hs₂ hk₂ hu₂
    refine ⟨d' :: ds', d :: ds, ?_, ?_, ?_, ?_⟩
    · rw [Elements.eval, h1, bind_some, h3]; rfl
    · rw [Elements.eval, h2, bind_some, h4]; rfl
    · intro e he
      rcases mem_cons.mp he with rfl | he
      · exact hfree
      · exact hfree' e he
    · intro h; rw [heq (h d mem_cons_self), heq' fun e he => h e (mem_cons_of_mem _ he)]

theorem Members.eval_keeps (ms : Members) (hn : ∀ t ∈ ms.numerals, IsNumber t)
    (hs : StringsFit ms.strings) (hk : KeysFit ms.keys) (hu : KeysUsable ms.keys) :
    ∃ ops' ops, ms.eval parserReading = some ops' ∧ ms.eval rfcReading = some ops ∧
      List.Forall₂ KeepsWrite ops' ops := by
  match ms with
  | .one _ key _ _ v _ =>
    obtain ⟨⟨t, ht, hlt⟩, hk⟩ := KeysFit.cons hk
    obtain ⟨⟨c, u, hcu, hc⟩, hu⟩ := KeysUsable.cons hu
    obtain rfl : t = c :: u := Option.some.inj (ht.symm.trans hcu)
    have hkey := parserKey_of ht hlt (cString_cons_ne_nil hc u)
    obtain ⟨d', d, h1, h2, hd⟩ := Value.eval_keeps v hn hs hk hu
    refine ⟨[(cString (c :: u), d')], [(c :: u, d)], ?_, ?_, .cons ⟨rfl, hd⟩ .nil⟩
    · rw [Members.eval, hkey, bind_some, h1]; rfl
    · rw [Members.eval, show rfcReading.key key = some (c :: u) from ht, bind_some, h2]; rfl
  | .more _ key _ _ v _ ms =>
    obtain ⟨hn₁, hn₂⟩ := mem_append_imp hn
    obtain ⟨hs₁, hs₂⟩ := StringsFit.append hs
    obtain ⟨⟨t, ht, hlt⟩, hk⟩ := KeysFit.cons hk
    obtain ⟨hk₁, hk₂⟩ := KeysFit.append hk
    obtain ⟨⟨c, u, hcu, hc⟩, hu⟩ := KeysUsable.cons hu
    obtain ⟨hu₁, hu₂⟩ := KeysUsable.append hu
    obtain rfl : t = c :: u := Option.some.inj (ht.symm.trans hcu)
    have hkey := parserKey_of ht hlt (cString_cons_ne_nil hc u)
    obtain ⟨d', d, h1, h2, hd⟩ := Value.eval_keeps v hn₁ hs₁ hk₁ hu₁
    obtain ⟨ops', ops, h3, h4, hops⟩ := Members.eval_keeps ms hn₂ hs₂ hk₂ hu₂
    refine ⟨(cString (c :: u), d') :: ops', (c :: u, d) :: ops, ?_, ?_, .cons ⟨rfl, hd⟩ hops⟩
    · rw [Members.eval, hkey, bind_some, h1, bind_some, h3]; rfl
    · rw [Members.eval, show rfcReading.key key = some (c :: u) from ht, bind_some, h2,
        bind_some, h4]
      rfl

end

mutual

theorem Value.keysUsable (v : Value) {d : Datum} (h : v.eval parserReading = some d) :
    KeysUsable v.keys := by
  match v with
  | .null | .bool _ | .num _ | .str _ | .emptyArr _ | .emptyObj _ => intro k hk; cases hk
  | .arr es => obtain ⟨ds, hds, -⟩ := map_eq_some_iff.mp h; exact Elements.keysUsable es hds
  | .obj ms => obtain ⟨ops, hops, -⟩ := map_eq_some_iff.mp h; exact Members.keysUsable ms hops

theorem Elements.keysUsable (es : Elements) {ds : List Datum}
    (h : es.eval parserReading = some ds) : KeysUsable es.keys := by
  match es with
  | .one _ v _ => obtain ⟨d, hd, -⟩ := map_eq_some_iff.mp h; exact Value.keysUsable v hd
  | .more _ v _ es =>
    obtain ⟨d, hd, h⟩ := bind_eq_some_iff.mp h
    obtain ⟨ds, hds, -⟩ := map_eq_some_iff.mp h
    intro k hk
    rcases mem_append.mp hk with hk | hk
    · exact Value.keysUsable v hd k hk
    · exact Elements.keysUsable es hds k hk

theorem Members.keysUsable (ms : Members) {ops : List (Text × Datum)}
    (h : ms.eval parserReading = some ops) : KeysUsable ms.keys := by
  match ms with
  | .one _ key _ _ v _ =>
    obtain ⟨t, ht, h⟩ := bind_eq_some_iff.mp h
    obtain ⟨d, hd, -⟩ := map_eq_some_iff.mp h
    intro k hk
    rcases mem_cons.mp hk with rfl | hk
    · exact keysUsable_of_parserKey ht
    · exact Value.keysUsable v hd k hk
  | .more _ key _ _ v _ ms =>
    obtain ⟨t, ht, h⟩ := bind_eq_some_iff.mp h
    obtain ⟨d, hd, h⟩ := bind_eq_some_iff.mp h
    obtain ⟨ops, hops, -⟩ := map_eq_some_iff.mp h
    intro k hk
    rcases mem_cons.mp hk with rfl | hk
    · exact keysUsable_of_parserKey ht
    rcases mem_append.mp hk with hk | hk
    · exact Value.keysUsable v hd k hk
    · exact Members.keysUsable ms hops k hk

end

mutual

theorem Value.eval_rfc (v : Value) (hn : ∀ t ∈ v.numerals, IsNumber t)
    (hs : StringsFit v.strings) (hk : KeysFit v.keys) : ∃ d, v.eval rfcReading = some d := by
  match v with
  | .null | .bool _ | .emptyArr _ | .emptyObj _ => exact ⟨_, rfl⟩
  | .num t =>
    obtain ⟨x, -, hx⟩ := eval_number (hn t (mem_singleton_self t))
    exact ⟨.number x, by rw [Value.eval, hx]; rfl⟩
  | .str s =>
    obtain ⟨t, ht, -⟩ := hs s (mem_singleton_self s)
    exact ⟨.string t, by rw [Value.eval, show rfcReading.string s = some t from ht]; rfl⟩
  | .arr es =>
    obtain ⟨ds, hds⟩ := Elements.eval_rfc es hn hs hk
    exact ⟨.list ds, by rw [Value.eval, hds]; rfl⟩
  | .obj ms =>
    obtain ⟨ops, hops⟩ := Members.eval_rfc ms hn hs hk
    exact ⟨.map (putAll [] ops), by rw [Value.eval, hops]; rfl⟩

theorem Elements.eval_rfc (es : Elements) (hn : ∀ t ∈ es.numerals, IsNumber t)
    (hs : StringsFit es.strings) (hk : KeysFit es.keys) : ∃ ds, es.eval rfcReading = some ds := by
  match es with
  | .one _ v _ =>
    obtain ⟨d, hd⟩ := Value.eval_rfc v hn hs hk
    exact ⟨[d], by rw [Elements.eval, hd]; rfl⟩
  | .more _ v _ es =>
    obtain ⟨hn₁, hn₂⟩ := mem_append_imp hn
    obtain ⟨hs₁, hs₂⟩ := StringsFit.append hs
    obtain ⟨hk₁, hk₂⟩ := KeysFit.append hk
    obtain ⟨d, hd⟩ := Value.eval_rfc v hn₁ hs₁ hk₁
    obtain ⟨ds, hds⟩ := Elements.eval_rfc es hn₂ hs₂ hk₂
    exact ⟨d :: ds, by rw [Elements.eval, hd, bind_some, hds]; rfl⟩

theorem Members.eval_rfc (ms : Members) (hn : ∀ t ∈ ms.numerals, IsNumber t)
    (hs : StringsFit ms.strings) (hk : KeysFit ms.keys) : ∃ ops, ms.eval rfcReading = some ops := by
  match ms with
  | .one _ key _ _ v _ =>
    obtain ⟨⟨t, ht, -⟩, hk⟩ := KeysFit.cons hk
    obtain ⟨d, hd⟩ := Value.eval_rfc v hn hs hk
    refine ⟨[(t, d)], ?_⟩
    rw [Members.eval, show rfcReading.key key = some t from ht, bind_some, hd]
    rfl
  | .more _ key _ _ v _ ms =>
    obtain ⟨hn₁, hn₂⟩ := mem_append_imp hn
    obtain ⟨hs₁, hs₂⟩ := StringsFit.append hs
    obtain ⟨⟨t, ht, -⟩, hk⟩ := KeysFit.cons hk
    obtain ⟨hk₁, hk₂⟩ := KeysFit.append hk
    obtain ⟨d, hd⟩ := Value.eval_rfc v hn₁ hs₁ hk₁
    obtain ⟨ops, hops⟩ := Members.eval_rfc ms hn₂ hs₂ hk₂
    refine ⟨(t, d) :: ops, ?_⟩
    rw [Members.eval, show rfcReading.key key = some t from ht, bind_some, hd, bind_some, hops]
    rfl

end

/-- A JSON document of at most 128 levels whose strings decode to less than 8192 bytes, its names to
    less than 128. -/
structure WithinLimits (doc : Document) : Prop where
  numbers : doc.NumbersAre IsNumber
  nesting : doc.value.nesting ≤ jsonMaxDepth
  strings : StringsFit doc.value.strings
  keys : KeysFit doc.value.keys

/-- **A document within the limits is read as what it denotes iff its names are usable and it has no
    NUL.** -/
theorem parseJson_faithful_iff {doc : Document} (h : WithinLimits doc) :
    ∃ d, doc.value.eval rfcReading = some d ∧
      ((∃ w, arkshValueParseJson doc.text = .ok w ∧ w.denote = d) ↔
        KeysUsable doc.value.keys ∧ d.NulFree) := by
  obtain ⟨d, hd⟩ := Value.eval_rfc doc.value h.numbers h.strings h.keys
  refine ⟨d, hd, ?_⟩
  rw [parseJson_iff]
  constructor
  · intro ⟨doc', htext, _, heval⟩
    have he : doc' = doc := Document.text_injective (Value.tokens_of_eval doc'.value heval)
      (fun t ht => isToken_of_isNumber (h.numbers t ht)) htext
    rw [he] at heval
    have hu := Value.keysUsable doc.value heval
    obtain ⟨d', e, h1, -, hfree, -⟩ := Value.eval_keeps doc.value h.numbers h.strings h.keys hu
    obtain rfl : d = d' := Option.some.inj (heval.symm.trans h1)
    exact ⟨hu, hfree⟩
  · intro ⟨hu, hfree⟩
    obtain ⟨d', e, h1, h2, -, heq⟩ := Value.eval_keeps doc.value h.numbers h.strings h.keys hu
    obtain rfl : d = e := Option.some.inj (hd.symm.trans h2)
    rw [heq hfree] at h1
    exact ⟨doc, rfl, h.nesting, h1⟩

def nulDocument : Document :=
  ⟨Ws.none, .str [.plain ⟨'a', by decide⟩,
    .unicode ⟨['0', '0', '0', '0'], rfl, List.all_eq_true.mp rfl⟩, .plain ⟨'b', by decide⟩], Ws.none⟩

theorem withinLimits_nulDocument : WithinLimits nulDocument where
  numbers := by intro t ht; cases ht
  nesting := by decide
  strings := by
    intro s hs
    obtain rfl := mem_singleton.mp hs
    exact ⟨['a', '\x00', 'b'], by decide, by decide⟩
  keys := by intro t ht; cases ht

theorem parseJson_faithful_iff_nul : ∃ d, nulDocument.value.eval rfcReading = some d ∧
    ((∃ w, arkshValueParseJson nulDocument.text = .ok w ∧ w.denote = d) ↔
      KeysUsable nulDocument.value.keys ∧ d.NulFree) :=
  parseJson_faithful_iff withinLimits_nulDocument

/-- The string is cut at its NUL. -/
theorem not_faithful_nul : ¬ ∀ doc : Document, WithinLimits doc →
    ∃ w, arkshValueParseJson doc.text = .ok w ∧ some w.denote = doc.value.eval rfcReading := by
  intro h
  obtain ⟨w, hw, hd⟩ := h nulDocument withinLimits_nulDocument
  cases hw
  cases hd

end Arksh
