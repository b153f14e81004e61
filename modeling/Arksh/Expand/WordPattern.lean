/-
  Subject: The glob pattern that `expand_raw_token` of `src/expand.c` writes beside the expanded
           word.

  Both buffers are written piece by piece. In the pattern a character for globbing stands bare if
  its piece stands outside of quotes and is no escape, in a word for a command; every other one
  has a backslash in front, and so has every backslash.
-/
import Arksh.Expand.Delimited

namespace Arksh

open CText Scan List

/-! ## 1. Patterns -/

def patternChars : Text → List (Char × Bool)
  | '\\' :: c :: t => (c, true) :: patternChars t
  | c :: t => (c, false) :: patternChars t
  | [] => []

def unescapePattern (pattern : Text) : Text := (patternChars pattern).map Prod.fst

def isEscaped (allowGlob : Bool) (c : Char) : Bool :=
  !(allowGlob && isGlobMetaChar c) && (c = '\\' || isGlobMetaChar c)

variable {c : Char} {text : Text} {allowGlob : Bool}

theorem patternChars_cons (hc : c ≠ '\\') (t : Text) :
    patternChars (c :: t) = (c, false) :: patternChars t := by
  rw [patternChars]
  intro d rest heq
  exact absurd heq hc

theorem isGlobMetaChar_ne (h : isGlobMetaChar c = true) : c ≠ '\\' := by
  rintro rfl
  exact absurd h (by decide)

theorem patternChars_patternChar (allowGlob : Bool) (c : Char) (t : Text) :
    patternChars (patternChar allowGlob c ++ t) = (c, isEscaped allowGlob c) :: patternChars t := by
  unfold patternChar isEscaped
  cases hbare : allowGlob && isGlobMetaChar c with
  | true =>
    have hmeta : isGlobMetaChar c = true := (Bool.and_eq_true_iff.mp hbare).2
    exact patternChars_cons (isGlobMetaChar_ne hmeta) t
  | false =>
    cases hescape : (decide (c = '\\') || isGlobMetaChar c) with
    | true => rfl
    | false =>
      have hc : c ≠ '\\' := by rintro rfl; cases hescape
      exact patternChars_cons hc t

/-! ## 2. Where the characters come from -/

/-- An escape, or a character between single quotes. -/
def Piece.literal : Piece → Bool
  | .escaped _ => true
  | _ => false

/-- Where a character of the word comes from: a piece of the raw token, its quote, and the
    characters in front. -/
structure Origin where
  place : Nat
  quote : Quote
  piece : Piece

/-- Characters from there may be wildcards: of a word for a command, outside of quotes, not
    escaped. -/
def Origin.allows (mode : ArkshExpandMode) (o : Origin) : Bool :=
  mode = .command && o.quote = .unquoted && !o.piece.literal

variable {σ : Type} (view : ShellView σ) (mode : ArkshExpandMode)

/-- A run of the loop of `expand_raw_token`, with the origins of the characters that it adds. -/
inductive Expands (raw : Text) : Expansion σ → Text → List Origin → Expansion σ → Prop where
  | done {s : Expansion σ} : s.quote = .unquoted → Expands raw s [] [] s
  | piece {s s₁ s' : Expansion σ} {c : Char} {rest rest₁ : Text} {piece : Piece}
      {origins : List Origin} :
      readPiece s.quote c rest = .ok (piece, rest₁) → s.apply view mode piece = .ok s₁ →
      Expands raw s₁ rest₁ origins s' →
      Expands raw s (c :: rest)
        (List.replicate (s₁.expanded.length - s.expanded.length)
          ⟨raw.length - (c :: rest).length, s.quote, piece⟩ ++ origins) s'

variable {view mode} {s s' : Expansion σ}

theorem expands_of_ok {shell : σ} {raw : Text} (h : expandRawToken view shell mode raw = .ok s) :
    ∃ origins, Expands view mode raw (.start shell) raw origins s := by
  obtain ⟨⟨s', rest⟩, hrun, heq⟩ := map_ok.mp h
  cases heq
  refine (expandScanner view mode).run_ok
    (motive := fun s t => ∃ origins, Expands view mode raw s t origins s') ?_ ?_ ?_ hrun
  · intro _ s hend
    change (if s.quote = .unquoted then _ else _) = _ at hend
    split at hend
    next hquote => cases hend; exact ⟨[], .done hquote⟩
    · cases hend
  · intro s c t hstep
    obtain ⟨⟨piece, u⟩, -, hstep⟩ := bind_ok.mp hstep
    obtain ⟨_, -, hstep⟩ := map_ok.mp hstep
    cases hstep
  · intro s c t s₁ t₁ hstep _ ih
    obtain ⟨⟨piece, u⟩, hread, hstep⟩ := bind_ok.mp hstep
    obtain ⟨s₂, happly, hstep⟩ := map_ok.mp hstep
    cases hstep
    obtain ⟨origins, horigins⟩ := ih
    exact ⟨_, .piece hread happly horigins⟩

/-! ## 3. What is written -/

/-- A text is added to both buffers, with or without wildcards. -/
structure Written (allowGlob : Bool) (s : Expansion σ) (text : Text) (s' : Expansion σ) : Prop where
  expanded : s'.expanded = s.expanded ++ text
  pattern : s'.pattern = s.pattern ++ text.flatMap (patternChar allowGlob)
  hasGlob : s'.hasGlob = (s.hasGlob || (allowGlob && text.any isGlobMetaChar))

theorem append_written {split : Bool} (h : s.append text allowGlob split = .ok s') :
    Written allowGlob s text s' := by
  unfold Expansion.append at h
  split at h
  · cases h
  next expanded hexpanded =>
    split at h
    · cases h
    next pattern hpattern =>
      cases h
      exact ⟨(appendText_eq_some.mp hexpanded).2, (appendText_eq_some.mp hpattern).2, rfl⟩

theorem Written.none (he : s'.expanded = s.expanded) (hp : s'.pattern = s.pattern)
    (hg : s'.hasGlob = s.hasGlob) : Written allowGlob s [] s' := by
  refine ⟨?_, ?_, ?_⟩
  · rw [he, append_nil]
  · rw [hp, flatMap_nil, append_nil]
  · simp [hg]

theorem appendEscaped_written {cs : Text} (h : s.appendEscaped cs = .ok s') :
    Written false s cs s' := by
  induction cs generalizing s with
  | nil => cases h; exact .none rfl rfl rfl
  | cons c cs ih =>
    obtain ⟨s₁, hone, h⟩ := bind_ok.mp h
    have hfirst := append_written hone
    have hrest := ih h
    refine ⟨?_, ?_, ?_⟩
    · rw [hrest.expanded, hfirst.expanded, append_assoc]; rfl
    · rw [hrest.pattern, hfirst.pattern, append_assoc]; simp
    · simp [hrest.hasGlob, hfirst.hasGlob]

theorem apply_written {piece : Piece} (place : Nat) (h : s.apply view mode piece = .ok s') :
    ∃ text, Written (Origin.allows mode ⟨place, s.quote, piece⟩) s text s' := by
  have hallows : piece.literal = false →
      Origin.allows mode ⟨place, s.quote, piece⟩ = s.allowGlob mode := by
    intro hliteral
    simp [Origin.allows, Expansion.allowGlob, hliteral]
  cases piece with
  | openQuote quote | closeQuote => cases h; exact ⟨[], .none rfl rfl rfl⟩
  | plain c => rw [hallows rfl]; exact ⟨_, append_written h⟩
  | escaped cs =>
    have hfalse : Origin.allows mode ⟨place, s.quote, .escaped cs⟩ = false := by
      simp [Origin.allows, Piece.literal]
    rw [hfalse]
    exact ⟨_, appendEscaped_written h⟩
  | tilde =>
    rw [hallows rfl]
    unfold Expansion.apply at h
    dsimp only at h
    split at h <;> exact ⟨_, append_written h⟩
  | arith expr =>
    rw [hallows rfl]
    unfold Expansion.apply at h
    dsimp only at h
    split at h
    · cases h
    · exact ⟨_, append_written h⟩
  | command text =>
    rw [hallows rfl]
    have hwritten := append_written h
    exact ⟨_, hwritten.expanded, hwritten.pattern, hwritten.hasGlob⟩
  | parameter parameter =>
    rw [hallows rfl]
    obtain ⟨⟨text, shell⟩, -, h⟩ := bind_ok.mp h
    have hwritten := append_written h
    exact ⟨_, hwritten.expanded, hwritten.pattern, hwritten.hasGlob⟩

theorem zipWith_replicate {α β γ : Type} (f : α → β → γ) (l : List α) (b : β) :
    List.zipWith f l (List.replicate l.length b) = l.map (f · b) := by
  induction l with
  | nil => rfl
  | cons a l ih => simp [replicate_succ, ih]

def patternOf (mode : ArkshExpandMode) (text : Text) (origins : List Origin) : Text :=
  (List.zipWith (fun c (o : Origin) => patternChar (o.allows mode) c) text origins).flatten

/-- Whether there is a wildcard among them. -/
def globOf (mode : ArkshExpandMode) (text : Text) (origins : List Origin) : Bool :=
  (List.zipWith (fun c (o : Origin) => o.allows mode && isGlobMetaChar c) text origins).any id

theorem patternOf_append (front text : Text) (o : Origin) (origins : List Origin) :
    patternOf mode (front ++ text) (List.replicate front.length o ++ origins) =
      front.flatMap (patternChar (o.allows mode)) ++ patternOf mode text origins := by
  unfold patternOf
  rw [zipWith_append (by simp), zipWith_replicate, flatten_append]
  rfl

theorem globOf_append (front text : Text) (o : Origin) (origins : List Origin) :
    globOf mode (front ++ text) (List.replicate front.length o ++ origins) =
      ((o.allows mode && front.any isGlobMetaChar) || globOf mode text origins) := by
  unfold globOf
  rw [zipWith_append (by simp), zipWith_replicate, any_append, any_map]
  cases o.allows mode with
  | true | false => simp

variable {origins : List Origin}

/-- **A run writes both buffers in step.** -/
theorem expands_written {raw rest : Text} (h : Expands view mode raw s rest origins s') :
    ∃ text, text.length = origins.length ∧ s'.expanded = s.expanded ++ text ∧
      s'.pattern = s.pattern ++ patternOf mode text origins ∧
      s'.hasGlob = (s.hasGlob || globOf mode text origins) := by
  induction h with
  | done _ => exact ⟨[], rfl, by simp, by simp [patternOf], by simp [globOf]⟩
  | @piece s s₁ s' c rest rest₁ piece origins _ happly _ ih =>
    obtain ⟨text, hlen, hexpanded, hpattern, hglob⟩ := ih
    obtain ⟨front, hwritten⟩ := apply_written (raw.length - (c :: rest).length) happly
    have hcount : s₁.expanded.length - s.expanded.length = front.length := by
      rw [hwritten.expanded, length_append, Nat.add_sub_cancel_left]
    rw [hcount]
    refine ⟨front ++ text, by simp [hlen], ?_, ?_, ?_⟩
    · rw [hexpanded, hwritten.expanded, append_assoc]
    · rw [hpattern, hwritten.pattern, patternOf_append, append_assoc]
    · rw [hglob, hwritten.hasGlob, globOf_append, Bool.or_assoc]

/-! ## 4. The pattern is faithful -/

theorem patternChars_patternOf (hlen : text.length = origins.length) :
    patternChars (patternOf mode text origins) =
      List.zipWith (fun c (o : Origin) => (c, isEscaped (o.allows mode) c)) text origins := by
  induction text generalizing origins with
  | nil => rfl
  | cons c text ih =>
    cases origins with
    | nil => cases hlen
    | cons o origins =>
      have hrest := ih (Nat.succ.inj hlen)
      rw [patternOf, zipWith_cons_cons, flatten_cons, patternChars_patternChar,
        zipWith_cons_cons, ← hrest]
      rfl

theorem zipWith_left {α β : Type} {l : List α} {l' : List β} (hlen : l.length = l'.length) :
    List.zipWith (fun a _ => a) l l' = l := by
  induction l generalizing l' with
  | nil => rfl
  | cons a l ih =>
    cases l' with
    | nil => cases hlen
    | cons b l' => rw [zipWith_cons_cons, ih (Nat.succ.inj hlen)]

theorem globOf_eq_true : globOf mode text origins = true ↔
      ∃ (k : Nat) (c : Char) (o : Origin), text[k]? = some c ∧ origins[k]? = some o ∧
        o.allows mode = true ∧ isGlobMetaChar c = true := by
  simp only [globOf, any_eq_true, id, mem_iff_getElem?, getElem?_zipWith_eq_some]
  constructor
  · rintro ⟨b, ⟨k, c, o, hc, ho, rfl⟩, hb⟩; exact ⟨k, c, o, hc, ho, Bool.and_eq_true_iff.mp hb⟩
  · intro ⟨k, c, o, hc, ho, hb⟩; exact ⟨true, ⟨k, c, o, hc, ho, Bool.and_eq_true_iff.mpr hb⟩, rfl⟩

theorem isEscaped_eq_false (hc : isGlobMetaChar c = true) :
    isEscaped allowGlob c = false ↔ allowGlob = true := by
  simp [isEscaped, hc]

/-- The position stands outside of quotes and is not escaped: literal text, a tilde, or a
    substitution. -/
def Origin.Open (o : Origin) : Prop := o.quote = .unquoted ∧ ∀ cs, o.piece ≠ .escaped cs

theorem Origin.allows_iff {o : Origin} : o.allows mode = true ↔ mode = .command ∧ o.Open := by
  have hliteral : o.piece.literal = false ↔ ∀ cs, o.piece ≠ .escaped cs := by
    cases o.piece with
    | escaped cs | _ => simp [Piece.literal]
  simp [Origin.allows, Origin.Open, hliteral, and_assoc]

/-- **Without its escapes the pattern is the word; its wildcards come from open positions of a word
    for a command; and `has_glob` says whether there are any.** -/
theorem wordPattern_faithful {shell : σ} {raw : Text} {s : Expansion σ}
    (h : expandRawToken view shell mode raw = .ok s) : unescapePattern s.pattern = s.expanded ∧
    (∃ origins, Expands view mode raw (.start shell) raw origins s ∧
      origins.length = s.expanded.length ∧
      ∀ (k : Nat) (c : Char), (patternChars s.pattern)[k]? = some (c, false) →
        isGlobMetaChar c = true → ∃ o : Origin, origins[k]? = some o ∧ mode = .command ∧ o.Open) ∧
    (s.hasGlob = true ↔ ∃ c, (c, false) ∈ patternChars s.pattern ∧ isGlobMetaChar c = true) := by
  obtain ⟨origins, hrun⟩ := expands_of_ok h
  obtain ⟨text, hlen, hexpanded, hpattern, hglob⟩ := expands_written hrun
  change s.expanded = [] ++ text at hexpanded
  change s.pattern = [] ++ _ at hpattern
  change s.hasGlob = (false || _) at hglob
  rw [nil_append] at hexpanded hpattern
  rw [Bool.false_or] at hglob
  have hchars : patternChars s.pattern =
      List.zipWith (fun c (o : Origin) => (c, isEscaped (o.allows mode) c)) text origins := by
    rw [hpattern, patternChars_patternOf hlen]
  refine ⟨?_, ⟨origins, hrun, by rw [hexpanded, hlen], ?_⟩, ?_⟩
  · rw [unescapePattern, hchars, hexpanded, map_zipWith]; exact zipWith_left hlen
  · intro k c hk hc
    rw [hchars, getElem?_zipWith_eq_some] at hk
    obtain ⟨d, o, -, ho, heq⟩ := hk
    obtain ⟨rfl, hfalse⟩ := Prod.mk.inj heq
    exact ⟨o, ho, Origin.allows_iff.mp ((isEscaped_eq_false hc).mp hfalse)⟩
  · rw [hglob, hchars, globOf_eq_true]
    constructor
    · intro ⟨k, c, o, hk, ho, hallows, hc⟩
      refine ⟨c, mem_iff_getElem?.mpr ⟨k, ?_⟩, hc⟩
      rw [getElem?_zipWith_eq_some]
      exact ⟨c, o, hk, ho, by rw [(isEscaped_eq_false hc).mpr hallows]⟩
    · intro ⟨c, hmem, hc⟩
      obtain ⟨k, hk⟩ := mem_iff_getElem?.mp hmem
      rw [getElem?_zipWith_eq_some] at hk
      obtain ⟨d, o, hd, ho, heq⟩ := hk
      obtain ⟨rfl, hfalse⟩ := Prod.mk.inj heq
      exact ⟨k, d, o, hd, ho, (isEscaped_eq_false hc).mp hfalse, hc⟩

/-- The word `'*'*`: the first star is quoted, the second one is a wildcard. -/
def starsWord : Expansion Unit :=
  ⟨(), .unquoted, "**".toList, [false, false], true, "\\**".toList, true, true⟩

theorem wordPattern_faithful_stars : unescapePattern starsWord.pattern = starsWord.expanded ∧
    (∃ origins, Expands blankView .command "'*'*".toList (.start ()) "'*'*".toList origins
        starsWord ∧ origins.length = starsWord.expanded.length ∧
      ∀ (k : Nat) (c : Char), (patternChars starsWord.pattern)[k]? = some (c, false) →
        isGlobMetaChar c = true →
        ∃ o : Origin, origins[k]? = some o ∧ ArkshExpandMode.command = .command ∧ o.Open) ∧
    (starsWord.hasGlob = true ↔
      ∃ c, (c, false) ∈ patternChars starsWord.pattern ∧ isGlobMetaChar c = true) :=
  wordPattern_faithful (by rfl)

end Arksh
