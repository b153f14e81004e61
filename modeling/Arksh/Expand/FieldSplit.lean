/-
  Subject: `apply_ifs_splitting` of `src/expand.c` against the fields that POSIX defines.

  The loop keeps the field it reads and one flag. A character of IFS that is no white space always
  ends a field there, also where white space has just ended one; and behind the last such character
  a further empty field is emitted.
-/
import Arksh.Expand.WordPattern
import Arksh.Lib.Fields

namespace Arksh

open CText Fields Scan List Nat

/-! ## 1. The loop -/

def isIfsChar (c : Char) (ifs : Text) : Bool := ifs.any fun p => p = c

def isIfsWhitespace (c : Char) (ifs : Text) : Bool := isIfsChar c ifs && isspace c

def tooManyFields : String := "too many fields after IFS splitting"

structure IfsSplit where
  /-- The values so far; `*out_count` is their number. -/
  outValues : List Text
  field : Text
  afterNonwhiteIfs : Bool

def IfsSplit.emit (maxValues : Nat) (s : IfsSplit) : Except String IfsSplit :=
  if s.outValues.length ≥ maxValues then .error tooManyFields
  else .ok { s with outValues := s.outValues ++ [copyString arkshMaxToken s.field], field := [] }

/-- The body of the loop. -/
def ifsSplitStep (ifs : Text) (maxValues : Nat) (s : IfsSplit) (cell : Char × Bool) :
    Except String IfsSplit :=
  let (c, splittable) := cell
  if splittable && isIfsChar c ifs then
    if !isIfsWhitespace c ifs then
      (s.emit maxValues).map fun s => { s with afterNonwhiteIfs := true }
    else
      (if s.field.length > 0 then s.emit maxValues else .ok s).map fun s =>
        { s with afterNonwhiteIfs := false }
  else
    .ok { s with
      afterNonwhiteIfs := false
      field := if s.field.length + 1 < arkshMaxToken then s.field ++ [c] else s.field }

/-- Behind the loop. -/
def IfsSplit.finish (maxValues : Nat) (sawQuoteOpen : Bool) (s : IfsSplit) :
    Except String (List Text) :=
  (if s.field.length > 0 then s.emit maxValues
   -- a trailing empty field
   else if s.afterNonwhiteIfs then s.emit maxValues
   else .ok s).map fun s => if s.outValues.length = 0 && sawQuoteOpen then [[]] else s.outValues

def applyIfsSplitting (expanded : Text) (splitFlags : List Bool) (sawQuoteOpen : Bool) (ifs : Text)
    (maxValues : Nat) : Except String (List Text) :=
  if ifs = [] then
    .ok (if expanded.length > 0 || sawQuoteOpen then [copyString arkshMaxToken expanded] else [])
  else
    ((expanded.zip splitFlags).foldlM (ifsSplitStep ifs maxValues) ⟨[], [], false⟩).bind
      (IfsSplit.finish maxValues sawQuoteOpen)

/-! ## 2. The fields of POSIX -/

/-- What is split: an expanded word with a flag for each character, in buffers of
    `ARKSH_MAX_TOKEN`. -/
structure ExpandedWord where
  expanded : Text
  splitFlags : List Bool
  splitFlags_length : splitFlags.length = expanded.length
  expanded_length : expanded.length < arkshMaxToken

variable {raw ifs : Text} {word : ExpandedWord} {cell : Char × Bool}

section Expansion

variable {σ : Type} {view : ShellView σ} {mode : ArkshExpandMode}

structure Expansion.Flagged (s : Expansion σ) : Prop where
  splitFlags : s.splitFlags.length = s.expanded.length
  expanded : s.expanded.length < arkshMaxToken

variable {s s' : Expansion σ}

theorem append_flagged {text : Text} {allowGlob split : Bool}
    (h : s.append text allowGlob split = .ok s') (hs : s.Flagged) : s'.Flagged := by
  unfold Expansion.append at h
  split at h
  · cases h
  next expanded hexpanded =>
    split at h
    · cases h
    next pattern _ =>
      cases h
      obtain ⟨hroom, rfl⟩ := appendText_eq_some.mp hexpanded
      exact ⟨by simp [hs.splitFlags], by simpa using hroom⟩

theorem appendEscaped_flagged {cs : Text} (h : s.appendEscaped cs = .ok s') (hs : s.Flagged) :
    s'.Flagged := by
  induction cs generalizing s with
  | nil => cases h; exact hs
  | cons c cs ih => obtain ⟨s₁, hone, h⟩ := bind_ok.mp h; exact ih h (append_flagged hone hs)

theorem apply_flagged {piece : Piece} (h : s.apply view mode piece = .ok s') (hs : s.Flagged) :
    s'.Flagged := by
  cases piece with
  | openQuote quote | closeQuote => cases h; exact ⟨hs.splitFlags, hs.expanded⟩
  | plain c => exact append_flagged h hs
  | escaped cs => exact appendEscaped_flagged h hs
  | tilde =>
    unfold Expansion.apply at h
    dsimp only at h
    split at h <;> exact append_flagged h hs
  | arith expr =>
    unfold Expansion.apply at h
    dsimp only at h
    split at h
    · cases h
    · exact append_flagged h hs
  | command text => exact append_flagged h ⟨hs.splitFlags, hs.expanded⟩
  | parameter parameter =>
    obtain ⟨⟨text, shell⟩, -, h⟩ := bind_ok.mp h
    exact append_flagged h ⟨hs.splitFlags, hs.expanded⟩

theorem expands_flagged {rest : Text} {origins : List Origin}
    (h : Expands view mode raw s rest origins s') (hs : s.Flagged) : s'.Flagged := by
  induction h with
  | done => exact hs
  | piece _ happly _ ih => exact ih (apply_flagged happly hs)

/-- **Every word that the expander yields can be split.** -/
theorem expandRawToken_word {shell : σ} (h : expandRawToken view shell mode raw = .ok s) :
    ∃ word : ExpandedWord, word.expanded = s.expanded ∧ word.splitFlags = s.splitFlags := by
  obtain ⟨origins, hrun⟩ := expands_of_ok h
  have hs := expands_flagged hrun ⟨rfl, zero_lt_of_lt (by decide : 0 < arkshMaxToken)⟩
  exact ⟨⟨s.expanded, s.splitFlags, hs.splitFlags, hs.expanded⟩, rfl, rfl⟩

theorem expandRawToken_word_stars : ∃ word : ExpandedWord,
    word.expanded = starsWord.expanded ∧ word.splitFlags = starsWord.splitFlags :=
  have hrun : expandRawToken blankView () .command "'*'*".toList = .ok starsWord := rfl
  expandRawToken_word hrun

end Expansion

/-- What a character is to the splitting: only what came from an expansion is split, at the
    characters of IFS. -/
def markOf (ifs : Text) (cell : Char × Bool) : Mark :=
  if cell.2 && isIfsChar cell.1 ifs then if isspace cell.1 then .white else .sharp else .kept

def ExpandedWord.cells (ifs : Text) (word : ExpandedWord) : List (Mark × Char) :=
  (word.expanded.zip word.splitFlags).map fun cell => (markOf ifs cell, cell.1)

def orQuoted (sawQuoteOpen : Bool) (fields : List Text) : List Text :=
  if fields.length = 0 && sawQuoteOpen then [[]] else fields

def PosixFields (ifs : Text) (sawQuoteOpen : Bool) (word : ExpandedWord) (fields : List Text) :
    Prop :=
  ∃ split, FieldsOf (word.cells ifs) split ∧ fields = orQuoted sawQuoteOpen split

variable {sawQuoteOpen : Bool}

theorem posixFields_iff {fields : List Text} :
    PosixFields ifs sawQuoteOpen word fields ↔
      fields = orQuoted sawQuoteOpen (scan [] false (word.cells ifs)) := by
  simp [PosixFields, fieldsOf_iff]

def FollowsPosix (ifs : Text) (sawQuoteOpen : Bool) (word : ExpandedWord) : Prop :=
  ∃ fields, PosixFields ifs sawQuoteOpen word fields ∧
    ∀ maxValues, fields.length ≤ maxValues →
      applyIfsSplitting word.expanded word.splitFlags sawQuoteOpen ifs maxValues = .ok fields

/-! ## 3. What the loop emits -/

def endedFields : Text → Bool → List (Mark × Char) → List Text
  | w, after, [] => if w.isEmpty then if after then [[]] else [] else [w]
  | w, _, (.kept, c) :: t => endedFields (w ++ [c]) false t
  | w, _, (.white, _) :: t => emit w ++ endedFields [] false t
  | w, _, (.sharp, _) :: t => w :: endedFields [] true t

variable {s : IfsSplit} {maxValues : Nat}

theorem emit_ok (hfield : s.field.length < arkshMaxToken) (hroom : s.outValues.length < maxValues) :
    s.emit maxValues = .ok { s with outValues := s.outValues ++ [s.field], field := [] } := by
  rw [IfsSplit.emit, if_neg (not_le.mpr hroom), copyString_of_lt hfield]

theorem ifsSplitStep_kept (hmark : markOf ifs cell = .kept)
    (hfield : s.field.length + 1 < arkshMaxToken) :
    ifsSplitStep ifs maxValues s cell =
      .ok { s with field := s.field ++ [cell.1], afterNonwhiteIfs := false } := by
  have hsplit : (cell.2 && isIfsChar cell.1 ifs) = false := by
    unfold markOf at hmark
    split at hmark
    · split at hmark <;> cases hmark
    · exact Bool.eq_false_iff.mpr ‹¬ _›
  simp [ifsSplitStep, hsplit, hfield]

theorem ifsSplitStep_sharp (hmark : markOf ifs cell = .sharp)
    (hfield : s.field.length < arkshMaxToken) (hroom : s.outValues.length < maxValues) :
    ifsSplitStep ifs maxValues s cell = .ok ⟨s.outValues ++ [s.field], [], true⟩ := by
  unfold markOf at hmark
  split at hmark
  next hsplit =>
    split at hmark
    · cases hmark
    next hspace => simp [ifsSplitStep, isIfsWhitespace, hsplit, hspace, emit_ok hfield hroom,
      Except.map]
  · cases hmark

theorem ifsSplitStep_white (hmark : markOf ifs cell = .white)
    (hfield : s.field.length < arkshMaxToken)
    (hroom : s.outValues.length + (emit s.field).length ≤ maxValues) :
    ifsSplitStep ifs maxValues s cell = .ok ⟨s.outValues ++ emit s.field, [], false⟩ := by
  unfold markOf at hmark
  split at hmark
  next hsplit =>
    split at hmark
    next hspace =>
      rcases s with ⟨out, _ | ⟨c, field⟩, after⟩
      · simp_all [ifsSplitStep, isIfsWhitespace, Except.map]
      · have hout : out.length < maxValues := hroom
        simp_all [ifsSplitStep, isIfsWhitespace, emit_ok, emit, Except.map]
    · cases hmark
  · cases hmark

theorem ifsSplit_emits (t : List (Char × Bool)) :
    ∀ {s : IfsSplit}, s.field.length + t.length < arkshMaxToken →
      s.outValues.length + (endedFields s.field s.afterNonwhiteIfs
        (t.map fun cell => (markOf ifs cell, cell.1))).length ≤ maxValues →
      (t.foldlM (ifsSplitStep ifs maxValues) s).bind (IfsSplit.finish maxValues sawQuoteOpen) =
        .ok (orQuoted sawQuoteOpen (s.outValues ++ endedFields s.field s.afterNonwhiteIfs
          (t.map fun cell => (markOf ifs cell, cell.1)))) := by
  induction t with
  | nil =>
    intro ⟨out, field, after⟩ hfield hroom
    change (Except.ok (IfsSplit.mk out field after)).bind _ = _
    rcases field with _ | ⟨c, field⟩
    · cases after with
      | false => simp [Except.bind, IfsSplit.finish, Except.map, endedFields, orQuoted]
      | true =>
        have hout : out.length < maxValues := hroom
        have hemit := @emit_ok ⟨out, [], true⟩ maxValues hfield hout
        simp [Except.bind, IfsSplit.finish, hemit, Except.map, endedFields, orQuoted]
    · have hout : out.length < maxValues := hroom
      have hemit := @emit_ok ⟨out, c :: field, after⟩ maxValues hfield hout
      simp [Except.bind, IfsSplit.finish, hemit, Except.map, endedFields, orQuoted]
  | cons cell t ih =>
    intro s hfield hroom
    rw [length_cons] at hfield
    rw [foldlM_cons]
    cases hmark : markOf ifs cell with
    | kept =>
      simp only [map_cons, hmark, endedFields] at hroom ⊢
      rw [ifsSplitStep_kept hmark (by omega)]
      exact ih (by simp; omega) hroom
    | white =>
      simp only [map_cons, hmark, endedFields, length_append] at hroom ⊢
      have hgo := @ih ⟨s.outValues ++ emit s.field, [], false⟩
      simp only [length_nil, length_append, append_assoc] at hgo
      rw [ifsSplitStep_white hmark (by omega) (by omega)]
      exact hgo (by omega) (by omega)
    | sharp =>
      simp only [map_cons, hmark, endedFields, length_cons] at hroom ⊢
      have hgo := @ih ⟨s.outValues ++ [s.field], [], true⟩
      simp only [length_nil, length_append, length_singleton, append_assoc, singleton_append] at hgo
      rw [ifsSplitStep_sharp hmark (by omega) (by omega)]
      exact hgo (by omega) (by omega)

theorem endedFields_kept (t : Text) : ∀ (w : Text) (after : Bool), w ++ t ≠ [] ∨ after = false →
    endedFields w after (t.map fun c => (.kept, c)) = emit (w ++ t) := by
  induction t with
  | nil =>
    intro w after h
    rcases w with _ | ⟨c, w⟩
    · simp_all [endedFields]
    · simp [endedFields, emit]
  | cons c t ih =>
    intro w after _
    rw [map_cons, endedFields, ih _ _ (.inr rfl), append_assoc]
    rfl

/-- **Where there is room, the splitting yields what the loop emits.** -/
theorem applyIfsSplitting_emits (hroom : (endedFields [] false (word.cells ifs)).length ≤ maxValues) :
    applyIfsSplitting word.expanded word.splitFlags sawQuoteOpen ifs maxValues =
      .ok (orQuoted sawQuoteOpen (endedFields [] false (word.cells ifs))) := by
  unfold applyIfsSplitting
  split
  next hifs =>
    subst hifs
    have hcells : word.cells [] = word.expanded.map fun c => (.kept, c) := by
      have hfst := map_fst_zip (le_of_eq word.splitFlags_length.symm)
      conv => rhs; rw [← hfst, map_map]
      simp [ExpandedWord.cells, markOf, isIfsChar]
    rw [hcells, endedFields_kept _ _ _ (.inr rfl), nil_append,
      copyString_of_lt word.expanded_length]
    cases word.expanded with
    | nil => cases sawQuoteOpen <;> rfl
    | cons c t => rfl
  · have hlength : (word.expanded.zip word.splitFlags).length < arkshMaxToken := by
      rw [length_zip, word.splitFlags_length, min_self]
      exact word.expanded_length
    have hzero : (⟨[], [], false⟩ : IfsSplit).field.length +
        (word.expanded.zip word.splitFlags).length < arkshMaxToken := by
      simpa using hlength
    refine ifsSplit_emits _ hzero ?_
    rwa [length_nil, zero_add]

/-! ## 4. Where the loop differs -/

def SharpNext (t : List (Mark × Char)) : Prop :=
  ∃ ws b back, t = ws ++ (.sharp, b) :: back ∧ IsAll .white ws

def SharpAfterGap (t : List (Mark × Char)) : Prop :=
  ∃ front a ws b back, t = front ++ (.kept, a) :: (ws ++ (.sharp, b) :: back) ∧ ws ≠ [] ∧
    IsAll .white ws

def EndsSharp (t : List (Mark × Char)) : Prop := ∃ b, t.getLast? = some (.sharp, b)

@[simp] theorem not_sharpNext_nil : ¬ SharpNext [] := by
  simp [SharpNext]

variable {m : Mark} {c : Char} {t : List (Mark × Char)}

@[simp] theorem sharpNext_cons :
    SharpNext ((m, c) :: t) ↔ m = .sharp ∨ m = .white ∧ SharpNext t := by
  constructor
  · rintro ⟨_ | ⟨d, ws⟩, b, back, heq, hws⟩
    · cases heq; exact .inl rfl
    · cases heq
      obtain ⟨hm, hrest⟩ := isAll_cons.mp hws
      exact .inr ⟨hm, ws, b, back, rfl, hrest⟩
  · rintro (rfl | ⟨rfl, ws, b, back, rfl, hws⟩)
    · exact ⟨[], c, t, rfl, .nil⟩
    · exact ⟨(.white, c) :: ws, b, back, rfl, isAll_cons.mpr ⟨rfl, hws⟩⟩

@[simp] theorem not_sharpAfterGap_nil : ¬ SharpAfterGap [] := by
  simp [SharpAfterGap]

@[simp] theorem sharpAfterGap_cons :
    SharpAfterGap ((m, c) :: t) ↔
      m = .kept ∧ (∃ d u, t = (.white, d) :: u ∧ SharpNext u) ∨ SharpAfterGap t := by
  constructor
  · rintro ⟨_ | ⟨d, front⟩, a, ws, b, back, heq, hne, hws⟩
    · cases heq
      obtain ⟨⟨m, d⟩, ws, rfl⟩ := exists_cons_of_ne_nil hne
      obtain ⟨rfl, hrest⟩ := isAll_cons.mp hws
      exact .inl ⟨rfl, d, _, rfl, ws, b, back, rfl, hrest⟩
    · cases heq; exact .inr ⟨front, a, ws, b, back, rfl, hne, hws⟩
  · rintro (⟨rfl, d, _, rfl, ws, b, back, rfl, hws⟩ | ⟨front, a, ws, b, back, rfl, hne, hws⟩)
    · exact ⟨[], c, (.white, d) :: ws, b, back, rfl, cons_ne_nil _ _,
        isAll_cons.mpr ⟨rfl, hws⟩⟩
    · exact ⟨(m, c) :: front, a, ws, b, back, rfl, hne, hws⟩

@[simp] theorem not_endsSharp_nil : ¬ EndsSharp [] := by
  simp [EndsSharp]

@[simp] theorem endsSharp_cons : EndsSharp ((m, c) :: t) ↔ m = .sharp ∧ t = [] ∨ EndsSharp t := by
  cases t with
  | nil | cons d t => simp [EndsSharp]

/-- Where the loop stands, compared with the fields of POSIX. -/
inductive IfsPlace where
  /-- in a field -/
  | field
  /-- behind the white space that has ended a field -/
  | gap
  /-- right behind a sharp character -/
  | sharp
  /-- anywhere else between two fields -/
  | between

inductive IfsPlace.Stands : IfsPlace → Text → Bool → Bool → Prop where
  | field {w : Text} : w ≠ [] → Stands .field w false false
  | gap : Stands .gap [] true false
  | sharp : Stands .sharp [] false true
  | between : Stands .between [] false false

def IfsPlace.Alike : IfsPlace → List (Mark × Char) → Prop
  | sharp, [] => False
  | _, [] => True
  | _, (.kept, _) :: t => field.Alike t
  | field, (.white, _) :: t => gap.Alike t
  | gap, (.white, _) :: t => gap.Alike t
  | _, (.white, _) :: t => between.Alike t
  | gap, (.sharp, _) :: _ => False
  | _, (.sharp, _) :: t => sharp.Alike t

def IfsPlace.Avoids : IfsPlace → List (Mark × Char) → Prop
  | field, t => ¬ ∃ d u, t = (.white, d) :: u ∧ SharpNext u
  | gap, t => ¬ SharpNext t
  | sharp, t => t ≠ []
  | between, _ => True

theorem IfsPlace.alike_iff (t : List (Mark × Char)) : ∀ place : IfsPlace,
    place.Alike t ↔ ¬ SharpAfterGap t ∧ ¬ EndsSharp t ∧ place.Avoids t := by
  induction t with
  | nil => intro place; cases place <;> simp [Alike, Avoids]
  | cons c t ih =>
    obtain ⟨m, c⟩ := c
    intro place
    cases m with
    | kept => cases place <;> simp [Alike, Avoids, ih] <;> tauto
    | white => cases place <;> simp [Alike, Avoids, ih]
    | sharp => cases place <;> simp [Alike, Avoids, ih] <;> tauto

theorem scan_length_le (t : List (Mark × Char)) : ∀ {w : Text} {gap : Bool} (after : Bool),
    (scan w gap t).length ≤ (endedFields w after t).length := by
  induction t with
  | nil =>
    intro w gap after
    cases w with
    | nil => simp [scan]
    | cons c w => simp [scan, endedFields, emit]
  | cons c t ih =>
    obtain ⟨m, c⟩ := c
    intro w gap after
    cases m with
    | kept => exact ih false
    | white => simpa [scan, endedFields] using ih false
    | sharp =>
      cases gap with
      | false => simpa [scan, endedFields] using ih true
      | true => exact le_succ_of_le (ih true)

section

variable (t : List (Mark × Char))

theorem endedFields_eq_iff : ∀ {place : IfsPlace} {w : Text}
    {gap after : Bool}, place.Stands w gap after →
    (endedFields w after t = scan w gap t ↔ place.Alike t) := by
  induction t with
  | nil =>
    intro place w gap after h
    cases h with
    | field hw => simp [scan, endedFields, emit, hw, IfsPlace.Alike]
    | _ => simp [scan, endedFields, IfsPlace.Alike]
  | cons c t ih =>
    obtain ⟨m, c⟩ := c
    intro place w gap after h
    cases m with
    | kept =>
      have hnext := @ih .field (w ++ [c]) false false (.field (by simp))
      cases h <;> exact hnext
    | white =>
      cases h with
      | field hw =>
        have hempty : w.isEmpty = false := by simp [hw]
        simp [scan, endedFields, hempty, IfsPlace.Alike, ih .gap]
      | gap => exact ih .gap
      | sharp | between => exact ih .between
    | sharp =>
      cases h with
      | gap =>
        -- the loop ends a field that is there no more
        refine iff_of_false (fun heq => ?_) id
        have hle := @scan_length_le t [] false true
        have hlength := congrArg List.length heq
        simp only [endedFields, scan, if_pos, length_cons] at hlength
        omega
      | _ => simp [scan, endedFields, IfsPlace.Alike, ih .sharp]

theorem scan_ne_nil : ∀ {w : Text}, w ≠ [] → scan w false t ≠ [] := by
  induction t with
  | nil => intro w hw; simp [scan, emit_of_ne hw]
  | cons c t ih =>
    obtain ⟨m, c⟩ := c
    intro w hw
    cases m with
    | kept => exact ih (by simp)
    | white => simp [scan, emit_of_ne hw]
    | sharp => simp [scan]

theorem endedFields_eq_nil (h : scan [] false t = []) : endedFields [] false t = [] := by
  induction t with
  | nil => rfl
  | cons c t ih =>
    obtain ⟨m, c⟩ := c
    cases m with
    | kept => exact absurd h (scan_ne_nil t (by simp))
    | white => exact ih h
    | sharp => cases h

end

theorem orQuoted_inj :
    orQuoted sawQuoteOpen (endedFields [] false t) = orQuoted sawQuoteOpen (scan [] false t) ↔
      endedFields [] false t = scan [] false t := by
  refine ⟨fun h => ?_, fun h => by rw [h]⟩
  have hle := @scan_length_le t [] false false
  by_cases hnil : scan [] false t = []
  · rw [hnil, endedFields_eq_nil t hnil]
  · have hpos := length_pos_iff.mpr hnil
    have hended : endedFields [] false t ≠ [] := length_pos_iff.mp (hpos.trans_le hle)
    simpa [orQuoted, hnil, hended] using h

theorem length_le_orQuoted (sawQuoteOpen : Bool) (fields : List Text) :
    fields.length ≤ (orQuoted sawQuoteOpen fields).length := by
  unfold orQuoted
  split
  · simp_all
  · exact le_refl _

/-! ## 5. The words that are split as POSIX has it -/

/-- **A word is split as POSIX has it exactly if no IFS white space stands between a field and
    another IFS character, and its last character is no such one.** -/
theorem followsPosix_iff {ifs : Text} {sawQuoteOpen : Bool} {word : ExpandedWord} :
    FollowsPosix ifs sawQuoteOpen word ↔
      ¬ SharpAfterGap (word.cells ifs) ∧ ¬ EndsSharp (word.cells ifs) := by
  have hplace : endedFields [] false (word.cells ifs) = scan [] false (word.cells ifs) ↔
      ¬ SharpAfterGap (word.cells ifs) ∧ ¬ EndsSharp (word.cells ifs) := by
    rw [endedFields_eq_iff _ .between, IfsPlace.alike_iff]
    simp [IfsPlace.Avoids]
  rw [← hplace, ← @orQuoted_inj sawQuoteOpen]
  constructor
  · intro ⟨fields, hposix, hsplit⟩
    obtain rfl := posixFields_iff.mp hposix
    have hroom := hsplit _ (le_max_left _ (endedFields [] false (word.cells ifs)).length)
    rw [applyIfsSplitting_emits (le_max_right _ _)] at hroom
    exact Except.ok.inj hroom
  · intro heq
    refine ⟨_, posixFields_iff.mpr rfl, fun maxValues hfits => ?_⟩
    rw [← heq] at hfits ⊢
    exact applyIfsSplitting_emits ((length_le_orQuoted _ _).trans hfits)

/-- `a :b` and `a:`, each all from one expansion, with a blank and a colon in IFS. -/
def gapWord : ExpandedWord := ⟨"a :b".toList, List.replicate 4 true, rfl, by decide⟩

def endWord : ExpandedWord := ⟨"a:".toList, List.replicate 2 true, rfl, by decide⟩

/-- The blank and the colon are one delimiter, and the colon at the end ends the field; the loop
    emits an empty field more for each. -/
theorem not_followsPosix_gap :
    ¬ FollowsPosix " :".toList false gapWord ∧ ¬ FollowsPosix " :".toList false endWord := by
  constructor
  · intro ⟨fields, hposix, hsplit⟩
    obtain rfl := posixFields_iff.mp hposix
    cases hsplit 3 (by decide)
  · intro ⟨fields, hposix, hsplit⟩
    obtain rfl := posixFields_iff.mp hposix
    cases hsplit 2 (by decide)

end Arksh
