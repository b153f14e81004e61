/-
  Subject: The stages `split` and `join` of `src/executor.c`.

  The pieces of `split` go through a buffer of 1024 bytes, which cuts longer ones. Apart from those
  the stages are inverse, as far as cutting and joining texts are.
-/
import Arksh.Lib.Separated
import Arksh.Object.Value

namespace Arksh

open CText Separated List

/-! ## 1. Texts in lists -/

def arkshMaxValueText : Nat := 1024

def textItem (text : Text) : ArkshValueItem :=
  { kind := .string, text := text, number := zeroNumber, boolean := false, object := none,
    block := none, nested := none }

def textList (texts : List Text) : ArkshValue :=
  { arkshValueInit with kind := .list, list := texts.map textItem }

def appendStringItemToValue (value : ArkshValue) (text : Text) : Option ArkshValue :=
  arkshValueListAppendItem value (textItem text)

theorem appendStringItemToValue_textList (texts : List Text) (text : Text) :
    appendStringItemToValue (textList texts) text = some (textList (texts ++ [text])) := by
  rw [textList, textList, map_append]
  rfl

/-! ## 2. The stages -/

structure TextStage where
  rawArgs : Text
  argument : Except String Text

def splitWhitespaceLoop (value : ArkshValue) (cursor : Text) : Option ArkshValue :=
  if _h : cursor.dropWhile isspace = [] then some value
  else
    let start := cursor.dropWhile isspace
    (appendStringItemToValue value
        (copyString arkshMaxValueText (start.takeWhile fun c => !isspace c))).bind fun value =>
      splitWhitespaceLoop value (start.dropWhile fun c => !isspace c)
termination_by cursor.length
decreasing_by
  obtain ⟨c, rest, hstart⟩ := List.exists_cons_of_ne_nil _h
  have hc : isspace c = false := by
    have hhead := List.head?_dropWhile_not isspace cursor
    rw [hstart] at hhead
    simpa using hhead
  have hrest : ((c :: rest).dropWhile fun c => !isspace c).length ≤ rest.length := by
    rw [List.dropWhile_cons_of_pos (by simp [hc])]
    exact (List.dropWhile_suffix _).length_le
  have hle : (c :: rest).length ≤ cursor.length := by
    rw [← hstart]
    exact (List.dropWhile_suffix _).length_le
  rw [List.length_cons] at hle
  show ((cursor.dropWhile isspace).dropWhile fun c => !isspace c).length < cursor.length
  rw [hstart]
  omega

def splitDelimiterLoop (separator : Text) (hne : separator ≠ []) (value : ArkshValue)
    (cursor : Text) : Option ArkshValue :=
  match _h : breakOn separator cursor with
  | none => appendStringItemToValue value (copyString arkshMaxValueText cursor)
  | some (piece, rest) =>
    (appendStringItemToValue value (copyString arkshMaxValueText piece)).bind fun value =>
      if rest = [] then appendStringItemToValue value []
      else splitDelimiterLoop separator hne value rest
termination_by cursor.length
decreasing_by exact breakOn_length hne ‹_›

def applySplitStage (value : ArkshValue) (stage : TextStage) : Except String ArkshValue :=
  if value.kind ≠ .string then .error "split() expects a string"
  else
    let original := copyString arkshMaxOutput value.text
    if stage.rawArgs = [] then
      match splitWhitespaceLoop (textList []) original with
      | some list => .ok list
      | none => .error "unable to split string"
    else
      match stage.argument with
      | .error message => .error message
      | .ok separator =>
        if hne : separator = [] then .error "split() separator cannot be empty"
        else
          match splitDelimiterLoop separator hne (textList []) original with
          | some list => .ok list
          | none => .error "unable to split string"

section Render

-- `arksh_value_item_render` of an item that is no STRING
variable (renderOther : ArkshValueItem → Option Text)

def arkshValueItemRender (item : ArkshValueItem) : Option Text :=
  if item.kind = .string then some (copyString arkshMaxOutput item.text) else renderOther item

def joinLoop (separator : Text) : Bool → Text → List ArkshValueItem → Except String Text
  | _, joined, [] => .ok joined
  | first, joined, item :: items =>
    match arkshValueItemRender renderOther item with
    | none => .error "unable to render join() item"
    | some rendered =>
      if first = false ∧ joined.length + separator.length ≥ arkshMaxOutput then
        .error "join() result is too large"
      else
        let joined := if first then joined else joined ++ separator
        if joined.length + rendered.length ≥ arkshMaxOutput then .error "join() result is too large"
        else joinLoop separator false (joined ++ rendered) items

def applyJoinStage (value : ArkshValue) (stage : TextStage) : Except String ArkshValue :=
  if value.kind ≠ .list then .error "join() expects a list"
  else
    match if stage.rawArgs = [] then .ok [] else stage.argument with
    | .error message => .error message
    | .ok separator =>
      (joinLoop renderOther separator true [] value.list).map arkshValueSetString

end Render

/-! ## 3. The loops -/

section Loops

variable {renderOther : ArkshValueItem → Option Text} {separator : Text}

/-- **The loop of `split` cuts at the separators**, and every piece to the size of its buffer. -/
theorem splitDelimiterLoop_eq (hne : separator ≠ []) (texts : List Text) (cursor : Text) :
    splitDelimiterLoop separator hne (textList texts) cursor =
      some (textList (texts ++ (pieces separator hne cursor).map (copyString arkshMaxValueText))) := by
  induction cursor using pieces.induct separator hne generalizing texts with
  | case1 cursor hbreak =>
    rw [pieces_of_none hne hbreak, splitDelimiterLoop]
    split
    · exact appendStringItemToValue_textList texts _
    · next heq => rw [hbreak] at heq; cases heq
  | case2 cursor piece rest hbreak ih =>
    rw [pieces_of_some hne hbreak, splitDelimiterLoop]
    split
    · next heq => rw [hbreak] at heq; cases heq
    · next heq =>
      rw [hbreak] at heq
      cases heq
      rw [appendStringItemToValue_textList, Option.bind_some, map_cons]
      by_cases hrest : rest = []
      · -- behind a separator at the end there is an empty piece
        have hnone : breakOn separator ([] : Text) = none := if_neg hne
        rw [if_pos hrest, hrest, appendStringItemToValue_textList, pieces_of_none hne hnone,
          append_assoc]
        rfl
      · rw [if_neg hrest, ih, append_assoc]; rfl

theorem joinLoop_eq {texts : List Text} {first : Bool} {joined : Text}
    (hroom : joined.length + (if first then 0 else separator.length) +
      (separator.intercalate texts).length < arkshMaxOutput) :
    joinLoop renderOther separator first joined (texts.map textItem) =
      .ok (if texts = [] then joined
        else joined ++ (if first then [] else separator) ++ separator.intercalate texts) := by
  induction texts generalizing first joined with
  | nil => rfl
  | cons text texts ih =>
    have hlength : (separator.intercalate (text :: texts)).length =
        text.length + if texts = [] then 0
          else separator.length + (separator.intercalate texts).length := by
      split_ifs with hnil
      · rw [hnil, intercalate_singleton, Nat.add_zero]
      · rw [intercalate_cons_of_ne_nil hnil, length_append, length_append, Nat.add_assoc]
    rw [hlength] at hroom
    have hrender : arkshValueItemRender renderOther (textItem text) = some text := by
      have hfits : text.length ≤ arkshMaxOutput - 1 := by omega
      show some (copyString arkshMaxOutput text) = some text
      rw [copyString, take_of_length_le hfits]
    have hsep : ¬ (first = false ∧ joined.length + separator.length ≥ arkshMaxOutput) := by
      rintro ⟨rfl, hlarge⟩
      rw [if_neg (by decide)] at hroom
      omega
    have hjoined : (if first = true then joined else joined ++ separator).length =
        joined.length + (if first = true then 0 else separator.length) := by
      cases first
      · exact length_append
      · rfl
    have hfits : ¬ ((if first = true then joined else joined ++ separator).length + text.length ≥
        arkshMaxOutput) := by
      omega
    have hstep : joinLoop renderOther separator first joined ((text :: texts).map textItem) =
        joinLoop renderOther separator false
          ((if first = true then joined else joined ++ separator) ++ text)
          (texts.map textItem) := by
      rw [map_cons, joinLoop, hrender]
      dsimp only
      rw [if_neg hsep, if_neg hfits]
    have hfront : (if first = true then joined else joined ++ separator) =
        joined ++ (if first = true then [] else separator) := by
      cases first
      · rfl
      · exact (append_nil joined).symm
    rw [hstep, if_neg (cons_ne_nil _ _)]
    by_cases hnil : texts = []
    · subst hnil
      rw [intercalate_singleton, hfront]
      rfl
    · rw [if_neg hnil] at hroom
      have hrest : ((if first = true then joined else joined ++ separator) ++ text).length +
          separator.length + (separator.intercalate texts).length < arkshMaxOutput := by
        rw [length_append, hjoined]
        omega
      rw [ih hrest, if_neg hnil, intercalate_cons_of_ne_nil hnil, hfront]
      show Except.ok (_ ++ text ++ separator ++ separator.intercalate texts) = _
      simp only [append_assoc]

end Loops

/-! ## 4. The stages are inverse -/

section Stages

variable {renderOther : ArkshValueItem → Option Text} {separator : Text} {stage : TextStage}
  {value : ArkshValue} {texts : List Text}

structure TextStage.Gives (stage : TextStage) (separator : Text) : Prop where
  rawArgs : stage.rawArgs ≠ []
  argument : stage.argument = .ok separator

theorem applySplitStage_eq (hne : separator ≠ []) (hgives : stage.Gives separator)
    (hkind : value.kind = .string) (hfits : value.text.length < arkshMaxOutput) :
    applySplitStage value stage =
      .ok (textList ((pieces separator hne value.text).map (copyString arkshMaxValueText))) := by
  have horiginal : copyString arkshMaxOutput value.text = value.text := take_of_length_le (by omega)
  rw [applySplitStage, if_neg (not_not_intro hkind)]
  rw [if_neg hgives.rawArgs, hgives.argument]
  dsimp only
  rw [dif_neg hne, horiginal, splitDelimiterLoop_eq, nil_append]

theorem applyJoinStage_eq (hgives : stage.Gives separator) (hkind : value.kind = .list)
    (hlist : value.list = texts.map textItem)
    (hfits : (separator.intercalate texts).length < arkshMaxOutput) :
    applyJoinStage renderOther value stage =
      .ok (arkshValueSetString (separator.intercalate texts)) := by
  have hroom : ([] : Text).length + (if true = true then 0 else separator.length) +
      (separator.intercalate texts).length < arkshMaxOutput := by
    rw [if_pos rfl, length_nil]
    omega
  rw [applyJoinStage, if_neg (not_not_intro hkind), if_neg hgives.rawArgs, hgives.argument]
  dsimp only
  rw [hlist, joinLoop_eq hroom]
  by_cases hnil : texts = []
  · rw [if_pos hnil, hnil]; rfl
  · rw [if_neg hnil]; rfl

variable (renderOther separator)

def splitThenJoin (split join : TextStage) (value : ArkshValue) : Except String ArkshValue :=
  (applySplitStage value split).bind fun list => applyJoinStage renderOther list join

def joinThenSplit (split join : TextStage) (value : ArkshValue) : Except String ArkshValue :=
  (applyJoinStage renderOther value join).bind fun joined => applySplitStage joined split

/-- Both stages succeed, and the text comes back. -/
def JoinsBack (text : Text) : Prop :=
  ∀ (split join : TextStage) (value : ArkshValue), split.Gives separator → join.Gives separator →
    value.kind = .string → value.text = text →
      splitThenJoin renderOther split join value = .ok (arkshValueSetString text)

/-- Both stages succeed, and the list comes back. -/
def SplitsBack (texts : List Text) : Prop :=
  ∀ (split join : TextStage) (value : ArkshValue), split.Gives separator → join.Gives separator →
    value.kind = .list → value.list = texts.map textItem →
      joinThenSplit renderOther split join value = .ok (textList texts)

/-- The stages are inverse to each other for pieces that fit in the buffer of `split`: for every
    text, and for the lists of texts that are pieces. -/
structure InverseStages (hne : separator ≠ []) : Prop where
  joinsBack : ∀ text : Text, text.length < arkshMaxOutput →
    (∀ piece ∈ pieces separator hne text, piece.length < arkshMaxValueText) →
      JoinsBack renderOther separator text
  splitsBack : ∀ texts : List Text, (∀ text ∈ texts, ¬ separator <:+: text) →
    (∀ text ∈ texts, text.length < arkshMaxValueText) →
      (separator.intercalate texts).length < arkshMaxOutput →
        (SplitsBack renderOther separator texts ↔
          texts ≠ [] ∧ ∀ text ∈ texts.dropLast, Clear separator text)

theorem map_copyString (h : ∀ text ∈ texts, text.length < arkshMaxValueText) :
    texts.map (copyString arkshMaxValueText) = texts := by
  conv_rhs => rw [← map_id texts]
  refine map_congr_left fun text htext => ?_
  have hlt := h text htext
  exact take_of_length_le (by omega)

theorem textItem_injective : Function.Injective textItem := fun _ _ h => congrArg (·.text) h

variable {separator}

section

variable (hne : separator ≠ [])
include hne

theorem joinsBack_of_short {text : Text} (hfits : text.length < arkshMaxOutput)
    (hshort : ∀ piece ∈ pieces separator hne text, piece.length < arkshMaxValueText) :
    JoinsBack renderOther separator text := by
  intro split join value hsplit hjoin hkind htext
  subst htext
  have hback := intercalate_pieces hne value.text
  rw [splitThenJoin, applySplitStage_eq hne hsplit hkind hfits, map_copyString hshort]
  show applyJoinStage renderOther (textList _) join = _
  rw [applyJoinStage_eq hjoin rfl rfl (by rw [hback]; exact hfits), hback]

theorem joinThenSplit_eq {split join : TextStage} (hsplit : split.Gives separator)
    (hjoin : join.Gives separator) (hkind : value.kind = .list)
    (hlist : value.list = texts.map textItem)
    (hfits : (separator.intercalate texts).length < arkshMaxOutput) :
    joinThenSplit renderOther split join value =
      .ok (textList ((pieces separator hne (separator.intercalate texts)).map
        (copyString arkshMaxValueText))) := by
  rw [joinThenSplit, applyJoinStage_eq hjoin hkind hlist hfits]
  exact applySplitStage_eq hne hsplit rfl hfits

theorem splitsBack_iff (hshort : ∀ text ∈ texts, text.length < arkshMaxValueText)
    (hfits : (separator.intercalate texts).length < arkshMaxOutput) :
    SplitsBack renderOther separator texts ↔
      pieces separator hne (separator.intercalate texts) = texts := by
  constructor
  · intro hback
    have hgives : TextStage.Gives ⟨separator, .ok separator⟩ separator := ⟨hne, rfl⟩
    have hresult := hback _ _ (textList texts) hgives hgives rfl rfl
    rw [joinThenSplit_eq renderOther hne hgives hgives rfl rfl hfits] at hresult
    have hcut : (pieces separator hne (separator.intercalate texts)).map
        (copyString arkshMaxValueText) = texts :=
      map_injective_iff.mpr textItem_injective (congrArg (·.list) (Except.ok.inj hresult))
    -- a piece that was cut would leave a shorter text
    have hlength : (separator.intercalate ((pieces separator hne
        (separator.intercalate texts)).map (copyString arkshMaxValueText))).length =
        (separator.intercalate (pieces separator hne (separator.intercalate texts))).length := by
      rw [hcut, intercalate_pieces]
    exact (map_eq_self_of_intercalate (fun _ => take_sublist _ _) hlength).symm.trans hcut
  · intro hpieces split join value hsplit hjoin hkind hlist
    rw [joinThenSplit_eq renderOther hne hsplit hjoin hkind hlist hfits, hpieces,
      map_copyString hshort]

end

/-- **`split` and `join` are inverse to each other.** -/
theorem inverseStages_of_ne_nil (hne : separator ≠ []) :
    InverseStages renderOther separator hne where
  joinsBack _ hfits hshort := joinsBack_of_short renderOther hne hfits hshort
  splitsBack texts hfree hshort hfits := by
    rw [splitsBack_iff renderOther hne hshort hfits]
    exact pieces_intercalate_iff hne hfree

theorem inverseStages_comma : InverseStages (fun _ => none) [','] (List.cons_ne_nil _ _) :=
  inverseStages_of_ne_nil _ (cons_ne_nil _ _)

end Stages

def stageWith (separator : Text) : TextStage := ⟨separator, .ok separator⟩

/-- A piece of 1024 bytes is cut, no text is split to one empty text, and in `a` and `b` joined by
    `aa` the first `aa` is not where it was put. -/
theorem not_inverse :
    (∃ result, splitThenJoin (fun _ => none) (stageWith [',']) (stageWith [','])
        (arkshValueSetString (replicate 1024 'a')) = .ok result ∧
      result.text ≠ replicate 1024 'a') ∧
    (∃ result, joinThenSplit (fun _ => none) (stageWith [',']) (stageWith [',']) (textList []) =
        .ok result ∧ result.list ≠ []) ∧
    ∃ result, joinThenSplit (fun _ => none) (stageWith ['a', 'a']) (stageWith ['a', 'a'])
        (textList [['a'], ['b']]) = .ok result ∧ result.list ≠ [['a'], ['b']].map textItem := by
  have hcomma : [','] ≠ ([] : Text) := cons_ne_nil _ _
  have haa : ['a', 'a'] ≠ ([] : Text) := cons_ne_nil _ _
  have hgives : (stageWith [',']).Gives [','] := ⟨hcomma, rfl⟩
  have hgives' : (stageWith ['a', 'a']).Gives ['a', 'a'] := ⟨haa, rfl⟩
  refine ⟨?_, ?_, ?_⟩
  · generalize hlong : replicate 1024 'a' = long
    have hlength : long.length = 1024 := by rw [← hlong, length_replicate]
    have hnone : breakOn [','] long = none := by
      rw [breakOn_eq_none_iff hcomma, ← hlong]
      intro hinfix
      have hmem := hinfix.subset (mem_singleton_self _)
      exact absurd (eq_of_mem_replicate hmem) (by decide)
    have hcut : (pieces [','] hcomma long).map (copyString arkshMaxValueText) = [long.take 1023] := by
      rw [pieces_of_none hcomma hnone]
      rfl
    have hfits : ([','].intercalate [long.take 1023]).length < arkshMaxOutput := by
      rw [intercalate_singleton, length_take, hlength]
      decide
    have hrun : splitThenJoin (fun _ => none) (stageWith [',']) (stageWith [','])
        (arkshValueSetString long) =
          .ok (arkshValueSetString ([','].intercalate [long.take 1023])) := by
      rw [splitThenJoin, applySplitStage_eq hcomma hgives rfl (by
        show long.length < arkshMaxOutput
        rw [hlength]
        decide)]
      change Except.bind (.ok (textList ((pieces [','] hcomma long).map _))) _ = _
      rw [hcut]
      exact applyJoinStage_eq hgives rfl rfl hfits
    refine ⟨_, hrun, fun htext => ?_⟩
    have hshort : ([','].intercalate [long.take 1023]).length = long.length :=
      congrArg List.length htext
    rw [intercalate_singleton, length_take, hlength] at hshort
    exact absurd hshort (by decide)
  · refine ⟨_, joinThenSplit_eq _ hcomma hgives hgives rfl rfl (by decide), fun hlist => ?_⟩
    exact pieces_ne_nil hcomma _ (map_eq_nil_iff.mp (map_eq_nil_iff.mp hlist))
  · refine ⟨_, joinThenSplit_eq _ haa hgives' hgives' rfl rfl (by decide), fun hlist => ?_⟩
    have hpieces : pieces ['a', 'a'] haa ['a', 'a', 'a', 'b'] = [[], ['a', 'b']] :=
      (pieces_of_some haa rfl).trans (congrArg _ (pieces_of_none haa rfl))
    have hcut := map_injective_iff.mpr textItem_injective hlist
    change (pieces ['a', 'a'] haa ['a', 'a', 'a', 'b']).map _ = _ at hcut
    rw [hpieces] at hcut
    exact absurd hcut (by decide)

end Arksh
