/-
  Subject: `arksh_value_get_path` and `arksh_value_set_path`: reading and writing a value along
           a path such as `a.b[2].c`.

  Writing is a recursion over the segments that copies, creates maps where nothing is there,
  replaces list items and writes every updated child back; reading is an independent loop. Both
  are followed on what the records denote, where a path is a path in a tree (`datumNodes`).

  Records are values here: `v` is not shared with the result, which the source reaches by copying
  at every level.
-/
import Arksh.Lib.PathLens
import Arksh.Object.Store

namespace Arksh

open CText Assoc List Option

/-! ## 1. Path segments -/

structure ArkshValuePathSegment where
  text : Name
  bracketed : Bool

def arkshMaxValuePathSegments : Nat := 128

/-- `parse_path_index`: decimal digits, as a 64-bit `size_t` that wraps. -/
def parsePathIndex (text : Text) : Option Nat :=
  if text = [] ∨ text.all isdigit = false then none
  else some (text.foldl (fun value c => (value * 10 + (c.toNat - '0'.toNat)) % 2 ^ 64) 0)

def scanSegment (stop : Char → Bool) : Name → Text → Except String (Name × Text)
  | text, [] => .ok (text, [])
  | text, c :: cursor =>
    if stop c then .ok (text, c :: cursor)
    else
      match appendName text c with
      | none => .error "value path segment is too long"
      | some text => scanSegment stop text cursor

def parseSegments : Nat → Text → Except String (List ArkshValuePathSegment)
  | room, cursor =>
    match cursor.dropWhile (· = '.') with
    | [] => .ok []
    | c :: rest =>
      match room with
      | 0 => .error "value path is too deep"
      | room + 1 =>
        if c = '[' then
          match scanSegment (· = ']') ⟨[], by decide⟩ rest with
          | .error e => .error e
          | .ok (_, []) => .error "unterminated [index] in value path"
          | .ok (text, _ :: cursor) =>
            if text.1 = [] then .error "empty [index] in value path"
            else (parseSegments room cursor).map (⟨text, true⟩ :: ·)
        else
          match scanSegment (fun c => c = '.' || c = '[') ⟨[], by decide⟩ (c :: rest) with
          | .error e => .error e
          | .ok (text, cursor) =>
            if text.1 = [] then .error "empty segment in value path"
            else (parseSegments room cursor).map (⟨text, false⟩ :: ·)

def parseValuePathSegments (path : Text) : Except String (List ArkshValuePathSegment) :=
  match parseSegments arkshMaxValuePathSegments (path.dropWhile isspace) with
  | .error e => .error e
  | .ok [] => .error "value path must not be empty"
  | .ok segments => .ok segments

/-! ## 2. Reading -/

def getSegments : ArkshValue → List ArkshValuePathSegment → Option ArkshValue
  | current, [] => some current
  | current, segment :: segments =>
    if current.kind.isMapLike then
      match arkshValueMapGetItem current segment.text.1 with
      | none => none
      | some entry => getSegments (arkshValueCopy (arkshValueSetFromItem entry)) segments
    else if current.kind = .list then
      match parsePathIndex segment.text.1 with
      | none => none
      | some index =>
        match current.list[index]? with
        | none => none
        | some item => getSegments (arkshValueCopy (arkshValueSetFromItem item)) segments
    else none

def arkshValueGetPath (value : ArkshValue) (path : Text) : Except String (Option ArkshValue) :=
  match parseValuePathSegments path with
  | .error e => .error e
  | .ok segments => .ok ((getSegments (arkshValueCopy value) segments).map arkshValueCopy)

/-! ## 3. Writing -/

def mapLikeKindFor (value : ArkshValue) : ArkshValueKind :=
  if value.kind = .dict then .dict else .map

def setMapLikeKind (kind : ArkshValueKind) : ArkshValue :=
  if kind = .dict then arkshValueSetDict else arkshValueSetMap

/-- The value a write works on: the one that is there, or a new map where it is missing or
    EMPTY. -/
def pathBase (current : Option ArkshValue) (defaultKind : ArkshValueKind)
    (segment : ArkshValuePathSegment) : Except String ArkshValue :=
  match current with
  | some base => if base.kind = .empty then vivify else .ok base
  | none => vivify
where
  vivify : Except String ArkshValue :=
    if segment.bracketed then
      .error ("set_path() cannot auto-create a list at [" ++ String.ofList segment.text.1 ++ "]")
    else .ok (setMapLikeKind defaultKind)

def replaceListItem (list : ArkshValue) (index : Nat) (value : ArkshValue) : ArkshValue :=
  { list with list := list.list.set index (arkshValueItemSetFromValue value) }

def setPathRecursive (replacement : ArkshValue) :
    Option ArkshValue → ArkshValueKind → List ArkshValuePathSegment → Except String ArkshValue
  | _, _, [] => .ok (arkshValueCopy replacement)
  | current, defaultKind, segment :: segments =>
    match pathBase current defaultKind segment with
    | .error e => .error e
    | .ok base =>
      if base.kind.isMapLike then
        match setPathRecursive replacement
            ((arkshValueMapGetItem base segment.text.1).map arkshValueSetFromItem)
            (mapLikeKindFor base) segments with
        | .error e => .error e
        | .ok updated =>
          match arkshValueMapSet (arkshValueCopy base) segment.text.1 updated with
          | none => .error "set_path() failed to update map"
          | some out => .ok out
      else if base.kind = .list then
        match parsePathIndex segment.text.1 with
        | none => .error
            ("set_path() expected a list index, got " ++ String.ofList segment.text.1)
        | some index =>
          match base.list[index]? with
          | none => .error
              ("set_path() list index out of range: " ++ String.ofList segment.text.1)
          | some item =>
            match segments with
            | [] => .ok (replaceListItem (arkshValueCopy base) index replacement)
            | next :: segments =>
              match setPathRecursive replacement (some (arkshValueSetFromItem item)) .map
                  (next :: segments) with
              | .error e => .error e
              | .ok updated => .ok (replaceListItem (arkshValueCopy base) index updated)
      else .error
        ("set_path() cannot descend into a " ++ arkshValueKindName base.kind ++ " value")

def arkshValueSetPath (value : ArkshValue) (path : Text) (replacement : ArkshValue) :
    Except String ArkshValue :=
  if value.kind.isMapLike = false then .error "set_path() is only valid on map or dict values"
  else
    match parseValuePathSegments path with
    | .error e => .error e
    | .ok segments =>
      setPathRecursive replacement (some value) (mapLikeKindFor value) segments

/-! ## 4. The tree that a value denotes -/

def Datum.child : Datum → ArkshValuePathSegment → Option Datum
  | .map entries, segment => entries.lookup segment.text.1
  | .dict entries, segment => entries.lookup segment.text.1
  | .list items, segment => (parsePathIndex segment.text.1).bind (items[·]?)
  | _, _ => none

def Datum.IsBase (current : Option Datum) (base : Datum) : Prop :=
  (current = some base ∧ base ≠ .empty) ∨
    ((current = none ∨ current = some .empty) ∧ (base = .map [] ∨ base = .dict []))

def Datum.IsWrite (d : Datum) (segment : ArkshValuePathSegment) (c d' : Datum) : Prop :=
  match d with
  | .map entries => d' = .map (put segment.text.1 c.stored entries)
  | .dict entries => d' = .dict (put segment.text.1 c.stored entries)
  | .list items => ∃ index, parsePathIndex segment.text.1 = some index ∧
      index < items.length ∧ d' = .list (items.set index c.stored)
  | _ => False

def Datum.SamePick (current : Option Datum) (s t : ArkshValuePathSegment) : Prop :=
  match current with
  | some (.list _) => parsePathIndex s.text.1 = parsePathIndex t.text.1
  | _ => s.text = t.text

variable {current : Option Datum} {base d c d' : Datum}

theorem Datum.child_isBase (h : Datum.IsBase current base) (s : ArkshValuePathSegment) :
    base.child s = current.bind (Datum.child · s) := by
  rcases h with ⟨rfl, -⟩ | ⟨rfl | rfl, rfl | rfl⟩ <;> rfl

variable {s segment : ArkshValuePathSegment}

theorem Datum.samePick_child {t : ArkshValuePathSegment} (hb : Datum.IsBase current base)
    (h : Datum.SamePick current s t) : base.child t = base.child s := by
  rcases hb with ⟨rfl, -⟩ | ⟨-, rfl | rfl⟩
  · cases base with
    | list items => simp only [Datum.child, show parsePathIndex s.text.1 = _ from h]
    | map entries | dict entries => simp only [Datum.child, show s.text = t.text from h]
    | _ => rfl
  · rfl
  · rfl

theorem Datum.child_isWrite (h : d.IsWrite s c d') (hc : c.stored = c) : d'.child s = some c := by
  cases d with
  | map entries | dict entries => obtain rfl := h; simp only [Datum.child, hc, lookup_put_self]
  | list items => obtain ⟨index, hi, hlt, rfl⟩ := h; simp [Datum.child, hi, hc, hlt]
  | _ => exact h.elim

theorem Datum.stored_isWrite (h : d.IsWrite s c d') : d'.stored = d' := by
  cases d with
  | map entries | dict entries => obtain rfl := h; rfl
  | list items => obtain ⟨index, -, -, rfl⟩ := h; rfl
  | _ => exact h.elim

section

variable {current : Option Datum} {base c d' : Datum} {s t : ArkshValuePathSegment}
  (hb : Datum.IsBase current base) (h : base.IsWrite s c d')
include hb h

theorem Datum.samePick_isWrite (hs : Datum.SamePick current s t) : d'.child t = d'.child s := by
  cases base with
  | list items =>
    obtain ⟨index, -, -, rfl⟩ := h
    obtain ⟨rfl, -⟩ | ⟨-, h | h⟩ := hb
    · simp only [Datum.child, show parsePathIndex s.text.1 = _ from hs]
    · cases h
    · cases h
  | map entries | dict entries =>
    obtain rfl := h
    have hst : s.text = t.text := by
      obtain ⟨rfl, -⟩ | ⟨rfl | rfl, -⟩ := hb <;> exact hs
    simp only [Datum.child, hst]
  | _ => exact h.elim

theorem Datum.isWrite_other (hs : ¬ Datum.SamePick current s t) : d'.child t = base.child t := by
  cases base with
  | list items =>
    obtain ⟨index, hi, -, rfl⟩ := h
    obtain ⟨rfl, -⟩ | ⟨-, h | h⟩ := hb
    · have hne : parsePathIndex t.text.1 ≠ some index := fun e => hs (by
        rw [Datum.SamePick, hi, e])
      cases ht : parsePathIndex t.text.1 with
      | none => simp only [Datum.child, ht, bind_none]
      | some j =>
        have hj : index ≠ j := fun e => hne (by rw [ht, e])
        simp [Datum.child, ht, getElem?_set_ne hj]
    · cases h
    · cases h
  | map entries | dict entries =>
    obtain rfl := h
    have hne : t.text.1 ≠ s.text.1 := by
      intro e
      have hst : s.text = t.text := Subtype.ext e.symm
      obtain ⟨rfl, -⟩ | ⟨rfl | rfl, -⟩ := hb <;> exact hs hst
    simp only [Datum.child, lookup_put_of_ne hne]
  | _ => exact h.elim

end

def datumNodes : Nodes Datum ArkshValuePathSegment where
  child := Datum.child
  Base := Datum.IsBase
  Write := Datum.IsWrite
  Same := Datum.SamePick
  Keeps d := d.stored = d
  base_child h s := Datum.child_isBase h s
  child_same hb h := Datum.samePick_child hb h
  write_child h hc := Datum.child_isWrite h hc
  write_keeps h := Datum.stored_isWrite h
  write_same hb h hs := Datum.samePick_isWrite hb h hs
  write_other hb h hs := Datum.isWrite_other hb h hs

/-! ## 5. The two functions on what records denote -/

theorem lookup_denoteEntries (key : Text) (entries : List ArkshValueMapEntry) :
    (entries.map fun e => (e.key.1, e.value.denote)).lookup key =
      (findEntry key entries).map ArkshValueItem.denote := by
  induction entries with
  | nil => rfl
  | cons e entries ih =>
    rw [map_cons, lookup_cons_ite, ih, findEntry]
    by_cases h : e.key.1 = key
    · simp [h]
    · rw [if_neg h, if_neg fun e => h e.symm]

variable {base v updated out : ArkshValue}

theorem child_denote_isMapLike (h : v.kind.isMapLike = true) (segment : ArkshValuePathSegment) :
    v.denote.child segment =
      (arkshValueMapGetItem v segment.text.1).map ArkshValueItem.denote := by
  rw [arkshValueMapGetItem, if_pos h, ← lookup_denoteEntries]
  cases hk : v.kind with
  | map => rw [denote_map v hk]; rfl
  | dict => rw [denote_dict v hk]; rfl
  | _ => rw [hk] at h; cases h

theorem child_denote_list (h : v.kind = .list) (segment : ArkshValuePathSegment) :
    v.denote.child segment = (parsePathIndex segment.text.1).bind fun index =>
      v.list[index]?.map ArkshValueItem.denote := by
  rw [denote_list v h]
  simp only [Datum.child, getElem?_map]

theorem child_denote_other (hm : v.kind.isMapLike = false) (hl : v.kind ≠ .list)
    (segment : ArkshValuePathSegment) : v.denote.child segment = none := by
  have hk := kind_denote v
  cases hd : v.denote <;> rw [hd] at hk <;> first
    | rfl
    | exact absurd hk.symm hl
    | (rw [← hk] at hm; cases hm)

/-- **The reading loop follows the path in the tree.** -/
theorem denote_getSegments (segments : List ArkshValuePathSegment) (v : ArkshValue) :
    (getSegments v segments).map ArkshValue.denote = datumNodes.get v.denote segments := by
  induction segments generalizing v with
  | nil => rfl
  | cons segment segments ih =>
    have hchild : datumNodes.child v.denote segment = v.denote.child segment := rfl
    rw [getSegments, Nodes.get, hchild]
    by_cases hm : v.kind.isMapLike = true
    · rw [if_pos hm, child_denote_isMapLike hm]
      cases arkshValueMapGetItem v segment.text.1 with
      | none => rfl
      | some entry => simp only [ih, denote_copy, denote_setFromItem]; rfl
    · rw [if_neg hm]
      by_cases hl : v.kind = .list
      · rw [if_pos hl, child_denote_list hl]
        cases parsePathIndex segment.text.1 with
        | none => rfl
        | some index =>
          simp only [bind_some]
          cases v.list[index]? with
          | none => rfl
          | some item => simp only [ih, denote_copy, denote_setFromItem]; rfl
      · rw [if_neg hl, child_denote_other (Bool.eq_false_of_not_eq_true hm) hl]; rfl

variable {current : Option ArkshValue}

theorem isBase_pathBase {defaultKind : ArkshValueKind}
    (h : pathBase current defaultKind segment = .ok base) :
    Datum.IsBase (current.map ArkshValue.denote) base.denote := by
  have hfresh : pathBase.vivify defaultKind segment = .ok base →
      base.denote = .map [] ∨ base.denote = .dict [] := by
    intro hv
    unfold pathBase.vivify setMapLikeKind at hv
    split at hv
    · cases hv
    · cases hv
      split
      · exact .inr rfl
      · exact .inl rfl
  unfold pathBase at h
  cases current with
  | none => exact .inr ⟨.inl rfl, hfresh h⟩
  | some v =>
    by_cases he : v.kind = .empty
    · simp only [he, if_true] at h
      have hd : v.denote = .empty := by
        have hk := kind_denote v
        rw [he] at hk
        cases hd : v.denote <;> rw [hd] at hk <;> first | rfl | cases hk
      exact .inr ⟨.inr (by rw [map_some, hd]), hfresh h⟩
    · simp only [he, if_false] at h
      cases h
      refine .inl ⟨rfl, fun hd => he ?_⟩
      rw [← kind_denote base, hd]
      rfl

theorem isWrite_mapSet (hm : base.kind.isMapLike = true)
    (h : arkshValueMapSet (arkshValueCopy base) segment.text.1 updated = some out) :
    base.denote.IsWrite segment updated.denote out.denote := by
  have hcopy : (arkshValueCopy base).denote = base.denote := denote_copy base
  have hkind : (arkshValueCopy base).kind = base.kind := by
    rw [← kind_denote, hcopy, kind_denote]
  have hne : segment.text.1 ≠ [] := (mapSet_some h).1
  rw [mapSet_of_isMapLike (by rw [hkind, hm]) hne] at h
  obtain rfl := Option.some.inj h
  have hput := map_setEntry segment.text.2 updated (arkshValueCopy base).map
  have hout (es : List ArkshValueMapEntry) (k : ArkshValueKind) (hk : base.kind = k) :
      ({ arkshValueCopy base with map := es } : ArkshValue).kind = k := hkind.trans hk
  rw [← hcopy]
  cases hk : base.kind with
  | map =>
    rw [denote_map _ (hkind.trans hk), denote_map _ (hout _ _ hk), Datum.IsWrite, hput]
  | dict =>
    rw [denote_dict _ (hkind.trans hk), denote_dict _ (hout _ _ hk), Datum.IsWrite, hput]
  | _ => rw [hk] at hm; cases hm

theorem isWrite_replaceListItem {index : Nat} (hl : base.kind = .list)
    (hi : parsePathIndex segment.text.1 = some index) (hlt : index < base.list.length) :
    base.denote.IsWrite segment updated.denote
      (replaceListItem (arkshValueCopy base) index updated).denote := by
  have hcopy : (arkshValueCopy base).denote = base.denote := denote_copy base
  have hkind : (arkshValueCopy base).kind = .list := by
    rw [← kind_denote, hcopy, kind_denote, hl]
  have hitems := hcopy
  rw [denote_list _ hkind, denote_list _ hl] at hitems
  have hlen := congrArg List.length (Datum.list.inj hitems)
  rw [length_map, length_map] at hlen
  rw [← hcopy, denote_list _ hkind, denote_list (replaceListItem _ _ _) hkind]
  refine ⟨index, hi, ?_, ?_⟩
  · rw [length_map, hlen]; exact hlt
  · rw [replaceListItem, map_set, denote_itemSetFromValue]

/-- **A write that goes through is a write in the tree.** -/
theorem puts_setPathRecursive {r : ArkshValue} (segments : List ArkshValuePathSegment)
    {kind : ArkshValueKind} (h : setPathRecursive r current kind segments = .ok out) :
    datumNodes.Puts (current.map ArkshValue.denote) segments r.denote out.denote := by
  induction segments generalizing current kind out with
  | nil =>
    cases h
    rw [denote_copy]
    exact .here _ _
  | cons segment segments ih =>
    rw [setPathRecursive.eq_def] at h
    simp only at h
    split at h
    · cases h
    rename_i base hbase
    have hb := isBase_pathBase hbase
    by_cases hm : base.kind.isMapLike = true
    · rw [if_pos hm] at h
      split at h
      · cases h
      rename_i updated hrec
      split at h
      · cases h
      rename_i out' hset
      cases h
      refine .step hb ?_ (isWrite_mapSet hm hset)
      have hchild : datumNodes.child base.denote segment =
          ((arkshValueMapGetItem base segment.text.1).map arkshValueSetFromItem).map
            ArkshValue.denote := by
        rw [Option.map_map, Function.comp_def]
        simp only [denote_setFromItem]
        exact child_denote_isMapLike hm segment
      rw [hchild]
      exact ih hrec
    · rw [if_neg hm] at h
      by_cases hl : base.kind = .list
      · rw [if_pos hl] at h
        split at h
        · cases h
        rename_i index hi
        split at h
        · cases h
        rename_i item hitem
        have hlt : index < base.list.length := (List.getElem?_eq_some_iff.mp hitem).1
        have hchild : datumNodes.child base.denote segment =
            (some (arkshValueSetFromItem item)).map ArkshValue.denote := by
          rw [map_some, denote_setFromItem]
          have := child_denote_list hl segment
          rw [hi, bind_some, hitem] at this
          exact this
        split at h
        · cases h; exact .step hb (.here _ _) (isWrite_replaceListItem hl hi hlt)
        · split at h
          · cases h
          rename_i updated hrec
          cases h
          refine .step hb ?_ (isWrite_replaceListItem hl hi hlt)
          rw [hchild]
          exact ih hrec
      · rw [if_neg hl] at h; cases h

/-! ## 6. The laws -/

/-- At some node that `p` visits in `v`, the path `q` selects another key or index. -/
def PathsDiverge (v : ArkshValue) (p q : Text) : Prop :=
  ∃ ps qs, parseValuePathSegments p = .ok ps ∧ parseValuePathSegments q = .ok qs ∧
    datumNodes.Diverges (some v.denote) ps qs

/-- What `arksh_value_get_path` reports: the error, nothing found, or the datum found. -/
def pathReading (v : ArkshValue) (p : Text) : Except String (Option Datum) :=
  (arkshValueGetPath v p).map (Option.map ArkshValue.denote)

theorem pathReading_of_segments {p : Text} {ps : List ArkshValuePathSegment}
    (hp : parseValuePathSegments p = .ok ps) :
    pathReading v p = .ok (datumNodes.get v.denote ps) := by
  rw [pathReading, arkshValueGetPath, hp]
  have := denote_getSegments ps (arkshValueCopy v)
  rw [denote_copy] at this
  rw [← this]
  simp [Except.map, Function.comp_def, denote_copy]

/-- **Put-get and frame.** -/
theorem setPath_lens {v r out : ArkshValue} {p : Text} (hr : r.holdsTable = false)
    (h : arkshValueSetPath v p r = .ok out) : pathReading out p = .ok (some r.denote) ∧
      ∀ q, PathsDiverge v p q → pathReading out q = pathReading v q := by
  have hkeeps : datumNodes.Keeps r.denote := (stored_denote_eq_iff r).mpr hr
  unfold arkshValueSetPath at h
  split at h
  · cases h
  split at h
  · cases h
  rename_i ps hps
  have hputs := puts_setPathRecursive ps h
  refine ⟨?_, ?_⟩
  · rw [pathReading_of_segments hps, datumNodes.get_of_puts hputs hkeeps]
  · intro q ⟨ps', qs, hp, hq, hdiv⟩
    obtain rfl : ps = ps' := by rw [hps] at hp; exact Except.ok.inj hp
    rw [pathReading_of_segments hq, pathReading_of_segments hq,
      datumNodes.get_of_diverges hputs hkeeps hdiv]
    rfl

/-- Two nested maps are created under `a.b`. -/
theorem setPath_lens_created : ∃ out,
    arkshValueSetPath arkshValueSetMap ['a', '.', 'b'] (arkshValueSetBoolean true) = .ok out ∧
      pathReading out ['a', '.', 'b'] = .ok (some (.boolean true)) ∧
      ∀ q, PathsDiverge arkshValueSetMap ['a', '.', 'b'] q →
        pathReading out q = pathReading arkshValueSetMap q := by
  have h : ∃ out, arkshValueSetPath arkshValueSetMap ['a', '.', 'b']
      (arkshValueSetBoolean true) = .ok out := ⟨_, rfl⟩
  obtain ⟨out, h⟩ := h
  exact ⟨out, h, setPath_lens rfl h⟩

end Arksh
