/-
  Subject: List indices in value paths.

  `parse_path_index` adds up the digits of a segment in a `size_t` that wraps, so an index of 2^64
  or more selects the element at its remainder. The reference is the same reading and the same
  writing with indices of any size.
-/
import Arksh.Lib.Decimal
import Arksh.Object.Path

namespace Arksh

open CText Assoc List Nat

/-! ## 1. The number of a segment -/

variable {segment : ArkshValuePathSegment} {index : Text → Option Nat}
  {segments rest : List ArkshValuePathSegment} {items : List Datum}

/-- The number that a segment of digits spells. -/
def decimalIndex (text : Text) : Option Nat :=
  if text = [] ∨ text.all isdigit = false then none else some (digitsValue 10 text)

theorem parsePathIndex_eq (text : Text) :
    parsePathIndex text = (decimalIndex text).map (· % 2 ^ 64) := by
  unfold parsePathIndex decimalIndex
  split
  · rfl
  · rename_i h
    rw [not_or, Bool.not_eq_false, all_eq_true] at h
    have hfold : ∀ ds : Text, (∀ c ∈ ds, isdigit c = true) →
        ds.foldl (fun value c => (value * 10 + (c.toNat - '0'.toNat)) % 2 ^ 64) 0 =
          digitsValue 10 ds % 2 ^ 64 := by
      intro ds
      induction ds using List.reverseRecOn with
      | nil => exact fun _ => rfl
      | append_singleton ds c ih =>
        intro hds
        have hc := hds c (mem_append_right _ (mem_singleton_self c))
        have hrest := ih fun d hd => hds d (mem_append_left _ hd)
        rw [foldl_append, foldl_cons, foldl_nil, hrest, digitsValue_concat,
          hexDigitValue_of_isdigit hc]
        omega
    rw [hfold text h.2]
    rfl

def selectedIndex (index : Text → Option Nat) (count : Nat) (segment : ArkshValuePathSegment) :
    Option Nat :=
  (index segment.text.1).filter (· < count)

/-- An index that the code reads as what it is, or as another one that is no index of the list
    either. -/
def IndexFits (n count : Nat) : Prop := n < 2 ^ 64 ∨ count ≤ n % 2 ^ 64

theorem IndexFits.cases {n count : Nat} (h : IndexFits n count) :
    n % 2 ^ 64 = n ∨ (count ≤ n % 2 ^ 64 ∧ count ≤ n) := by
  rcases h with h | h
  · exact .inl (mod_eq_of_lt h)
  · exact .inr ⟨h, h.trans (mod_le _ _)⟩

theorem selectedIndex_iff {n : Nat} (h : decimalIndex segment.text.1 = some n) (count : Nat) :
    selectedIndex parsePathIndex count segment = (if n < count then some n else none) ↔
      IndexFits n count := by
  have hselected : selectedIndex parsePathIndex count segment =
      if n % 2 ^ 64 < count then some (n % 2 ^ 64) else none := by
    rw [selectedIndex, parsePathIndex_eq, h]
    simp [Option.filter]
  rw [hselected]
  constructor
  · intro heq
    by_cases hlt : n % 2 ^ 64 < count
    · rw [if_pos hlt] at heq
      split at heq
      · exact .inl (Option.some.inj heq ▸ Nat.mod_lt _ (Nat.two_pow_pos 64))
      · cases heq
    · exact .inr (Nat.le_of_not_lt hlt)
  · intro hfits
    rcases hfits.cases with he | ⟨hmod, hn⟩
    · rw [he]
    · rw [if_neg (not_lt.mpr hmod), if_neg (not_lt.mpr hn)]

/-! ## 2. The two functions with another reading of indices -/

/-- `getSegments` with another reading of indices. -/
def getSegmentsWith (index : Text → Option Nat) :
    ArkshValue → List ArkshValuePathSegment → Option ArkshValue
  | current, [] => some current
  | current, segment :: segments =>
    if current.kind.isMapLike then
      match arkshValueMapGetItem current segment.text.1 with
      | none => none
      | some entry =>
        getSegmentsWith index (arkshValueCopy (arkshValueSetFromItem entry)) segments
    else if current.kind = .list then
      match index segment.text.1 with
      | none => none
      | some n =>
        match current.list[n]? with
        | none => none
        | some item =>
          getSegmentsWith index (arkshValueCopy (arkshValueSetFromItem item)) segments
    else none

/-- `arkshValueGetPath` with another reading of indices. -/
def getPathWith (index : Text → Option Nat) (value : ArkshValue) (path : Text) :
    Except String (Option ArkshValue) :=
  match parseValuePathSegments path with
  | .error e => .error e
  | .ok segments =>
    .ok ((getSegmentsWith index (arkshValueCopy value) segments).map arkshValueCopy)

/-- `setPathRecursive` with another reading of indices. -/
def setPathRecursiveWith (index : Text → Option Nat) (replacement : ArkshValue) :
    Option ArkshValue → ArkshValueKind → List ArkshValuePathSegment → Except String ArkshValue
  | _, _, [] => .ok (arkshValueCopy replacement)
  | current, defaultKind, segment :: segments =>
    match pathBase current defaultKind segment with
    | .error e => .error e
    | .ok base =>
      if base.kind.isMapLike then
        match setPathRecursiveWith index replacement
            ((arkshValueMapGetItem base segment.text.1).map arkshValueSetFromItem)
            (mapLikeKindFor base) segments with
        | .error e => .error e
        | .ok updated =>
          match arkshValueMapSet (arkshValueCopy base) segment.text.1 updated with
          | none => .error "set_path() failed to update map"
          | some out => .ok out
      else if base.kind = .list then
        match index segment.text.1 with
        | none => .error
            ("set_path() expected a list index, got " ++ String.ofList segment.text.1)
        | some n =>
          match base.list[n]? with
          | none => .error
              ("set_path() list index out of range: " ++ String.ofList segment.text.1)
          | some item =>
            match segments with
            | [] => .ok (replaceListItem (arkshValueCopy base) n replacement)
            | next :: segments =>
              match setPathRecursiveWith index replacement (some (arkshValueSetFromItem item)) .map
                  (next :: segments) with
              | .error e => .error e
              | .ok updated => .ok (replaceListItem (arkshValueCopy base) n updated)
      else .error
        ("set_path() cannot descend into a " ++ arkshValueKindName base.kind ++ " value")

/-- `arkshValueSetPath` with another reading of indices. -/
def setPathWith (index : Text → Option Nat) (value : ArkshValue) (path : Text)
    (replacement : ArkshValue) : Except String ArkshValue :=
  if value.kind.isMapLike = false then .error "set_path() is only valid on map or dict values"
  else
    match parseValuePathSegments path with
    | .error e => .error e
    | .ok segments =>
      setPathRecursiveWith index replacement (some value) (mapLikeKindFor value) segments

/-! ## 3. The lists of a path -/

variable {v : ArkshValue}

def Datum.childAt (index : Text → Option Nat) : Datum → ArkshValuePathSegment → Option Datum
  | .map entries, segment => entries.lookup segment.text.1
  | .dict entries, segment => entries.lookup segment.text.1
  | .list items, segment => (index segment.text.1).bind (items[·]?)
  | _, _ => none

/-- Segments come from `d` to the list `items`, where `segment` is the next one and `rest` stands
    behind it. -/
inductive ListReached (index : Text → Option Nat) :
    Datum → List ArkshValuePathSegment → List Datum → ArkshValuePathSegment →
      List ArkshValuePathSegment → Prop
  | here (items : List Datum) (segment : ArkshValuePathSegment)
      (rest : List ArkshValuePathSegment) :
      ListReached index (.list items) (segment :: rest) items segment rest
  | step {d c : Datum} {first segment : ArkshValuePathSegment}
      {segments rest : List ArkshValuePathSegment} {items : List Datum}
      (child : d.childAt index first = some c)
      (reached : ListReached index c segments items segment rest) :
      ListReached index d (first :: segments) items segment rest

variable {d c : Datum}

theorem ListReached.ne_nil (h : ListReached index d segments items segment rest) :
    segments ≠ [] := by
  cases h <;> exact cons_ne_nil _ _

def SegmentFits (items : List Datum) (segment : ArkshValuePathSegment) : Prop :=
  ∀ n, decimalIndex segment.text.1 = some n → IndexFits n items.length

theorem childAt_of_fits (h : ∀ items, d = .list items → SegmentFits items segment) :
    d.childAt parsePathIndex segment = d.childAt decimalIndex segment := by
  cases d with
  | list items =>
    simp only [Datum.childAt, parsePathIndex_eq]
    cases hn : decimalIndex segment.text.1 with
    | none => rfl
    | some n =>
      rcases (h items rfl n hn).cases with he | ⟨hmod, hle⟩
      · simp only [Option.map_some, Option.bind_some, he]
      · simp only [Option.map_some, Option.bind_some, getElem?_eq_none hmod, getElem?_eq_none hle]
  | _ => rfl

theorem ListReached.transfer {index' : Text → Option Nat}
    (hchild : ∀ (d : Datum) (s : ArkshValuePathSegment),
      (∀ items, d = .list items → SegmentFits items s) → d.childAt index s = d.childAt index' s)
    (h : ListReached index d segments items segment rest)
    (hfits : ∀ items s rest, ListReached index' d segments items s rest → SegmentFits items s) :
    ListReached index' d segments items segment rest := by
  induction h with
  | here items segment rest => exact .here items segment rest
  | @step d c first segment segments rest items child reached ih =>
    have hnext : d.childAt index' first = some c := by
      rw [← child]
      refine (hchild d first fun items hd => ?_).symm
      subst hd
      exact hfits items first segments (.here items first segments)
    exact .step hnext (ih fun items s rest h => hfits items s rest (.step hnext h))

theorem segmentFits_iff (d : Datum) (segments : List ArkshValuePathSegment) :
    (∀ items s rest, ListReached parsePathIndex d segments items s rest → SegmentFits items s) ↔
      ∀ items s rest, ListReached decimalIndex d segments items s rest → SegmentFits items s :=
  ⟨fun h items s rest hr =>
      h items s rest (hr.transfer (fun _ _ hfits => (childAt_of_fits hfits).symm) h),
    fun h items s rest hr => h items s rest (hr.transfer (fun _ _ => childAt_of_fits) h)⟩

def VisitedSegmentsFit (d : Datum) (segments : List ArkshValuePathSegment) : Prop :=
  ∀ items s rest, ListReached decimalIndex d segments items s rest → SegmentFits items s

theorem VisitedSegmentsFit.step {segments : List ArkshValuePathSegment}
    (h : VisitedSegmentsFit d (segment :: segments))
    (hchild : d.childAt decimalIndex segment = some c) : VisitedSegmentsFit c segments :=
  fun items s rest hr => h items s rest (.step hchild hr)

theorem VisitedSegmentsFit.here {segments : List ArkshValuePathSegment}
    (h : VisitedSegmentsFit v.denote (segment :: segments)) (hl : v.kind = .list) {n : Nat}
    (hn : decimalIndex segment.text.1 = some n) : IndexFits n v.list.length := by
  rw [denote_list v hl] at h
  have hfits := h _ segment segments (.here _ segment segments) n hn
  rwa [length_map] at hfits

theorem childAt_denote_isMapLike (index : Text → Option Nat) (h : v.kind.isMapLike = true)
    (segment : ArkshValuePathSegment) : v.denote.childAt index segment =
      (arkshValueMapGetItem v segment.text.1).map ArkshValueItem.denote := by
  rw [← child_denote_isMapLike h segment]
  have hk := kind_denote v
  cases hd : v.denote with
  | list items =>
    rw [hd] at hk
    rw [← hk] at h
    cases h
  | _ => rfl

theorem childAt_denote_list (index : Text → Option Nat) (h : v.kind = .list)
    (segment : ArkshValuePathSegment) :
    v.denote.childAt index segment = (index segment.text.1).bind fun n =>
      v.list[n]?.map ArkshValueItem.denote := by
  rw [denote_list v h]
  simp only [Datum.childAt, getElem?_map]

/-! ## 4. Paths that fit -/

theorem getSegments_eq_with (v : ArkshValue) (segments : List ArkshValuePathSegment) :
    getSegments v segments = getSegmentsWith parsePathIndex v segments := by
  induction segments generalizing v with
  | nil => rfl
  | cons segment segments ih =>
    have hstep := getSegments.eq_def v (segment :: segments)
    simp only [ih] at hstep
    exact hstep

theorem getPath_eq_with (v : ArkshValue) (path : Text) :
    arkshValueGetPath v path = getPathWith parsePathIndex v path := by
  have hread := arkshValueGetPath.eq_def v path
  simp only [getSegments_eq_with] at hread
  exact hread

theorem setPathRecursive_eq_with (r : ArkshValue) (segments : List ArkshValuePathSegment)
    (current : Option ArkshValue) (kind : ArkshValueKind) :
    setPathRecursive r current kind segments =
      setPathRecursiveWith parsePathIndex r current kind segments := by
  induction segments generalizing current kind with
  | nil => rfl
  | cons segment segments ih =>
    have hstep := setPathRecursive.eq_def r current kind (segment :: segments)
    cases segments with
    | nil | cons next segments =>
      simp only [ih] at hstep
      rw [setPathRecursiveWith.eq_def]
      exact hstep

theorem setPath_eq_with (v r : ArkshValue) (path : Text) :
    arkshValueSetPath v path r = setPathWith parsePathIndex v path r := by
  have hwrite := arkshValueSetPath.eq_def v path r
  simp only [setPathRecursive_eq_with] at hwrite
  exact hwrite

/-- **Where the segments fit, reading is exact.** -/
theorem getSegmentsWith_of_fits (h : VisitedSegmentsFit v.denote segments) :
    getSegmentsWith parsePathIndex v segments = getSegmentsWith decimalIndex v segments := by
  induction segments generalizing v with
  | nil => rfl
  | cons segment segments ih =>
    rw [getSegmentsWith, getSegmentsWith]
    by_cases hm : v.kind.isMapLike = true
    · rw [if_pos hm, if_pos hm]
      cases he : arkshValueMapGetItem v segment.text.1 with
      | none => rfl
      | some entry =>
        refine ih (h.step ?_)
        rw [childAt_denote_isMapLike decimalIndex hm, he, denote_copy, denote_setFromItem]
        rfl
    · rw [if_neg hm, if_neg hm]
      by_cases hl : v.kind = .list
      · rw [if_pos hl, if_pos hl, parsePathIndex_eq]
        cases hn : decimalIndex segment.text.1 with
        | none => rfl
        | some n =>
          simp only [Option.map_some]
          rcases (h.here hl hn).cases with he | ⟨hmod, hle⟩
          · rw [he]
            cases hi : v.list[n]? with
            | none => rfl
            | some item =>
              refine ih (h.step ?_)
              rw [childAt_denote_list decimalIndex hl, hn, Option.bind_some, hi, denote_copy,
                denote_setFromItem]
              rfl
          · rw [getElem?_eq_none hmod, getElem?_eq_none hle]
      · rw [if_neg hl, if_neg hl]

/-- **So is writing.** -/
theorem setPathRecursiveWith_of_fits (r : ArkshValue) {segments : List ArkshValuePathSegment}
    {current : Option ArkshValue} {kind : ArkshValueKind}
    (h : ∀ v, current = some v → VisitedSegmentsFit v.denote segments) :
    setPathRecursiveWith parsePathIndex r current kind segments =
      setPathRecursiveWith decimalIndex r current kind segments := by
  induction segments generalizing current kind with
  | nil => rfl
  | cons segment segments ih =>
    rw [setPathRecursiveWith.eq_def, setPathRecursiveWith.eq_def]
    simp only
    cases hbase : pathBase current kind segment with
    | error e => rfl
    | ok base =>
      -- a fresh map has no children, and any other base is the value that is there
      have hfits : VisitedSegmentsFit base.denote (segment :: segments) := by
        intro items s rest hr
        rcases isBase_pathBase hbase with ⟨hcurrent, -⟩ | ⟨-, hfresh | hfresh⟩
        · obtain ⟨v, hv, hdenote⟩ := Option.map_eq_some_iff.mp hcurrent
          exact h v hv items s rest (hdenote ▸ hr)
        · rw [hfresh] at hr
          cases hr with
          | step child reached => cases child
        · rw [hfresh] at hr
          cases hr with
          | step child reached => cases child
      simp only
      by_cases hm : base.kind.isMapLike = true
      · rw [if_pos hm, if_pos hm]
        have hrec := @ih ((arkshValueMapGetItem base segment.text.1).map arkshValueSetFromItem)
          (mapLikeKindFor base) ?_
        · rw [hrec]
        · intro v hv
          obtain ⟨entry, he, rfl⟩ := Option.map_eq_some_iff.mp hv
          refine hfits.step ?_
          rw [childAt_denote_isMapLike decimalIndex hm, he, denote_setFromItem]
          rfl
      · rw [if_neg hm, if_neg hm]
        by_cases hl : base.kind = .list
        · rw [if_pos hl, if_pos hl, parsePathIndex_eq]
          cases hn : decimalIndex segment.text.1 with
          | none => rfl
          | some n =>
            simp only [Option.map_some]
            rcases (hfits.here hl hn).cases with he | ⟨hmod, hle⟩
            · rw [he]
              cases hi : base.list[n]? with
              | none => rfl
              | some item =>
                cases segments with
                | nil => rfl
                | cons next segments =>
                  have hrec := @ih (some (arkshValueSetFromItem item)) .map ?_
                  · simp only [hrec]
                  · intro v hv
                    cases hv
                    refine hfits.step ?_
                    rw [childAt_denote_list decimalIndex hl, hn, Option.bind_some, hi,
                      denote_setFromItem]
                    rfl
            · rw [getElem?_eq_none hmod, getElem?_eq_none hle]
        · rw [if_neg hl, if_neg hl]

/-! ## 5. Indices out of range -/

theorem of_denote_list (h : v.denote = .list items) :
    v.kind = .list ∧ v.list.length = items.length := by
  have hk : v.kind = .list := by rw [← kind_denote, h]; rfl
  rw [denote_list v hk] at h
  exact ⟨hk, by rw [← Datum.list.inj h, length_map]⟩

theorem not_isMapLike_of_list (h : v.kind = .list) : ¬ v.kind.isMapLike = true := by
  rw [h]
  exact Bool.false_ne_true

theorem kind_of_childAt (h : v.denote.childAt index segment = some c) :
    v.kind.isMapLike = true ∨ v.kind = .list := by
  rw [← kind_denote v]
  cases hd : v.denote <;> rw [hd] at h <;> first
    | exact .inl rfl
    | exact .inr rfl
    | cases h

section

variable {index : Text → Option Nat} {segments rest : List ArkshValuePathSegment}
  {items : List Datum} {segment : ArkshValuePathSegment} {d : Datum}

section

variable (h : ListReached index d segments items segment rest)
  (hout : ∀ n, index segment.text.1 = some n → items.length ≤ n) {v : ArkshValue}
  (hd : v.denote = d)
include h hout hd

theorem getSegmentsWith_outOfRange : getSegmentsWith index v segments = none := by
  induction h generalizing v with
  | here items segment rest =>
    obtain ⟨hl, hlength⟩ := of_denote_list hd
    rw [getSegmentsWith, if_neg (not_isMapLike_of_list hl), if_pos hl]
    cases hn : index segment.text.1 with
    | none => rfl
    | some n => simp only [getElem?_eq_none (hlength ▸ hout n hn)]
  | @step d c first segment segments rest items child reached ih =>
    subst hd
    rw [getSegmentsWith]
    rcases kind_of_childAt child with hm | hl
    · rw [if_pos hm]
      rw [childAt_denote_isMapLike index hm] at child
      obtain ⟨entry, he, rfl⟩ := Option.map_eq_some_iff.mp child
      rw [he]
      exact ih hout (by rw [denote_copy, denote_setFromItem])
    · rw [if_neg (not_isMapLike_of_list hl), if_pos hl]
      rw [childAt_denote_list index hl] at child
      obtain ⟨n, hn, hchild⟩ := Option.bind_eq_some_iff.mp child
      obtain ⟨item, hi, rfl⟩ := Option.map_eq_some_iff.mp hchild
      simp only [hn, hi]
      exact ih hout (by rw [denote_copy, denote_setFromItem])

theorem setPathRecursiveWith_outOfRange (r : ArkshValue) (kind : ArkshValueKind) :
    ∃ e, setPathRecursiveWith index r (some v) kind segments = .error e := by
  induction h generalizing v kind with
  | here items segment rest =>
    obtain ⟨hl, hlength⟩ := of_denote_list hd
    have hbase : pathBase (some v) kind segment = .ok v := by simp [pathBase, hl]
    rw [setPathRecursiveWith.eq_def]
    simp only [hbase, if_neg (not_isMapLike_of_list hl), if_pos hl]
    cases hn : index segment.text.1 with
    | none => exact ⟨_, rfl⟩
    | some n => simp only [getElem?_eq_none (hlength ▸ hout n hn)]; exact ⟨_, rfl⟩
  | @step d c first segment segments rest items child reached ih =>
    subst hd
    have hne : v.kind ≠ .empty := by
      rcases kind_of_childAt child with hm | hl
      · intro he
        rw [he] at hm
        cases hm
      · rw [hl]; decide
    have hbase : pathBase (some v) kind first = .ok v := by simp [pathBase, hne]
    rw [setPathRecursiveWith.eq_def]
    simp only [hbase]
    rcases kind_of_childAt child with hm | hl
    · rw [if_pos hm]
      rw [childAt_denote_isMapLike index hm] at child
      obtain ⟨entry, he, rfl⟩ := Option.map_eq_some_iff.mp child
      obtain ⟨e, hrec⟩ := ih hout (denote_setFromItem entry) (mapLikeKindFor v)
      rw [he, Option.map_some, hrec]
      exact ⟨e, rfl⟩
    · rw [if_neg (not_isMapLike_of_list hl), if_pos hl]
      rw [childAt_denote_list index hl] at child
      obtain ⟨n, hn, hchild⟩ := Option.bind_eq_some_iff.mp child
      obtain ⟨item, hi, rfl⟩ := Option.map_eq_some_iff.mp hchild
      simp only [hn, hi]
      obtain ⟨next, segments, rfl⟩ := exists_cons_of_ne_nil reached.ne_nil
      obtain ⟨e, hrec⟩ := ih hout (denote_setFromItem item) .map
      simp only [hrec]
      exact ⟨e, rfl⟩

end

end

/-! ## 6. The law -/

def AsksList (index : Text → Option Nat) (v : ArkshValue) (path : Text)
    (segment : ArkshValuePathSegment) (n count : Nat) : Prop :=
  ∃ segments items rest, parseValuePathSegments path = .ok segments ∧
    ListReached index v.denote segments items segment rest ∧ items.length = count ∧
    decimalIndex segment.text.1 = some n

/-- Segments asked of a list select the element whose number they spell; where there is none,
    nothing is found or written. -/
structure PathIndexLaw (v : ArkshValue) (path : Text) (r : ArkshValue) : Prop where
  selects : ∀ segment n count, AsksList parsePathIndex v path segment n count →
    selectedIndex parsePathIndex count segment = if n < count then some n else none
  reads : arkshValueGetPath v path = getPathWith decimalIndex v path
  writes : arkshValueSetPath v path r = setPathWith decimalIndex v path r
  notFound : ∀ segment n count, AsksList parsePathIndex v path segment n count → count ≤ n →
    arkshValueGetPath v path = .ok none
  fails : ∀ segment n count, AsksList parsePathIndex v path segment n count → count ≤ n →
    ∃ e, arkshValueSetPath v path r = .error e

/-- **The law of indices holds iff every index asked of a list is below 2^64, or has a remainder
    that is no index of it.** -/
theorem pathIndexLaw_iff (v r : ArkshValue) (path : Text) : PathIndexLaw v path r ↔
      ∀ segment n count, AsksList decimalIndex v path segment n count → IndexFits n count := by
  cases hparse : parseValuePathSegments path with
  | error e =>
    have hnone : ∀ index segment n count, ¬ AsksList index v path segment n count := by
      rintro index segment n count ⟨segments, items, rest, hok, -⟩
      rw [hparse] at hok
      cases hok
    refine ⟨fun _ segment n count h => absurd h (hnone _ _ _ _), fun _ => ⟨?_, ?_, ?_, ?_, ?_⟩⟩
    · exact fun segment n count h => absurd h (hnone _ _ _ _)
    · rw [arkshValueGetPath, getPathWith, hparse]
    · rw [arkshValueSetPath, setPathWith, hparse]
    · exact fun segment n count h => absurd h (hnone _ _ _ _)
    · exact fun segment n count h => absurd h (hnone _ _ _ _)
  | ok segments =>
    have hasks (index : Text → Option Nat) (segment : ArkshValuePathSegment) (n count : Nat) :
        AsksList index v path segment n count ↔
          ∃ items rest, ListReached index v.denote segments items segment rest ∧
            items.length = count ∧ decimalIndex segment.text.1 = some n := by
      constructor
      · rintro ⟨segments', items, rest, hok, h⟩
        rw [hparse] at hok
        cases hok
        exact ⟨items, rest, h⟩
      · rintro ⟨items, rest, h⟩; exact ⟨segments, items, rest, hparse, h⟩
    have hfitsIff (index : Text → Option Nat) :
        (∀ segment n count, AsksList index v path segment n count → IndexFits n count) ↔
          ∀ items s rest, ListReached index v.denote segments items s rest →
            SegmentFits items s := by
      constructor
      · intro h items s rest hr n hn
        exact h s n items.length ((hasks index s n _).mpr ⟨items, rest, hr, rfl, hn⟩)
      · intro h segment n count ha
        obtain ⟨items, rest, hr, rfl, hn⟩ := (hasks index segment n count).mp ha
        exact h items segment rest hr n hn
    rw [hfitsIff decimalIndex, ← segmentFits_iff]
    constructor
    · intro law items s rest hr n hn
      refine (selectedIndex_iff hn items.length).mp (law.selects s n items.length ?_)
      exact (hasks _ s n _).mpr ⟨items, rest, hr, rfl, hn⟩
    · intro hcode
      have hfits : VisitedSegmentsFit v.denote segments := (segmentFits_iff v.denote segments).mp hcode
      have hreads : arkshValueGetPath v path = getPathWith decimalIndex v path := by
        rw [getPath_eq_with, getPathWith, getPathWith, hparse]
        have hcopy : VisitedSegmentsFit (arkshValueCopy v).denote segments := by
          rw [denote_copy]
          exact hfits
        simp only [getSegmentsWith_of_fits hcopy]
      have hwrites : arkshValueSetPath v path r = setPathWith decimalIndex v path r := by
        rw [setPath_eq_with, setPathWith, setPathWith, hparse]
        simp only [@setPathRecursiveWith_of_fits r segments (some v) (mapLikeKindFor v)
          (fun w hw => Option.some.inj hw ▸ hfits)]
      have hreached : ∀ segment n count, AsksList parsePathIndex v path segment n count →
          count ≤ n → ∃ items rest,
            ListReached decimalIndex v.denote segments items segment rest ∧
              ∀ m, decimalIndex segment.text.1 = some m → items.length ≤ m := by
        intro segment n count ha hle
        obtain ⟨items, rest, hr, rfl, hn⟩ := (hasks _ segment n count).mp ha
        refine ⟨items, rest, hr.transfer (fun _ _ => childAt_of_fits) hfits, fun m hm => ?_⟩
        rw [hn] at hm
        exact Option.some.inj hm ▸ hle
      refine ⟨?_, hreads, hwrites, ?_, ?_⟩
      · intro segment n count ha
        obtain ⟨items, rest, hr, rfl, hn⟩ := (hasks _ segment n count).mp ha
        exact (selectedIndex_iff hn items.length).mpr (hcode items segment rest hr n hn)
      · intro segment n count ha hle
        obtain ⟨items, rest, hr, hout⟩ := hreached segment n count ha hle
        rw [hreads, getPathWith, hparse]
        simp only [getSegmentsWith_outOfRange hr hout (denote_copy v), Option.map_none]
      · intro segment n count ha hle
        obtain ⟨items, rest, hr, hout⟩ := hreached segment n count ha hle
        rw [hwrites, setPathWith, hparse]
        by_cases hm : v.kind.isMapLike = false
        · rw [if_pos hm]; exact ⟨_, rfl⟩
        · rw [if_neg hm]; exact setPathRecursiveWith_outOfRange hr hout rfl r (mapLikeKindFor v)

def flagListMap : ArkshValue :=
  { arkshValueSetMap with
    map := [⟨copyName ['a'], arkshValueItemSetFromValue
      { arkshValueInit with
        kind := .list, list := [arkshValueItemSetFromValue (arkshValueSetBoolean true)] }⟩] }

/-- `a[18446744073709551616]` is read as `a[0]`, which is found and replaced. -/
theorem not_pathIndexLaw_wrapped :
    ¬ ∀ (v r : ArkshValue) (path : Text), PathIndexLaw v path r := fun h => by
  have hlaw := h flagListMap (arkshValueSetBoolean false) "a[18446744073709551616]".toList
  have hfound : (arkshValueGetPath flagListMap "a[18446744073709551616]".toList).toOption.bind id
      ≠ none := by
    decide
  refine hfound ?_
  rw [hlaw.reads]
  decide

end Arksh
