/-
  Subject: The `sort` stage of object pipelines: `compare_items_by_property` and
           `apply_sort_stage` of `src/executor.c`.

  Two items are compared by the texts of a property: as numbers if both texts are digits only, as
  texts otherwise. What the text of an item's property is, in a buffer of 256 bytes, is a function
  that everything here is stated for.
-/
import Arksh.Lib.ExchangeSort
import Arksh.Lib.Strtoll
import Arksh.Object.Value
import Mathlib.Data.Char
import Mathlib.Data.List.Lex

namespace Arksh

open CText ExchangeSort List Option

/-! ## 1. The code -/

def isUnsignedText (text : Text) : Bool := text ≠ [] && text.all isdigit

/-- `strtoull` in base 10, of digits only. -/
def unsignedValue (text : Text) : Nat := min (digitsValue 10 text) (2 ^ 64 - 1)

/-- `strcmp`, of which only the sign counts. -/
def strcmp (left right : Text) : Int := if left < right then -1 else if right < left then 1 else 0

/-- The comparison in `compare_items_by_property`. -/
def compareTexts (left right : Text) : Int :=
  if isUnsignedText left ∧ isUnsignedText right then
    if unsignedValue left < unsignedValue right then -1
    else if unsignedValue left > unsignedValue right then 1
    else 0
  else strcmp left right

/-- What the buffers of `compare_items_by_property` hold. -/
abbrev ComparedText := {text : Text // text.length < 256}

/-- `get_item_property_text`, into such a buffer: there may be no property of the name. -/
abbrev PropertyText := ArkshValueItem → Text → Option ComparedText

section Stage

variable (propertyText : PropertyText) {texts : List Text} {descending : Bool}
  {ys items : List ArkshValueItem} {rawArgs : Text} {value sorted : ArkshValue}

def compareItemsByProperty (left right : ArkshValueItem) (property : Text) : Except Text Int :=
  match propertyText left property, propertyText right property with
  | some leftValue, some rightValue => .ok (compareTexts leftValue.1 rightValue.1)
  | _, _ => .error ("unknown property for sort: ".toList ++ property)

/-- A word that `sscanf` reads with `%<width>s`, and what stands behind it. -/
def scanWord (width : Nat) (text : Text) : Option (Text × Text) :=
  let text := text.dropWhile isspace
  let word := (text.takeWhile fun c => !isspace c).take width
  if word = [] then none else some (word, text.drop word.length)

/-- The argument of `sort`: a property, and whether the order is descending. -/
def parseSortArgs (rawArgs : Text) : Except Text (Text × Bool) :=
  match scanWord 127 rawArgs with
  | none => .error "sort() expects syntax like sort(size desc)".toList
  | some (property, rest) =>
    match scanWord 15 rest with
    | none => .ok (property, false)
    | some (direction, _) =>
      if direction = "desc".toList then .ok (property, true)
      else if direction = "asc".toList then .ok (property, false)
      else .error "sort() direction must be asc or desc".toList

/-- The two items that were compared have to change places. -/
def outOfOrder (descending : Bool) (cmp : Int) : Bool :=
  (descending && cmp < 0) || (!descending && cmp > 0)

/-- The inner loop of `apply_sort_stage`. -/
def sortPass (property : Text) (descending : Bool) :
    ArkshValueItem → List ArkshValueItem → Except Text (ArkshValueItem × List ArkshValueItem)
  | x, [] => .ok (x, [])
  | x, y :: ys =>
    (compareItemsByProperty propertyText x y property).bind fun cmp =>
      if outOfOrder descending cmp then
        (sortPass property descending y ys).map fun (first, rest) => (first, x :: rest)
      else (sortPass property descending x ys).map fun (first, rest) => (first, y :: rest)

def sortLoop (property : Text) (descending : Bool) :
    Nat → List ArkshValueItem → Except Text (List ArkshValueItem)
  | 0, items => .ok items
  | _ + 1, [] => .ok []
  | n + 1, x :: xs =>
    (sortPass propertyText property descending x xs).bind fun (first, rest) =>
      (sortLoop property descending n rest).map (first :: ·)

def applySortStage (value : ArkshValue) (rawArgs : Text) : Except Text ArkshValue :=
  if value.kind ≠ .list then .error "sort() expects a list".toList
  else
    (parseSortArgs rawArgs).bind fun (property, descending) =>
      (sortLoop propertyText property descending value.list.length value.list).map
        fun items => { value with list := items }

/-! ## 2. The comparison -/

variable {left right : Text}

def mayPrecede (descending : Bool) (left right : Text) : Prop :=
  outOfOrder descending (compareTexts left right) = false

instance (descending : Bool) : DecidableRel (mayPrecede descending) :=
  fun _ _ => inferInstanceAs (Decidable (_ = _))

theorem compareTexts_swap (left right : Text) :
    compareTexts right left = -compareTexts left right := by
  unfold compareTexts strcmp
  by_cases hnum : isUnsignedText left = true ∧ isUnsignedText right = true
  · rw [if_pos hnum.symm, if_pos hnum]
    rcases lt_trichotomy (unsignedValue left) (unsignedValue right) with hlt | heq | hgt
    · simp [hlt, hlt.not_gt]
    · simp [heq]
    · simp [hgt, hgt.not_gt]
  · rw [if_neg fun h => hnum h.symm, if_neg hnum]
    rcases lt_trichotomy left right with hlt | rfl | hgt
    · simp [hlt, hlt.not_gt]
    · simp
    · simp [hgt, hgt.not_gt]

theorem compareTexts_le : compareTexts left right ≤ 0 ↔
      if isUnsignedText left ∧ isUnsignedText right then unsignedValue left ≤ unsignedValue right
      else left ≤ right := by
  unfold compareTexts strcmp
  by_cases hnum : isUnsignedText left = true ∧ isUnsignedText right = true
  · rw [if_pos hnum, if_pos hnum]
    split
    · omega
    · split <;> omega
  · rw [if_neg hnum, if_neg hnum]
    rcases lt_trichotomy left right with hlt | rfl | hgt
    · simp [hlt, hlt.le]
    · simp
    · simp [hgt, hgt.not_gt]

theorem mayPrecede_ascending : mayPrecede false left right ↔ compareTexts left right ≤ 0 := by
  simp [mayPrecede, outOfOrder]

theorem mayPrecede_descending : mayPrecede true left right ↔ mayPrecede false right left := by
  rw [mayPrecede_ascending, compareTexts_swap]
  simp [mayPrecede, outOfOrder]

theorem mayPrecede_total (descending : Bool) (left right : Text) :
    mayPrecede descending left right ∨ mayPrecede descending right left := by
  have hascending : ∀ l r : Text, mayPrecede false l r ∨ mayPrecede false r l := by
    intro l r
    rw [mayPrecede_ascending, mayPrecede_ascending, compareTexts_swap l r]
    omega
  cases descending with
  | false => exact hascending left right
  | true => rw [mayPrecede_descending, mayPrecede_descending]; exact hascending right left

/-- Between numerals the texts count only where their values are the same; a tie between others is
    equality. -/
theorem compareTexts_tie (hle : mayPrecede false left right) (hge : mayPrecede false right left) :
    (isUnsignedText left = true ∧ isUnsignedText right = true ∧
      unsignedValue left = unsignedValue right) ∨ left = right := by
  rw [mayPrecede_ascending, compareTexts_le] at hle hge
  by_cases hnum : isUnsignedText left = true ∧ isUnsignedText right = true
  · rw [if_pos hnum] at hle
    rw [if_pos hnum.symm] at hge
    exact Or.inl ⟨hnum.1, hnum.2, by omega⟩
  · rw [if_neg hnum] at hle
    rw [if_neg fun h => hnum h.symm] at hge
    exact Or.inr (le_antisymm hle hge)

theorem mayPrecede_of_value (hleft : isUnsignedText left = true)
    (hright : isUnsignedText right = true) :
    mayPrecede false left right ↔ unsignedValue left ≤ unsignedValue right := by
  rw [mayPrecede_ascending, compareTexts_le, if_pos ⟨hleft, hright⟩]

theorem mayPrecede_of_text (h : ¬ (isUnsignedText left = true ∧ isUnsignedText right = true)) :
    mayPrecede false left right ↔ left ≤ right := by
  rw [mayPrecede_ascending, compareTexts_le, if_neg h]

theorem tiesTransitive_ascending : TiesTransitive (mayPrecede false) := by
  intro a b c hab hba hbc hcb
  rcases compareTexts_tie hab hba with ⟨ha, hb, hvalue⟩ | rfl
  · rcases compareTexts_tie hbc hcb with ⟨-, hc, hvalue'⟩ | rfl
    · rw [mayPrecede_of_value ha hc]; omega
    · exact hab
  · exact hbc

theorem tiesTransitive (descending : Bool) : TiesTransitive (mayPrecede descending) := by
  cases descending with
  | false => exact tiesTransitive_ascending
  | true =>
    intro a b c hab hba hbc hcb
    rw [mayPrecede_descending] at hab hba hbc hcb ⊢
    exact tiesTransitive_ascending c b a hbc hcb hab hba

/-- No other text stands in text order between two numerals that are the other way round or the same
    as numbers. -/
def TextsConsistent (texts : List Text) : Prop :=
  ∀ m ∈ texts, ∀ n ∈ texts, ∀ t ∈ texts, isUnsignedText m = true → isUnsignedText n = true →
    isUnsignedText t = false → unsignedValue m ≤ unsignedValue n → ¬ (n < t ∧ t < m)

def TransitiveOn (descending : Bool) (texts : List Text) : Prop :=
  ∀ a ∈ texts, ∀ b ∈ texts, ∀ c ∈ texts, mayPrecede descending a b → mayPrecede descending b c →
    mayPrecede descending a c

theorem ne_of_unsigned {a b : Text} (ha : isUnsignedText a = true) (hb : isUnsignedText b = false) :
    a ≠ b := by
  rintro rfl
  rw [ha] at hb
  cases hb

theorem transitive_of_consistent (h : TextsConsistent texts) : TransitiveOn false texts := by
  intro a ha b hb c hc hab hbc
  cases hna : isUnsignedText a <;> cases hnb : isUnsignedText b <;> cases hnc : isUnsignedText c
  case true.true.true =>
    rw [mayPrecede_of_value hna hnb] at hab
    rw [mayPrecede_of_value hnb hnc] at hbc
    rw [mayPrecede_of_value hna hnc]
    omega
  case true.true.false =>
    -- `c` is no numeral: it is behind `b`, so it cannot be in front of `a`
    rw [mayPrecede_of_value hna hnb] at hab
    rw [mayPrecede_of_text (by simp [hnc])] at hbc ⊢
    by_contra hac
    have hlt := lt_of_le_of_ne hbc (ne_of_unsigned hnb hnc)
    exact h a ha b hb c hc hna hnb hnc hab ⟨hlt, not_le.mp hac⟩
  case true.false.true =>
    rw [mayPrecede_of_text (by simp [hnb])] at hab hbc
    rw [mayPrecede_of_value hna hnc]
    by_contra hac
    have hlt := lt_of_le_of_ne hab (ne_of_unsigned hna hnb)
    have hlt' := lt_of_le_of_ne hbc (ne_of_unsigned hnc hnb).symm
    exact h c hc a ha b hb hnc hna hnb (by omega) ⟨hlt, hlt'⟩
  case false.true.true =>
    rw [mayPrecede_of_value hnb hnc] at hbc
    rw [mayPrecede_of_text (by simp [hna])] at hab ⊢
    by_contra hac
    have hlt := lt_of_le_of_ne hab (ne_of_unsigned hnb hna).symm
    exact h b hb c hc a ha hnb hnc hna hbc ⟨not_le.mp hac, hlt⟩
  all_goals
    -- at most one of the three is a numeral: every comparison is that of texts
    rw [mayPrecede_of_text (by simp [hna, hnb])] at hab
    rw [mayPrecede_of_text (by simp [hnb, hnc])] at hbc
    rw [mayPrecede_of_text (by simp [hna, hnc])]
    exact hab.trans hbc

/-- **The comparison is transitive on some texts exactly where they are consistent.** -/
theorem transitive_iff (descending : Bool) :
    TransitiveOn descending texts ↔ TextsConsistent texts := by
  have hascending : TransitiveOn false texts ↔ TextsConsistent texts := by
    refine ⟨?_, transitive_of_consistent⟩
    intro h m hm n hn t ht hnm hnn hnt hvalue ⟨hlt, hlt'⟩
    have hmn := (mayPrecede_of_value hnm hnn).mpr hvalue
    have hnt' := (mayPrecede_of_text (by simp [hnt])).mpr hlt.le
    have hmt := h m hm n hn t ht hmn hnt'
    rw [mayPrecede_of_text (by simp [hnt])] at hmt
    exact absurd hlt' (not_lt.mpr hmt)
  cases descending with
  | false => exact hascending
  | true =>
    rw [← hascending]
    constructor
    · intro h a ha b hb c hc hab hbc
      rw [← mayPrecede_descending] at hab hbc ⊢
      exact h c hc b hb a ha hbc hab
    · intro h a ha b hb c hc hab hbc
      rw [mayPrecede_descending] at hab hbc ⊢
      exact h c hc b hb a ha hbc hab

/-! ## 3. The stage -/

variable {property : Text}

def textOf (property : Text) (item : ArkshValueItem) : Text :=
  ((propertyText item property).map Subtype.val).getD []

def AllHave (property : Text) (items : List ArkshValueItem) : Prop :=
  ∀ item ∈ items, (propertyText item property).isSome

def itemPrecedes (property : Text) (descending : Bool) (left right : ArkshValueItem) : Prop :=
  mayPrecede descending (textOf propertyText property left) (textOf propertyText property right)

instance (property : Text) (descending : Bool) :
    DecidableRel (itemPrecedes propertyText property descending) :=
  fun _ _ => inferInstanceAs (Decidable (mayPrecede _ _ _))

theorem compareItems_of_have {left right : ArkshValueItem}
    (hleft : (propertyText left property).isSome) (hright : (propertyText right property).isSome) :
    compareItemsByProperty propertyText left right property =
      .ok (compareTexts (textOf propertyText property left)
        (textOf propertyText property right)) := by
  obtain ⟨l, hl⟩ := isSome_iff_exists.mp hleft
  obtain ⟨r, hr⟩ := isSome_iff_exists.mp hright
  simp [compareItemsByProperty, textOf, hl, hr]

theorem compareItems_ok {left right : ArkshValueItem} {cmp : Int}
    (h : compareItemsByProperty propertyText left right property = .ok cmp) :
    (propertyText left property).isSome ∧ (propertyText right property).isSome := by
  unfold compareItemsByProperty at h
  split at h
  · rename_i hl hr; simp [hl, hr]
  · cases h

/-- **The inner loop is a turn of exchange sort.** -/
theorem sortPass_ok :
    ∀ {x : ArkshValueItem}, AllHave propertyText property (x :: ys) →
      sortPass propertyText property descending x ys =
        .ok (exchangePass (itemPrecedes propertyText property descending) x ys) := by
  induction ys with
  | nil => intro x _; rfl
  | cons y ys ih =>
    intro x h
    have hx := h x (by simp)
    have hy := h y (by simp)
    have hkeep := ih (x := x) fun a ha => h a (by
      simp only [mem_cons] at ha ⊢
      tauto)
    have htake := ih (x := y) fun a ha => h a (mem_cons_of_mem _ ha)
    rw [sortPass, compareItems_of_have propertyText hx hy, hkeep, htake, exchangePass]
    by_cases hr : itemPrecedes propertyText property descending x y
    · have hout : outOfOrder descending (compareTexts (textOf propertyText property x)
          (textOf propertyText property y)) = false := hr
      simp [Except.bind, Except.map, hout, hr]
    · have hout : outOfOrder descending (compareTexts (textOf propertyText property x)
          (textOf propertyText property y)) = true := by
        simpa [itemPrecedes, mayPrecede] using hr
      simp [Except.bind, Except.map, hout, hr]

theorem AllHave.perm {xs : List ArkshValueItem} (h : AllHave propertyText property xs)
    (hperm : ys.Perm xs) :
    AllHave propertyText property ys := fun item hitem => h item (hperm.mem_iff.mp hitem)

theorem sortLoop_ok {descending : Bool} :
    ∀ (n : Nat) {xs : List ArkshValueItem}, AllHave propertyText property xs →
      sortLoop propertyText property descending n xs =
        .ok (exchangeLoop (itemPrecedes propertyText property descending) n xs) := by
  intro n
  induction n with
  | zero => intro xs _; rfl
  | succ n ih =>
    intro xs h
    cases xs with
    | nil => rfl
    | cons x xs =>
      have hperm := exchangePass_perm (itemPrecedes propertyText property descending) xs x
      have hrest := ih fun a ha =>
        h.perm propertyText hperm a (mem_cons_of_mem _ ha)
      rw [sortLoop, sortPass_ok propertyText h]
      simp only [Except.bind]
      rw [hrest]
      rfl

theorem sortPass_have :
    ∀ {x y : ArkshValueItem} {result : ArkshValueItem × List ArkshValueItem},
      sortPass propertyText property descending x (y :: ys) = .ok result →
      AllHave propertyText property (x :: y :: ys) := by
  induction ys with
  | nil =>
    intro x y result h
    rw [sortPass] at h
    cases hcmp : compareItemsByProperty propertyText x y property with
    | error e => rw [hcmp] at h; cases h
    | ok cmp =>
      obtain ⟨hx, hy⟩ := compareItems_ok propertyText hcmp
      intro item hitem
      simp only [mem_cons, not_mem_nil, or_false] at hitem
      rcases hitem with rfl | rfl
      · exact hx
      · exact hy
  | cons z ys ih =>
    intro x y result h
    rw [sortPass] at h
    cases hcmp : compareItemsByProperty propertyText x y property with
    | error e => rw [hcmp] at h; cases h
    | ok cmp =>
      obtain ⟨hx, hy⟩ := compareItems_ok propertyText hcmp
      rw [hcmp] at h
      simp only [Except.bind] at h
      have htail : ∀ item ∈ z :: ys, (propertyText item property).isSome := by
        split at h
        · cases hpass : sortPass propertyText property descending y (z :: ys) with
          | error e => rw [hpass] at h; cases h
          | ok r => exact fun item hitem => ih hpass item (mem_cons_of_mem _ hitem)
        · cases hpass : sortPass propertyText property descending x (z :: ys) with
          | error e => rw [hpass] at h; cases h
          | ok r => exact fun item hitem => ih hpass item (mem_cons_of_mem _ hitem)
      intro item hitem
      rcases mem_cons.mp hitem with rfl | hitem
      · exact hx
      rcases mem_cons.mp hitem with rfl | hitem
      · exact hy
      · exact htail item hitem

theorem sortLoop_have {n : Nat} {xs result : List ArkshValueItem} (hlen : xs.length ≤ n)
    (h : sortLoop propertyText property descending n xs = .ok result) :
    xs.length ≤ 1 ∨ AllHave propertyText property xs := by
  match n, xs, hlen, h with
  | _, [], _, _ => exact Or.inl (by simp)
  | _, [_], _, _ => exact Or.inl (by simp)
  | n + 1, x :: y :: ys, _, h =>
    rw [sortLoop] at h
    cases hpass : sortPass propertyText property descending x (y :: ys) with
    | error e => rw [hpass] at h; cases h
    | ok r => exact Or.inr (sortPass_have propertyText hpass)

/-! ## 4. The law -/

/-- One item compares less than or equal to another, or greater than or equal, as is asked for. -/
def ComparesInOrder (property : Text) (descending : Bool) (left right : ArkshValueItem) : Prop :=
  ∃ cmp, compareItemsByProperty propertyText left right property = .ok cmp ∧
    if descending then 0 ≤ cmp else cmp ≤ 0

/-- An arrangement of the items in which every one compares in order with every later one. -/
def SortsLaw (rawArgs : Text) (value : ArkshValue) : Prop :=
  ∀ property descending sorted, parseSortArgs rawArgs = .ok (property, descending) →
    applySortStage propertyText value rawArgs = .ok sorted →
    sorted.list.Perm value.list ∧
      sorted.list.Pairwise (ComparesInOrder propertyText property descending)

structure PreorderLaw (property : Text) (items : List ArkshValueItem) : Prop where
  refl : ∀ x ∈ items, compareItemsByProperty propertyText x x property = .ok 0
  swap : ∀ x ∈ items, ∀ y ∈ items, ∃ cmp,
    compareItemsByProperty propertyText x y property = .ok cmp ∧
      compareItemsByProperty propertyText y x property = .ok (-cmp)
  trans : ∀ x ∈ items, ∀ y ∈ items, ∀ z ∈ items,
    ComparesInOrder propertyText property false x y →
      ComparesInOrder propertyText property false y z →
        ComparesInOrder propertyText property false x z

theorem comparesInOrder_iff {left right : ArkshValueItem}
    (hleft : (propertyText left property).isSome) (hright : (propertyText right property).isSome) :
    ComparesInOrder propertyText property descending left right ↔
      itemPrecedes propertyText property descending left right := by
  unfold ComparesInOrder itemPrecedes mayPrecede outOfOrder
  rw [compareItems_of_have propertyText hleft hright]
  cases descending <;> simp

def textsOf (property : Text) (items : List ArkshValueItem) : List Text :=
  items.map (textOf propertyText property)

theorem itemPrecedes_trans (h : TextsConsistent (textsOf propertyText property items)) :
    ∀ a ∈ items, ∀ b ∈ items, ∀ c ∈ items, itemPrecedes propertyText property descending a b →
      itemPrecedes propertyText property descending b c →
      itemPrecedes propertyText property descending a c := by
  intro a ha b hb c hc hab hbc
  exact (transitive_iff descending).mpr h _ (mem_map_of_mem ha) _ (mem_map_of_mem hb) _
    (mem_map_of_mem hc) hab hbc

theorem preorderLaw_iff (h : AllHave propertyText property items) :
    PreorderLaw propertyText property items ↔
      TextsConsistent (textsOf propertyText property items) := by
  constructor
  · intro hlaw
    refine (transitive_iff false).mp ?_
    intro a ha b hb c hc hab hbc
    obtain ⟨x, hx, rfl⟩ := mem_map.mp ha
    obtain ⟨y, hy, rfl⟩ := mem_map.mp hb
    obtain ⟨z, hz, rfl⟩ := mem_map.mp hc
    exact (comparesInOrder_iff propertyText (h x hx) (h z hz)).mp
      (hlaw.trans x hx y hy z hz ((comparesInOrder_iff propertyText (h x hx) (h y hy)).mpr hab)
        ((comparesInOrder_iff propertyText (h y hy) (h z hz)).mpr hbc))
  · intro hconsistent
    refine ⟨?_, ?_, ?_⟩
    · intro x hx
      have hself := compareTexts_swap (textOf propertyText property x) (textOf propertyText property x)
      rw [compareItems_of_have propertyText (h x hx) (h x hx)]
      exact congrArg Except.ok (by omega)
    · intro x hx y hy
      refine ⟨_, compareItems_of_have propertyText (h x hx) (h y hy), ?_⟩
      rw [compareItems_of_have propertyText (h y hy) (h x hx), compareTexts_swap]
    · intro x hx y hy z hz hxy hyz
      rw [comparesInOrder_iff propertyText (h x hx) (h y hy)] at hxy
      rw [comparesInOrder_iff propertyText (h y hy) (h z hz)] at hyz
      rw [comparesInOrder_iff propertyText (h x hx) (h z hz)]
      exact itemPrecedes_trans propertyText hconsistent x hx y hy z hz hxy hyz

/-- The comparison that the stage is given is a total preorder on the items, if they have the
    property. -/
def ComparatorLaw (rawArgs : Text) (items : List ArkshValueItem) : Prop :=
  ∀ property descending, parseSortArgs rawArgs = .ok (property, descending) →
    AllHave propertyText property items → PreorderLaw propertyText property items

def StageConsistent (rawArgs : Text) (items : List ArkshValueItem) : Prop :=
  ∀ property descending, parseSortArgs rawArgs = .ok (property, descending) →
    (∃ item ∈ items, propertyText item property = none) ∨
      TextsConsistent (textsOf propertyText property items)

theorem allHave_or (property : Text) (items : List ArkshValueItem) :
    AllHave propertyText property items ∨ ∃ item ∈ items, propertyText item property = none := by
  by_cases h : ∃ item ∈ items, propertyText item property = none
  · exact Or.inr h
  · refine Or.inl fun item hitem => ?_
    rw [isSome_iff_ne_none]
    exact fun hnone => h ⟨item, hitem, hnone⟩

theorem comparatorLaw_iff :
    ComparatorLaw propertyText rawArgs items ↔ StageConsistent propertyText rawArgs items := by
  constructor
  · intro hlaw property descending hparse
    rcases allHave_or propertyText property items with hall | hnone
    · exact Or.inr ((preorderLaw_iff propertyText hall).mp (hlaw _ _ hparse hall))
    · exact Or.inl hnone
  · intro hconsistent property descending hparse hall
    rcases hconsistent _ _ hparse with ⟨item, hitem, hnone⟩ | htexts
    · have hsome := hall item hitem
      rw [hnone] at hsome
      cases hsome
    · exact (preorderLaw_iff propertyText hall).mpr htexts

theorem applySortStage_ok {rawArgs property : Text} {descending : Bool} {value : ArkshValue}
    (hlist : value.kind = .list) (hparse : parseSortArgs rawArgs = .ok (property, descending))
    (hall : AllHave propertyText property value.list) :
    applySortStage propertyText value rawArgs =
      .ok { value with
        list := exchangeSort (itemPrecedes propertyText property descending) value.list } := by
  have hloop := @sortLoop_ok propertyText property descending value.list.length _ hall
  simp [applySortStage, hlist, hparse, Except.bind, Except.map, hloop, exchangeSort]

theorem applySortStage_have {property : Text}
    (hparse : parseSortArgs rawArgs = .ok (property, descending))
    (h : applySortStage propertyText value rawArgs = .ok sorted) :
    value.list.length ≤ 1 ∨ AllHave propertyText property value.list := by
  by_cases hlist : value.kind = .list
  · simp only [applySortStage, hlist, hparse, Except.bind, ne_eq, not_true_eq_false, if_false] at h
    cases hloop : sortLoop propertyText property descending value.list.length value.list with
    | error e => rw [hloop] at h; cases h
    | ok result => exact sortLoop_have propertyText le_rfl hloop
  · rw [applySortStage, if_pos hlist] at h; cases h

theorem applySortStage_short (hlen : value.list.length ≤ 1)
    (h : applySortStage propertyText value rawArgs = .ok sorted) : sorted.list = value.list := by
  by_cases hlist : value.kind = .list
  · rw [applySortStage, if_neg (not_not.mpr hlist)] at h
    cases hparse : parseSortArgs rawArgs with
    | error e => rw [hparse] at h; cases h
    | ok args =>
      rw [hparse] at h
      have hloop : sortLoop propertyText args.1 args.2 value.list.length value.list =
          .ok value.list := by
        match value.list, hlen with
        | [], _ => rfl
        | [_], _ => rfl
      simp only [Except.bind, hloop, Except.map, Except.ok.injEq] at h
      rw [← h]
  · rw [applySortStage, if_pos hlist] at h; cases h

theorem sortsLaw_of_consistent (h : StageConsistent propertyText rawArgs value.list) :
    SortsLaw propertyText rawArgs value := by
  intro property descending sorted hparse hstage
  have hshort (hlen : value.list.length ≤ 1) : sorted.list.Perm value.list ∧
      sorted.list.Pairwise (ComparesInOrder propertyText property descending) := by
    rw [applySortStage_short propertyText hlen hstage]
    refine ⟨List.Perm.refl _, ?_⟩
    match value.list, hlen with
    | [], _ => exact List.Pairwise.nil
    | [_], _ => exact pairwise_singleton _ _
  rcases applySortStage_have propertyText hparse hstage with hlen | hall
  · exact hshort hlen
  rcases h _ _ hparse with ⟨item, hitem, hnone⟩ | htexts
  · have hsome := hall item hitem
    rw [hnone] at hsome
    cases hsome
  by_cases hlist : value.kind = .list
  · rw [applySortStage_ok propertyText hlist hparse hall] at hstage
    obtain rfl := Except.ok.inj hstage
    have hperm := exchangeSort_perm (itemPrecedes propertyText property descending) value.list
    have hsorted := exchangeSort_sorted (itemPrecedes propertyText property descending)
      (fun x y => mayPrecede_total descending _ _) value.list
      (itemPrecedes_trans propertyText htexts)
    refine ⟨hperm, hsorted.imp_of_mem ?_⟩
    intro a b ha hb hab
    exact (comparesInOrder_iff propertyText (hall a (hperm.mem_iff.mp ha))
      (hall b (hperm.mem_iff.mp hb))).mpr hab
  · rw [applySortStage, if_pos hlist] at hstage; cases hstage

theorem exists_perm_not_sortsLaw (hlist : value.kind = .list)
    (h : ¬ StageConsistent propertyText rawArgs value.list) :
    ∃ items, items.Perm value.list ∧
      ¬ SortsLaw propertyText rawArgs { value with list := items } := by
  simp only [StageConsistent, not_forall, not_or] at h
  obtain ⟨property, descending, hparse, hhave, htexts⟩ := h
  have hall := (allHave_or propertyText property value.list).resolve_right hhave
  rw [← transitive_iff descending] at htexts
  simp only [TransitiveOn, not_forall] at htexts
  obtain ⟨_, hta, _, htb, _, htc, hab, hbc, hac⟩ := htexts
  obtain ⟨a, ha, rfl⟩ := mem_map.mp hta
  obtain ⟨b, hb, rfl⟩ := mem_map.mp htb
  obtain ⟨c, hc, rfl⟩ := mem_map.mp htc
  obtain ⟨items, hperm, hsorted⟩ :=
    exists_perm_not_sorted (itemPrecedes propertyText property descending)
      (fun x y => mayPrecede_total descending _ _)
      (fun x y z hxy hyx hyz hzy => tiesTransitive descending _ _ _ hxy hyx hyz hzy)
      ha hb hc hab hbc hac
  refine ⟨items, hperm, fun hlaw => hsorted ?_⟩
  have hall' : AllHave propertyText property items := hall.perm propertyText hperm
  have hresult := @applySortStage_ok propertyText rawArgs property descending
    { value with list := items } hlist hparse hall'
  obtain ⟨hresultPerm, hresultSorted⟩ := hlaw _ _ _ hparse hresult
  refine hresultSorted.imp_of_mem fun {x y} hx hy hxy => ?_
  exact (comparesInOrder_iff propertyText (hall' x (hresultPerm.mem_iff.mp hx))
    (hall' y (hresultPerm.mem_iff.mp hy))).mp hxy

/-- **The stage sorts by a total preorder, and every arrangement of some items, exactly where the
    texts that it compares are consistent.** -/
theorem sortsLaw_iff (rawArgs : Text) (value : ArkshValue) (hlist : value.kind = .list) :
    (SortsLaw propertyText rawArgs value ∧ ComparatorLaw propertyText rawArgs value.list ↔
      StageConsistent propertyText rawArgs value.list) ∧
    ((∀ items, items.Perm value.list →
        SortsLaw propertyText rawArgs { value with list := items }) ↔
      StageConsistent propertyText rawArgs value.list) := by
  constructor
  · rw [comparatorLaw_iff]; exact ⟨And.right, fun h => ⟨sortsLaw_of_consistent propertyText h, h⟩⟩
  · constructor
    · intro hlaw
      by_contra hnot
      obtain ⟨items, hperm, hbad⟩ := exists_perm_not_sortsLaw propertyText hlist hnot
      exact hbad (hlaw items hperm)
    · intro h items hperm
      refine sortsLaw_of_consistent propertyText fun property descending hparse => ?_
      rcases h _ _ hparse with ⟨item, hitem, hnone⟩ | htexts
      · exact Or.inl ⟨item, hperm.mem_iff.mpr hitem, hnone⟩
      · have hmem : ∀ t ∈ textsOf propertyText property items,
            t ∈ textsOf propertyText property value.list := fun t ht =>
          (hperm.map _).mem_iff.mp ht
        exact Or.inr fun m hm n hn t ht =>
          htexts m (hmem m hm) n (hmem n hn) t (hmem t ht)

end Stage

def stringProperty : PropertyText := fun item property =>
  if item.kind = .string ∧ property = "value".toList then
    some ⟨copyString 256 item.text, copyString_length_lt (by decide) _⟩
  else none

def stringItem (text : String) : ArkshValueItem :=
  { kind := .string, text := text.toList, number := zeroNumber, boolean := false, object := none,
    block := none, nested := none }

def stringList (texts : List String) : ArkshValue :=
  { arkshValueInit with kind := .list, list := texts.map stringItem }

theorem sortsLaw_words : SortsLaw stringProperty "value desc".toList (stringList ["b", "a", "c"]) ∧
    ComparatorLaw stringProperty "value desc".toList (stringList ["b", "a", "c"]).list := by
  refine (sortsLaw_iff stringProperty "value desc".toList (stringList ["b", "a", "c"])
    rfl).1.mpr ?_
  intro property descending hparse
  obtain ⟨rfl, rfl⟩ := Prod.mk.inj (Except.ok.inj hparse)
  have htexts : textsOf stringProperty "value".toList (stringList ["b", "a", "c"]).list =
      ["b".toList, "a".toList, "c".toList] := by decide
  exact Or.inr (by unfold TextsConsistent; decide)

/-- `list("10", "9", "1a") |> sort(value)` is `1a`, `9`, `10`: the first is more than the last. -/
theorem not_sortsLaw_mixed :
    ¬ SortsLaw stringProperty "value".toList (stringList ["10", "9", "1a"]) := by
  intro hlaw
  have hargs : parseSortArgs "value".toList = .ok ("value".toList, false) := by decide
  have hstage : (applySortStage stringProperty (stringList ["10", "9", "1a"])
      "value".toList) = .ok (stringList ["1a", "9", "10"]) := by rfl
  obtain ⟨-, hsorted⟩ := hlaw _ _ _ hargs hstage
  obtain ⟨hfirst, -⟩ := pairwise_cons.mp hsorted
  obtain ⟨cmp, hcmp, hle⟩ := hfirst _ (mem_cons_of_mem _ mem_cons_self)
  have hmore : compareItemsByProperty stringProperty
      (stringItem "1a") (stringItem "10") "value".toList = .ok 1 := by rfl
  obtain rfl := Except.ok.inj hcmp
  exact absurd hle (by decide)

end Arksh
