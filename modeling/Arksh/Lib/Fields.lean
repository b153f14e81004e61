/-
  Subject: Fields between delimiters of two kinds.

  A character of a text is kept, is white, or is sharp. Fields are runs of kept characters; a
  delimiter ends a field, and is either white space alone or one sharp character with all the
  white space around it. White space in front of the text counts for nothing.
-/
import Mathlib.Data.List.TakeWhile

namespace Fields

open List Option Bool

/-! ## 1. The grammar -/

/-- What a character is when a text is split. -/
inductive Mark where
  | kept | white | sharp
  deriving DecidableEq

variable {α : Type} {w : List α} {rest : List (Mark × α)} {fields : List (List α)}

/-- All characters of the text are of one kind. -/
def IsAll (m : Mark) (t : List (Mark × α)) : Prop := ∀ c ∈ t, c.1 = m

inductive Delimiter : List (Mark × α) → Prop where
  | white {ws : List (Mark × α)} : ws ≠ [] → IsAll .white ws → Delimiter ws
  | sharp {ws ws' : List (Mark × α)} {a : α} :
      IsAll .white ws → IsAll .white ws' → Delimiter (ws ++ (.sharp, a) :: ws')

/-- The delimiter takes nothing more of what follows. -/
def Longest (d rest : List (Mark × α)) : Prop :=
  ∀ front back, rest = front ++ back → Delimiter (d ++ front) → front = []

inductive Splits : List (Mark × α) → List (List α) → Prop where
  | nil : Splits [] []
  | last {w : List (Mark × α)} : w ≠ [] → IsAll .kept w → Splits w [w.map Prod.snd]
  | field {w d rest : List (Mark × α)} {fields : List (List α)} :
      IsAll .kept w → Delimiter d → Longest d rest → Splits rest fields →
      Splits (w ++ (d ++ rest)) (w.map Prod.snd :: fields)

def isWhite (c : Mark × α) : Bool := c.1 = .white

def FieldsOf (t : List (Mark × α)) (fields : List (List α)) : Prop :=
  Splits (t.dropWhile isWhite) fields

/-! ## 2. The scan -/

/-- A field, if it has any characters. -/
def emit (w : List α) : List (List α) := if w.isEmpty then [] else [w]

@[simp] theorem emit_nil : emit ([] : List α) = [] := rfl

theorem emit_of_ne (h : w ≠ []) : emit w = [w] := by
  simp [emit, h]

/-- The fields from a character on: `w` is read of the current one, and with `gap` white space has
    just ended a field, so that a sharp character belongs to the same delimiter. -/
def scan : List α → Bool → List (Mark × α) → List (List α)
  | w, _, [] => emit w
  | w, _, (.kept, a) :: t => scan (w ++ [a]) false t
  | w, gap, (.white, _) :: t => emit w ++ scan [] (gap || !w.isEmpty) t
  | w, gap, (.sharp, _) :: t => if gap then scan [] false t else w :: scan [] false t

variable {m : Mark}

@[simp] theorem IsAll.nil : IsAll m ([] : List (Mark × α)) := by
  simp [IsAll]

variable {t ws d : List (Mark × α)}

@[simp] theorem isAll_cons {c : Mark × α} : IsAll m (c :: t) ↔ c.1 = m ∧ IsAll m t := by
  simp [IsAll]

@[simp] theorem isAll_append {s : List (Mark × α)} : IsAll m (s ++ t) ↔ IsAll m s ∧ IsAll m t := by
  simp [IsAll, or_imp, forall_and]

theorem scan_white (h : IsAll .white ws) (gap : Bool) (t : List (Mark × α)) :
    scan [] gap (ws ++ t) = scan [] gap t := by
  induction ws with
  | nil => rfl
  | cons c ws ih =>
    obtain ⟨m, a⟩ := c
    obtain ⟨rfl, hws⟩ := isAll_cons.mp h
    simp [scan, ih hws]

theorem scan_kept {v : List (Mark × α)} (h : IsAll .kept v) (w : List α) (t : List (Mark × α)) :
    scan w false (v ++ t) = scan (w ++ v.map Prod.snd) false t := by
  induction v generalizing w with
  | nil => simp
  | cons c v ih =>
    obtain ⟨m, a⟩ := c
    obtain ⟨rfl, hv⟩ := isAll_cons.mp h
    simp [scan, ih hv]

/-- The text does not begin with white space. -/
def NoWhiteFirst (t : List (Mark × α)) : Prop := ∀ c ∈ t.head?, c.1 ≠ .white

theorem noWhiteFirst_dropWhile (t : List (Mark × α)) : NoWhiteFirst (t.dropWhile isWhite) := by
  intro c hc
  have h := head?_dropWhile_not isWhite t
  rw [mem_def.mp hc] at h
  simpa [isWhite] using h

theorem isAll_takeWhile_white (t : List (Mark × α)) : IsAll .white (t.takeWhile isWhite) := by
  intro c hc
  simpa [isWhite] using mem_takeWhile_imp hc

theorem scan_dropWhile (gap : Bool) (t : List (Mark × α)) :
    scan [] gap (t.dropWhile isWhite) = scan [] gap t := by
  conv => rhs; rw [← takeWhile_append_dropWhile (p := isWhite) (l := t)]
  rw [scan_white (isAll_takeWhile_white t)]

/-! ## 3. Delimiters -/

theorem Delimiter.ne_nil (h : Delimiter d) : d ≠ [] := by
  cases h with
  | white hne _ => exact hne
  | sharp _ _ => simp

theorem Delimiter.append_white (h : Delimiter d) (hws : IsAll .white ws) : Delimiter (d ++ ws) := by
  cases h with
  | white hne hall => exact .white (by simp [hne]) (isAll_append.mpr ⟨hall, hws⟩)
  | @sharp front back a hfront hback =>
    rw [append_assoc, cons_append]
    exact .sharp hfront (isAll_append.mpr ⟨hback, hws⟩)

theorem Longest.noWhiteFirst (h : Longest d rest) (hd : Delimiter d) : NoWhiteFirst rest := by
  intro c hc hwhite
  cases rest with
  | nil => cases hc
  | cons c' rest =>
    cases hc
    have hone := h [c] rest rfl (hd.append_white (by simp [hwhite]))
    cases hone

theorem Delimiter.marks (h : Delimiter d) :
    (∀ c ∈ d, c.1 ≠ .kept) ∧ d.countP (fun c => c.1 = .sharp) ≤ 1 := by
  have hwhite : ∀ {ws : List (Mark × α)}, IsAll .white ws →
      (∀ c ∈ ws, c.1 ≠ .kept) ∧ ws.countP (fun c => c.1 = .sharp) = 0 := by
    intro ws hws
    refine ⟨fun c hc => by simp [hws c hc], ?_⟩
    rw [countP_eq_zero]
    intro c hc
    simp [hws c hc]
  cases h with
  | white _ hall => exact ⟨(hwhite hall).1, by simp [(hwhite hall).2]⟩
  | @sharp ws ws' a hws hws' =>
    refine ⟨?_, by simp [countP_append, (hwhite hws).2, (hwhite hws').2]⟩
    intro c hc
    rcases mem_append.mp hc with hc | hc
    · exact (hwhite hws).1 c hc
    · rcases mem_cons.mp hc with rfl | hc
      · simp
      · exact (hwhite hws').1 c hc

theorem longest_sharp {ws' : List (Mark × α)} {a : α} (hrest : NoWhiteFirst rest) :
    Longest (ws ++ (.sharp, a) :: ws') rest := by
  rintro (_ | ⟨⟨m, b⟩, front⟩) back rfl hd
  · rfl
  obtain ⟨hkept, hsharp⟩ := hd.marks
  cases m with
  | kept => exact absurd rfl (hkept (.kept, b) (by simp))
  | white => exact absurd rfl (hrest (.white, b) (by simp))
  | sharp => simp [countP_append] at hsharp; omega

theorem longest_white (hrest : ∀ c ∈ rest.head?, c.1 = .kept) : Longest ws rest := by
  rintro (_ | ⟨c, front⟩) back rfl hd
  · rfl
  exact absurd (hrest c rfl) (hd.marks.1 c (by simp))

/-! ## 4. The scan finds the fields -/

theorem scan_gap (hne : ws ≠ []) (hws : IsAll .white ws) (h : Longest ws rest) :
    scan [] true rest = scan [] false rest := by
  rcases rest with _ | ⟨⟨m, a⟩, rest⟩
  · rfl
  cases m with
  | kept => rfl
  | white => exact absurd rfl (h.noWhiteFirst (.white hne hws) (.white, a) rfl)
  | sharp => have hone := h [(.sharp, a)] rest rfl (.sharp hws .nil); cases hone

/-- The scan of a delimiter ends the field in front of it, which may be empty. -/
theorem scan_delimiter (hd : Delimiter d) (h : Longest d rest) (hw : w ≠ [] ∨ NoWhiteFirst d) :
    scan w false (d ++ rest) = w :: scan [] false rest := by
  cases hd with
  | white hne hall =>
    obtain ⟨⟨m, a⟩, ws, rfl⟩ := exists_cons_of_ne_nil hne
    obtain ⟨rfl, hws⟩ := isAll_cons.mp hall
    rcases hw with hw | hw
    · have hempty : w.isEmpty = false := by simp [hw]
      rw [cons_append, scan, emit_of_ne hw, hempty, Bool.not_false, Bool.or_true,
        scan_white hws, scan_gap hne hall h]
      rfl
    · exact absurd rfl (hw (.white, a) rfl)
  | @sharp ws ws' a hws hws' =>
    rw [append_assoc, cons_append]
    rcases ws with _ | ⟨⟨m, b⟩, ws⟩
    · simp [scan, scan_white hws']
    obtain ⟨rfl, hfront⟩ := isAll_cons.mp hws
    rcases hw with hw | hw
    · have hempty : w.isEmpty = false := by simp [hw]
      rw [cons_append, scan, emit_of_ne hw, hempty, Bool.not_false, Bool.or_true,
        scan_white hfront, scan, if_pos rfl, scan_white hws']
      rfl
    · exact absurd rfl (hw (.white, b) rfl)

theorem Splits.eq_scan (h : Splits t fields) (ht : NoWhiteFirst t) : fields = scan [] false t := by
  induction h with
  | nil => rfl
  | @last w hne hall =>
    have hscan := scan_kept hall [] []
    rw [append_nil] at hscan
    rw [hscan, nil_append, scan, emit_of_ne (by simp [hne])]
  | @field w d rest fields hall hd hlongest _ ih =>
    have hw : w.map Prod.snd ≠ [] ∨ NoWhiteFirst d := by
      rcases w with _ | ⟨c, w⟩
      · refine .inr fun c hc => ht c ?_
        rw [nil_append, head?_append, mem_def.mp hc]
        rfl
      · simp
    rw [scan_kept hall, nil_append, scan_delimiter hd hlongest hw, ← ih (hlongest.noWhiteFirst hd)]

theorem exists_delimiter (hne : t ≠ []) (hfirst : ∀ c ∈ t.head?, c.1 ≠ .kept) :
    ∃ d rest, t = d ++ rest ∧ Delimiter d ∧ Longest d rest := by
  have hws := isAll_takeWhile_white t
  have hsplit := takeWhile_append_dropWhile (p := isWhite) (l := t)
  have hrest := noWhiteFirst_dropWhile t
  have hwhite : t.takeWhile isWhite ≠ [] →
      (∀ c ∈ (t.dropWhile isWhite).head?, c.1 = .kept) →
      ∃ d rest, t = d ++ rest ∧ Delimiter d ∧ Longest d rest := fun hpos hkept =>
    ⟨_, _, hsplit.symm, .white hpos hws, longest_white hkept⟩
  cases hr : t.dropWhile isWhite with
  | nil =>
    rw [hr] at hsplit hwhite
    exact hwhite (fun hnil => hne (by rw [← hsplit, hnil, append_nil])) (by simp)
  | cons c rest =>
    obtain ⟨m, a⟩ := c
    rw [hr] at hsplit hrest hwhite
    cases m with
    | kept =>
      refine hwhite (fun hnil => ?_) (by simp)
      rw [hnil, nil_append] at hsplit
      exact hfirst (.kept, a) (by simp [← hsplit]) rfl
    | white => exact absurd rfl (hrest (.white, a) rfl)
    | sharp =>
      have hws' := isAll_takeWhile_white rest
      refine ⟨t.takeWhile isWhite ++ (.sharp, a) :: rest.takeWhile isWhite,
        rest.dropWhile isWhite, ?_, .sharp hws hws', longest_sharp (noWhiteFirst_dropWhile rest)⟩
      rw [append_assoc, cons_append, takeWhile_append_dropWhile, hsplit]

/-- A text that does not begin with white space is a field, a delimiter, and the like again. -/
theorem splits_scan (n : Nat) : ∀ {t : List (Mark × α)}, t.length ≤ n → NoWhiteFirst t →
    Splits t (scan [] false t) := by
  induction n with
  | zero =>
    intro t hn _
    rw [eq_nil_of_length_eq_zero (Nat.le_zero.mp hn)]
    exact .nil
  | succ n ih =>
    intro t hn ht
    have hall : IsAll .kept (t.takeWhile fun c => c.1 = .kept) := fun c hc => by
      simpa using mem_takeWhile_imp hc
    have hsplit := takeWhile_append_dropWhile (p := fun c => c.1 = .kept) (l := t)
    by_cases hnil : t.dropWhile (fun c => c.1 = .kept) = []
    · rw [hnil, append_nil] at hsplit
      rw [hsplit] at hall
      rcases t with _ | ⟨c, t⟩
      · exact .nil
      have hlast := Splits.last (cons_ne_nil c t) hall
      rwa [hlast.eq_scan ht] at hlast
    · have hfirst : ∀ c ∈ (t.dropWhile fun c => c.1 = .kept).head?, c.1 ≠ .kept := by
        intro c hc
        have h := head?_dropWhile_not (fun c : Mark × α => c.1 = .kept) t
        rw [mem_def.mp hc] at h
        simpa using h
      obtain ⟨d, rest, heq, hd, hlongest⟩ := exists_delimiter hnil hfirst
      rw [heq] at hsplit
      -- there is less text behind the delimiter
      have hlength : rest.length ≤ n := by
        have hpos := length_pos_iff.mpr hd.ne_nil
        have hsum := congrArg List.length hsplit
        simp only [length_append] at hsum
        omega
      have hfield := Splits.field hall hd hlongest (ih hlength (hlongest.noWhiteFirst hd))
      rw [hsplit] at hfield
      rwa [hfield.eq_scan ht] at hfield

/-- **Every text has its fields, and the scan finds them.** -/
theorem fieldsOf_iff : FieldsOf t fields ↔ fields = scan [] false t := by
  have hfirst := noWhiteFirst_dropWhile t
  rw [← scan_dropWhile]
  constructor
  · intro h; exact h.eq_scan hfirst
  · rintro rfl; exact splits_scan _ (Nat.le_refl _) hfirst

end Fields
