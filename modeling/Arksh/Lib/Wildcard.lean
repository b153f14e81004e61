/-
  Subject: Patterns of stars and sets of letters, over the letters of a domain.

  The shortest texts of a pattern have one letter for each of its sets. Where every set has a letter
  in the domain they tell the sets apart, whatever stars stand between them.
-/
import Mathlib.Data.List.Forall2

namespace Wildcard

open List Nat

inductive Item (α : Type) where
  | star
  | set (S : α → Prop)

variable {α : Type}

/-- The language of a pattern. -/
def Matches : List (Item α) → List α → Prop
  | [], s => s = []
  | .star :: p, s => ∃ front back, s = front ++ back ∧ Matches p back
  | .set S :: p, s => ∃ a rest, s = a :: rest ∧ S a ∧ Matches p rest

/-- The sets of a pattern, from left to right. -/
def sets : List (Item α) → List (α → Prop)
  | [] => []
  | .star :: p => sets p
  | .set S :: p => S :: sets p

/-- A letter for each set. -/
abbrev Fits (Ss : List (α → Prop)) (s : List α) : Prop := List.Forall₂ (fun S a => S a) Ss s

/-! ## 1. The shortest texts -/

section Shortest

variable {p q : List (Item α)} {s : List α}

theorem matches_of_fits (h : Fits (sets p) s) : Matches p s := by
  induction p generalizing s with
  | nil => cases h; rfl
  | cons item p ih =>
    cases item with
    | star => exact ⟨[], s, rfl, ih h⟩
    | set S =>
      obtain ⟨a, rest, ha, hrest, rfl⟩ := List.forall₂_cons_left_iff.mp h
      exact ⟨a, rest, rfl, ha, ih hrest⟩

theorem Matches.length_le (h : Matches p s) : (sets p).length ≤ s.length := by
  induction p generalizing s with
  | nil => exact zero_le _
  | cons item p ih =>
    cases item with
    | star =>
      obtain ⟨front, back, rfl, hback⟩ := h
      rw [length_append]
      exact Nat.le_trans (ih hback) (Nat.le_add_left _ _)
    | set S => obtain ⟨a, rest, rfl, -, hrest⟩ := h; exact succ_le_succ (ih hrest)

theorem Matches.fits (h : Matches p s) (hlength : s.length = (sets p).length) :
    Fits (sets p) s := by
  induction p generalizing s with
  | nil => obtain rfl : s = [] := h; exact .nil
  | cons item p ih =>
    cases item with
    | star =>
      obtain ⟨front, back, rfl, hback⟩ := h
      have hle := hback.length_le
      change _ = (sets p).length at hlength
      rw [length_append] at hlength
      obtain rfl : front = [] := eq_nil_of_length_eq_zero (by omega)
      exact ih hback (by simpa using hlength)
    | set S =>
      obtain ⟨a, rest, rfl, ha, hrest⟩ := h
      exact .cons ha (ih hrest (Nat.succ.inj hlength))

end Shortest

/-! ## 2. The letters of a domain -/

section Domain

variable (D : α → Prop)

/-- Two sets have the same letters of the domain. -/
def Agree (S T : α → Prop) : Prop := ∀ a, D a → (S a ↔ T a)

inductive Alike : List (Item α) → List (Item α) → Prop
  | nil : Alike [] []
  | star {p q : List (Item α)} : Alike p q → Alike (.star :: p) (.star :: q)
  | set {S T : α → Prop} {p q : List (Item α)} :
      Agree D S T → Alike p q → Alike (.set S :: p) (.set T :: q)

/-- Every set has a letter of the domain. -/
def Inhabited (p : List (Item α)) : Prop := ∀ S ∈ sets p, ∃ a, D a ∧ S a

/-- Two patterns have the same texts over the domain. -/
def SameLanguage (p q : List (Item α)) : Prop :=
  ∀ s : List α, (∀ a ∈ s, D a) → (Matches p s ↔ Matches q s)

variable {D} {p q : List (Item α)} {s : List α}

theorem sets_cons (item : Item α) (p : List (Item α)) :
    sets (item :: p) = sets [item] ++ sets p := by
  cases item <;> rfl

theorem Inhabited.tail {item : Item α} (h : Inhabited D (item :: p)) : Inhabited D p := fun S hS =>
  h S (by rw [sets_cons]; exact mem_append_right _ hS)

theorem Alike.cons (item : Item α) (h : Alike D p q) : Alike D (item :: p) (item :: q) := by
  cases item with
  | star => exact .star h
  | set S => exact .set (fun _ _ => Iff.rfl) h

theorem matches_congr (h : Alike D p q) : SameLanguage D p q := by
  induction h with
  | nil => exact fun _ _ => Iff.rfl
  | @star p q _ ih =>
    intro s hs
    constructor
    · rintro ⟨front, back, rfl, hback⟩
      exact ⟨front, back, rfl, (ih back fun a ha => hs a (mem_append_right _ ha)).mp hback⟩
    · rintro ⟨front, back, rfl, hback⟩
      exact ⟨front, back, rfl, (ih back fun a ha => hs a (mem_append_right _ ha)).mpr hback⟩
  | @set S T p q hagree _ ih =>
    intro s hs
    constructor
    · rintro ⟨a, rest, rfl, ha, hrest⟩
      exact ⟨a, rest, rfl, (hagree a (hs a mem_cons_self)).mp ha,
        (ih rest fun b hb => hs b (mem_cons_of_mem _ hb)).mp hrest⟩
    · rintro ⟨a, rest, rfl, ha, hrest⟩
      exact ⟨a, rest, rfl, (hagree a (hs a mem_cons_self)).mpr ha,
        (ih rest fun b hb => hs b (mem_cons_of_mem _ hb)).mpr hrest⟩

/-- A pattern with a set that has no letter of the domain has no text over it. -/
theorem Matches.inhabited (h : Matches p s) (hs : ∀ a ∈ s, D a) : Inhabited D p := by
  induction p generalizing s with
  | nil => exact fun S hS => by cases hS
  | cons item p ih =>
    cases item with
    | star =>
      obtain ⟨front, back, rfl, hback⟩ := h
      exact ih hback fun a ha => hs a (mem_append_right _ ha)
    | set S =>
      obtain ⟨a, rest, rfl, ha, hrest⟩ := h
      intro T hT
      rcases mem_cons.mp hT with rfl | hT
      · exact ⟨a, hs a mem_cons_self, ha⟩
      · exact ih hrest (fun b hb => hs b (mem_cons_of_mem _ hb)) T hT

theorem Inhabited.exists_fits {Ss : List (α → Prop)} (h : ∀ S ∈ Ss, ∃ a, D a ∧ S a) :
    ∃ s, (∀ a ∈ s, D a) ∧ Fits Ss s := by
  induction Ss with
  | nil => exact ⟨[], by simp, .nil⟩
  | cons S Ss ih =>
    obtain ⟨a, hD, ha⟩ := h S mem_cons_self
    obtain ⟨s, hs, hfits⟩ := ih fun T hT => h T (mem_cons_of_mem _ hT)
    exact ⟨a :: s, forall_mem_cons.mpr ⟨hD, hs⟩, .cons ha hfits⟩

/-- A product of sets that have letters determines them. -/
theorem agree_of_fits {Ss Ts : List (α → Prop)} (hSs : ∀ S ∈ Ss, ∃ a, D a ∧ S a)
    (hlength : Ss.length = Ts.length)
    (h : ∀ s, (∀ a ∈ s, D a) → (Fits Ss s ↔ Fits Ts s)) : List.Forall₂ (Agree D) Ss Ts := by
  induction Ss generalizing Ts with
  | nil => obtain rfl : Ts = [] := eq_nil_of_length_eq_zero hlength.symm; exact .nil
  | cons S Ss ih =>
    obtain ⟨T, Ts, rfl⟩ : ∃ T Us, Ts = T :: Us := exists_cons_of_length_pos (hlength ▸ succ_pos _)
    obtain ⟨a, hDa, ha⟩ := hSs S mem_cons_self
    have hrest : ∀ U ∈ Ss, ∃ a, D a ∧ U a := fun U hU => hSs U (mem_cons_of_mem _ hU)
    obtain ⟨s, hDs, hs⟩ := Inhabited.exists_fits hrest
    have hcons : ∀ {b s}, D b → (∀ a ∈ s, D a) →
        (S b ∧ Fits Ss s ↔ T b ∧ Fits Ts s) := by
      intro b s hb hDs
      have hfits := h (b :: s) (forall_mem_cons.mpr ⟨hb, hDs⟩)
      rwa [Fits, Fits, List.forall₂_cons, List.forall₂_cons] at hfits
    have hTs : T a ∧ Fits Ts s := (hcons hDa hDs).mp ⟨ha, hs⟩
    refine .cons (fun b hb => ?_) (ih hrest (Nat.succ.inj hlength) fun s' hDs' => ?_)
    · exact ⟨fun hS => ((hcons hb hDs).mp ⟨hS, hs⟩).1,
        fun hT => ((hcons hb hDs).mpr ⟨hT, hTs.2⟩).1⟩
    · exact ⟨fun hS => ((hcons hDa hDs').mp ⟨ha, hS⟩).2,
        fun hT => ((hcons hDa hDs').mpr ⟨hTs.1, hT⟩).2⟩

/-- **Patterns of one language have the same sets**, if none is empty. -/
theorem agree_of_language (h : SameLanguage D p q) (hp : Inhabited D p) (hq : Inhabited D q) :
    List.Forall₂ (Agree D) (sets p) (sets q) := by
  obtain ⟨s, hDs, hs⟩ := Inhabited.exists_fits hp
  obtain ⟨t, hDt, ht⟩ := Inhabited.exists_fits hq
  have hqp : (sets q).length ≤ (sets p).length := by
    rw [hs.length_eq]
    exact ((h s hDs).mp (matches_of_fits hs)).length_le
  have hpq : (sets p).length ≤ (sets q).length := by
    rw [ht.length_eq]
    exact ((h t hDt).mpr (matches_of_fits ht)).length_le
  have hlength := Nat.le_antisymm hpq hqp
  refine agree_of_fits hp hlength fun w hDw => ?_
  constructor
  · intro hw; exact ((h w hDw).mp (matches_of_fits hw)).fits (hw.length_eq.symm.trans hlength)
  · intro hw; exact ((h w hDw).mpr (matches_of_fits hw)).fits (hw.length_eq.symm.trans hlength.symm)

theorem SameLanguage.inhabited (h : SameLanguage D p q) (hp : Inhabited D p) : Inhabited D q := by
  obtain ⟨s, hDs, hs⟩ := Inhabited.exists_fits hp
  exact ((h s hDs).mp (matches_of_fits hs)).inhabited hDs

theorem sameLanguage_of_not_inhabited (hp : ¬ Inhabited D p) (hq : ¬ Inhabited D q) :
    SameLanguage D p q := fun _ hs =>
  iff_of_false (fun h => hp (h.inhabited hs)) fun h => hq (h.inhabited hs)

end Domain

end Wildcard
