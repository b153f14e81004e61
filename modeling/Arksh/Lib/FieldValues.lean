/-
  Subject: Fields given to a number of places: a field to each, and to the last one the rest of
           the text without the white space at its end.

  Where every delimiter is a single character, spans of characters that are no delimiters, and of
  those that are, find the same; in general they merge delimiters and take kept characters for
  them.
-/
import Arksh.Lib.Fields
import Mathlib.Data.List.DropRight

namespace Fields

open List Option

variable {α : Type}

/-! ## 1. Values -/

def isKept (c : Mark × α) : Bool := c.1 = .kept

/-- The text behind the delimiter that it starts with. -/
def skip (t : List (Mark × α)) : List (Mark × α) :=
  match t.dropWhile isWhite with
  | (.sharp, _) :: rest => rest.dropWhile isWhite
  | rest => rest

/-- The characters alone. -/
def plain (t : List (Mark × α)) : List α := t.map Prod.snd

/-- What so many places get of a text that does not start with white space. -/
def valuesFrom : Nat → List (Mark × α) → List (List α)
  | 0, _ => []
  | 1, t => [plain (t.rdropWhile isWhite)]
  | n + 2, t => plain (t.takeWhile isKept) :: valuesFrom (n + 1) (skip (t.dropWhile isKept))

/-- What so many places get of a text. -/
def values (n : Nat) (t : List (Mark × α)) : List (List α) := valuesFrom n (t.dropWhile isWhite)

/-- What they get by spans of characters. -/
def spanValues (delim : α → Bool) : Nat → List α → List (List α)
  | 0, _ => []
  | 1, p => [p]
  | n + 2, p => p.takeWhile (fun a => !delim a) ::
      spanValues delim (n + 1) ((p.dropWhile fun a => !delim a).dropWhile delim)

section Values

variable {t : List (Mark × α)} {n : Nat}

theorem valuesFrom_succ (n : Nat) (t : List (Mark × α)) : valuesFrom (n + 2) t =
    plain (t.takeWhile isKept) :: valuesFrom (n + 1) (skip (t.dropWhile isKept)) := rfl

theorem length_valuesFrom (n : Nat) (t : List (Mark × α)) : (valuesFrom n t).length = n := by
  induction n generalizing t with
  | zero => rfl
  | succ n ih =>
    cases n with
    | zero => rfl
    | succ n => exact congrArg Nat.succ (ih _)

theorem length_values (n : Nat) (t : List (Mark × α)) : (values n t).length = n :=
  length_valuesFrom n _

theorem valuesFrom_nil (n : Nat) : valuesFrom n ([] : List (Mark × α)) = List.replicate n [] := by
  induction n with
  | zero => rfl
  | succ n ih =>
    cases n with
    | zero => rfl
    | succ n => exact congrArg (List.cons []) ih

theorem noWhiteFirst_skip (t : List (Mark × α)) : NoWhiteFirst (skip t) := by
  unfold skip
  split
  · exact noWhiteFirst_dropWhile _
  · exact noWhiteFirst_dropWhile t

theorem skip_append (t : List (Mark × α)) : ∃ d, t = d ++ skip t ∧ ∀ c ∈ d, c.1 ≠ .kept := by
  have hsplit := takeWhile_append_dropWhile (p := isWhite) (l := t)
  have hwhite : ∀ {s : List (Mark × α)}, ∀ c ∈ s.takeWhile isWhite, c.1 ≠ .kept := by
    intro s c hc
    rw [isAll_takeWhile_white s c hc]
    exact nofun
  unfold skip
  split
  next a rest hrest =>
    refine ⟨t.takeWhile isWhite ++ (.sharp, a) :: rest.takeWhile isWhite, ?_, ?_⟩
    · rw [append_assoc, cons_append, takeWhile_append_dropWhile, ← hrest, hsplit]
    · intro c hc
      rcases mem_append.mp hc with hc | hc
      · exact hwhite c hc
      · rcases mem_cons.mp hc with rfl | hc
        · exact nofun
        · exact hwhite c hc
  · exact ⟨t.takeWhile isWhite, hsplit.symm, hwhite⟩

end Values

/-! ## 2. Spans -/

def MarkedBy (delim : α → Bool) (t : List (Mark × α)) : Prop :=
  ∀ c ∈ t, c.1 ≠ .kept → delim c.2 = true

/-- No field has a character of `delim` in it, the rest does not start with one, and behind an empty
    field other than the first are only empty ones. -/
structure PlainValues (delim : α → Bool) (vs : List (List α)) : Prop where
  inside : ∀ v ∈ vs.dropLast, ∀ a ∈ v, delim a = false
  rest : ∀ v ∈ vs.tail.getLast?, ∀ a ∈ v.head?, delim a = false
  empty : vs.tail.Pairwise fun v w => v = [] → w = []

def PlainEnd (t : List (Mark × α)) (vs : List (List α)) : Prop :=
  (∃ c ∈ t.getLast?, c.1 = .white) → vs.getLast? = some []

/-- The text starts with white space only where there is a second place and the first gets
    nothing. -/
def PlainStart (t : List (Mark × α)) (vs : List (List α)) : Prop :=
  (∃ c ∈ t.head?, c.1 = .white) → 2 ≤ vs.length ∧ vs.head? = some []

variable {c : Mark × α} {vs : List (List α)}

section Spans

variable {delim : α → Bool} {t : List (Mark × α)} {n : Nat}

theorem spanValues_succ (n : Nat) (p : List α) : spanValues delim (n + 2) p =
    p.takeWhile (fun a => !delim a) ::
      spanValues delim (n + 1) ((p.dropWhile fun a => !delim a).dropWhile delim) := rfl

theorem spanValues_nil (n : Nat) : spanValues delim n ([] : List α) = List.replicate n [] := by
  induction n with
  | zero => rfl
  | succ n ih =>
    cases n with
    | zero => rfl
    | succ n => exact congrArg (List.cons []) ih

theorem length_spanValues (delim : α → Bool) (n : Nat) (p : List α) :
    (spanValues delim n p).length = n := by
  induction n generalizing p with
  | zero => rfl
  | succ n ih =>
    cases n with
    | zero => rfl
    | succ n => exact congrArg Nat.succ (ih _)

theorem length_le_of_mem_spanValues {v p : List α} (h : v ∈ spanValues delim n p) :
    v.length ≤ p.length := by
  induction n generalizing p with
  | zero => cases h
  | succ n ih =>
    cases n with
    | zero =>
      rw [mem_singleton.mp h]
    | succ n =>
      rcases mem_cons.mp h with rfl | h
      · exact (List.takeWhile_prefix _).length_le
      · exact (ih h).trans
          ((dropWhile_suffix _).length_le.trans (dropWhile_suffix _).length_le)

theorem MarkedBy.append {s t : List (Mark × α)} (h : MarkedBy delim (s ++ t)) :
    MarkedBy delim s ∧ MarkedBy delim t :=
  ⟨fun c hc => h c (mem_append_left _ hc), fun c hc => h c (mem_append_right _ hc)⟩

/-- The span of characters that are no delimiters is the field exactly if this has none of `delim`
    in it. -/
theorem span_field (h : MarkedBy delim t) :
    ((plain t).takeWhile (fun a => !delim a) = plain (t.takeWhile isKept) ↔
      ∀ a ∈ plain (t.takeWhile isKept), delim a = false) ∧
    ((∀ a ∈ plain (t.takeWhile isKept), delim a = false) →
      (plain t).dropWhile (fun a => !delim a) = plain (t.dropWhile isKept)) := by
  induction t with
  | nil => exact ⟨iff_of_true rfl nofun, fun _ => rfl⟩
  | cons c t ih =>
    obtain ⟨htake, hdrop⟩ := ih (MarkedBy.append (s := [c]) h).2
    obtain ⟨m, a⟩ := c
    have hdelim : m ≠ .kept → delim a = true := h (m, a) mem_cons_self
    have hplain : plain ((m, a) :: t) = a :: plain t := rfl
    by_cases hm : m = .kept
    · subst hm
      have hkept : isKept ((.kept, a) : Mark × α) = true := rfl
      rw [hplain, takeWhile_cons_of_pos hkept, dropWhile_cons_of_pos hkept]
      by_cases ha : delim a = true
      · have hnot : ¬ (∀ b ∈ plain ((.kept, a) :: t.takeWhile isKept), delim b = false) := by
          intro hall
          exact Bool.false_ne_true ((hall a mem_cons_self).symm.trans ha)
        refine ⟨iff_of_false ?_ hnot, fun hall => absurd hall hnot⟩
        rw [takeWhile_cons_of_neg (by rw [ha]; decide)]
        exact (cons_ne_nil _ _).symm
      · rw [Bool.not_eq_true] at ha
        have hpass : (!delim a) = true := by rw [ha]; rfl
        rw [takeWhile_cons_of_pos (by exact hpass), dropWhile_cons_of_pos (by exact hpass)]
        constructor
        · show a :: _ = a :: plain (t.takeWhile isKept) ↔ ∀ b ∈ a :: plain (t.takeWhile isKept), _
          rw [cons_inj_right, htake, forall_mem_cons]
          exact ⟨fun hall => ⟨ha, hall⟩, fun hall => hall.2⟩
        · intro hall; exact hdrop fun b hb => hall b (mem_cons_of_mem _ hb)
    · have hkept : ¬ isKept ((m, a) : Mark × α) = true := by simpa [isKept] using hm
      have hstop : ¬ (!delim a) = true := by rw [hdelim hm]; decide
      rw [hplain, takeWhile_cons_of_neg hkept, dropWhile_cons_of_neg hkept,
        takeWhile_cons_of_neg (by exact hstop), dropWhile_cons_of_neg (by exact hstop)]
      exact ⟨iff_of_true rfl nofun, fun _ => rfl⟩

theorem dropWhile_append {d : List (Mark × α)} (h : MarkedBy delim (d ++ t))
    (hd : ∀ c ∈ d, c.1 ≠ .kept) : (plain (d ++ t)).dropWhile delim = (plain t).dropWhile delim := by
  have hdelim : ∀ a ∈ plain d, delim a = true := by
    intro a ha
    obtain ⟨c, hc, rfl⟩ := mem_map.mp ha
    exact h.append.1 c hc (hd c hc)
  rw [plain, map_append]
  exact dropWhile_append_of_pos hdelim

theorem dropWhile_skip (h : MarkedBy delim t) :
    (plain t).dropWhile delim = (plain (skip t)).dropWhile delim := by
  obtain ⟨d, hd, hmarks⟩ := skip_append t
  rw [hd] at h
  have hpass := dropWhile_append h hmarks
  rwa [← hd] at hpass

theorem MarkedBy.skip (h : MarkedBy delim t) : MarkedBy delim (skip t) := by
  obtain ⟨d, hd, -⟩ := skip_append t
  rw [hd] at h
  exact h.append.2

theorem MarkedBy.dropWhile (h : MarkedBy delim t) (p : Mark × α → Bool) :
    MarkedBy delim (t.dropWhile p) :=
  fun c hc => h c ((dropWhile_suffix p).subset hc)

theorem not_kept_of_empty (hn : n ≠ 0) (h : ∀ v ∈ valuesFrom n t, v = []) :
    ∀ c ∈ t, c.1 ≠ .kept := by
  induction n generalizing t with
  | zero => exact absurd rfl hn
  | succ n ih =>
    cases n with
    | zero =>
      have hnone : t.rdropWhile isWhite = [] := map_eq_nil_iff.mp (h _ mem_cons_self)
      rw [rdropWhile_eq_nil_iff] at hnone
      intro c hc
      have hwhite := hnone c hc
      simp only [isWhite, decide_eq_true_eq] at hwhite
      rw [hwhite]
      decide
    | succ n =>
      have hfield : t.takeWhile isKept = [] := map_eq_nil_iff.mp (h _ mem_cons_self)
      have hrest := ih (Nat.succ_ne_zero n) fun v hv => h v (mem_cons_of_mem _ hv)
      have hsplit := takeWhile_append_dropWhile (p := isKept) (l := t)
      obtain ⟨d, hd, hmarks⟩ := skip_append (t.dropWhile isKept)
      rw [hfield, nil_append] at hsplit
      rw [hsplit] at hd hrest
      intro c hc
      rw [hd] at hc
      rcases mem_append.mp hc with hc | hc
      · exact hmarks c hc
      · exact hrest c hc

theorem rdropWhile_cons (hc : c.1 ≠ .white) (t : List (Mark × α)) :
    ∃ r, (c :: t).rdropWhile isWhite = c :: r := by
  obtain ⟨back, hback⟩ := rdropWhile_prefix isWhite (c :: t)
  cases hr : (c :: t).rdropWhile isWhite with
  | nil =>
    have hwhite := rdropWhile_eq_nil_iff.mp hr c mem_cons_self
    exact absurd (of_decide_eq_true hwhite) hc
  | cons d r => rw [hr] at hback; exact ⟨r, by rw [(cons.inj hback).1]⟩

/-- The conditions on the values behind the first one. -/
def PlainRest (delim : α → Bool) (vs : List (List α)) : Prop :=
  (∀ v ∈ vs.dropLast, ∀ a ∈ v, delim a = false) ∧
    (∀ v ∈ vs.getLast?, ∀ a ∈ v.head?, delim a = false) ∧
    vs.Pairwise fun v w => v = [] → w = []

theorem plainValues_cons {v : List α} (hne : vs ≠ []) :
    PlainValues delim (v :: vs) ↔ (∀ a ∈ v, delim a = false) ∧ PlainRest delim vs := by
  have hinit : (v :: vs).dropLast = v :: vs.dropLast := by
    cases vs with
    | nil => exact absurd rfl hne
    | cons w vs => rfl
  constructor
  · intro h
    have hinside := h.inside
    rw [hinit, forall_mem_cons] at hinside
    exact ⟨hinside.1, hinside.2, h.rest, h.empty⟩
  · intro ⟨hv, hinside, hrest, hempty⟩
    refine ⟨?_, hrest, hempty⟩
    rw [hinit, forall_mem_cons]
    exact ⟨hv, hinside⟩

theorem valuesFrom_ne_nil (n : Nat) (t : List (Mark × α)) : valuesFrom (n + 1) t ≠ [] := by
  intro h
  have hlength := congrArg List.length h
  rw [length_valuesFrom] at hlength
  cases hlength

/-- If all places get nothing the conditions hold. -/
theorem plainRest_of_empty (h : ∀ v ∈ vs, v = []) : PlainRest delim vs := by
  refine ⟨?_, ?_, ?_⟩
  · intro v hv
    rw [h v ((dropLast_sublist vs).subset hv)]
    exact nofun
  · intro v hv
    rw [h v (mem_of_getLast? hv)]
    exact nofun
  · exact pairwise_of_forall_mem_list fun v _ w hw _ => h w hw

theorem spanValues_delimiter (hmarked : MarkedBy delim (c :: t)) (hc : c.1 ≠ .white)
    (hdelim : delim c.2 = true) :
    (spanValues delim (n + 1) ((plain (c :: t)).dropWhile delim) = valuesFrom (n + 1) (c :: t) ↔
      ∀ v ∈ valuesFrom (n + 1) (c :: t), v = []) ∧ (PlainRest delim (valuesFrom (n + 1) (c :: t)) →
      ∀ v ∈ valuesFrom (n + 1) (c :: t), v = []) := by
  have hempty : (∀ v ∈ valuesFrom (n + 1) (c :: t), v = []) →
      spanValues delim (n + 1) ((plain (c :: t)).dropWhile delim) = valuesFrom (n + 1) (c :: t) := by
    intro h
    have hkept := not_kept_of_empty (Nat.succ_ne_zero n) h
    have hnone : (plain (c :: t)).dropWhile delim = [] := by
      rw [dropWhile_eq_nil_iff]
      intro a ha
      obtain ⟨d, hd, rfl⟩ := mem_map.mp ha
      exact hmarked d hd (hkept d hd)
    rw [hnone, spanValues_nil]
    have hreplicate := eq_replicate_of_mem h
    rw [length_valuesFrom] at hreplicate
    exact hreplicate.symm
  have hfirst := head?_dropWhile_not delim (plain (c :: t))
  generalize (plain (c :: t)).dropWhile delim = p at hempty hfirst ⊢
  cases n with
  | zero =>
    -- the rest starts with the delimiter character
    obtain ⟨r, hr⟩ := rdropWhile_cons hc t
    have hvalues : valuesFrom 1 (c :: t) = [c.2 :: plain r] := by rw [valuesFrom, hr]; rfl
    rw [hvalues] at hempty ⊢
    constructor
    · refine ⟨fun h => ?_, hempty⟩
      rw [head_eq_of_cons_eq h] at hfirst
      exact absurd hdelim (by simpa using hfirst)
    · intro h
      have hhead := h.2.1 _ rfl c.2 rfl
      exact absurd hdelim (by rw [hhead]; decide)
  | succ n =>
    rw [valuesFrom_succ] at hempty ⊢
    by_cases hkept : c.1 = .kept
    · -- the field starts with it
      have hfield : (c :: t).takeWhile isKept = c :: t.takeWhile isKept :=
        takeWhile_cons_of_pos (decide_eq_true hkept)
      rw [hfield] at hempty ⊢
      constructor
      · refine ⟨fun h => ?_, hempty⟩
        have hmem : c.2 ∈ p.takeWhile fun a => !delim a := by
          rw [head_eq_of_cons_eq h]
          exact mem_cons_self
        have hnot := mem_takeWhile_imp hmem
        rw [hdelim] at hnot
        cases hnot
      · intro h
        have hinside := h.1 (plain (c :: t.takeWhile isKept))
          (by rw [dropLast_cons_of_ne_nil (valuesFrom_ne_nil n _)]; exact mem_cons_self)
          c.2 mem_cons_self
        exact absurd hdelim (by rw [hinside]; decide)
    · have hfield : (c :: t).takeWhile isKept = [] :=
        takeWhile_cons_of_neg (by simpa [isKept] using hkept)
      rw [hfield] at hempty ⊢
      constructor
      · refine ⟨fun h => ?_, hempty⟩
        have hnone : p = [] := by
          have hspan := head_eq_of_cons_eq h
          cases p with
          | nil => rfl
          | cons a p =>
            have ha : (!delim a) = true := by simpa using hfirst
            rw [takeWhile_cons_of_pos (by exact ha)] at hspan
            cases hspan
        rw [← h, hnone, spanValues_nil]
        exact fun v hv => eq_of_mem_replicate hv
      · intro h v hv
        rcases mem_cons.mp hv with rfl | hv
        · rfl
        · exact (pairwise_cons.mp h.2.2).1 v hv rfl

/-- Behind a character that is no delimiter, the conditions on all values are those on the later
    ones. -/
theorem plainRest_iff (hc : c.1 = .kept) (hdelim : delim c.2 = false) :
    PlainRest delim (valuesFrom (n + 1) (c :: t)) ↔
      PlainValues delim (valuesFrom (n + 1) (c :: t)) := by
  cases n with
  | zero =>
    obtain ⟨r, hr⟩ := rdropWhile_cons (c := c) (by rw [hc]; exact nofun) t
    have hvalues : valuesFrom 1 (c :: t) = [c.2 :: plain r] := by rw [valuesFrom, hr]; rfl
    rw [hvalues]
    refine iff_of_true ⟨nofun, ?_, pairwise_singleton _ _⟩ ⟨nofun, nofun, .nil⟩
    intro v hv a ha
    cases hv
    cases ha
    exact hdelim
  | succ n =>
    have hfield : (c :: t).takeWhile isKept = c :: t.takeWhile isKept :=
      takeWhile_cons_of_pos (decide_eq_true hc)
    have hne := valuesFrom_ne_nil n (skip ((c :: t).dropWhile isKept))
    rw [valuesFrom_succ, hfield]
    generalize valuesFrom (n + 1) (skip ((c :: t).dropWhile isKept)) = vs at hne ⊢
    obtain ⟨w, vs, rfl⟩ := exists_cons_of_ne_nil hne
    constructor
    · intro ⟨hinside, hrest, hempty⟩; exact ⟨hinside, hrest, (pairwise_cons.mp hempty).2⟩
    · intro h
      exact ⟨h.inside, h.rest, pairwise_cons.mpr ⟨fun _ _ hnil => absurd hnil (cons_ne_nil _ _), h.empty⟩⟩

theorem plainEnd_append {f : List (Mark × α)} {v : List (List α)}
    (hnil : t = [] → v.getLast? = some []) : PlainEnd (f ++ t) v ↔ PlainEnd t v := by
  cases t with
  | nil => exact iff_of_true (fun _ => hnil rfl) fun _ => hnil rfl
  | cons c t =>
    unfold PlainEnd
    rw [getLast?_append, getLast?_cons]
    rfl

theorem getLast?_valuesFrom_nil (n : Nat) :
    (valuesFrom (n + 1) ([] : List (Mark × α))).getLast? = some [] := by
  rw [valuesFrom_nil, getLast?_replicate, if_neg (Nat.succ_ne_zero n)]

theorem spanValues_eq_valuesFrom_iff (hmarked : MarkedBy delim t) (ht : NoWhiteFirst t) :
    spanValues delim (n + 1) (plain t) = valuesFrom (n + 1) t ↔
      PlainValues delim (valuesFrom (n + 1) t) ∧ PlainEnd t (valuesFrom (n + 1) t) := by
  induction n generalizing t with
  | zero =>
    have hone : PlainValues delim (valuesFrom 1 t) := ⟨nofun, nofun, .nil⟩
    rw [and_iff_right hone]
    constructor
    · intro h hwhite
      obtain ⟨c, hc, hcw⟩ := hwhite
      have hlength := congrArg List.length (head_eq_of_cons_eq h)
      rw [plain, plain, length_map, length_map] at hlength
      have hself : t.rdropWhile isWhite = t :=
        (List.rdropWhile_prefix isWhite t).eq_of_length hlength.symm
      obtain ⟨front, rfl⟩ := getLast?_eq_some_iff.mp hc
      rw [rdropWhile_concat_pos isWhite front c (decide_eq_true hcw)] at hself
      have hshort := (List.rdropWhile_prefix isWhite front).length_le
      rw [hself, length_append, length_singleton] at hshort
      omega
    · intro h
      have hself : t.rdropWhile isWhite = t := by
        cases t with
        | nil => rfl
        | cons c t =>
          rw [rdropWhile_eq_self_iff]
          intro hne hlast
          obtain ⟨r, hr⟩ := rdropWhile_cons (ht c rfl) t
          have hnone := h ⟨_, getLast?_eq_some_getLast hne, of_decide_eq_true hlast⟩
          rw [valuesFrom, hr] at hnone
          cases hnone
      show [plain t] = [plain (t.rdropWhile isWhite)]
      rw [hself]
  | succ n ih =>
    obtain ⟨htake, hdrop⟩ := span_field hmarked
    have hrest := hmarked.dropWhile isKept
    have hmarked' := hrest.skip
    have hfirst := noWhiteFirst_skip (t.dropWhile isKept)
    have hne := valuesFrom_ne_nil n (skip (t.dropWhile isKept))
    -- the text behind the first delimiter ends as the whole text does
    have hend : PlainEnd t (valuesFrom (n + 2) t) ↔
        PlainEnd (skip (t.dropWhile isKept)) (valuesFrom (n + 1) (skip (t.dropWhile isKept))) := by
      obtain ⟨d, hd, -⟩ := skip_append (t.dropWhile isKept)
      have hsplit := takeWhile_append_dropWhile (p := isKept) (l := t)
      have hfront := plainEnd_append (f := t.takeWhile isKept ++ d)
        (t := skip (t.dropWhile isKept)) (v := valuesFrom (n + 2) t)
      rw [append_assoc, ← hd, hsplit] at hfront
      rw [hfront]
      · unfold PlainEnd
        rw [valuesFrom_succ]
        obtain ⟨v, vs, hvs⟩ := exists_cons_of_ne_nil hne
        rw [hvs, getLast?_cons_cons]
      · intro hnil
        rw [valuesFrom_succ, hnil, getLast?_cons, getLast?_valuesFrom_nil]
        rfl
    have htail : spanValues delim (n + 1) ((plain (skip (t.dropWhile isKept))).dropWhile delim) =
          valuesFrom (n + 1) (skip (t.dropWhile isKept)) ↔
        PlainRest delim (valuesFrom (n + 1) (skip (t.dropWhile isKept))) ∧
          PlainEnd (skip (t.dropWhile isKept)) (valuesFrom (n + 1) (skip (t.dropWhile isKept))) := by
      cases hnext : skip (t.dropWhile isKept) with
      | nil =>
        have hall : ∀ v ∈ valuesFrom (n + 1) ([] : List (Mark × α)), v = [] := by
          rw [valuesFrom_nil]
          exact fun v hv => eq_of_mem_replicate hv
        refine iff_of_true ?_ ⟨plainRest_of_empty hall, ?_⟩
        · rw [valuesFrom_nil]; exact spanValues_nil (n + 1)
        · intro ⟨_, hc, _⟩; cases hc
      | cons c more =>
        rw [hnext] at hmarked' hfirst
        have hc := hfirst c rfl
        by_cases hdelim : delim c.2 = true
        · obtain ⟨hvalues, hempty⟩ := spanValues_delimiter (n := n) hmarked' hc hdelim
          rw [hvalues]
          constructor
          · intro hall
            refine ⟨plainRest_of_empty hall, fun _ => ?_⟩
            rw [getLast?_eq_some_getLast (valuesFrom_ne_nil n _)]
            exact congrArg some (hall _ (getLast_mem _))
          · exact fun h => hempty h.1
        · have hkept : c.1 = .kept := by
            by_contra hmark
            exact hdelim (hmarked' c mem_cons_self hmark)
          rw [Bool.not_eq_true] at hdelim
          have hstay : (plain (c :: more)).dropWhile delim = plain (c :: more) :=
            dropWhile_cons_of_neg (by rw [hdelim]; exact Bool.false_ne_true)
          rw [hstay, plainRest_iff hkept hdelim]
          exact ih hmarked' hfirst
    rw [hend, valuesFrom_succ, plainValues_cons hne, spanValues_succ, cons_eq_cons, htake,
      and_assoc, ← htail]
    constructor
    · intro ⟨hfield, h⟩
      rw [hdrop hfield, dropWhile_skip hrest] at h
      exact ⟨hfield, h⟩
    · intro ⟨hfield, h⟩
      rw [hdrop hfield, dropWhile_skip hrest]
      exact ⟨hfield, h⟩

/-- **Spans give the places what they should get exactly in plain texts.** -/
theorem spanValues_eq_iff (hmarked : MarkedBy delim t) :
    spanValues delim (n + 1) (plain t) = values (n + 1) t ↔
      PlainValues delim (values (n + 1) t) ∧ PlainStart t (values (n + 1) t) ∧
        PlainEnd t (values (n + 1) t) := by
  have hbare := spanValues_eq_valuesFrom_iff (n := n) (hmarked.dropWhile isWhite)
    (noWhiteFirst_dropWhile t)
  by_cases hstart : ∃ c ∈ t.head?, c.1 = .white
  · obtain ⟨c, hc, hcw⟩ := hstart
    obtain ⟨more, rfl⟩ := head?_eq_some_iff.mp (mem_def.mp hc)
    have hdrop : (c :: more).dropWhile isWhite = more.dropWhile isWhite :=
      dropWhile_cons_of_pos (decide_eq_true hcw)
    have hshort : (more.dropWhile isWhite).length ≤ more.length :=
      (dropWhile_suffix isWhite).length_le
    cases n with
    | zero =>
      refine iff_of_false ?_ fun h => ?_
      · intro h
        have hlength := congrArg List.length (head_eq_of_cons_eq h)
        have hcut := (List.rdropWhile_prefix isWhite ((c :: more).dropWhile isWhite)).length_le
        rw [plain, plain, length_map, length_map, length_cons] at hlength
        rw [hdrop] at hcut hlength
        omega
      · have htwo := (h.2.1 ⟨c, rfl, hcw⟩).1
        rw [length_values] at htwo
        omega
    | succ n =>
      obtain ⟨htake, hspan⟩ := span_field (hmarked.dropWhile isWhite)
      have hsplit := takeWhile_append_dropWhile (p := isWhite) (l := c :: more)
      have hwhite : ∀ d ∈ (c :: more).takeWhile isWhite, d.1 ≠ .kept := by
        intro d hd
        rw [isAll_takeWhile_white _ d hd]
        exact nofun
      have hpass := dropWhile_append (hsplit.symm ▸ hmarked) hwhite
      have hstop : ¬ (!delim c.2) = true := by
        rw [hmarked c mem_cons_self (by rw [hcw]; exact nofun)]
        exact Bool.false_ne_true
      have hend := plainEnd_append (f := (c :: more).takeWhile isWhite)
        (t := (c :: more).dropWhile isWhite) (v := values (n + 2) (c :: more)) (fun hnil => by
          rw [values, hnil, getLast?_valuesFrom_nil])
      rw [hsplit] at hpass hend
      generalize hbehind : (c :: more).dropWhile isWhite = t at *
      have hvalues : values (n + 2) (c :: more) = valuesFrom (n + 2) t := by rw [values, hbehind]
      -- the first span is empty, and behind it the spans are those of the bare text
      have hone : spanValues delim (n + 2) (plain (c :: more)) =
          [] :: spanValues delim (n + 1) ((plain t).dropWhile delim) := by
        rw [← hpass, spanValues_succ]
        show (c.2 :: plain more).takeWhile _ ::
          spanValues delim (n + 1) (((c.2 :: plain more).dropWhile _).dropWhile delim) = _
        rw [takeWhile_cons_of_neg (by exact hstop), dropWhile_cons_of_neg (by exact hstop)]
        rfl
      have hempty : plain (t.takeWhile isKept) = [] → spanValues delim (n + 2) (plain t) =
          [] :: spanValues delim (n + 1) ((plain t).dropWhile delim) := by
        intro hnil
        have hnone : ∀ a ∈ plain (t.takeWhile isKept), delim a = false := by rw [hnil]; exact nofun
        have hkept := takeWhile_append_dropWhile (p := isKept) (l := t)
        rw [map_eq_nil_iff.mp hnil, nil_append] at hkept
        rw [spanValues_succ, htake.mpr hnone, hnil, hspan hnone, hkept]
      rw [hvalues] at hend ⊢
      rw [hend, hone]
      have hlength : 2 ≤ (valuesFrom (n + 2) t).length := by rw [length_valuesFrom]; omega
      constructor
      · intro h
        have hnil : plain (t.takeWhile isKept) = [] := (head_eq_of_cons_eq h).symm
        obtain ⟨hvalues, hback⟩ := hbare.mp ((hempty hnil).trans h)
        exact ⟨hvalues, fun _ => ⟨hlength, congrArg some hnil⟩, hback⟩
      · intro ⟨hplain, hfront, hback⟩
        have hnil : plain (t.takeWhile isKept) = [] := Option.some.inj (hfront ⟨c, rfl, hcw⟩).2
        rw [← hempty hnil]
        exact hbare.mpr ⟨hplain, hback⟩
  · have hself : t.dropWhile isWhite = t := by
      cases t with
      | nil => rfl
      | cons c t =>
        refine dropWhile_cons_of_neg fun hc => hstart ⟨c, rfl, of_decide_eq_true hc⟩
    have hplain : PlainStart t (values (n + 1) t) := fun h => absurd h hstart
    rw [hself] at hbare
    rw [and_iff_right hplain, values, hself]
    exact hbare

end Spans

end Fields
