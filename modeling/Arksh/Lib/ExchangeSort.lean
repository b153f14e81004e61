/-
  Subject: Exchange sort: for each place from the left, every element behind it is compared with
           the one at the place, and takes its place where the two are out of order.

  The relation `r x y` says that `x` may stand in front of `y`. Nothing is asked of it but that two
  elements may stand in one of the two orders.
-/
import Mathlib.Data.List.Perm.Basic
import Mathlib.Data.List.Pairwise

namespace ExchangeSort

open List

variable {α : Type} (r : α → α → Prop) [DecidableRel r]

/-! ## 1. The loops -/

/-- One turn of the outer loop: what is at the place in the end, and what is behind it. -/
def exchangePass : α → List α → α × List α
  | x, [] => (x, [])
  | x, y :: ys =>
    if r x y then ((exchangePass x ys).1, y :: (exchangePass x ys).2)
    else ((exchangePass y ys).1, x :: (exchangePass y ys).2)

theorem exchangePass_perm (ys : List α) :
    ∀ x, ((exchangePass r x ys).1 :: (exchangePass r x ys).2).Perm (x :: ys) := by
  induction ys with
  | nil => intro x; exact List.Perm.refl _
  | cons y ys ih =>
    intro x
    unfold exchangePass
    split
    · have hx := (ih x).cons y; exact (List.Perm.swap _ _ _).trans (hx.trans (List.Perm.swap _ _ _))
    · have hy := (ih y).cons x; exact (List.Perm.swap _ _ _).trans hy

theorem exchangePass_length (x : α) (ys : List α) : (exchangePass r x ys).2.length = ys.length := by
  have h := (exchangePass_perm r ys x).length_eq
  simpa using h

/-- The outer loop, over so many places. -/
def exchangeLoop : Nat → List α → List α
  | 0, xs => xs
  | _ + 1, [] => []
  | n + 1, x :: xs => (exchangePass r x xs).1 :: exchangeLoop n (exchangePass r x xs).2

def exchangeSort (xs : List α) : List α := exchangeLoop r xs.length xs

theorem exchangeSort_cons (x : α) (xs : List α) : exchangeSort r (x :: xs) =
      (exchangePass r x xs).1 :: exchangeSort r (exchangePass r x xs).2 := by
  have hlen := exchangePass_length r x xs
  unfold exchangeSort
  rw [hlen, length_cons, exchangeLoop]

theorem exchangeSort_induction {motive : List α → Prop} (nil : motive [])
    (cons : ∀ x xs, motive (exchangePass r x xs).2 → motive (x :: xs)) (xs : List α) :
    motive xs := by
  have key : ∀ n, ∀ xs : List α, xs.length = n → motive xs := by
    intro n
    induction n with
    | zero =>
      intro xs hlen
      rw [length_eq_zero_iff.mp hlen]
      exact nil
    | succ n ih =>
      intro xs hlen
      cases xs with
      | nil => exact nil
      | cons x xs =>
        have hpass := exchangePass_length r x xs
        rw [length_cons] at hlen
        exact cons x xs (ih _ (by omega))
  exact key xs.length xs rfl

/-- **The result is an arrangement of the input.** -/
theorem exchangeSort_perm (xs : List α) : (exchangeSort r xs).Perm xs := by
  induction xs using exchangeSort_induction r with
  | nil => exact List.Perm.refl _
  | cons x xs ih => rw [exchangeSort_cons]; exact (ih.cons _).trans (exchangePass_perm r xs x)

/-! ## 2. Where the relation is transitive -/

variable {ys front : List α}

section Sorted

variable (htotal : ∀ x y, r x y ∨ r y x)
include htotal

/-- The element that a turn leaves at the place may stand in front of all the others. -/
theorem exchangePass_le :
    ∀ {x : α}, (∀ a ∈ x :: ys, ∀ b ∈ x :: ys, ∀ c ∈ x :: ys, r a b → r b c → r a c) →
      ∀ y ∈ x :: ys, r (exchangePass r x ys).1 y := by
  induction ys with
  | nil =>
    intro x _ y hy
    obtain rfl : y = x := by simpa using hy
    exact (htotal y y).elim id id
  | cons z ys ih =>
    intro x htrans y hy
    have hx : x ∈ x :: z :: ys := by simp
    have hz : z ∈ x :: z :: ys := by simp
    unfold exchangePass
    split
    · -- `x` stays in front of `z`, and what the rest leaves is in front of `x`
      rename_i hxz
      have hsub : ∀ a ∈ x :: ys, a ∈ x :: z :: ys := by
        intro a ha
        rcases mem_cons.mp ha with rfl | ha
        · exact hx
        · simp [ha]
      have hrest := ih (x := x) fun a ha b hb c hc =>
        htrans a (hsub a ha) b (hsub b hb) c (hsub c hc)
      rcases mem_cons.mp hy with rfl | hy
      · exact hrest y mem_cons_self
      rcases mem_cons.mp hy with rfl | hy
      · have hmem := hsub _ ((exchangePass_perm r ys x).mem_iff.mp mem_cons_self)
        exact htrans _ hmem x hx y hz (hrest x mem_cons_self) hxz
      · exact hrest y (mem_cons_of_mem _ hy)
    · -- `z` takes the place of `x`
      rename_i hxz
      have hzx : r z x := (htotal x z).resolve_left hxz
      have hsub : ∀ a ∈ z :: ys, a ∈ x :: z :: ys := fun a ha => mem_cons_of_mem _ ha
      have hrest := ih (x := z) fun a ha b hb c hc =>
        htrans a (hsub a ha) b (hsub b hb) c (hsub c hc)
      rcases mem_cons.mp hy with rfl | hy
      · have hmem := hsub _ ((exchangePass_perm r ys z).mem_iff.mp mem_cons_self)
        exact htrans _ hmem z hz y hx (hrest z mem_cons_self) hzx
      · exact hrest y hy

/-- **The result is sorted, if the relation is transitive on the elements.** -/
theorem exchangeSort_sorted (xs : List α)
    (htrans : ∀ a ∈ xs, ∀ b ∈ xs, ∀ c ∈ xs, r a b → r b c → r a c) :
    (exchangeSort r xs).Pairwise r := by
  induction xs using exchangeSort_induction r with
  | nil => exact List.Pairwise.nil
  | cons x xs ih =>
    have hperm := exchangePass_perm r xs x
    have hmem : ∀ a ∈ (exchangePass r x xs).2, a ∈ x :: xs := fun a ha =>
      hperm.mem_iff.mp (mem_cons_of_mem _ ha)
    rw [exchangeSort_cons, pairwise_cons]
    refine ⟨?_, ih fun a ha b hb c hc => htrans a (hmem a ha) b (hmem b hb) c (hmem c hc)⟩
    intro y hy
    exact exchangePass_le r htotal htrans y
      (hmem y ((exchangeSort_perm r _).mem_iff.mp hy))

end Sorted

/-! ## 3. Where it is not -/

/-- A turn leaves an element at its place that may stand in front of all the others. -/
theorem exchangePass_of_le {x : α} (h : ∀ y ∈ ys, r x y) : exchangePass r x ys = (x, ys) := by
  induction ys with
  | nil => rfl
  | cons y ys ih =>
    have hy : r x y := h y mem_cons_self
    rw [exchangePass, if_pos hy, ih fun z hz => h z (mem_cons_of_mem _ hz)]

theorem exchangeSort_append {rest : List α} (hfront : front.Pairwise r)
    (h : ∀ x ∈ front, ∀ y ∈ rest, r x y) :
    exchangeSort r (front ++ rest) = front ++ exchangeSort r rest := by
  induction front with
  | nil => rfl
  | cons x front ih =>
    obtain ⟨hx, hfront⟩ := pairwise_cons.mp hfront
    have hall : ∀ y ∈ front ++ rest, r x y := by
      intro y hy
      rcases mem_append.mp hy with hy | hy
      · exact hx y hy
      · exact h x mem_cons_self y hy
    rw [cons_append, exchangeSort_cons, exchangePass_of_le r hall]
    exact congrArg (x :: ·) (ih hfront fun a ha => h a (mem_cons_of_mem _ ha))

/-- In front of a sorted list, a turn leaves the first element that `e` may not stand in front
    of. -/
theorem exchangePass_first {e : α} (hys : ys.Pairwise r) (h : ∃ y ∈ ys, ¬ r e y) :
    (exchangePass r e ys).1 ∈ ys ∧ ¬ r e (exchangePass r e ys).1 := by
  induction ys with
  | nil => obtain ⟨y, hy, -⟩ := h; exact absurd hy not_mem_nil
  | cons z ys ih =>
    obtain ⟨hz, hys⟩ := pairwise_cons.mp hys
    unfold exchangePass
    split
    · rename_i hez
      obtain ⟨y, hy, hey⟩ := h
      have hrest : ∃ y ∈ ys, ¬ r e y := by
        rcases mem_cons.mp hy with rfl | hy
        · exact absurd hez hey
        · exact ⟨y, hy, hey⟩
      obtain ⟨hmem, hne⟩ := ih hys hrest
      exact ⟨mem_cons_of_mem _ hmem, hne⟩
    · rename_i hez
      rw [exchangePass_of_le r hz]
      exact ⟨mem_cons_self, hez⟩

def TiesTransitive : Prop := ∀ a b c, r a b → r b a → r b c → r c b → r a c

/-- Two tied elements `d` and `e` enclose one that `e` may not stand in front of: with `e` moved to
    `d`, that one ends in front of `d`. -/
theorem not_sorted_of_enclosed (hties : TiesTransitive r) {q rest : List α} {d e : α}
    (hw : (front ++ d :: (q ++ e :: rest)).Pairwise r) (hed : r e d) (hy : ∃ y ∈ q, ¬ r e y) :
    ¬ (exchangeSort r (front ++ e :: d :: (q ++ rest))).Pairwise r := by
  intro hsorted
  obtain ⟨hfront, htail, hcross⟩ := pairwise_append.mp hw
  obtain ⟨hd, hqe⟩ := pairwise_cons.mp htail
  have hqrest : (q ++ rest).Pairwise r := hqe.sublist (by simp)
  have hde : r d e := hd e (by simp)
  have hfrontall : ∀ x ∈ front, ∀ y ∈ e :: d :: (q ++ rest), r x y := by
    intro x hx y hy
    exact hcross x hx y (by
      simp only [mem_cons, mem_append] at hy ⊢
      tauto)
  -- the first turn behind the front leaves some `h` at its place
  have hy' : ∃ y ∈ q ++ rest, ¬ r e y := by
    obtain ⟨y, hyq, hey⟩ := hy
    exact ⟨y, mem_append_left _ hyq, hey⟩
  obtain ⟨hmem, hne⟩ := exchangePass_first r hqrest hy'
  rw [exchangeSort_append r hfront hfrontall, exchangeSort_cons, exchangePass, if_pos hed]
    at hsorted
  have htail' := (pairwise_append.mp hsorted).2.1
  have hhd : r (exchangePass r e (q ++ rest)).1 d :=
    (pairwise_cons.mp htail').1 d ((exchangeSort_perm r _).mem_iff.mpr mem_cons_self)
  have hdh : r d (exchangePass r e (q ++ rest)).1 := by
    refine hd _ ?_
    rcases mem_append.mp hmem with hmem | hmem
    · exact mem_append_left _ hmem
    · exact mem_append_right _ (mem_cons_of_mem _ hmem)
  exact hne (hties e d _ hed hde hdh hhd)

omit [DecidableRel r] in
/-- In a sorted list, `z`, which may stand neither in front of `x` nor behind `y`, stands between
    the two. -/
theorem split_of_between {w : List α} {x y z : α} (hrefl : ∀ a, r a a) (hw : w.Pairwise r)
    (hx : x ∈ w) (hy : y ∈ w) (hz : z ∈ w) (hzx : ¬ r z x) (hyz : ¬ r y z) :
    ∃ front q rest, w = front ++ x :: (q ++ y :: rest) ∧ z ∈ q := by
  obtain ⟨p, s, rfl⟩ := append_of_mem hz
  obtain ⟨-, htail, hcross⟩ := pairwise_append.mp hw
  obtain ⟨hbehind, -⟩ := pairwise_cons.mp htail
  have hxp : x ∈ p := by
    rcases mem_append.mp hx with hx | hx
    · exact hx
    rcases mem_cons.mp hx with rfl | hx
    · exact absurd (hrefl x) hzx
    · exact absurd (hbehind x hx) hzx
  have hys : y ∈ s := by
    rcases mem_append.mp hy with hy | hy
    · exact absurd (hcross y hy z mem_cons_self) hyz
    rcases mem_cons.mp hy with rfl | hy
    · exact absurd (hrefl y) hyz
    · exact hy
  obtain ⟨front, p, rfl⟩ := append_of_mem hxp
  obtain ⟨s, rest, rfl⟩ := append_of_mem hys
  exact ⟨front, p ++ z :: s, rest, by simp, by simp⟩

/-- **Where the relation is not transitive but its ties are, some arrangement is not sorted.** -/
theorem exists_perm_not_sorted (htotal : ∀ x y, r x y ∨ r y x) (hties : TiesTransitive r)
    {xs : List α} {a b c : α} (ha : a ∈ xs) (hb : b ∈ xs) (hc : c ∈ xs) (hab : r a b)
    (hbc : r b c) (hac : ¬ r a c) : ∃ ys, ys.Perm xs ∧ ¬ (exchangeSort r ys).Pairwise r := by
  by_contra hnone
  have hall : ∀ ys, ys.Perm xs → (exchangeSort r ys).Pairwise r := by
    intro ys hys
    by_contra hsorted
    exact hnone ⟨ys, hys, hsorted⟩
  have hrefl : ∀ x, r x x := fun x => (htotal x x).elim id id
  have hw := hall xs (List.Perm.refl _)
  have hperm := exchangeSort_perm r xs
  replace ha := hperm.mem_iff.mpr ha
  replace hb := hperm.mem_iff.mpr hb
  replace hc := hperm.mem_iff.mpr hc
  generalize exchangeSort r xs = w at hw hperm ha hb hc
  -- an arrangement with the tied elements next to each other
  have hmove : ∀ {front q rest : List α} {d e : α}, w = front ++ d :: (q ++ e :: rest) →
      (front ++ e :: d :: (q ++ rest)).Perm xs := by
    intro front q rest d e hsplit
    refine List.Perm.trans ?_ (hsplit ▸ hperm)
    exact ((List.Perm.swap _ _ _).trans (perm_middle.symm.cons d)).append_left front
  by_cases hba : r b a
  · -- `a` and `b` are tied, and enclose `c`
    have hcb : ¬ r c b := fun hcb => hac (hties a b c hab hba hbc hcb)
    obtain ⟨front, q, rest, hsplit, hcq⟩ := split_of_between r hrefl hw hb ha hc hcb hac
    exact not_sorted_of_enclosed r hties (hsplit ▸ hw) hab ⟨c, hcq, hac⟩ (hall _ (hmove hsplit))
  · obtain ⟨front, q, rest, hsplit, haq⟩ := split_of_between r hrefl hw hc hb ha hac hba
    by_cases hcb : r c b
    · -- `b` and `c` are tied, and enclose `a`
      exact not_sorted_of_enclosed r hties (hsplit ▸ hw) hbc ⟨a, haq, hba⟩ (hall _ (hmove hsplit))
    · -- no arrangement is sorted
      rw [hsplit] at hw
      have htail := (pairwise_append.mp hw).2.1
      exact hcb ((pairwise_cons.mp htail).1 b (by simp))

end ExchangeSort
