/-
  Subject: Brackets of one kind in a list, by counting.

  `Closes o c depth l` says that `l` closes `depth` brackets that are open in front of it and all
  those it opens itself, and never one that is not open. The lemmas take a list apart at its head,
  which is how a scanner with a counter reads it. `bare` looks for a mark outside of brackets, and
  `Clear` says what does not matter for it.
-/
import Mathlib.Data.List.Basic
import Mathlib.Data.List.Count

namespace Brackets

open List Nat

variable {α : Type}

variable {l : List α}

theorem forall_prefix_cons {P : List α → Prop} {x : α} :
    (∀ p, p <+: x :: l → P p) ↔ P [] ∧ ∀ p, p <+: l → P (x :: p) := by
  constructor
  · intro h; exact ⟨h [] (List.nil_prefix), fun p hp => h (x :: p) (cons_prefix_cons.mpr ⟨rfl, hp⟩)⟩
  · intro ⟨hnil, hcons⟩ p hp
    cases p with
    | nil => exact hnil
    | cons y p => obtain ⟨rfl, hpl⟩ := cons_prefix_cons.mp hp; exact hcons p hpl

variable [DecidableEq α]

def Closes (o c : α) (depth : Nat) (l : List α) : Prop :=
  (∀ p, p <+: l → p.count c ≤ depth + p.count o) ∧ l.count c = depth + l.count o

def Balanced (o c : α) (l : List α) : Prop := Closes o c 0 l

variable {o c : α} {depth k : Nat}

theorem closes_nil : Closes o c depth [] ↔ depth = 0 := by
  constructor
  · intro h
    have := h.2
    rw [count_nil, count_nil] at this
    omega
  · intro h
    subst h
    refine ⟨?_, rfl⟩
    intro p hp
    rw [prefix_nil.mp hp]
    exact zero_le _

theorem closes_open (hoc : o ≠ c) : Closes o c depth (o :: l) ↔ Closes o c (depth + 1) l := by
  have hcount : ∀ p : List α, (o :: p).count c = p.count c ∧ (o :: p).count o = p.count o + 1 :=
    fun p => ⟨count_cons_of_ne hoc, count_cons_self⟩
  unfold Closes
  rw [forall_prefix_cons, (hcount l).1, (hcount l).2]
  constructor
  · intro ⟨⟨_, hp⟩, hl⟩
    refine ⟨?_, by omega⟩
    intro p hpl
    have := hp p hpl
    rw [(hcount p).1, (hcount p).2] at this
    omega
  · intro ⟨hp, hl⟩
    refine ⟨⟨zero_le _, ?_⟩, by omega⟩
    intro p hpl
    have := hp p hpl
    rw [(hcount p).1, (hcount p).2]
    omega

theorem closes_close (hoc : o ≠ c) : Closes o c (depth + 1) (c :: l) ↔ Closes o c depth l := by
  have hcount : ∀ p : List α, (c :: p).count c = p.count c + 1 ∧ (c :: p).count o = p.count o :=
    fun p => ⟨count_cons_self, count_cons_of_ne hoc.symm⟩
  unfold Closes
  rw [forall_prefix_cons, (hcount l).1, (hcount l).2]
  constructor
  · intro ⟨⟨_, hp⟩, hl⟩
    refine ⟨?_, by omega⟩
    intro p hpl
    have := hp p hpl
    rw [(hcount p).1, (hcount p).2] at this
    omega
  · intro ⟨hp, hl⟩
    refine ⟨⟨zero_le _, ?_⟩, by omega⟩
    intro p hpl
    have := hp p hpl
    rw [(hcount p).1, (hcount p).2]
    omega

theorem not_closes_close (hoc : o ≠ c) : ¬ Closes o c 0 (c :: l) := by
  intro h
  have hone := h.1 [c] (cons_prefix_cons.mpr ⟨rfl, List.nil_prefix⟩)
  rw [count_singleton_self, count_singleton, if_neg (by simpa using hoc.symm)] at hone
  omega

theorem closes_other {x : α} (ho : x ≠ o) (hc : x ≠ c) :
    Closes o c depth (x :: l) ↔ Closes o c depth l := by
  unfold Closes
  rw [forall_prefix_cons, count_cons_of_ne hc, count_cons_of_ne ho]
  constructor
  · intro ⟨⟨_, hp⟩, hl⟩
    refine ⟨?_, hl⟩
    intro p hpl
    have := hp p hpl
    rw [count_cons_of_ne hc, count_cons_of_ne ho] at this
    exact this
  · intro ⟨hp, hl⟩
    refine ⟨⟨zero_le _, ?_⟩, hl⟩
    intro p hpl
    rw [count_cons_of_ne hc, count_cons_of_ne ho]
    exact hp p hpl

/-! ## Marks outside of brackets -/

/-- Whether `mark` stands outside of brackets, behind `depth` open ones. -/
def bare (o c mark : α) : Nat → List α → Bool
  | _, [] => false
  | depth, x :: l =>
    if x = o then bare o c mark (depth + 1) l
    else if x = c then bare o c mark (depth - 1) l
    else (depth == 0 && x == mark) || bare o c mark depth l

/-- Behind `k` open brackets or more a list counts for nothing: it closes what it opens and has no
    mark outside. -/
def Clear (o c mark : α) (k : Nat) (l : List α) : Prop :=
  ∀ depth ≥ k, ∀ m, bare o c mark depth (l ++ m) = bare o c mark depth m

variable {mark : α}

theorem Clear.append {l m : List α} (hl : Clear o c mark k l) (hm : Clear o c mark k m) :
    Clear o c mark k (l ++ m) := by
  intro depth hdepth n
  rw [append_assoc, hl depth hdepth, hm depth hdepth]

theorem Clear.mono {j : Nat} (h : Clear o c mark j l) (hle : j ≤ k) :
    Clear o c mark k l := fun depth hdepth => h depth (Nat.le_trans hle hdepth)

theorem clear_of_forall (h : ∀ x ∈ l, x ≠ o ∧ x ≠ c ∧ x ≠ mark) : Clear o c mark 0 l := by
  intro depth _ m
  induction l with
  | nil => rfl
  | cons x l ih =>
    obtain ⟨ho, hc, hmark⟩ := h x mem_cons_self
    have hrest := ih fun y hy => h y (mem_cons_of_mem _ hy)
    rw [cons_append, bare, if_neg ho, if_neg hc, hrest]
    simp [hmark]

theorem clear_inside (h : ∀ x ∈ l, x ≠ o ∧ x ≠ c) : Clear o c mark 1 l := by
  intro depth hdepth m
  induction l with
  | nil => rfl
  | cons x l ih =>
    obtain ⟨ho, hc⟩ := h x mem_cons_self
    have hrest := ih fun y hy => h y (mem_cons_of_mem _ hy)
    rw [cons_append, bare, if_neg ho, if_neg hc, hrest]
    simp [Nat.ne_of_gt hdepth]

theorem Clear.brackets (hoc : o ≠ c) (h : Clear o c mark (k + 1) l) :
    Clear o c mark k (o :: (l ++ [c])) := by
  intro depth hdepth m
  have hinner := h (depth + 1) (succ_le_succ hdepth) (c :: m)
  rw [cons_append, append_assoc, bare, if_pos rfl]
  refine hinner.trans ?_
  rw [bare, if_neg hoc.symm, if_pos rfl, Nat.add_sub_cancel]

end Brackets
