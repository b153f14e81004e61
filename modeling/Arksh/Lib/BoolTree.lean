/-
  Subject: Trees of negation, conjunction and disjunction, and how they are written.

  Negation binds tighter than conjunction, and that tighter than disjunction; both of these
  associate to the left. A tree is written as it stands, and so may say where its parentheses are.
-/
import Mathlib.Data.List.Basic

namespace BoolTree

open List

variable {α β σ W : Type*}

/-! ## 1. Trees -/

inductive Tree (α : Type*) where
  | leaf (a : α)
  | neg (t : Tree α)
  | conj (left right : Tree α)
  | disj (left right : Tree α)
  /-- in parentheses -/
  | group (t : Tree α)

/-- What an operand may be: anything, anything but a disjunction, or neither that nor a
    conjunction. -/
inductive Level where
  | any | term | factor
  deriving DecidableEq

structure Words (W : Type*) where
  not_ : W
  and_ : W
  or_ : W
  open_ : W
  close : W

variable {t : Tree α} {level : Level}

namespace Tree

def map (f : α → β) : Tree α → Tree β
  | leaf a => leaf (f a)
  | neg t => neg (t.map f)
  | conj left right => conj (left.map f) (right.map f)
  | disj left right => disj (left.map f) (right.map f)
  | group t => group (t.map f)

def leaves : Tree α → List α
  | leaf a => [a]
  | neg t => t.leaves
  | conj left right => left.leaves ++ right.leaves
  | disj left right => left.leaves ++ right.leaves
  | group t => t.leaves

def value (holds : α → Bool) : Tree α → Bool
  | leaf a => holds a
  | neg t => !t.value holds
  | conj left right => left.value holds && right.value holds
  | disj left right => left.value holds || right.value holds
  | group t => t.value holds

def write (words : Words W) (text : α → List W) : Tree α → List W
  | leaf a => text a
  | neg t => words.not_ :: t.write words text
  | conj left right => left.write words text ++ words.and_ :: right.write words text
  | disj left right => left.write words text ++ words.or_ :: right.write words text
  | group t => words.open_ :: t.write words text ++ [words.close]

/-- The tree can stand where an operand of this level may. -/
def Respects : Tree α → Level → Prop
  | leaf _, _ => True
  | neg t, _ => t.Respects .factor
  | conj left right, level => level ≠ .factor ∧ left.Respects .term ∧ right.Respects .factor
  | disj left right, level => level = .any ∧ left.Respects .any ∧ right.Respects .term
  | group t, _ => t.Respects .any

/-- Parentheses where precedence needs them. -/
def bracket : Tree α → Level → Tree α
  | leaf a, _ => leaf a
  | neg t, _ => neg (t.bracket .factor)
  | conj left right, level =>
    let both := conj (left.bracket .term) (right.bracket .factor)
    if level = .factor then group both else both
  | disj left right, level =>
    let either := disj (left.bracket .any) (right.bracket .term)
    if level = .any then either else group either
  | group t, _ => group (t.bracket .any)

/-- Evaluation from the left, of no more leaves than needed; it ends where a leaf has no value. -/
def run (eval : α → σ → Option Bool × σ) : Tree α → σ → Option Bool × σ
  | leaf a, s => eval a s
  | neg t, s => ((t.run eval s).1.map not, (t.run eval s).2)
  | conj left right, s =>
    if (left.run eval s).1 = some true then right.run eval (left.run eval s).2
    else left.run eval s
  | disj left right, s =>
    if (left.run eval s).1 = some false then right.run eval (left.run eval s).2
    else left.run eval s
  | group t, s => t.run eval s

/-! ## 2. Parentheses -/

theorem Respects.mono (h : t.Respects .factor) : t.Respects level := by
  cases t with
  | leaf a => trivial
  | neg t => exact h
  | conj left right => exact absurd rfl h.1
  | disj left right => exact absurd h.1 (by decide)
  | group t => exact h

theorem Respects.any (h : t.Respects level) : t.Respects .any := by
  cases t with
  | leaf a => trivial
  | neg t => exact h
  | conj left right => exact ⟨by decide, h.2⟩
  | disj left right => exact ⟨rfl, h.2⟩
  | group t => exact h

/-- **The tree with its parentheses can be written.** -/
theorem bracket_respects (t : Tree α) (level : Level) : (t.bracket level).Respects level := by
  induction t generalizing level with
  | leaf a => trivial
  | neg t ih => exact ih .factor
  | conj left right ihl ihr =>
    rw [bracket]
    split_ifs with hlevel
    · exact ⟨by decide, ihl .term, ihr .factor⟩
    · exact ⟨hlevel, ihl .term, ihr .factor⟩
  | disj left right ihl ihr =>
    rw [bracket]
    split_ifs with hlevel
    · exact ⟨hlevel, ihl .any, ihr .term⟩
    · exact ⟨rfl, ihl .any, ihr .term⟩
  | group t ih => exact ih .any

/-- **The rule of the levels**: a fact about factors, one about terms and one about anything. -/
theorem level_rule {F T A : Tree α → Prop} (leaf : ∀ a, F (leaf a)) (neg : ∀ {t}, F t → F (neg t))
    (group : ∀ {t}, A t → F (group t)) (term : ∀ {t}, F t → T t)
    (conj : ∀ {left right}, right.Respects .factor → T left → F right → T (conj left right))
    (any : ∀ {t}, T t → A t)
    (disj : ∀ {left right}, right.Respects .term → A left → T right → A (disj left right))
    (t : Tree α) :
    (t.Respects .factor → F t) ∧ (t.Respects .term → T t) ∧ (t.Respects .any → A t) := by
  have hfactor : ∀ {t : Tree α} {p q r : Prop}, (p → F t) → (q → p) → (r → p) →
      (p → F t) ∧ (q → T t) ∧ (r → A t) := fun h hq hr =>
    ⟨h, fun hterm => term (h (hq hterm)), fun hany => any (term (h (hr hany)))⟩
  induction t with
  | leaf a => exact hfactor (fun _ => leaf a) id id
  | neg t ih => exact hfactor (fun h => neg (ih.1 h)) id id
  | group t ih => exact hfactor (fun h => group (ih.2.2 h)) id id
  | conj left right ihl ihr =>
    have hterm := fun hleft hright => conj hright (ihl.2.1 hleft) (ihr.1 hright)
    exact ⟨fun h => absurd rfl h.1, fun h => hterm h.2.1 h.2.2, fun h => any (hterm h.2.1 h.2.2)⟩
  | disj left right ihl ihr =>
    refine ⟨fun h => absurd h.1 (by decide), fun h => absurd h.1 (by decide), fun h => ?_⟩
    exact disj h.2.2 (ihl.2.2 h.2.1) (ihr.2.1 h.2.2)

theorem leaves_bracket (t : Tree α) (level : Level) : (t.bracket level).leaves = t.leaves := by
  induction t generalizing level with
  | leaf a => rfl
  | neg t ih => exact ih .factor
  | conj left right ihl ihr =>
    have hboth := congrArg₂ (· ++ ·) (ihl .term) (ihr .factor)
    rw [bracket]
    split_ifs <;> exact hboth
  | disj left right ihl ihr =>
    have heither := congrArg₂ (· ++ ·) (ihl .any) (ihr .term)
    rw [bracket]
    split_ifs <;> exact heither
  | group t ih => exact ih .any

/-- **Parentheses change no value.** -/
theorem value_bracket (holds : α → Bool) (t : Tree α) (level : Level) :
    (t.bracket level).value holds = t.value holds := by
  induction t generalizing level with
  | leaf a => rfl
  | neg t ih => exact congrArg Bool.not (ih .factor)
  | conj left right ihl ihr =>
    have hboth := congrArg₂ Bool.and (ihl .term) (ihr .factor)
    rw [bracket]
    split_ifs <;> exact hboth
  | disj left right ihl ihr =>
    have heither := congrArg₂ Bool.or (ihl .any) (ihr .term)
    rw [bracket]
    split_ifs <;> exact heither
  | group t ih => exact ih .any

theorem run_bracket (eval : α → σ → Option Bool × σ) (t : Tree α) (level : Level) (s : σ) :
    (t.bracket level).run eval s = t.run eval s := by
  induction t generalizing level s with
  | leaf a => rfl
  | neg t ih => rw [bracket, run, run, ih]
  | conj left right ihl ihr =>
    have hboth : (conj (left.bracket .term) (right.bracket .factor)).run eval s =
        (conj left right).run eval s := by rw [run, run, ihl, ihr]
    rw [bracket]
    split_ifs <;> exact hboth
  | disj left right ihl ihr =>
    have heither : (disj (left.bracket .any) (right.bracket .term)).run eval s =
        (disj left right).run eval s := by rw [run, run, ihl, ihr]
    rw [bracket]
    split_ifs <;> exact heither
  | group t ih => exact ih .any s

/-! ## 3. Other leaves -/

theorem leaves_map (f : α → β) (t : Tree α) : (t.map f).leaves = t.leaves.map f := by
  induction t with
  | leaf a => rfl
  | neg t ih => exact ih
  | conj left right ihl ihr
  | disj left right ihl ihr => rw [map, leaves, leaves, map_append, ihl, ihr]
  | group t ih => exact ih

theorem value_map (f : α → β) (holds : β → Bool) (t : Tree α) :
    (t.map f).value holds = t.value fun a => holds (f a) := by
  induction t with
  | leaf a => rfl
  | neg t ih => rw [map, value, value, ih]
  | conj left right ihl ihr | disj left right ihl ihr => rw [map, value, value, ihl, ihr]
  | group t ih => exact ih

theorem write_map (words : Words W) (f : α → β) (text : β → List W) (t : Tree α) :
    (t.map f).write words text = t.write words fun a => text (f a) := by
  induction t with
  | leaf a => rfl
  | neg t ih => rw [map, write, write, ih]
  | conj left right ihl ihr | disj left right ihl ihr => rw [map, write, write, ihl, ihr]
  | group t ih => rw [map, write, write, ih]

theorem respects_map {f : α → β} : (t.map f).Respects level ↔ t.Respects level := by
  induction t generalizing level with
  | leaf a => exact Iff.rfl
  | neg t ih => exact ih
  | conj left right ihl ihr | disj left right ihl ihr => exact and_congr_right' (and_congr ihl ihr)
  | group t ih => exact ih

/-! ### In front of other words -/

section Append

variable (words : Words W) (text : α → List W)

theorem write_conj_append (left right : Tree α) (rest : List W) :
    (conj left right).write words text ++ rest =
      left.write words text ++ words.and_ :: (right.write words text ++ rest) :=
  append_assoc _ _ _

theorem write_disj_append (left right : Tree α) (rest : List W) :
    (disj left right).write words text ++ rest =
      left.write words text ++ words.or_ :: (right.write words text ++ rest) :=
  append_assoc _ _ _

theorem write_group_append (t : Tree α) (rest : List W) : (group t).write words text ++ rest =
      words.open_ :: (t.write words text ++ words.close :: rest) :=
  congrArg (List.cons _) (append_assoc _ _ _)

end Append

theorem write_ne_nil {words : Words W} {text : α → List W} (h : ∀ a, text a ≠ []) (t : Tree α) :
    t.write words text ≠ [] := by
  cases t with
  | leaf a => exact h a
  | neg t => exact cons_ne_nil _ _
  | conj left right | disj left right => exact append_ne_nil_of_right_ne_nil _ (cons_ne_nil _ _)
  | group t => exact cons_ne_nil _ _

end Tree

end BoolTree
