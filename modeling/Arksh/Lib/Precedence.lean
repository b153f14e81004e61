/-
  Subject: Chains of binary operators on two levels of precedence, both associative to the left.

  A chain is an operand, with pairs of an operator and an operand behind it. Its tree is said by
  the shape (`Tree.Respects`): a tight operator takes an operand on its right, a product on its
  left; a loose one takes a product on its right. Applying an operator may fail.
-/
import Mathlib.Data.List.Basic

namespace Precedence

open List Option

variable {V O E : Type*}

/-! ## 1. Trees -/

inductive Tree (V O : Type*) where
  | leaf (v : V)
  | node (op : O) (left right : Tree V O)

variable {t product : Tree V O}

namespace Tree

def first : Tree V O → V
  | leaf v => v
  | node _ left _ => left.first

/-- The operators of the chain, each with the operand behind it. -/
def rest : Tree V O → List (O × V)
  | leaf _ => []
  | node op left right => left.rest ++ (op, right.first) :: right.rest

/-- No loose operator is at the root. -/
def IsProduct (tight : O → Bool) : Tree V O → Prop
  | leaf _ => True
  | node op _ _ => tight op = true

def IsLeaf : Tree V O → Prop
  | leaf _ => True
  | node .. => False

/-- Tight operators bind tighter than the others, and both associate to the left. -/
def Respects (tight : O → Bool) : Tree V O → Prop
  | leaf _ => True
  | node op left right =>
    left.Respects tight ∧ right.Respects tight ∧
      if tight op then left.IsProduct tight ∧ right.IsLeaf else right.IsProduct tight

def eval (apply : O → V → V → Except E V) : Tree V O → Except E V
  | leaf v => .ok v
  | node op left right =>
    (left.eval apply).bind fun a => (right.eval apply).bind fun b => apply op a b

def FailsWithin (apply : O → V → V → Except E V) : Tree V O → Prop
  | leaf _ => False
  | node op left right =>
    left.FailsWithin apply ∨ right.FailsWithin apply ∨
      ∃ a b e, left.eval apply = .ok a ∧ right.eval apply = .ok b ∧ apply op a b = .error e

theorem IsLeaf.eq (h : t.IsLeaf) : t = leaf t.first := by
  cases t with
  | leaf v => rfl
  | node op left right => exact h.elim

/-- **A tree has no value exactly where an application inside of it fails.** -/
theorem eval_error_iff {apply : O → V → V → Except E V} :
    (∃ e, t.eval apply = .error e) ↔ t.FailsWithin apply := by
  induction t with
  | leaf v =>
    constructor
    · intro ⟨e, h⟩; cases h
    · exact False.elim
  | node op left right ihl ihr =>
    unfold FailsWithin
    rw [← ihl, ← ihr, eval]
    cases hl : left.eval apply with
    | error e => exact ⟨fun _ => .inl ⟨e, rfl⟩, fun _ => ⟨e, rfl⟩⟩
    | ok a =>
      cases hr : right.eval apply with
      | error e => exact ⟨fun _ => .inr (.inl ⟨e, rfl⟩), fun _ => ⟨e, rfl⟩⟩
      | ok b =>
        constructor
        · intro ⟨e, h⟩; exact .inr (.inr ⟨a, b, e, rfl, rfl, h⟩)
        · rintro (⟨e, h⟩ | ⟨e, h⟩ | ⟨a', b', e, ha, hb, h⟩)
          · cases h
          · cases h
          · cases ha
            cases hb
            exact ⟨e, h⟩

end Tree

/-! ## 2. The tree of a chain -/

/-- The sum so far, with the operator behind it, and the product that ends here. -/
def join : Option (Tree V O × O) → Tree V O → Tree V O
  | none, product => product
  | some (sum, op), product => .node op sum product

/-- Reading a chain from the left: the sum, the product being read, and what is left of the
    chain. -/
def read (tight : O → Bool) : Option (Tree V O × O) → Tree V O → List (O × V) → Tree V O
  | sum, product, [] => join sum product
  | sum, product, (op, v) :: rest =>
    if tight op then read tight sum (.node op product (.leaf v)) rest
    else read tight (some (join sum product, op)) (.leaf v) rest

variable {tight : O → Bool} {sum : Option (Tree V O × O)}

theorem join_respects (hsum : ∀ p ∈ sum, p.1.Respects tight ∧ tight p.2 = false)
    (hproduct : product.Respects tight) (hroot : product.IsProduct tight) :
    (join sum product).Respects tight := by
  cases sum with
  | none => exact hproduct
  | some p =>
    obtain ⟨hleft, hop⟩ := hsum p rfl
    refine ⟨hleft, hproduct, ?_⟩
    rw [hop]
    exact hroot

variable {rest : List (O × V)}

theorem read_respects (hsum : ∀ p ∈ sum, p.1.Respects tight ∧ tight p.2 = false)
    (hproduct : product.Respects tight) (hroot : product.IsProduct tight) :
    (read tight sum product rest).Respects tight := by
  induction rest generalizing sum product with
  | nil => exact join_respects hsum hproduct hroot
  | cons pair rest ih =>
    obtain ⟨op, v⟩ := pair
    unfold read
    by_cases hop : tight op = true
    · rw [if_pos hop]
      refine ih hsum ⟨hproduct, trivial, ?_⟩ hop
      rw [if_pos hop]
      exact ⟨hroot, trivial⟩
    · rw [if_neg hop]
      refine ih ?_ trivial trivial
      intro p hp
      cases hp
      exact ⟨join_respects hsum hproduct hroot, Bool.eq_false_iff.mpr hop⟩

theorem join_first (sum : Option (Tree V O × O)) (product : Tree V O) :
    (join sum product).first = (sum.map fun p => p.1.first).getD product.first := by
  cases sum <;> rfl

theorem join_rest (sum : Option (Tree V O × O)) (product : Tree V O) : (join sum product).rest =
      (sum.map fun p => p.1.rest ++ [(p.2, product.first)]).getD [] ++ product.rest := by
  cases sum with
  | none => rfl
  | some p => show p.1.rest ++ (p.2, product.first) :: product.rest = _; simp

theorem read_chain (rest : List (O × V)) (sum : Option (Tree V O × O)) (product : Tree V O) :
    (read tight sum product rest).first = (join sum product).first ∧
      (read tight sum product rest).rest = (join sum product).rest ++ rest := by
  induction rest generalizing sum product with
  | nil => exact ⟨rfl, (append_nil _).symm⟩
  | cons pair rest ih =>
    obtain ⟨op, v⟩ := pair
    unfold read
    split
    · obtain ⟨hfirst, hrest⟩ := ih sum (.node op product (.leaf v))
      rw [hfirst, hrest]
      simp only [join_first, join_rest, Tree.first, Tree.rest, append_assoc,
        cons_append, nil_append, and_self]
    · obtain ⟨hfirst, hrest⟩ := ih (some (join sum product, op)) (.leaf v)
      rw [hfirst, hrest]
      refine ⟨rfl, ?_⟩
      simp only [join, Tree.rest, Tree.first, append_assoc, cons_append, nil_append]

variable {t : Tree V O}

theorem read_product (h : t.Respects tight) (hroot : t.IsProduct tight)
    (sum : Option (Tree V O × O)) (rest : List (O × V)) :
    read tight sum (.leaf t.first) (t.rest ++ rest) = read tight sum t rest := by
  induction t generalizing rest with
  | leaf v => rfl
  | node op left right ihl ihr =>
    have hop : tight op = true := hroot
    obtain ⟨hleft, -, hsides⟩ := h
    rw [if_pos hop] at hsides
    obtain ⟨hlroot, hleaf⟩ := hsides
    have hchain : (Tree.node op left right).rest ++ rest =
        left.rest ++ ((op, right.first) :: rest) := by
      rw [hleaf.eq]
      simp [Tree.rest, Tree.first]
    rw [hchain]
    show read tight sum (.leaf left.first) _ = _
    rw [ihl hleft hlroot, read, if_pos hop, ← hleaf.eq]

theorem read_sum (h : t.Respects tight) (rest : List (O × V))
    (hrest : ∀ p ∈ rest.head?, tight p.1 = false) :
    read tight none (.leaf t.first) (t.rest ++ rest) = read tight none t rest := by
  induction t generalizing rest with
  | leaf v => rfl
  | node op left right ihl ihr =>
    by_cases hop : tight op = true
    · exact read_product h hop none rest
    · obtain ⟨hleft, hright, hsides⟩ := h
      rw [if_neg hop] at hsides
      have hloose : tight op = false := Bool.eq_false_iff.mpr hop
      have hchain : (Tree.node op left right).rest ++ rest =
          left.rest ++ ((op, right.first) :: (right.rest ++ rest)) := by
        simp [Tree.rest]
      rw [hchain]
      show read tight none (.leaf left.first) _ = _
      rw [ihl hleft _ (by simpa using hloose), read, if_neg hop, read_product hright hsides]
      cases rest with
      | nil => rfl
      | cons pair rest =>
        have hnext : tight pair.1 = false := hrest pair rfl
        rw [read, read, hnext]
        rfl

variable {v : V}

theorem eq_read_iff :
    t = read tight none (.leaf v) rest ↔ t.Respects tight ∧ t.first = v ∧ t.rest = rest := by
  constructor
  · rintro rfl
    exact ⟨read_respects (fun p hp => nomatch hp) trivial trivial, read_chain rest none (.leaf v)⟩
  · rintro ⟨hshape, rfl, rfl⟩
    have hread := read_sum hshape [] (fun p hp => nomatch hp)
    rw [append_nil] at hread
    exact hread.symm

/-- **Every chain is the chain of exactly one tree that respects the precedence.** -/
theorem existsUnique_respects (tight : O → Bool) (v : V) (rest : List (O × V)) :
    ∃! t : Tree V O, t.Respects tight ∧ t.first = v ∧ t.rest = rest :=
  ⟨read tight none (.leaf v) rest, eq_read_iff.mp rfl, fun _ h => eq_read_iff.mpr h⟩

/-! ## 3. Two passes -/

def tightPass (tight : O → Bool) (apply : O → V → V → Except E V) :
    V → List (O × V) → Except E (V × List (O × V))
  | a, [] => .ok (a, [])
  | a, (op, b) :: rest =>
    if tight op then (apply op a b).bind fun c => tightPass tight apply c rest
    else (tightPass tight apply b rest).map fun (c, sums) => (a, (op, c) :: sums)

/-- The second pass: the other operators, from the left. -/
def loosePass (apply : O → V → V → Except E V) : V → List (O × V) → Except E V
  | a, [] => .ok a
  | a, (op, b) :: rest => (apply op a b).bind fun c => loosePass apply c rest

def passes (tight : O → Bool) (apply : O → V → V → Except E V) (v : V) (rest : List (O × V)) :
    Except E V :=
  (tightPass tight apply v rest).bind fun (a, sums) => loosePass apply a sums

variable {α β : Type*}

theorem toOption_bind (x : Except E α) (f : α → Except E β) :
    (x.bind f).toOption = x.toOption.bind fun a => (f a).toOption := by
  cases x <;> rfl

theorem toOption_map (x : Except E α) (f : α → β) : (x.map f).toOption = x.toOption.map f := by
  cases x <;> rfl

variable {apply : O → V → V → Except E V}

def joinValue (apply : O → V → V → Except E V) : Option (Tree V O × O) → V → Option V
  | none, c => some c
  | some (sum, op), c => (sum.eval apply).toOption.bind fun a => (apply op a c).toOption

theorem eval_join (sum : Option (Tree V O × O)) (product : Tree V O) :
    ((join sum product).eval apply).toOption =
      (product.eval apply).toOption.bind (joinValue apply sum) := by
  cases sum with
  | none => cases h : product.eval apply <;> simp [join, joinValue, h, Except.toOption]
  | some p =>
    simp only [join, Tree.eval, toOption_bind]
    cases hsum : (p.1.eval apply).toOption <;> cases (product.eval apply).toOption <;>
      simp [joinValue, hsum]

theorem eval_read (rest : List (O × V)) (sum : Option (Tree V O × O)) (product : Tree V O) :
    ((read tight sum product rest).eval apply).toOption =
      (product.eval apply).toOption.bind fun c =>
        (tightPass tight apply c rest).toOption.bind fun p =>
          (joinValue apply sum p.1).bind fun a => (loosePass apply a p.2).toOption := by
  induction rest generalizing sum product with
  | nil =>
    rw [read, eval_join]
    refine congrArg _ (funext fun c => ?_)
    show _ = (joinValue apply sum c).bind fun a => some a
    cases joinValue apply sum c <;> rfl
  | cons pair rest ih =>
    obtain ⟨op, v⟩ := pair
    rw [read]
    by_cases hop : tight op = true
    · rw [if_pos hop, ih]
      simp only [Tree.eval, toOption_bind, tightPass, if_pos hop, bind_assoc]
      rfl
    · rw [if_neg hop, ih]
      have hsum : ∀ c, joinValue apply (some (join sum product, op)) c =
          ((join sum product).eval apply).toOption.bind fun a => (apply op a c).toOption :=
        fun _ => rfl
      have hleaf : ((Tree.leaf v : Tree V O).eval apply).toOption = some v := rfl
      simp only [tightPass, if_neg hop, toOption_map, hsum, hleaf, eval_join, bind_some]
      -- the products behind the operator and the sum in front of it fail independently
      cases (product.eval apply).toOption <;> cases (tightPass tight apply v rest).toOption <;>
        simp only [bind_none, bind_some, map_none, map_some, bind_assoc, loosePass, toOption_bind]

theorem passes_toOption (h : t.Respects tight) :
    (passes tight apply t.first t.rest).toOption = (t.eval apply).toOption := by
  have hread := read_sum h [] (fun p hp => nomatch hp)
  rw [append_nil] at hread
  have hvalue := @eval_read V O E tight apply t.rest none (.leaf t.first)
  rw [hread] at hvalue
  show _ = ((read tight none t []).eval apply).toOption
  rw [hvalue, passes, toOption_bind]
  rfl

theorem toOption_eq_some {x : Except E α} {a : α} : x.toOption = some a ↔ x = .ok a := by
  cases x with
  | error e => exact ⟨(nomatch ·), (nomatch ·)⟩
  | ok b => exact ⟨fun h => congrArg _ (Option.some.inj h), fun h => congrArg _ (Except.ok.inj h)⟩

theorem toOption_eq_none {x : Except E α} : x.toOption = none ↔ ∃ e, x = .error e := by
  cases x with
  | error e => exact ⟨fun _ => ⟨e, rfl⟩, fun _ => rfl⟩
  | ok b => exact ⟨(nomatch ·), fun ⟨_, h⟩ => nomatch h⟩

/-- **The passes give the value of the tree.** -/
theorem passes_ok_iff (h : t.Respects tight) :
    passes tight apply t.first t.rest = .ok v ↔ t.eval apply = .ok v := by
  rw [← toOption_eq_some, ← toOption_eq_some, passes_toOption h]

/-- **They fail exactly where an application inside of the tree fails.** -/
theorem passes_fail_iff (h : t.Respects tight) :
    (∃ e, passes tight apply t.first t.rest = .error e) ↔ t.FailsWithin apply := by
  rw [← Tree.eval_error_iff, ← toOption_eq_none, ← toOption_eq_none, passes_toOption h]

/-! ## 4. Errors, and other operands -/

variable {e : E}

theorem tightPass_error (h : tightPass tight apply v rest = .error e) :
    ∃ op ∈ rest.map Prod.fst, ∃ a b, apply op a b = .error e := by
  induction rest generalizing v with
  | nil => cases h
  | cons pair rest ih =>
    obtain ⟨op, b⟩ := pair
    rw [tightPass] at h
    have hrest : ∀ {v}, tightPass tight apply v rest = .error e →
        ∃ op' ∈ op :: rest.map Prod.fst, ∃ a b, apply op' a b = .error e := by
      intro v hv
      obtain ⟨op', hop', hfails⟩ := ih hv
      exact ⟨op', mem_cons_of_mem _ hop', hfails⟩
    split at h
    · cases happly : apply op v b with
      | error e' =>
        rw [happly] at h
        cases h
        exact ⟨op, mem_cons_self, v, b, happly⟩
      | ok c => rw [happly] at h; exact hrest h
    · cases hpass : tightPass tight apply b rest with
      | error e' =>
        rw [hpass] at h
        cases h
        exact hrest hpass
      | ok p => rw [hpass] at h; cases h

/-- What is left is operators of the chain. -/
theorem tightPass_ops {p : V × List (O × V)} (h : tightPass tight apply v rest = .ok p) :
    ∀ op ∈ p.2.map Prod.fst, op ∈ rest.map Prod.fst := by
  induction rest generalizing v p with
  | nil => cases h; exact fun op hop => hop
  | cons pair rest ih =>
    obtain ⟨op, b⟩ := pair
    rw [tightPass] at h
    split at h
    · cases happly : apply op v b with
      | error e => rw [happly] at h; cases h
      | ok c => rw [happly] at h; exact fun op' hop' => mem_cons_of_mem _ (ih h op' hop')
    · cases hpass : tightPass tight apply b rest with
      | error e => rw [hpass] at h; cases h
      | ok p' =>
        rw [hpass] at h
        cases h
        intro op' hop'
        rcases mem_cons.mp hop' with rfl | hop'
        · exact mem_cons_self
        · exact mem_cons_of_mem _ (ih hpass op' hop')

theorem loosePass_error (h : loosePass apply v rest = .error e) :
    ∃ op ∈ rest.map Prod.fst, ∃ a b, apply op a b = .error e := by
  induction rest generalizing v with
  | nil => cases h
  | cons pair rest ih =>
    obtain ⟨op, b⟩ := pair
    rw [loosePass] at h
    cases happly : apply op v b with
    | error e' =>
      rw [happly] at h
      cases h
      exact ⟨op, mem_cons_self, v, b, happly⟩
    | ok c =>
      rw [happly] at h
      obtain ⟨op', hop', hfails⟩ := ih h
      exact ⟨op', mem_cons_of_mem _ hop', hfails⟩

theorem passes_error (h : passes tight apply v rest = .error e) :
    ∃ op ∈ rest.map Prod.fst, ∃ a b, apply op a b = .error e := by
  unfold passes at h
  cases hpass : tightPass tight apply v rest with
  | error e' =>
    rw [hpass] at h
    cases h
    exact tightPass_error hpass
  | ok p =>
    rw [hpass] at h
    obtain ⟨op, hop, hfails⟩ := loosePass_error h
    exact ⟨op, tightPass_ops hpass op hop, hfails⟩

theorem Tree.eval_error (h : t.eval apply = .error e) :
    ∃ op ∈ t.rest.map Prod.fst, ∃ a b, apply op a b = .error e := by
  induction t with
  | leaf v => cases h
  | node op left right ihl ihr =>
    have hops : (Tree.node op left right).rest.map Prod.fst =
        left.rest.map Prod.fst ++ op :: right.rest.map Prod.fst := by
      rw [Tree.rest, map_append, map_cons]
    rw [hops]
    rw [eval] at h
    cases hl : left.eval apply with
    | error e' =>
      rw [hl] at h
      cases h
      obtain ⟨op', hop', hfails⟩ := ihl hl
      exact ⟨op', mem_append_left _ hop', hfails⟩
    | ok a =>
      cases hr : right.eval apply with
      | error e' =>
        rw [hl, hr] at h
        cases h
        obtain ⟨op', hop', hfails⟩ := ihr hr
        exact ⟨op', mem_append_right _ (mem_cons_of_mem _ hop'), hfails⟩
      | ok b => rw [hl, hr] at h; exact ⟨op, mem_append_right _ mem_cons_self, a, b, h⟩

/-- **Where all applications fail in one way, the passes and the tree agree on that too.** -/
theorem passes_eq_eval (h : t.Respects tight)
    (hfails : ∀ op ∈ t.rest.map Prod.fst, ∀ a b e', apply op a b = .error e' → e' = e) :
    passes tight apply t.first t.rest = t.eval apply := by
  have honly : ∀ {x : Except E V}, (∀ e', x = .error e' →
      ∃ op ∈ t.rest.map Prod.fst, ∃ a b, apply op a b = .error e') → ∀ e', x = .error e' → e' = e := by
    intro x hx e' herror
    obtain ⟨op, hop, a, b, happly⟩ := hx e' herror
    exact hfails op hop a b e' happly
  cases heval : t.eval apply with
  | ok v => exact (passes_ok_iff h).mpr heval
  | error e' =>
    obtain ⟨e'', hpasses⟩ := (passes_fail_iff h).mpr (Tree.eval_error_iff.mp ⟨e', heval⟩)
    rw [hpasses, honly (fun _ => passes_error) e'' hpasses, honly (fun _ => Tree.eval_error) e' heval]

variable {W : Type*} {apply' : O → W → W → Except E W}

/-- **The passes over operands that stand for others.** -/
theorem passes_map {f : V → W} (h : ∀ op a b, apply' op (f a) (f b) = (apply op a b).map f) (v : V)
    (rest : List (O × V)) : passes tight apply' (f v) (rest.map fun p => (p.1, f p.2)) =
      (passes tight apply v rest).map f := by
  have htight : ∀ v, tightPass tight apply' (f v) (rest.map fun p => (p.1, f p.2)) =
      (tightPass tight apply v rest).map fun p => (f p.1, p.2.map fun q => (q.1, f q.2)) := by
    induction rest with
    | nil => exact fun v => rfl
    | cons pair rest ih =>
      obtain ⟨op, b⟩ := pair
      intro v
      rw [map_cons, tightPass, tightPass]
      split
      · rw [h]
        cases apply op v b with
        | error e => rfl
        | ok c => exact ih c
      · rw [ih]; cases tightPass tight apply b rest <;> rfl
  have hloose : ∀ (sums : List (O × V)) v,
      loosePass apply' (f v) (sums.map fun q => (q.1, f q.2)) = (loosePass apply v sums).map f := by
    intro sums
    induction sums with
    | nil => exact fun v => rfl
    | cons pair sums ih =>
      obtain ⟨op, b⟩ := pair
      intro v
      rw [map_cons, loosePass, loosePass, h]
      cases apply op v b with
      | error e => rfl
      | ok c => exact ih c
  rw [passes, passes, htight]
  cases tightPass tight apply v rest with
  | error e => rfl
  | ok p => exact hloose p.2 p.1

end Precedence
