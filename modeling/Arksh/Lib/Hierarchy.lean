/-
  Subject: Hierarchies: nodes that name other nodes as their bases, and searches through them.

  The C idiom behind it: a table of nodes by name, each with the names of its bases, and recursive
  searches that give up at a fixed depth. Without cycles, the nodes have a rank below their
  number, so that a search with that depth is never cut off.
-/
import Mathlib.Data.Finset.Card
import Arksh.Lib.Assoc

namespace Hierarchy

open Assoc Relation List Option Nat
open Function (update)

variable {N C V K W : Type} {find : N → Option C} {basesOf : C → List N} {own : C → Option V}
  {a b target : N} {c : C} {limit limit' : Nat} {l : List N}

/-! ## 1. Bases -/

def Extends (find : N → Option C) (basesOf : C → List N) (a b : N) : Prop :=
  ∃ c, find a = some c ∧ b ∈ basesOf c

/-- No path of bases comes back to where it began. -/
def Acyclic (find : N → Option C) (basesOf : C → List N) : Prop :=
  ∀ a, ¬ TransGen (Extends find basesOf) a a

def Closed (find : N → Option C) (basesOf : C → List N) : Prop :=
  ∀ a b, Extends find basesOf a b → (find b).isSome = true

/-- **Without cycles, a rank falls along every edge, and is at most the number of nodes.** -/
theorem exists_rank [DecidableEq N] {nodes : List N}
    (hnodes : ∀ a, (find a).isSome = true → a ∈ nodes) (hclosed : Closed find basesOf)
    (hacyclic : Acyclic find basesOf) :
    ∃ rank : N → Nat, (∀ a b, Extends find basesOf a b → rank b < rank a) ∧
      ∀ a, rank a ≤ nodes.length := by
  classical
  -- The rank counts what is below.
  let below (a : N) : Finset N := nodes.toFinset.filter (TransGen (Extends find basesOf) a)
  refine ⟨fun a => (below a).card, ?_, ?_⟩
  · intro a b hab
    have hb : b ∈ nodes := hnodes b (hclosed a b hab)
    apply Finset.card_lt_card
    rw [Finset.ssubset_iff_of_subset]
    · refine ⟨b, ?_, ?_⟩
      · exact Finset.mem_filter.mpr ⟨mem_toFinset.mpr hb, TransGen.single hab⟩
      · intro hmem; exact hacyclic b (Finset.mem_filter.mp hmem).2
    · intro x hx
      obtain ⟨hx, hpath⟩ := Finset.mem_filter.mp hx
      exact Finset.mem_filter.mpr ⟨hx, TransGen.head hab hpath⟩
  · intro a
    have hle : (below a).card ≤ nodes.toFinset.card := Finset.card_filter_le _ _
    exact le_trans hle (toFinset_card_le nodes)

/-! ## 2. Searches -/

/-- The search for a node below another one. -/
def reaches [DecidableEq N] (find : N → Option C) (basesOf : C → List N) : Nat → N → N → Bool
  | 0, _, _ => false
  | limit + 1, a, target =>
    match find a with
    | none => false
    | some c => (basesOf c).any fun b => b = target || reaches find basesOf limit b target

/-- The search for the first node that has something of its own. -/
def firstHit (find : N → Option C) (basesOf : C → List N) (own : C → Option V) :
    Nat → N → Option V
  | 0, _ => none
  | limit + 1, a =>
    match find a with
    | none => none
    | some c => (own c).or ((basesOf c).findSome? (firstHit find basesOf own limit))

theorem transGen_of_reaches [DecidableEq N] (h : reaches find basesOf limit a target = true) :
    TransGen (Extends find basesOf) a target := by
  induction limit generalizing a with
  | zero => cases h
  | succ limit ih =>
    unfold reaches at h
    cases hfind : find a with
    | none => rw [hfind] at h; cases h
    | some c =>
      rw [hfind] at h
      obtain ⟨b, hb, hhit⟩ := any_eq_true.mp h
      have hedge : Extends find basesOf a b := ⟨c, hfind, hb⟩
      rcases Bool.or_eq_true_iff.mp hhit with heq | hrest
      · rw [← of_decide_eq_true heq]; exact TransGen.single hedge
      · exact TransGen.head hedge (ih hrest)

variable {rank : N → Nat}

/-- **Where the rank is below the limit, the search finds whatever is below.** -/
theorem reaches_iff [DecidableEq N] (hrank : ∀ a b, Extends find basesOf a b → rank b < rank a)
    (hlimit : rank a < limit) :
    reaches find basesOf limit a target = true ↔ TransGen (Extends find basesOf) a target := by
  constructor
  · exact transGen_of_reaches
  · intro hpath
    induction limit generalizing a with
    | zero => exact absurd hlimit (not_lt_zero _)
    | succ limit ih =>
      obtain ⟨b, hedge, hrest⟩ := TransGen.head'_iff.mp hpath
      have hless : rank b < limit := lt_of_lt_of_le (hrank a b hedge) (le_of_lt_succ hlimit)
      obtain ⟨c, hfind, hb⟩ := hedge
      unfold reaches
      rw [hfind]
      refine any_eq_true.mpr ⟨b, hb, ?_⟩
      rcases reflTransGen_iff_eq_or_transGen.mp hrest with heq | htrans
      · rw [heq]; simp
      · rw [ih hless htrans, Bool.or_true]

/-- **Where the rank is below both limits, the search finds the same.** -/
theorem firstHit_of_rank (hrank : ∀ a b, Extends find basesOf a b → rank b < rank a)
    (hlimit : rank a < limit) (hlimit' : rank a < limit') :
    firstHit find basesOf own limit a = firstHit find basesOf own limit' a := by
  induction limit generalizing a limit' with
  | zero => exact absurd hlimit (not_lt_zero _)
  | succ limit ih =>
    cases limit' with
    | zero => exact absurd hlimit' (not_lt_zero _)
    | succ limit' =>
      unfold firstHit
      cases hfind : find a with
      | none => rfl
      | some c =>
        have hbases : ∀ b ∈ basesOf c, firstHit find basesOf own limit b =
            firstHit find basesOf own limit' b := by
          intro b hb
          have hless := hrank a b ⟨c, hfind, hb⟩
          exact ih (by omega) (by omega)
        have hsame : ∀ bases : List N, (∀ b ∈ bases, b ∈ basesOf c) →
            bases.findSome? (firstHit find basesOf own limit) =
              bases.findSome? (firstHit find basesOf own limit') := by
          intro bases hsub
          induction bases with
          | nil => rfl
          | cons b bases ihb =>
            rw [findSome?_cons, findSome?_cons, hbases b (hsub b mem_cons_self),
              ihb fun x hx => hsub x (mem_cons_of_mem b hx)]
        dsimp only
        rw [hsame (basesOf c) fun _ hb => hb]

/-! ## 3. Writes -/

/-- The rows that a walk writes: those of the bases, from the last to the first, then the node's
    own. -/
def writes (find : N → Option C) (basesOf : C → List N) (rows : C → List W) :
    Nat → N → Option (List W)
  | 0, _ => none
  | limit + 1, a =>
    match find a with
    | none => none
    | some c =>
      ((basesOf c).reverse.mapM (writes find basesOf rows limit)).map fun below =>
        below.flatten ++ rows c

variable {f : N → Option V}

theorem mapM_isSome (h : ∀ x ∈ l, (f x).isSome = true) : (l.mapM f).isSome = true := by
  induction l with
  | nil => rfl
  | cons x l ih =>
    obtain ⟨v, hv⟩ := isSome_iff_exists.mp (h x mem_cons_self)
    obtain ⟨vs, hvs⟩ := isSome_iff_exists.mp (ih fun y hy => h y (mem_cons_of_mem x hy))
    simp [mapM_cons, hv, hvs]

theorem mem_of_mapM {vs : List V} (h : l.mapM f = some vs) {v : V} (hv : v ∈ vs) :
    ∃ x ∈ l, f x = some v := by
  induction l generalizing vs with
  | nil => cases h; exact absurd hv not_mem_nil
  | cons x l ih =>
    simp only [mapM_cons, Option.bind_eq_bind, Option.bind_eq_some_iff, Option.pure_def,
      Option.some.injEq] at h
    obtain ⟨w, hw, rest, hrest, hvs⟩ := h
    rw [← hvs] at hv
    rcases mem_cons.mp hv with heq | hv
    · rw [heq]; exact ⟨x, mem_cons_self, hw⟩
    · obtain ⟨y, hy, hfy⟩ := ih hrest hv; exact ⟨y, mem_cons_of_mem x hy, hfy⟩

variable {rows : C → List W}

theorem writes_isSome (hclosed : Closed find basesOf)
    (hrank : ∀ a b, Extends find basesOf a b → rank b < rank a) (hlimit : rank a < limit)
    (ha : (find a).isSome = true) : (writes find basesOf rows limit a).isSome = true := by
  induction limit generalizing a with
  | zero => exact absurd hlimit (not_lt_zero _)
  | succ limit ih =>
    obtain ⟨c, hfind⟩ := isSome_iff_exists.mp ha
    unfold writes
    rw [hfind]
    rw [isSome_map]
    apply mapM_isSome
    intro b hb
    have hedge : Extends find basesOf a b := ⟨c, hfind, mem_reverse.mp hb⟩
    have hless := hrank a b hedge
    exact ih (by omega) (hclosed a b hedge)

theorem mem_writes {ws : List W} {row : W} (h : writes find basesOf rows limit a = some ws)
    (hrow : row ∈ ws) : ∃ b c, find b = some c ∧ row ∈ rows c := by
  induction limit generalizing a ws with
  | zero => cases h
  | succ limit ih =>
    unfold writes at h
    cases hfind : find a with
    | none => rw [hfind] at h; cases h
    | some c =>
      rw [hfind] at h
      obtain ⟨below, hbelow, hws⟩ := map_eq_some_iff.mp h
      rw [← hws] at hrow
      rcases mem_append.mp hrow with hrow | hrow
      · obtain ⟨part, hpart, hrow⟩ := mem_flatten.mp hrow
        obtain ⟨base, _, hbase⟩ := mem_of_mapM hbelow hpart
        exact ih hbase hrow
      · exact ⟨a, c, hfind, hrow⟩

section LastWrite

variable [BEq K] {k : K}

theorem lastWrite_append (ops ops' : List (K × V)) :
    lastWrite k (ops ++ ops') = (lastWrite k ops').or (lastWrite k ops) := by
  unfold lastWrite
  rw [reverse_append, lookup_append]

/-- The rows of a list of bases, walked from its end: the first base that has the key decides. -/
theorem lastWrite_flatten {f : N → Option (List (K × V))} {hit : N → Option V} {bases : List N}
    {below : List (List (K × V))} (hf : ∀ b ∈ bases, ∀ ws, f b = some ws → lastWrite k ws = hit b)
    (h : bases.reverse.mapM f = some below) : lastWrite k below.flatten = bases.findSome? hit := by
  induction bases generalizing below with
  | nil => cases h; rfl
  | cons b bases ih =>
    rw [reverse_cons, mapM_append] at h
    simp only [Option.bind_eq_bind, Option.bind_eq_some_iff, mapM_cons, mapM_nil,
      Option.pure_def, Option.some.injEq] at h
    obtain ⟨rest, hrest, last, ⟨ws, hws, ⟨_, hnil, hlast⟩⟩, hbelow⟩ := h
    have hsame := ih (fun x hx => hf x (mem_cons_of_mem b hx)) hrest
    rw [← hbelow, ← hlast, ← hnil, flatten_append, lastWrite_append, hsame,
      flatten_cons, flatten_nil, append_nil, hf b mem_cons_self ws hws, findSome?_cons]
    cases hit b with
    | none | some v => rfl

theorem lastWrite_writes {rows : C → List (K × V)} {ws : List (K × V)}
    (hown : ∀ b c, find b = some c → lastWrite k (rows c) = own c)
    (h : writes find basesOf rows limit a = some ws) :
    lastWrite k ws = firstHit find basesOf own limit a := by
  induction limit generalizing a ws with
  | zero => cases h
  | succ limit ih =>
    unfold writes at h
    unfold firstHit
    cases hfind : find a with
    | none => rw [hfind] at h; cases h
    | some c =>
      rw [hfind] at h
      obtain ⟨below, hbelow, hws⟩ := map_eq_some_iff.mp h
      have hbases := lastWrite_flatten (fun b _ ws hb => ih hb) hbelow
      rw [← hws, lastWrite_append, hown a c hfind, hbases]

end LastWrite

/-! ## 4. A new node -/

section Update

variable [DecidableEq N] {name x : N}

/-- Away from the new node, the edges are the old ones. -/
theorem extends_update_iff (h : x ≠ name) :
    Extends (update find name (some c)) basesOf x b ↔ Extends find basesOf x b := by
  unfold Extends
  rw [Function.update_of_ne h]

theorem reaches_update (h : x ≠ name) :
    reaches (update find name (some c)) basesOf limit x name =
      reaches find basesOf limit x name := by
  induction limit generalizing x with
  | zero => rfl
  | succ limit ih =>
    unfold reaches
    rw [Function.update_of_ne h]
    cases find x with
    | none => rfl
    | some d =>
      apply congrArg (List.any (basesOf d))
      funext b
      by_cases hb : b = name
      · simp [hb]
      · rw [ih hb]

theorem transGen_update (hx : x ≠ name) (h : TransGen (Extends find basesOf) x name) :
    TransGen (Extends (update find name (some c)) basesOf) x name := by
  induction h using TransGen.head_induction_on with
  | single hedge => exact TransGen.single ((extends_update_iff hx).mpr hedge)
  | @head x y hedge _ ih =>
    have hedge' : Extends (update find name (some c)) basesOf x y :=
      (extends_update_iff hx).mpr hedge
    by_cases hy : y = name
    · rw [hy] at hedge'; exact TransGen.single hedge'
    · exact TransGen.head hedge' (ih hy)

theorem transGen_of_update (hx : x ≠ name)
    (h : TransGen (Extends (update find name (some c)) basesOf) x name) :
    TransGen (Extends find basesOf) x name := by
  induction h using TransGen.head_induction_on with
  | single hedge => exact TransGen.single ((extends_update_iff hx).mp hedge)
  | @head x y hedge _ ih =>
    have hedge' := (extends_update_iff hx).mp hedge
    by_cases hy : y = name
    · rw [hy] at hedge'; exact TransGen.single hedge'
    · exact TransGen.head hedge' (ih hy)

/-- A path is an old one or goes by way of the new node. -/
theorem transGen_update_cases
    (h : TransGen (Extends (update find name (some c)) basesOf) a b) :
    TransGen (Extends find basesOf) a b ∨
      (a = name ∨ TransGen (Extends (update find name (some c)) basesOf) a name) ∧
        TransGen (Extends (update find name (some c)) basesOf) name b := by
  induction h with
  | single hedge =>
    by_cases ha : a = name
    · rw [ha] at hedge ⊢; exact Or.inr ⟨Or.inl rfl, TransGen.single hedge⟩
    · exact Or.inl (TransGen.single ((extends_update_iff ha).mp hedge))
  | @tail y z hpath hedge ih =>
    by_cases hy : y = name
    · rw [hy] at hpath hedge; exact Or.inr ⟨Or.inr hpath, TransGen.single hedge⟩
    · rcases ih with hold | hnew
      · exact Or.inl (TransGen.tail hold ((extends_update_iff hy).mp hedge))
      · exact Or.inr ⟨hnew.1, TransGen.tail hnew.2 hedge⟩

/-- **A node that is put into the table closes no cycle iff it is not among or below its bases.** -/
theorem acyclic_update_iff (h : Acyclic find basesOf) :
    Acyclic (update find name (some c)) basesOf ↔
      ∀ b ∈ basesOf c, b ≠ name ∧ ¬ TransGen (Extends find basesOf) b name := by
  have hnew : ∀ b, Extends (update find name (some c)) basesOf name b ↔ b ∈ basesOf c := by
    intro b
    unfold Extends
    rw [Function.update_self]
    constructor
    · intro ⟨d, hd, hb⟩
      rwa [Option.some.inj hd]
    · intro hb; exact ⟨c, rfl, hb⟩
  constructor
  · intro hacyclic b hb
    have hedge := (hnew b).mpr hb
    have hne : b ≠ name := by
      intro heq
      rw [heq] at hedge
      exact hacyclic name (TransGen.single hedge)
    exact ⟨hne, fun hpath => hacyclic name (TransGen.head hedge (transGen_update hne hpath))⟩
  · intro hbases
    -- The new node is on no cycle.
    have hname : ¬ TransGen (Extends (update find name (some c)) basesOf) name name := by
      intro hcycle
      obtain ⟨b, hedge, hrest⟩ := TransGen.head'_iff.mp hcycle
      obtain ⟨hne, hno⟩ := hbases b ((hnew b).mp hedge)
      rcases reflTransGen_iff_eq_or_transGen.mp hrest with heq | hpath
      · exact hne heq.symm
      · exact hno (transGen_of_update hne hpath)
    intro a hcycle
    rcases transGen_update_cases hcycle with hold | ⟨heq | hto, hfrom⟩
    · exact h a hold
    · rw [heq] at hfrom; exact hname hfrom
    · exact hname (hfrom.trans hto)

end Update

end Hierarchy
