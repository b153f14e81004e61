/-
  Subject: Reading and writing a tree along a path, with nodes that a write creates.

  A `Nodes ν σ` says what the nodes of a tree are: the child a step selects, the nodes a write
  may start from (the node that is there, or a fresh one where there is none), and how one child
  is replaced. A node may be unable to hold some children as they are: `Keeps c` says that `c`
  is not changed by being held.
-/
import Mathlib.Data.Option.Basic

structure Nodes (ν σ : Type*) where
  /-- the child that a step selects -/
  child : ν → σ → Option ν
  /-- the node a write works on, given the node that is there -/
  Base : Option ν → ν → Prop
  /-- `Write n s c n'`: `n'` is `n` with `c` as the child at `s` -/
  Write : ν → σ → ν → ν → Prop
  /-- two steps select the same child at the node that is there -/
  Same : Option ν → σ → σ → Prop
  Keeps : ν → Prop
  base_child : ∀ {cur n}, Base cur n → ∀ s, child n s = cur.bind (child · s)
  child_same : ∀ {cur n s t}, Base cur n → Same cur s t → child n t = child n s
  write_child : ∀ {n s c n'}, Write n s c n' → Keeps c → child n' s = some c
  write_keeps : ∀ {n s c n'}, Write n s c n' → Keeps n'
  write_same : ∀ {cur n s t c n'}, Base cur n → Write n s c n' → Same cur s t →
    child n' t = child n' s
  write_other : ∀ {cur n s t c n'}, Base cur n → Write n s c n' → ¬ Same cur s t →
    child n' t = child n t

namespace Nodes

variable {ν σ : Type*} (T : Nodes ν σ) {path : List σ}

def get : ν → List σ → Option ν
  | n, [] => some n
  | n, s :: path => (T.child n s).bind fun c => get c path

inductive Puts : Option ν → List σ → ν → ν → Prop
  | here (cur : Option ν) (r : ν) : Puts cur [] r r
  | step {cur : Option ν} {n u n' r : ν} {s : σ} {path : List σ} (base : T.Base cur n)
      (put : Puts (T.child n s) path r u) (write : T.Write n s u n') : Puts cur (s :: path) r n'

/-- At some node that the first path visits, the second selects another child. -/
inductive Diverges : Option ν → List σ → List σ → Prop
  | here {cur : Option ν} {s t : σ} {p q : List σ} (other : ¬ T.Same cur s t) :
      Diverges cur (s :: p) (t :: q)
  | under {cur : Option ν} {s t : σ} {p q : List σ} (same : T.Same cur s t)
      (div : Diverges (cur.bind (T.child · s)) p q) : Diverges cur (s :: p) (t :: q)

variable {cur : Option ν} {r n' : ν}

section

variable (h : T.Puts cur path r n')
include h

theorem puts_keeps (hr : T.Keeps r) : T.Keeps n' := by
  induction h with
  | here _ _ => exact hr
  | step _ _ hw _ => exact T.write_keeps hw

/-- **What was put is what is got.** -/
theorem get_of_puts (hr : T.Keeps r) : T.get n' path = some r := by
  induction h with
  | here _ _ => rfl
  | step hb hp hw ih =>
    rw [get, T.write_child hw (T.puts_keeps hp hr), Option.bind_some]
    exact ih hr

/-- **A write is not seen along a path that diverges from its own.** -/
theorem get_of_diverges {other : List σ} (hr : T.Keeps r) (hd : T.Diverges cur path other) :
    T.get n' other = cur.bind fun n => T.get n other := by
  induction h generalizing other with
  | here _ _ => cases hd
  | @step cur n u n' r s path hb hp hw ih =>
    cases hd with
    | @here _ _ t _ q hne =>
      -- the other path leaves here: the write touched a different child
      rw [get, T.write_other hb hw hne, T.base_child hb]
      cases cur <;> rfl
    | @under _ _ t _ q hs hd =>
      have hc : T.child n s = cur.bind (T.child · s) := T.base_child hb s
      rw [get, T.write_same hb hw hs, T.write_child hw (T.puts_keeps hp hr), Option.bind_some,
        ih hr (by rwa [hc])]
      have ht : cur.bind (T.child · t) = T.child n s := by
        rw [← T.base_child hb, T.child_same hb hs]
      rw [← ht]
      cases cur <;> rfl

end

end Nodes
