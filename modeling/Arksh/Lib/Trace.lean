/-
  Subject: Computations that read a context, change a state and report events, and that may be cut
           off.

  An interpreter that follows its program for at most `n` steps either finishes or is cut off; the
  events it reported so far count in both cases. `Trace κ ε σ α` is such a computation: from a
  context and a state to the events, and to a value and a new state if it finished.
-/
import Mathlib.Data.List.Basic

namespace Traces

open List

/-- What a run leaves: its events, and its value and state if it was not cut off. -/
structure Run (ε σ α : Type) where
  events : List ε
  result : Option (α × σ)

/-- A computation in a context of type `κ`. -/
def Trace (κ ε σ α : Type) := κ → σ → Run ε σ α

variable {u : Unit} {c : Prop}

namespace Trace

variable {κ ε σ α β : Type} {g : σ → σ} {e : ε}

/-! ## 1. The combinators -/

protected def pure (a : α) : Trace κ ε σ α := fun _ s => ⟨[], some (a, s)⟩

protected def bind (x : Trace κ ε σ α) (f : α → Trace κ ε σ β) : Trace κ ε σ β := fun k s =>
  match (x k s).result with
  | none => ⟨(x k s).events, none⟩
  | some (a, s') => ⟨(x k s).events ++ (f a k s').events, (f a k s').result⟩

instance : Monad (Trace κ ε σ) where
  pure := Trace.pure
  bind := Trace.bind

theorem bind_assoc' (x : Trace κ ε σ α) {γ : Type} (f : α → Trace κ ε σ β) (g : β → Trace κ ε σ γ) :
    Trace.bind (Trace.bind x f) g = Trace.bind x fun a => Trace.bind (f a) g := by
  funext k s
  unfold Trace.bind
  cases hx : (x k s).result with
  | none => rfl
  | some p =>
    obtain ⟨a, s₁⟩ := p
    dsimp only
    cases hf : (f a k s₁).result with
    | none => rfl
    | some q => dsimp only; rw [append_assoc]

instance : LawfulMonad (Trace κ ε σ) := by
  refine LawfulMonad.mk' _ ?_ ?_ fun x f g => bind_assoc' x f g
  · intro α x
    funext k s
    show Trace.bind x (fun a => Trace.pure a) k s = x k s
    unfold Trace.bind
    cases hx : (x k s).result with
    | none => show Run.mk (x k s).events none = x k s; rw [← hx]
    | some p => show Run.mk ((x k s).events ++ []) (some p) = x k s; rw [List.append_nil, ← hx]
  · intro α β a f
    funext k s
    rfl

def getState : Trace κ ε σ σ := fun _ s => ⟨[], some (s, s)⟩

def modifyState (f : σ → σ) : Trace κ ε σ Unit := fun _ s => ⟨[], some ((), f s)⟩

def getContext : Trace κ ε σ κ := fun k s => ⟨[], some (k, s)⟩

def tell (e : ε) : Trace κ ε σ Unit := fun _ s => ⟨[e], some ((), s)⟩

/-- An event, if there is a reason for it. -/
def tellIf (c : Prop) [Decidable c] (e : ε) : Trace κ ε σ Unit :=
  if c then tell e else Trace.pure ()

/-- The steps have run out. -/
def cut : Trace κ ε σ α := fun _ _ => ⟨[], none⟩

/-- In another context. -/
def within (g : κ → κ) (x : Trace κ ε σ α) : Trace κ ε σ α := fun k s => x (g k) s

def enclose (g : List ε → ε) (x : Trace κ ε σ α) : Trace κ ε σ α := fun k s =>
  ⟨[g (x k s).events], (x k s).result⟩

/-- The value of a part together with its events. -/
def listen (x : Trace κ ε σ α) : Trace κ ε σ (α × List ε) := fun k s =>
  ⟨(x k s).events, (x k s).result.map fun (a, s') => ((a, (x k s).events), s')⟩

/-! ## 2. Finished runs -/

/-- The run from `s` finishes in `s'` with the value `a`, and its events are `es`. -/
def Ends (x : Trace κ ε σ α) (k : κ) (s : σ) (es : List ε) (a : α) (s' : σ) : Prop :=
  x k s = ⟨es, some (a, s')⟩

variable {x : Trace κ ε σ α} {f : α → Trace κ ε σ β} {k : κ} {s s' : σ} {es : List ε} {a a' : α}
  {b : β}

theorem pure_ends : Ends (pure a : Trace κ ε σ α) k s es a' s' ↔ es = [] ∧ a' = a ∧ s' = s := by
  show (⟨[], some (a, s)⟩ : Run ε σ α) = ⟨es, some (a', s')⟩ ↔ _
  simp [eq_comm]

theorem bind_ends : Ends (x >>= f) k s es b s' ↔
    ∃ a s₁ es₁ es₂, Ends x k s es₁ a s₁ ∧ Ends (f a) k s₁ es₂ b s' ∧ es = es₁ ++ es₂ := by
  show Trace.bind x f k s = _ ↔ _
  unfold Trace.bind Ends
  constructor
  · intro h
    cases hr : (x k s).result with
    | none => rw [hr] at h; cases h
    | some p =>
      obtain ⟨a, s₁⟩ := p
      rw [hr] at h
      obtain ⟨he, hres⟩ := Run.mk.inj h
      refine ⟨a, s₁, (x k s).events, (f a k s₁).events, ?_, ?_, he.symm⟩
      · rw [← hr]
      · rw [← hres]
  · rintro ⟨a, s₁, es₁, es₂, hx, hf, rfl⟩
    rw [hx]
    dsimp only
    rw [hf]

theorem getContext_ends {k₁ : κ} :
    Ends (getContext : Trace κ ε σ κ) k s es k₁ s' ↔ es = [] ∧ k₁ = k ∧ s' = s := by
  show (⟨[], some (k, s)⟩ : Run ε σ κ) = ⟨es, some (k₁, s')⟩ ↔ _
  simp [eq_comm]

theorem modifyState_ends :
    Ends (modifyState g : Trace κ ε σ Unit) k s es u s' ↔ es = [] ∧ s' = g s := by
  show (⟨[], some ((), g s)⟩ : Run ε σ Unit) = ⟨es, some (u, s')⟩ ↔ _
  simp [eq_comm]

theorem tell_ends : Ends (tell e : Trace κ ε σ Unit) k s es u s' ↔ es = [e] ∧ s' = s := by
  show (⟨[e], some ((), s)⟩ : Run ε σ Unit) = ⟨es, some (u, s')⟩ ↔ _
  simp [eq_comm]

theorem tellIf_ends [Decidable c] :
    Ends (tellIf c e : Trace κ ε σ Unit) k s es u s' ↔ es = (if c then [e] else []) ∧ s' = s := by
  unfold tellIf
  split
  · exact tell_ends
  · exact pure_ends.trans ⟨fun h => ⟨h.1, h.2.2⟩, fun h => ⟨h.1, rfl, h.2⟩⟩

theorem cut_ends : ¬ Ends (cut : Trace κ ε σ α) k s es a s' := by
  intro h
  cases h

theorem within_ends {g : κ → κ} : Ends (within g x) k s es a s' ↔ Ends x (g k) s es a s' := Iff.rfl

theorem enclose_ends {g : List ε → ε} :
    Ends (enclose g x) k s es a s' ↔ ∃ inner, Ends x k s inner a s' ∧ es = [g inner] := by
  unfold Ends enclose
  constructor
  · intro h
    obtain ⟨he, hr⟩ := Run.mk.inj h
    refine ⟨(x k s).events, ?_, he.symm⟩
    rw [← hr]
  · rintro ⟨inner, hx, rfl⟩; rw [hx]

theorem getState_bind_ends {f : σ → Trace κ ε σ β} :
    Ends (getState >>= f) k s es b s' ↔ Ends (f s) k s es b s' := Iff.rfl

theorem modifyState_bind_ends {f : Unit → Trace κ ε σ β} :
    Ends (modifyState g >>= f) k s es b s' ↔ Ends (f ()) k (g s) es b s' := Iff.rfl

theorem Ends.unique {es' : List ε} {s'' : σ} (h : Ends x k s es a s')
    (h' : Ends x k s es' a' s'') : es' = es ∧ a' = a ∧ s'' = s' := by
  have heq : (⟨es', some (a', s'')⟩ : Run ε σ α) = ⟨es, some (a, s')⟩ := h'.symm.trans h
  cases heq
  exact ⟨rfl, rfl, rfl⟩

theorem listen_ends {p : α × List ε} :
    Ends (listen x) k s es p s' ↔ Ends x k s es p.1 s' ∧ p.2 = es := by
  unfold Ends listen
  constructor
  · intro h
    obtain ⟨he, hr⟩ := Run.mk.inj h
    cases hx : (x k s).result with
    | none => rw [hx] at hr; cases hr
    | some q =>
      rw [hx] at hr
      cases hr
      refine ⟨?_, he⟩
      rw [← he, ← hx]
  · intro ⟨hx, hp⟩
    obtain ⟨a, inner⟩ := p
    dsimp only at hx hp
    rw [hx, hp]
    rfl

end Trace

/-! ## 3. Monitors -/

/-- A monitor reads the events of a run with a state of its own; it may refuse an event. -/
abbrev Monitor (ε μ : Type) := μ → ε → Option μ

namespace Monitor

variable {ε μ : Type} {M : Monitor ε μ} {m m' : μ} {e : ε} {es es' : List ε}

/-- A monitor over the events of a run. -/
def follow (M : Monitor ε μ) : μ → List ε → Option μ
  | m, [] => some m
  | m, e :: es => (M m e).bind fun m' => follow M m' es

theorem follow_append (h : M.follow m es = some m') : M.follow m (es ++ es') = M.follow m' es' := by
  induction es generalizing m with
  | nil => cases h; rfl
  | cons e es ih =>
    obtain ⟨m₁, he, hes⟩ := Option.bind_eq_some_iff.mp h
    show (M m e).bind _ = _
    rw [he]
    exact ih hes

theorem follow_singleton (h : M m e = some m') : M.follow m [e] = some m' := by
  show (M m e).bind _ = _
  rw [h]
  rfl

/-- The monitor that refuses nothing and learns nothing. -/
def idle : Monitor ε Unit := fun m _ => some m

theorem follow_idle : (idle : Monitor ε Unit).follow u es = some () := by
  induction es with
  | nil => rfl
  | cons e es ih => exact ih

end Monitor

/-! ## 4. Safe runs -/

namespace Trace

variable {κ ε σ α β μ : Type} {x : Trace κ ε σ α} {f : α → Trace κ ε σ β} {k : κ} {s s' : σ}
  {es : List ε} {a a' : α} {b : β} {e : ε} {g : List ε → ε}

/-- Unless an event of the run is excluded, the monitor follows it from `m` on, and in the end the
    value, the monitor and the state are as `Q` says. -/
def Safe (M : Monitor ε μ) (excluded : ε → Prop) (k : κ) (m : μ) (s : σ) (x : Trace κ ε σ α)
    (Q : α → μ → σ → Prop) : Prop :=
  (∀ e ∈ (x k s).events, ¬ excluded e) →
    ∃ m', M.follow m (x k s).events = some m' ∧
      ∀ a s', (x k s).result = some (a, s') → Q a m' s'

variable {M : Monitor ε μ} {excluded : ε → Prop} {m : μ} {Q Q' : α → μ → σ → Prop}
  {R : β → μ → σ → Prop}

theorem safe_pure (h : Q a m s) : Safe M excluded k m s (pure a) Q := by
  intro _
  refine ⟨m, rfl, ?_⟩
  intro a' s' hr
  cases hr
  exact h

theorem safe_bind (h : Safe M excluded k m s x fun a m' s' => Safe M excluded k m' s' (f a) R) :
    Safe M excluded k m s (x >>= f) R := by
  show Safe M excluded k m s (Trace.bind x f) R
  unfold Safe Trace.bind at *
  intro hok
  cases hr : (x k s).result with
  | none =>
    rw [hr] at hok
    obtain ⟨m', hm, _⟩ := h hok
    refine ⟨m', hm, ?_⟩
    intro b s' h'
    cases h'
  | some p =>
    obtain ⟨a, s₁⟩ := p
    rw [hr] at hok
    obtain ⟨m₁, hm₁, hres₁⟩ := h fun e he => hok e (mem_append_left _ he)
    obtain ⟨m₂, hm₂, hres₂⟩ := hres₁ a s₁ hr fun e he => hok e (mem_append_right _ he)
    refine ⟨m₂, ?_, hres₂⟩
    rw [Monitor.follow_append hm₁]
    exact hm₂

theorem Safe.mono (h : Safe M excluded k m s x Q) (hq : ∀ a m' s', Q a m' s' → Q' a m' s') :
    Safe M excluded k m s x Q' := by
  intro hok
  obtain ⟨m', hm, hres⟩ := h hok
  exact ⟨m', hm, fun a s' hr => hq a m' s' (hres a s' hr)⟩

theorem safe_idle (excluded : ε → Prop) (x : Trace κ ε σ α) :
    Safe Monitor.idle excluded k () s x fun _ _ _ => True := by
  intro _
  exact ⟨(), Monitor.follow_idle, fun _ _ _ => trivial⟩

/-- What is known of the finished runs may be added. -/
theorem Safe.and_ends {P : α → σ → Prop} (h : Safe M excluded k m s x Q)
    (hp : ∀ es a s', Ends x k s es a s' → P a s') :
    Safe M excluded k m s x fun a m' s' => Q a m' s' ∧ P a s' := by
  intro hok
  obtain ⟨m', hm, hres⟩ := h hok
  refine ⟨m', hm, ?_⟩
  intro a s' hr
  refine ⟨hres a s' hr, hp (x k s).events a s' ?_⟩
  unfold Ends
  rw [← hr]

theorem safe_ite [Decidable c] {y : Trace κ ε σ α} (hx : c → Safe M excluded k m s x Q)
    (hy : ¬ c → Safe M excluded k m s y Q) : Safe M excluded k m s (if c then x else y) Q := by
  split
  · exact hx ‹_›
  · exact hy ‹_›

theorem safe_getState {Q : σ → μ → σ → Prop} (h : Q s m s) : Safe M excluded k m s getState Q := by
  intro _
  refine ⟨m, rfl, ?_⟩
  intro a s' hr
  cases hr
  exact h

theorem safe_getContext {Q : κ → μ → σ → Prop} (h : Q k m s) :
    Safe M excluded k m s getContext Q := by
  intro _
  refine ⟨m, rfl, ?_⟩
  intro a s' hr
  cases hr
  exact h

theorem safe_modifyState {g : σ → σ} {Q : Unit → μ → σ → Prop} (h : Q () m (g s)) :
    Safe M excluded k m s (modifyState g) Q := by
  intro _
  refine ⟨m, rfl, ?_⟩
  intro a s' hr
  cases hr
  exact h

theorem safe_tell {Q : Unit → μ → σ → Prop} (h : ¬ excluded e → ∃ m', M m e = some m' ∧ Q () m' s) :
    Safe M excluded k m s (tell e) Q := by
  intro hok
  obtain ⟨m', hm, hq⟩ := h (hok e mem_cons_self)
  refine ⟨m', Monitor.follow_singleton hm, ?_⟩
  intro a s' hr
  cases hr
  exact hq

theorem safe_tellIf [Decidable c] {Q : Unit → μ → σ → Prop}
    (h : c → ¬ excluded e → ∃ m', M m e = some m' ∧ Q () m' s) (hn : ¬ c → Q () m s) :
    Safe M excluded k m s (tellIf c e) Q := by
  exact safe_ite (fun hc => safe_tell (h hc)) fun hc => safe_pure (hn hc)

theorem safe_cut : Safe M excluded k m s (cut : Trace κ ε σ α) Q := by
  intro _
  refine ⟨m, rfl, ?_⟩
  intro a s' hr
  cases hr

theorem safe_within {g : κ → κ} (h : Safe M excluded (g k) m s x Q) :
    Safe M excluded k m s (within g x) Q := h

theorem safe_enclose {μ' : Type} {M' : Monitor ε μ'} {excluded' : ε → Prop} {m₁ : μ'}
    {Q' : α → μ' → σ → Prop} (hok : ∀ inner, ¬ excluded (g inner) → ∀ e ∈ inner, ¬ excluded' e)
    (hm : ∀ inner m₂, ¬ excluded (g inner) → M'.follow m₁ inner = some m₂ →
      ∃ m', M m (g inner) = some m' ∧ ∀ a s', Q' a m₂ s' → Q a m' s')
    (h : Safe M' excluded' k m₁ s x Q') : Safe M excluded k m s (enclose g x) Q := by
  intro hnot
  have hg := hnot (g (x k s).events) mem_cons_self
  obtain ⟨m₂, hm₂, hres⟩ := h (hok _ hg)
  obtain ⟨m', hm', hq⟩ := hm _ m₂ hg hm₂
  refine ⟨m', Monitor.follow_singleton hm', ?_⟩
  intro a s' hr
  exact hq a s' (hres a s' hr)

theorem safe_enclose_excluded (h : ∀ inner, excluded (g inner)) :
    Safe M excluded k m s (enclose g x) Q := by
  intro hnot
  exact absurd (h (x k s).events) (hnot _ mem_cons_self)

theorem safe_listen {Q : α × List ε → μ → σ → Prop}
    (h : Safe M excluded k m s x fun a m' s' => ∀ es, Q (a, es) m' s') :
    Safe M excluded k m s (listen x) Q := by
  intro hok
  obtain ⟨m', hm, hres⟩ := h hok
  refine ⟨m', hm, ?_⟩
  intro p s' hr
  obtain ⟨q, hq, he⟩ := Option.map_eq_some_iff.mp hr
  cases he
  exact hres q.1 q.2 hq _

theorem Safe.ends (h : Safe M excluded k m s x Q) (hx : Ends x k s es a s')
    (hok : ∀ e ∈ es, ¬ excluded e) : ∃ m', M.follow m es = some m' ∧ Q a m' s' := by
  unfold Safe at h
  rw [hx] at h
  obtain ⟨m', hm, hres⟩ := h hok
  exact ⟨m', hm, hres a s' rfl⟩

end Trace

end Traces
