/-
  Subject: Scanning loops: `while` loops that read a text from the left, character by character
           or in longer steps, and leave with a state or with an error.

  A `Scanner` is the body of such a loop together with the proof that every turn that goes round
  again has read something; so `run` needs no bound from outside, and `run_cons` unfolds it one
  turn at a time.
-/
import Arksh.Lib.Text

namespace Scan

open CText List

/-! ## 1. Loops -/

/-- What a turn does behind the character it was given: go round again, or leave the loop. -/
inductive Turn (σ : Type) where
  | more (state : σ) (rest : Text)
  | stop (state : σ) (rest : Text)

structure Scanner (σ ε : Type) where
  step : σ → Char → Text → Except ε (Turn σ)
  atEnd : σ → Except ε σ
  shortens : ∀ {s c t s' t'}, step s c t = .ok (.more s' t') → t'.length ≤ t.length

variable {σ ε : Type} {α β : Type} {x : Except ε α} {f : α → Except ε β} {b : β} {e : ε}

theorem bind_ok : x.bind f = .ok b ↔ ∃ a, x = .ok a ∧ f a = .ok b := by
  cases x with
  | error e =>
    constructor
    · intro h; cases h
    · intro ⟨_, h, _⟩; cases h
  | ok a =>
    constructor
    · intro h; exact ⟨a, rfl, h⟩
    · intro ⟨_, ha, h⟩
      cases ha
      exact h

theorem toOption_some {a : α} (h : x.toOption = some a) : x = .ok a := by
  cases x with
  | error e => cases h
  | ok b => cases h; rfl

theorem toOption_map_some {f : α → β} (h : x.toOption.map f = some b) :
    ∃ a, x = .ok a ∧ f a = b := by
  cases x with
  | error e => cases h
  | ok a => exact ⟨a, rfl, Option.some.inj h⟩

theorem map_ok {f : α → β} : x.map f = .ok b ↔ ∃ a, x = .ok a ∧ f a = b := by
  cases x with
  | error e =>
    constructor
    · intro h; cases h
    · intro ⟨_, h, _⟩; cases h
  | ok a =>
    constructor
    · intro h; exact ⟨a, rfl, Except.ok.inj h⟩
    · intro ⟨_, ha, h⟩
      cases ha
      exact congrArg Except.ok h

theorem bind_error : x.bind f = .error e ↔ x = .error e ∨ ∃ a, x = .ok a ∧ f a = .error e := by
  cases x with
  | error d =>
    constructor
    · intro h; exact Or.inl (congrArg Except.error (Except.error.inj h))
    · intro h
      rcases h with h | ⟨_, ha, _⟩
      · exact congrArg Except.error (Except.error.inj h)
      · cases ha
  | ok a =>
    constructor
    · intro h; exact Or.inr ⟨a, rfl, h⟩
    · intro h
      rcases h with h | ⟨_, ha, h⟩
      · cases h
      · cases ha; exact h

theorem map_error {f : α → β} : x.map f = .error e ↔ x = .error e := by
  cases x with
  | error d => exact ⟨fun h => congrArg Except.error (Except.error.inj h), fun h => by rw [h]; rfl⟩
  | ok a => exact ⟨(nomatch ·), (nomatch ·)⟩

variable {s s' : σ} {t t' : Text} {c : Char}

namespace Scanner

def loop (S : Scanner σ ε) : Nat → σ → Text → Except ε (σ × Text)
  | _, s, [] => (S.atEnd s).map (·, [])
  | 0, s, _ => (S.atEnd s).map (·, [])
  | fuel + 1, s, c :: t =>
    match S.step s c t with
    | .error e => .error e
    | .ok (.stop s' t') => .ok (s', t')
    | .ok (.more s' t') => S.loop fuel s' t'

/-- The loop from the state `s` in front of a text: the state it leaves with, and what is left
    of the text. -/
def run (S : Scanner σ ε) (s : σ) (t : Text) : Except ε (σ × Text) := S.loop t.length s t

section

variable (S : Scanner σ ε)
include S

/-- As many turns as there are characters are enough. -/
theorem loop_eq_run {fuel : Nat} (h : t.length ≤ fuel) : S.loop fuel s t = S.run s t := by
  -- two bounds that are both large enough give the same run
  have key : ∀ n m : Nat, ∀ s t, t.length ≤ n → t.length ≤ m →
      S.loop n s t = S.loop m s t := by
    intro n
    induction n with
    | zero =>
      intro m s t hn hm
      obtain rfl : t = [] := eq_nil_of_length_eq_zero (by omega)
      cases m <;> rfl
    | succ n ih =>
      intro m s t hn hm
      cases t with
      | nil => cases m <;> rfl
      | cons c t =>
        cases m with
        | zero => exact absurd hm (by simp)
        | succ m =>
          rw [length_cons] at hn hm
          rw [loop, loop]
          split
          · rfl
          · rfl
          · rename_i s' t' hstep
            have hle := S.shortens hstep
            exact ih m s' t' (by omega) (by omega)
  exact key fuel t.length s t h (Nat.le_refl _)

theorem run_nil (s : σ) : S.run s [] = (S.atEnd s).map (·, []) := rfl

/-- One turn of the loop. -/
theorem run_cons (s : σ) (c : Char) (t : Text) :
    S.run s (c :: t) =
      match S.step s c t with
      | .error e => .error e
      | .ok (.stop s' t') => .ok (s', t')
      | .ok (.more s' t') => S.run s' t' := by
  show S.loop (t.length + 1) s (c :: t) = _
  rw [loop]
  split
  · rfl
  · rfl
  · rename_i s' t' hstep; exact S.loop_eq_run (S.shortens hstep)

theorem run_more (h : S.step s c t = .ok (.more s' t')) : S.run s (c :: t) = S.run s' t' := by
  rw [run_cons, h]

theorem run_stop (h : S.step s c t = .ok (.stop s' t')) : S.run s (c :: t) = .ok (s', t') := by
  rw [run_cons, h]

theorem run_error {e : ε} (h : S.step s c t = .error e) : S.run s (c :: t) = .error e := by
  rw [run_cons, h]

/-- **Induction over a run that ends well**, from its last turn back to its first. -/
theorem run_ok {motive : σ → Text → Prop} (atEnd : t' = [] → ∀ s, S.atEnd s = .ok s' → motive s [])
    (stop : ∀ s c t, S.step s c t = .ok (.stop s' t') → motive s (c :: t))
    (more : ∀ s c t s₁ t₁, S.step s c t = .ok (.more s₁ t₁) → S.run s₁ t₁ = .ok (s', t') →
      motive s₁ t₁ → motive s (c :: t)) (h : S.run s t = .ok (s', t')) : motive s t := by
  have key : ∀ n : Nat, ∀ s t, t.length ≤ n → S.run s t = .ok (s', t') → motive s t := by
    intro n
    induction n with
    | zero =>
      intro s t hn h
      obtain rfl : t = [] := eq_nil_of_length_eq_zero (by omega)
      rw [run_nil] at h
      cases hend : S.atEnd s with
      | error e => rw [hend] at h; cases h
      | ok s₁ =>
        rw [hend] at h
        cases h
        exact atEnd rfl s hend
    | succ n ih =>
      intro s t hn h
      cases t with
      | nil => exact ih s [] (Nat.zero_le _) h
      | cons c t =>
        rw [run_cons] at h
        split at h
        · cases h
        · rename_i hstep
          cases h
          exact stop s c t hstep
        · rename_i s₁ t₁ hstep
          have hle := S.shortens hstep
          rw [length_cons] at hn
          exact more s c t s₁ t₁ hstep h (ih s₁ t₁ (by omega) h)
  exact key t.length s t (Nat.le_refl _) h

/-- What is left of the text is not longer than the text. -/
theorem run_length
    (stop : ∀ {s c t s' t'}, S.step s c t = .ok (.stop s' t') → t'.length ≤ t.length + 1)
    (h : S.run s t = .ok (s', t')) : t'.length ≤ t.length := by
  refine S.run_ok (motive := fun _ t => t'.length ≤ t.length) ?_ ?_ ?_ h
  · intro hnil _ _; rw [hnil]
  · intro s c t hstep; exact stop hstep
  · intro s c t s₁ t₁ hstep _ ih; exact Nat.le_succ_of_le (ih.trans (S.shortens hstep))

/-- A flag that only turns set which go round again: a run that leaves with it has read something or
    had it before. -/
theorem run_flag {flag : σ → Bool} (atEnd : ∀ {s s'}, S.atEnd s = .ok s' → flag s' = flag s)
    (stop : ∀ {s c t s' t'}, S.step s c t = .ok (.stop s' t') →
      flag s' = flag s ∧ t'.length ≤ t.length + 1) (h : S.run s t = .ok (s', t'))
    (hs : flag s' = true) : flag s = true ∨ t'.length < t.length := by
  refine S.run_ok (motive := fun s t => flag s = true ∨ t'.length < t.length) ?_ ?_ ?_ h
  · intro _ s hend; exact Or.inl ((atEnd hend).symm.trans hs)
  · intro s c t hstep; exact Or.inl ((stop hstep).1.symm.trans hs)
  · intro s c t s₁ t₁ hstep hrun _
    have h₁ := S.shortens hstep
    have h₂ := S.run_length (fun hstop => (stop hstop).2) hrun
    refine Or.inr ?_
    rw [length_cons]
    omega

end

end Scanner

/-! ## 2. Loops that record what they read -/

/-- Between two points of a scan the record grows by exactly what is read. -/
def Took (seen : σ → Text) (s : σ) (t : Text) (s' : σ) (t' : Text) : Prop :=
  ∃ seg, t = seg ++ t' ∧ seen s' = seen s ++ seg

namespace Took

variable {seen : σ → Text} {s s₁ s' : σ} {t t₁ t' : Text}

theorem of_eq (h : seen s' = seen s) : Took seen s t s' t := ⟨[], rfl, by rw [h, append_nil]⟩

theorem trans (h : Took seen s t s₁ t₁) (h' : Took seen s₁ t₁ s' t') : Took seen s t s' t' := by
  obtain ⟨a, rfl, ha⟩ := h
  obtain ⟨b, rfl, hb⟩ := h'
  exact ⟨a ++ b, by rw [append_assoc], by rw [hb, ha, append_assoc]⟩

end Took

/-- A turn that goes round again has read its character, and maybe more; one that leaves may have
    read nothing. Either way the record has grown by what was read. -/
def Turn.Reads (seen : σ → Text) (s : σ) (c : Char) (t : Text) : Turn σ → Prop
  | .more s' t' => ∃ seg, t = seg ++ t' ∧ seen s' = seen s ++ c :: seg
  | .stop s' t' => Took seen s (c :: t) s' t'

namespace Turn.Reads

variable {seen : σ → Text} {s s' : σ} {c : Char} {t t' : Text}

theorem one (h : seen s' = seen s ++ [c]) : (Turn.more s' t).Reads seen s c t := ⟨[], rfl, h⟩

theorem took (h : (Turn.more s' t').Reads seen s c t) : Took seen s (c :: t) s' t' := by
  obtain ⟨seg, rfl, hseg⟩ := h
  exact ⟨c :: seg, rfl, hseg⟩

theorem shortens (h : (Turn.more s' t').Reads seen s c t) : t'.length ≤ t.length := by
  obtain ⟨seg, rfl, -⟩ := h
  rw [length_append]
  exact Nat.le_add_left _ _

theorem after {s₁ : σ} {e : Char} {turn : Turn σ} (h : turn.Reads seen s₁ e t)
    (h₁ : seen s₁ = seen s ++ [c]) : turn.Reads seen s c (e :: t) := by
  cases turn with
  | more s' t' =>
    obtain ⟨seg, rfl, hseg⟩ := h
    exact ⟨e :: seg, rfl, by rw [hseg, h₁, append_assoc]; rfl⟩
  | stop s' t' =>
    obtain ⟨seg, hrest, hseg⟩ := h
    exact ⟨c :: seg, by rw [hrest]; rfl, by rw [hseg, h₁, append_assoc]; rfl⟩

end Turn.Reads

theorem Scanner.run_took (S : Scanner σ ε) {seen : σ → Text}
    (atEnd : ∀ {s s'}, S.atEnd s = .ok s' → seen s' = seen s)
    (step : ∀ {s c t turn}, S.step s c t = .ok turn → turn.Reads seen s c t)
    (h : S.run s t = .ok (s', t')) : Took seen s t s' t' := by
  refine S.run_ok (motive := fun s t => Took seen s t s' t') ?_ ?_ ?_ h
  · intro hnil s hend
    rw [hnil]
    exact Took.of_eq (atEnd hend)
  · intro s c t hstep; exact step hstep
  · intro s c t s₁ t₁ hstep _ ih; exact (step hstep).took.trans ih

end Scan
