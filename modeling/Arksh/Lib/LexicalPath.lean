/-
  Subject: The lexical normal form of an absolute path: its components between slashes, without
           empty ones and `.`, and with each `..` taking the component in front of it away.
-/
import Arksh.Lib.Text
import Mathlib.Algebra.GroupWithZero.Nat

namespace LexicalPath

open CText List

/-! ## 1. Components -/

/-- One component, read behind the ones on the stack; the last one of these is its top. -/
def push (stack : List Text) (c : Text) : List Text :=
  if c = [] ∨ c = ['.'] then stack
  else if c = ['.', '.'] then stack.dropLast
  else stack ++ [c]

/-- The components of an absolute path. -/
def components (t : Text) : List Text := (t.splitOn '/').foldl push []

/-- The path with these components. -/
def render (cs : List Text) : Text := '/' :: ['/'].intercalate cs

def normalForm (t : Text) : Text := render (components t)

structure NormalComponent (c : Text) : Prop where
  ne_nil : c ≠ []
  ne_dot : c ≠ ['.']
  ne_dotdot : c ≠ ['.', '.']
  slash_notMem : '/' ∉ c

/-- A normal absolute path. -/
def IsNormal (t : Text) : Prop := ∃ cs, (∀ c ∈ cs, NormalComponent c) ∧ t = render cs

variable {c t : Text}

theorem NormalComponent.push (h : NormalComponent c) (stack : List Text) :
    push stack c = stack ++ [c] := by
  simp [LexicalPath.push, h.ne_nil, h.ne_dot, h.ne_dotdot]

/-! ## 2. Reading and writing -/

variable {stack cs : List Text}

theorem push_normal (hstack : ∀ d ∈ stack, NormalComponent d) (hc : '/' ∉ c) :
    ∀ d ∈ push stack c, NormalComponent d := by
  intro d hd
  unfold push at hd
  split at hd
  · exact hstack d hd
  rename_i hskip
  split at hd
  · exact hstack d (mem_of_mem_dropLast hd)
  rename_i hup
  have hne : c ≠ [] ∧ c ≠ ['.'] := by simpa using hskip
  rcases mem_append.mp hd with hd | hd
  · exact hstack d hd
  · obtain rfl : d = c := by simpa using hd
    exact ⟨hne.1, hne.2, hup, hc⟩

theorem slash_notMem_of_mem_splitOn (h : c ∈ t.splitOn '/') : '/' ∉ c := by
  induction t generalizing c with
  | nil =>
    have hc : c = [] := by simpa using h
    simp [hc]
  | cons x t ih =>
    rw [splitOn_cons_eq_if_modifyHead] at h
    split at h
    · rcases mem_cons.mp h with rfl | h
      · simp
      · exact ih h
    · rename_i hx
      have hx : x ≠ '/' := by simpa using hx
      cases hs : t.splitOn '/' with
      | nil => exact absurd hs (splitOn_ne_nil _ _)
      | cons d ds =>
        rw [hs] at h ih
        rcases mem_cons.mp h with rfl | h
        · have hd := ih mem_cons_self; simp [hd, Ne.symm hx]
        · exact ih (mem_cons_of_mem _ h)

theorem foldl_push_normal :
    ∀ {stack : List Text}, (∀ d ∈ stack, NormalComponent d) → (∀ c ∈ cs, '/' ∉ c) →
      ∀ d ∈ cs.foldl push stack, NormalComponent d := by
  induction cs with
  | nil => intro stack hstack _; exact hstack
  | cons c cs ih =>
    intro stack hstack hcs
    have hc : '/' ∉ c := hcs c mem_cons_self
    exact ih (push_normal hstack hc) fun d hd => hcs d (mem_cons_of_mem _ hd)

theorem components_normal : ∀ c ∈ components t, NormalComponent c :=
  foldl_push_normal (by simp) fun _ => slash_notMem_of_mem_splitOn

variable {x : Char}

theorem mem_of_mem_splitOn (h : c ∈ t.splitOn '/') (hx : x ∈ c) : x ∈ t := by
  induction t generalizing c with
  | nil =>
    have hc : c = [] := by simpa using h
    rw [hc] at hx
    exact absurd hx not_mem_nil
  | cons y t ih =>
    rw [splitOn_cons_eq_if_modifyHead] at h
    split at h
    · rcases mem_cons.mp h with rfl | h
      · exact absurd hx not_mem_nil
      · exact mem_cons_of_mem _ (ih h hx)
    · cases hs : t.splitOn '/' with
      | nil => exact absurd hs (splitOn_ne_nil _ _)
      | cons d ds =>
        rw [hs] at h ih
        rcases mem_cons.mp h with rfl | h
        · rcases mem_cons.mp hx with rfl | hx
          · exact mem_cons_self
          · exact mem_cons_of_mem _ (ih mem_cons_self hx)
        · exact mem_cons_of_mem _ (ih (mem_cons_of_mem _ h) hx)

theorem mem_of_mem_push {d : Text} (h : d ∈ push stack c) : d ∈ stack ∨ d = c := by
  unfold push at h
  split at h
  · exact Or.inl h
  split at h
  · exact Or.inl (mem_of_mem_dropLast h)
  · simpa using h

theorem mem_of_mem_foldl_push :
    ∀ {stack : List Text} {d : Text}, d ∈ cs.foldl push stack → d ∈ stack ∨ d ∈ cs := by
  induction cs with
  | nil => intro stack d h; exact Or.inl h
  | cons c cs ih =>
    intro stack d h
    rcases ih h with h | h
    · rcases mem_of_mem_push h with h | rfl
      · exact Or.inl h
      · exact Or.inr mem_cons_self
    · exact Or.inr (mem_cons_of_mem _ h)

theorem mem_of_mem_components (h : c ∈ components t) (hx : x ∈ c) : x ∈ t := by
  rcases mem_of_mem_foldl_push h with h | h
  · exact absurd h not_mem_nil
  · exact mem_of_mem_splitOn h hx

theorem foldl_push_of_normal (h : ∀ c ∈ cs, NormalComponent c) :
    ∀ stack, cs.foldl push stack = stack ++ cs := by
  induction cs with
  | nil => intro stack; simp
  | cons c cs ih =>
    intro stack
    have hc : NormalComponent c := h c mem_cons_self
    have htail := ih (fun d hd => h d (mem_cons_of_mem _ hd)) (stack ++ [c])
    rw [foldl_cons, hc.push, htail, append_assoc, singleton_append]

theorem components_slash (t : Text) : components ('/' :: t) = components t := by
  rw [components, splitOn_cons_eq_if_modifyHead]
  simp [components, push]

/-- **Reading undoes writing.** -/
theorem components_render (h : ∀ c ∈ cs, NormalComponent c) : components (render cs) = cs := by
  rw [render, components_slash, components]
  by_cases hcs : cs = []
  · subst hcs; simp [push]
  · rw [splitOn_intercalate '/' (fun c hc => (h c hc).slash_notMem) hcs,
      foldl_push_of_normal h, nil_append]

theorem isNormal_normalForm (t : Text) : IsNormal (normalForm t) :=
  ⟨components t, components_normal, rfl⟩

/-- **The normal paths are the ones that normalising leaves alone.** -/
theorem isNormal_iff : IsNormal t ↔ normalForm t = t := by
  constructor
  · rintro ⟨cs, hcs, rfl⟩; rw [normalForm, components_render hcs]
  · intro h; exact h ▸ isNormal_normalForm t

theorem normalForm_eq_iff {u : Text} :
    normalForm t = normalForm u ↔ components t = components u := by
  constructor
  · intro h
    have hc := congrArg components h
    rwa [normalForm, normalForm, components_render components_normal,
      components_render components_normal] at hc
  · intro h; rw [normalForm, normalForm, h]

/-- Nothing, or a `.`, behind a slash does not count. -/
theorem components_append_skip (h : c = [] ∨ c = ['.']) :
    components (t ++ '/' :: c) = components t := by
  rw [components, splitOn_append_cons_self, foldl_append]
  rcases h with rfl | rfl
  · simp [components, push]
  · have hdot : ['.'].splitOn '/' = [['.']] := by decide
    simp [components, push, hdot]

theorem IsNormal.head (h : IsNormal t) : ∃ u, t = '/' :: u := by
  obtain ⟨cs, -, rfl⟩ := h
  exact ⟨_, rfl⟩

/-! ## 3. Characters and lengths -/

/-- The length of some components, each with the slash in front of it. -/
def weight (cs : List Text) : Nat := (cs.map fun c => c.length + 1).sum

theorem weight_append (cs ds : List Text) : weight (cs ++ ds) = weight cs + weight ds := by
  simp [weight]

theorem weight_push (stack : List Text) (c : Text) :
    weight (push stack c) ≤ weight stack + (c.length + 1) := by
  unfold push
  split
  · omega
  split
  · cases stack using List.reverseRecOn with
    | nil => simp
    | append_singleton stack d =>
      have hw := weight_append stack [d]
      rw [dropLast_concat]
      omega
  · simp [weight]

theorem weight_foldl_push (cs : List Text) :
    ∀ stack, weight (cs.foldl push stack) ≤ weight stack + weight cs := by
  induction cs with
  | nil => intro stack; simp [weight]
  | cons c cs ih =>
    intro stack
    have htail := ih (push stack c)
    have hhead := weight_push stack c
    have hcs : weight (c :: cs) = c.length + 1 + weight cs := by simp [weight]
    rw [foldl_cons]
    omega

theorem weight_splitOn (t : Text) : weight (t.splitOn '/') = t.length + 1 := by
  induction t with
  | nil => simp [weight]
  | cons x t ih =>
    rw [splitOn_cons_eq_if_modifyHead]
    cases hs : t.splitOn '/' with
    | nil => exact absurd hs (splitOn_ne_nil _ _)
    | cons d ds =>
      rw [hs] at ih
      split
      · simp [weight] at ih ⊢; omega
      · simp [weight] at ih ⊢; omega

/-- Behind at least one component, every component has its own slash. -/
theorem render_of_ne_nil (h : cs ≠ []) : render cs = cs.flatMap ('/' :: ·) := by
  induction cs with
  | nil => exact absurd rfl h
  | cons c cs ih =>
    cases cs with
    | nil => simp [render]
    | cons d ds =>
      have htail := ih (cons_ne_nil _ _)
      rw [flatMap_cons, ← htail]
      simp [render, intercalate_cons_cons]

theorem mem_render (h : x ∈ render cs) : x = '/' ∨ ∃ c ∈ cs, x ∈ c := by
  by_cases hcs : cs = []
  · subst hcs; exact Or.inl (by simpa [render] using h)
  · rw [render_of_ne_nil hcs] at h
    obtain ⟨c, hc, hx⟩ := mem_flatMap.mp h
    rcases mem_cons.mp hx with hx | hx
    · exact Or.inl hx
    · exact Or.inr ⟨c, hc, hx⟩

theorem length_render_le (cs : List Text) : (render cs).length ≤ max 1 (weight cs) := by
  by_cases h : cs = []
  · simp [h, render, weight]
  · rw [render_of_ne_nil h, length_flatMap]; exact le_max_right 1 (weight cs)

end LexicalPath
