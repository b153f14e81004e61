/-
  Subject: The depths of the shell -- `loop_depth`, `function_depth`, the depth of the stack of
           function names, `in_condition`, `errexit_suppressed` -- before and after an execution.

  They are raised and lowered by hand around the lines that are run in between. Two returns of the
  loops leave `loop_depth` raised, and a function that is called with the stack of names full
  lowers that stack without having raised it; the other exits restore what they raised.
-/
import Arksh.Exec.Steps

namespace Arksh

open CText Traces Traces.Trace Bool Nat

variable {σ N I α : Type} {es : List Event}

/-! ## 1. The exits that slip -/

mutual

/-- A loop is left without lowering `loop_depth`, here or in the action of a trap. -/
def Event.leavesLoopOpen : Event → Bool
  | .conditionOverflow => true
  | .itemFailure => true
  | .trap _ events => leaveLoopOpen events
  | _ => false

def leaveLoopOpen : List Event → Bool
  | [] => false
  | e :: es => e.leavesLoopOpen || leaveLoopOpen es

end

mutual

def Event.overflowsNames : Event → Bool
  | .nameStackFull => true
  | .trap _ events => overflowNames events
  | _ => false

def overflowNames : List Event → Bool
  | [] => false
  | e :: es => e.overflowsNames || overflowNames es

end

/-- Which of the two happened so far. -/
structure Slips where
  loop : Bool
  name : Bool

def watchSlips : Monitor Event Slips := fun m e =>
  some ⟨m.loop || e.leavesLoopOpen, m.name || e.overflowsNames⟩

theorem follow_watchSlips (m : Slips) (es : List Event) :
    watchSlips.follow m es = some ⟨m.loop || leaveLoopOpen es, m.name || overflowNames es⟩ := by
  induction es generalizing m with
  | nil => rw [leaveLoopOpen, overflowNames, Bool.or_false, Bool.or_false]; rfl
  | cons e es ih =>
    show (watchSlips m e).bind _ = _
    rw [leaveLoopOpen, overflowNames, ← Bool.or_assoc, ← Bool.or_assoc]
    exact ih _

/-! ## 2. What an execution does to the depths -/

/-- `loop_depth` and the stack of names are kept, or changed with an event that tells of it; the
    rest is kept. -/
structure Kept (m : Slips) (d : Depths) (m' : Slips) (d' : Depths) : Prop where
  function : d'.function = d.function
  inCondition : d'.inCondition = d.inCondition
  errexitSuppressed : d'.errexitSuppressed = d.errexitSuppressed
  runningExitTrap : d'.runningExitTrap = d.runningExitTrap
  loop : (m'.loop = m.loop ∧ d'.loop = d.loop) ∨ (m'.loop = true ∧ d.loop < d'.loop)
  name : (m'.name = m.name ∧ d'.functionName = d.functionName) ∨
    (m'.name = true ∧ d'.functionName ≤ d.functionName ∧
      (0 < d.functionName → d'.functionName < d.functionName))

def Depths.lowered (d : Depths) : Depths := { d with loop := d.loop - 1 }

def Depths.returned (d : Depths) : Depths :=
  { d with functionName := d.functionName - 1, function := d.function - 1 }

structure Entered (m : Slips) (d : Depths) (m₁ : Slips) (d₁ : Depths) : Prop where
  function : d₁.function = d.function + 1
  inCondition : d₁.inCondition = d.inCondition
  errexitSuppressed : d₁.errexitSuppressed = d.errexitSuppressed
  runningExitTrap : d₁.runningExitTrap = d.runningExitTrap
  loop : m₁.loop = m.loop ∧ d₁.loop = d.loop
  name : (m₁.name = m.name ∧ d₁.functionName = d.functionName + 1) ∨
    (m₁.name = true ∧ d₁.functionName = d.functionName)

namespace Kept

variable {m m₁ m₂ : Slips} {d d₁ d₂ : Depths}

theorem refl (m : Slips) (d : Depths) : Kept m d m d :=
  ⟨rfl, rfl, rfl, rfl, Or.inl ⟨rfl, rfl⟩, Or.inl ⟨rfl, rfl⟩⟩

theorem trans (h : Kept m d m₁ d₁) (h' : Kept m₁ d₁ m₂ d₂) : Kept m d m₂ d₂ where
  function := h'.function.trans h.function
  inCondition := h'.inCondition.trans h.inCondition
  errexitSuppressed := h'.errexitSuppressed.trans h.errexitSuppressed
  runningExitTrap := h'.runningExitTrap.trans h.runningExitTrap
  loop := by
    rcases h.loop with ⟨hm, hd⟩ | ⟨hm, hd⟩
    · rcases h'.loop with ⟨hm', hd'⟩ | ⟨hm', hd'⟩
      · exact Or.inl ⟨hm'.trans hm, hd'.trans hd⟩
      · exact Or.inr ⟨hm', hd ▸ hd'⟩
    · rcases h'.loop with ⟨hm', hd'⟩ | ⟨hm', hd'⟩
      · exact Or.inr ⟨hm'.trans hm, hd' ▸ hd⟩
      · exact Or.inr ⟨hm', hd.trans hd'⟩
  name := by
    rcases h.name with ⟨hm, hd⟩ | ⟨hm, hle, hlt⟩
    · rcases h'.name with ⟨hm', hd'⟩ | ⟨hm', hle', hlt'⟩
      · exact Or.inl ⟨hm'.trans hm, hd'.trans hd⟩
      · exact Or.inr ⟨hm', hd ▸ hle', hd ▸ hlt'⟩
    · rcases h'.name with ⟨hm', hd'⟩ | ⟨hm', hle', hlt'⟩
      · exact Or.inr ⟨hm'.trans hm, hd' ▸ hle, hd' ▸ hlt⟩
      · refine Or.inr ⟨hm', hle'.trans hle, ?_⟩
        intro h0
        exact lt_of_le_of_lt hle' (hlt h0)

theorem lower (h : Kept m d m₁ d₁) (hd : 0 < d.loop) :
    0 < d₁.loop ∧ Kept m d.lowered m₁ d₁.lowered := by
  constructor
  · rcases h.loop with ⟨_, hl⟩ | ⟨_, hl⟩
    · exact hl ▸ hd
    · exact hd.trans hl
  · refine ⟨h.function, h.inCondition, h.errexitSuppressed, h.runningExitTrap, ?_, h.name⟩
    rcases h.loop with ⟨hm, hl⟩ | ⟨hm, hl⟩
    · exact Or.inl ⟨hm, congrArg (· - 1) hl⟩
    · exact Or.inr ⟨hm, Nat.sub_lt_sub_right hd hl⟩

theorem returned (h : Entered m d m₁ d₁) (hk : Kept m₁ d₁ m₂ d₂) : Kept m d m₂ d₂.returned where
  function := by
    show d₂.function - 1 = d.function
    rw [hk.function, h.function, Nat.add_sub_cancel]
  inCondition := hk.inCondition.trans h.inCondition
  errexitSuppressed := hk.errexitSuppressed.trans h.errexitSuppressed
  runningExitTrap := hk.runningExitTrap.trans h.runningExitTrap
  loop := by
    obtain ⟨hm, hd⟩ := h.loop
    rcases hk.loop with ⟨hm', hd'⟩ | ⟨hm', hd'⟩
    · exact Or.inl ⟨hm'.trans hm, hd'.trans hd⟩
    · exact Or.inr ⟨hm', hd ▸ hd'⟩
  name := by
    have hret : d₂.returned.functionName = d₂.functionName - 1 := rfl
    rcases h.name with ⟨hm, hd⟩ | ⟨hm, hd⟩
    · rcases hk.name with ⟨hm', hd'⟩ | ⟨hm', hle, hlt⟩
      · refine Or.inl ⟨hm'.trans hm, ?_⟩; omega
      · refine Or.inr ⟨hm', ?_, ?_⟩ <;> omega
    · rcases hk.name with ⟨hm', hd'⟩ | ⟨hm', hle, hlt⟩
      · refine Or.inr ⟨hm'.trans hm, ?_, ?_⟩ <;> omega
      · refine Or.inr ⟨hm', ?_, ?_⟩ <;> omega

end Kept

/-! ## 3. Every step keeps to it -/

def KeepsDepths (x : Exec σ α) : Prop :=
  ∀ k m sh, Safe watchSlips (fun _ => False) k m sh x fun _ m' sh' =>
    Kept m sh.depths m' sh'.depths

def LeavesLoop (x : Exec σ α) : Prop :=
  ∀ k m (sh : ArkshShell σ), 0 < sh.depths.loop →
    Safe watchSlips (fun _ => False) k m sh x fun _ m' sh' =>
      Kept m sh.depths.lowered m' sh'.depths

variable {x : Exec σ α} {e : Event} {g : Context → Context} {k : Context} {sh sh' : ArkshShell σ}
  {exec : Text → Exec σ (Int × Text)}

namespace KeepsDepths

variable {β : Type} {m : Slips}

theorem pure (a : α) : KeepsDepths (Pure.pure a : Exec σ α) := by
  intro k m sh
  exact safe_pure (Kept.refl _ _)

theorem bind {f : α → Exec σ β} (hx : KeepsDepths x) (hf : ∀ a, KeepsDepths (f a)) :
    KeepsDepths (x >>= f) := by
  intro k m sh
  refine safe_bind ((hx k m sh).mono ?_)
  intro a m₁ sh₁ h₁
  refine (hf a k m₁ sh₁).mono ?_
  intro b m₂ sh₂ h₂
  exact h₁.trans h₂

theorem getState : KeepsDepths (Trace.getState : Exec σ (ArkshShell σ)) := by
  intro k m sh
  exact safe_getState (Kept.refl _ _)

theorem modify {g : ArkshShell σ → ArkshShell σ} (hg : ∀ sh, (g sh).depths = sh.depths) :
    KeepsDepths (modifyState g) := by
  intro k m sh
  refine safe_modifyState ?_
  rw [hg]
  exact Kept.refl _ _

theorem tell (hl : e.leavesLoopOpen = false) (hn : e.overflowsNames = false) :
    KeepsDepths (Trace.tell e : Exec σ Unit) := by
  intro k m sh
  refine safe_tell fun _ => ⟨m, ?_, Kept.refl _ _⟩
  show some _ = some m
  rw [hl, hn, Bool.or_false, Bool.or_false]

theorem tellIf {c : Prop} [Decidable c] (hl : e.leavesLoopOpen = false)
    (hn : e.overflowsNames = false) : KeepsDepths (Trace.tellIf c e : Exec σ Unit) :=
  holds_ite (tell hl hn) (pure ())

theorem trap {kind : ArkshTrapKind} (hx : KeepsDepths x) :
    KeepsDepths (enclose (Event.trap kind) x) := by
  intro k m sh
  refine safe_enclose (fun _ _ _ _ hf => hf.elim) ?_ (hx k m sh)
  intro inner m₂ _ hm₂
  refine ⟨m₂, ?_, fun _ _ h => h⟩
  rw [follow_watchSlips] at hm₂
  rw [← hm₂]
  show some _ = some _
  rw [Event.leavesLoopOpen, Event.overflowsNames]

theorem bracket {raise lower : ArkshShell σ → ArkshShell σ} (hx : KeepsDepths x)
    (h : ∀ m sh m' sh', Kept m (raise sh).depths m' sh'.depths →
      Kept m sh.depths m' (lower sh').depths) :
    KeepsDepths (do
      modifyState raise
      let a ← within g x
      modifyState lower
      return a) := by
  intro k m sh
  refine safe_bind (safe_modifyState (safe_bind ?_))
  refine (safe_within (hx (g k) m _)).mono ?_
  intro a m₁ sh₁ h₁
  exact safe_bind (safe_modifyState (safe_pure (h _ _ _ _ h₁)))

theorem tested (hx : KeepsDepths x) : KeepsDepths (suppressErrexit x) := by
  refine hx.bracket ?_
  intro m sh m' sh' h
  have he : sh'.errexitSuppressed = sh.errexitSuppressed + 1 := h.errexitSuppressed
  refine ⟨h.function, h.inCondition, ?_, h.runningExitTrap, h.loop, h.name⟩
  show (if sh'.errexitSuppressed > 0 then _ else _) = sh.errexitSuppressed
  rw [he, if_pos (succ_pos _)]
  rfl

theorem condition (hx : KeepsDepths x) : KeepsDepths (enclosedCondition g x) := by
  refine hx.bracket ?_
  intro m sh m' sh' h
  have hc : sh'.inCondition = sh.inCondition + 1 := h.inCondition
  refine ⟨h.function, ?_, h.errexitSuppressed, h.runningExitTrap, h.loop, h.name⟩
  show sh'.inCondition - 1 = sh.inCondition
  rw [hc]
  rfl

theorem enterFunction_safe :
    Safe watchSlips (fun _ => False) k m sh enterFunction fun _ m' sh' =>
      Entered m sh.depths m' sh'.depths := by
  refine safe_bind (safe_modifyState (safe_bind ?_))
  refine safe_tell fun _ => ⟨m, ?_, safe_bind (safe_getState ?_)⟩
  · show some (Slips.mk (m.loop || false) (m.name || false)) = some m
    rw [Bool.or_false, Bool.or_false]
  split
  · exact safe_modifyState ⟨rfl, rfl, rfl, rfl, ⟨rfl, rfl⟩, Or.inl ⟨rfl, rfl⟩⟩
  · refine safe_tell fun _ => ⟨⟨m.loop, true⟩, ?_, ?_⟩
    · show some (Slips.mk (m.loop || false) (m.name || true)) = _; rw [Bool.or_false, Bool.or_true]
    · exact ⟨rfl, rfl, rfl, rfl, ⟨rfl, rfl⟩, Or.inr ⟨rfl, rfl⟩⟩

theorem leaveFunction_safe {status : Int} :
    Safe watchSlips (fun _ => False) k m sh (leaveFunction status) fun _ m' sh' =>
      Kept m sh.depths.returned m' sh'.depths := by
  have hrest : KeepsDepths (consumeReturn status >>= fun _ => Trace.tell Event.functionEnd :
      Exec σ Unit) := by
    refine bind ?_ fun _ => tell rfl rfl
    refine getState.bind fun sh => (tellIf rfl rfl).bind fun _ => ?_
    exact holds_ite (modify fun _ => rfl) (pure ())
  refine safe_bind (safe_modifyState ((hrest k m _).mono ?_))
  intro _ m' sh' h
  have hname : (if sh.functionNameDepth > 0 then sh.functionNameDepth - 1
      else sh.functionNameDepth) = sh.functionNameDepth - 1 := by
    split <;> omega
  show Kept m ⟨_, _, sh.functionNameDepth - 1, _, _, _⟩ m' sh'.depths
  rw [← hname]
  exact h

theorem function (body : Text) (hexec : ∀ text, KeepsDepths (exec text)) :
    KeepsDepths (executeFunctionBody exec body) := by
  intro k m sh
  refine safe_bind (enterFunction_safe.mono ?_)
  intro _ m₁ sh₁ h₁
  refine safe_bind ((safe_within (hexec body _ m₁ sh₁)).mono ?_)
  intro result m₂ sh₂ h₂
  refine safe_bind (leaveFunction_safe.mono ?_)
  intro _ m₃ sh₃ h₃
  exact safe_pure ((Kept.returned h₁ h₂).trans h₃)

theorem failure (status : Int) (own : Bool) (hexec : ∀ text, KeepsDepths (exec text)) :
    KeepsDepths (failLine exec status own) := by
  have hreport {e : Event} (hl : e.leavesLoopOpen = false) (hn : e.overflowsNames = false) :
      KeepsDepths (reportFailure e : Exec σ Unit) := by
    refine bind ?_ fun c => holds_ite (pure ()) (tell hl hn)
    intro k m sh
    exact safe_getContext (Kept.refl _ _)
  refine holds_ite (pure ()) (getState.bind fun sh => (hreport rfl rfl).bind fun _ => ?_)
  refine holds_ite (bind ?_ fun _ => ?_) (hreport rfl rfl)
  · refine getState.bind fun sh => ?_
    split
    · have hset (active : Bool) : KeepsDepths (modifyState (setErrTrap active) : Exec σ Unit) :=
        modify fun _ => rfl
      refine (hset false).bind fun _ => bind ?_ fun _ => hset true
      refine bind (getState.bind fun sh => tellIf rfl rfl) fun _ => ?_
      exact (trap (hexec _)).bind fun _ => pure ()
    · exact pure ()
  · refine getState.bind fun sh => (hreport rfl rfl).bind fun _ => (tellIf rfl rfl).bind fun _ => ?_
    exact holds_ite (modify fun _ => rfl) (pure ())

theorem loop {y : Exec σ β} (hy : LeavesLoop y) : KeepsDepths (enterLoop >>= fun _ => y) := by
  intro k m sh
  refine safe_bind (safe_bind (safe_modifyState ?_))
  refine (tell rfl rfl k m _).mono ?_
  intro _ m₁ sh₁ h₁
  obtain ⟨hd₁, hlow⟩ := h₁.lower (succ_pos _)
  refine (hy k m₁ sh₁ hd₁).mono ?_
  intro b m₂ sh₂ h₂
  exact hlow.trans h₂

end KeepsDepths

namespace LeavesLoop

variable {β : Type} {y : Exec σ β}

theorem bind {f : α → Exec σ β} (hx : KeepsDepths x) (hf : ∀ a, LeavesLoop (f a)) :
    LeavesLoop (x >>= f) := by
  intro k m sh hd
  refine safe_bind ((hx k m sh).mono ?_)
  intro a m₁ sh₁ h₁
  obtain ⟨hd₁, hlow⟩ := h₁.lower hd
  refine (hf a k m₁ sh₁ hd₁).mono ?_
  intro b m₂ sh₂ h₂
  exact hlow.trans h₂

theorem leave (hy : KeepsDepths y) : LeavesLoop (leaveLoop >>= fun _ => y) := by
  intro k m sh _
  refine safe_bind (safe_bind (safe_modifyState ?_))
  refine (KeepsDepths.tell rfl rfl k m _).mono ?_
  intro _ m₁ sh₁ h₁
  refine (hy k m₁ sh₁).mono ?_
  intro b m₂ sh₂ h₂
  exact h₁.trans h₂

theorem leaveOpen (he : e.leavesLoopOpen = true) (hn : e.overflowsNames = false)
    (hy : KeepsDepths y) : LeavesLoop (Trace.tell e >>= fun _ => y) := by
  intro k m sh hd
  refine safe_bind (safe_tell fun _ => ⟨⟨true, m.name⟩, ?_, ?_⟩)
  · show some _ = some _; rw [he, hn, Bool.or_true, Bool.or_false]
  · refine (hy k _ sh).mono ?_
    intro b m' sh' h
    have hopen : Kept m sh.depths.lowered ⟨true, m.name⟩ sh.depths :=
      ⟨rfl, rfl, rfl, rfl, Or.inr ⟨rfl, sub_lt hd one_pos⟩, Or.inl ⟨rfl, rfl⟩⟩
    exact hopen.trans h

end LeavesLoop

theorem Event.IsPlain.slips (h : e.IsPlain) :
    e.leavesLoopOpen = false ∧ e.overflowsNames = false := by
  cases e <;> first | exact ⟨rfl, rfl⟩ | exact h.elim

theorem depthRules : @StepRules σ KeepsDepths LeavesLoop where
  pure := KeepsDepths.pure
  bind := KeepsDepths.bind
  getState := KeepsDepths.getState
  getContext := by
    intro k m sh
    exact safe_getContext (Kept.refl _ _)
  modify := KeepsDepths.modify
  tell he := KeepsDepths.tell he.slips.1 he.slips.2
  unhandled := KeepsDepths.tellIf rfl rfl
  listen hx := by
    intro k m sh
    exact safe_listen ((hx k m sh).mono fun _ _ _ h _ => h)
  function := KeepsDepths.function
  tested := KeepsDepths.tested
  condition := KeepsDepths.condition
  loopCondition := KeepsDepths.condition
  body hx := by
    intro k m sh
    exact safe_within (hx _ m sh)
  trap _ hx := hx.trap
  failure := KeepsDepths.failure
  loop := KeepsDepths.loop
  within := LeavesLoop.bind
  leave := LeavesLoop.leave
  leaveOpen he hy := by
    rcases he with rfl | rfl
    · exact LeavesLoop.leaveOpen rfl rfl ((KeepsDepths.tell rfl rfl).bind fun _ => hy)
    · exact LeavesLoop.leaveOpen rfl rfl ((KeepsDepths.tell rfl rfl).bind fun _ => hy)
  cut := ⟨fun _ _ _ => safe_cut, fun _ _ _ _ => safe_cut⟩

/-! ## 4. When the depths are as before -/

/-- No loop was left without lowering `loop_depth`, no name dropped that was not pushed. -/
def RestoresDepths (events : List Event) (sh : ArkshShell σ) : Prop :=
  leaveLoopOpen events = false ∧ (overflowNames events = false ∨ sh.functionNameDepth = 0)

theorem Kept.depths_eq_iff
    (h : Kept ⟨false, false⟩ sh.depths ⟨leaveLoopOpen es, overflowNames es⟩ sh'.depths) :
    sh'.depths = sh.depths ↔ RestoresDepths es sh := by
  have hloop : sh'.depths.loop = sh.depths.loop ↔ leaveLoopOpen es = false := by
    rcases h.loop with ⟨hm, hd⟩ | ⟨hm, hd⟩
    · exact ⟨fun _ => hm, fun _ => hd⟩
    · constructor
      · intro he; exact absurd he (ne_of_gt hd)
      · intro he; exact absurd (hm.symm.trans he) (by decide)
  have hname : sh'.depths.functionName = sh.depths.functionName ↔
      overflowNames es = false ∨ sh.functionNameDepth = 0 := by
    rcases h.name with ⟨hm, hd⟩ | ⟨hm, hle, hlt⟩
    · exact ⟨fun _ => Or.inl hm, fun _ => hd⟩
    · constructor
      · intro he
        refine Or.inr (Nat.eq_zero_of_not_pos fun hpos => ?_)
        exact absurd he (Nat.ne_of_lt (hlt hpos))
      · rintro (he | he)
        · exact absurd (hm.symm.trans he) (by decide)
        · exact le_antisymm hle (le_of_eq_of_le he (zero_le _))
  constructor
  · intro he; exact ⟨hloop.mp (congrArg Depths.loop he), hname.mp (congrArg Depths.functionName he)⟩
  · intro ⟨hl, hn⟩
    calc sh'.depths
        = ⟨sh'.depths.loop, sh'.depths.function, sh'.depths.functionName, sh'.depths.inCondition,
            sh'.depths.errexitSuppressed, sh'.depths.runningExitTrap⟩ := rfl
      _ = sh.depths := by
        rw [hloop.mpr hl, hname.mpr hn, h.function, h.inCondition, h.errexitSuppressed,
          h.runningExitTrap]

theorem executeLine_keeps (W : World σ N I) (n : Nat) (line : Text) :
    KeepsDepths (executeLine W n line) :=
  executeLine_holds depthRules.lineRules W n line

theorem KeepsDepths.ends (hx : KeepsDepths x) {a : α} (h : Ends x k sh es a sh') :
    Kept ⟨false, false⟩ sh.depths ⟨leaveLoopOpen es, overflowNames es⟩ sh'.depths := by
  obtain ⟨m', hm, hk⟩ := (hx k ⟨false, false⟩ sh).ends h fun _ _ hf => hf
  rw [follow_watchSlips] at hm
  cases hm
  exact hk

def DepthsLaw (W : World σ N I) (holds : List Event → ArkshShell σ → ArkshShell σ → Prop) : Prop :=
  ∀ n k sh es result sh',
    (∀ line, Ends (executeLine W n line) k sh es result sh' → holds es sh sh') ∧
    ∀ turns ast, Ends (arkshExecuteAst W (executeLine W n) turns ast) k sh es result sh' →
      holds es sh sh'

/-- **The depths are as before exactly where every loop left lowers `loop_depth` and no name is
    dropped that was not pushed.** -/
theorem depthsLaw_iff (W : World σ N I) :
    DepthsLaw W fun es sh sh' => sh'.depths = sh.depths ↔ RestoresDepths es sh := by
  intro n k sh es result sh'
  constructor
  · intro line h; exact ((executeLine_keeps W n line).ends h).depths_eq_iff
  · intro turns ast h
    exact ((arkshExecuteAst_holds depthRules.lineRules (executeLine_keeps W n) turns ast).ends h).depths_eq_iff

/-- With 32 functions running, a call of a further one leaves 31 names on the stack. -/
theorem not_depthsLaw_names :
    ¬ ∀ W : World Unit String Unit, DepthsLaw W fun _ sh sh' => sh'.depths = sh.depths := by
  intro h
  let W := tableWorld [("f", .plain .simpleCommand "f"), ("test a", .plain .simpleCommand "a")]
    [("f", tableCall "test a"), ("a", .done (0, []))]
  let sh : ArkshShell Unit := { freshShell () with functionDepth := 32, functionNameDepth := 32 }
  obtain ⟨hline, _⟩ := h W 2 Context.top sh
    [.line true, .functionStart, .nameStackFull, .line true, .ended, .functionEnd, .ended] (0, [])
    { sh with functionNameDepth := 31 }
  have hd := hline "f".toList (by rfl)
  exact absurd (congrArg Depths.functionName hd) (by decide)

end Arksh
