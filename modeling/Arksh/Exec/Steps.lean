/-
  Subject: What holds of every step of the executor holds of every line.

  The executors are built from few steps: a change of the shell, an event, a counter that is
  raised around a part, a loop, a function, a trap. Behind a line they go on with steps that are
  fine in any state, or with another line, after they looked whether a control transfer is under
  way. `LineRules` lists the steps for three properties of computations that differ in just that;
  where they are closed under the steps, `executeLine_holds` has the first for every line, by one
  induction on the nesting of lines. `StepRules` is the case of one property for all states.
-/
import Arksh.Exec.Executor

namespace Arksh

open CText Traces Traces.Trace

variable {σ N I α : Type}

/-! ## 1. The steps -/

/-- The counters that the executor raises and lowers, and the flag of the EXIT trap. -/
structure Depths where
  loop : Nat
  function : Nat
  functionName : Nat
  inCondition : Nat
  errexitSuppressed : Nat
  runningExitTrap : Bool
  deriving DecidableEq

def ArkshShell.depths (sh : ArkshShell σ) : Depths :=
  ⟨sh.loopDepth, sh.functionDepth, sh.functionNameDepth, sh.inCondition, sh.errexitSuppressed,
    sh.runningExitTrap⟩

def ArkshShell.control (sh : ArkshShell σ) : ArkshControlSignalKind × Nat × Depths :=
  (sh.controlSignal, sh.controlLevels, sh.depths)

/-- An event that only tells how far a run is. -/
def Event.IsNote : Event → Prop
  | .ended | .exit | .background _ | .gaveUp => True
  | _ => False

/-- `P` holds of the steps where no transfer is under way, `A` of those that are fine in any state,
    `C` of those that also start none. -/
structure LineRules (P A C : ∀ {α : Type}, Exec σ α → Prop) : Prop where
  pure : ∀ {α : Type} (a : α), C (Pure.pure a)
  calm_any : ∀ {α : Type} {x : Exec σ α}, C x → A x
  any_run : ∀ {α : Type} {x : Exec σ α}, A x → P x
  calm_calm : ∀ {α β : Type} {x : Exec σ α} {f : α → Exec σ β}, C x → (∀ a, C (f a)) →
    C (x >>= f)
  calm_bind : ∀ {α β : Type} {x : Exec σ α} {f : α → Exec σ β}, C x → (∀ a, P (f a)) →
    P (x >>= f)
  run_bind : ∀ {α β : Type} {x : Exec σ α} {f : α → Exec σ β}, P x → (∀ a, A (f a)) →
    P (x >>= f)
  any_bind : ∀ {α β : Type} {x : Exec σ α} {f : α → Exec σ β}, A x → (∀ a, A (f a)) →
    A (x >>= f)
  getState : C getState
  getContext : C getContext
  modify : ∀ {g : ArkshShell σ → ArkshShell σ},
    (∀ sh, (g sh).control = sh.control ∧ (g sh).running = sh.running) → C (modifyState g)
  /-- the shell is ended -/
  stop : ∀ {g : ArkshShell σ → ArkshShell σ}, (∀ sh, (g sh).control = sh.control) →
    A (modifyState g)
  tell : ∀ {e : Event}, e.IsNote → C (Trace.tell e)
  unhandled : ∀ {c : Prop} [Decidable c], C (tellIf c .unhandled)
  listen : ∀ {α : Type} {x : Exec σ α}, P x → P (Trace.listen x)
  startLine : ∀ {α : Type} {y : Exec σ α}, P y → P (startLine >>= fun _ => y)
  late : ∀ {α : Type} {y : Exec σ α}, P y → A (reportLate >>= fun _ => y)
  ifReady : ∀ {α : Type} {f g : ArkshShell σ → Exec σ α}, (∀ sh, P (f sh)) → (∀ sh, A (g sh)) →
    A (Trace.getState >>= fun sh => if sh.ready then f sh else g sh)
  skipped : A (reportSkipped : Exec σ Unit)
  function : ∀ {exec : Text → Exec σ (Int × Text)} (body : Text), (∀ text, P (exec text)) →
    P (executeFunctionBody exec body)
  tested : ∀ {α : Type} {x : Exec σ α}, P x → P (suppressErrexit x)
  condition : ∀ {α : Type} {x : Exec σ α}, P x → P (enclosedCondition Context.condition x)
  whileLoop : ∀ {N I : Type} {W : World σ N I} {exec : Text → Exec σ (Int × Text)}
    (stopsOn : Bool) (condition body : Text) (turns : Nat), (∀ text, P (exec text)) →
    P (evaluateConditionStatus W exec condition) →
    P (enterLoop >>= fun _ => executeLoop W exec stopsOn condition body turns 0 [])
  forLoop : ∀ {N I : Type} {W : World σ N I} {exec : Text → Exec σ (Int × Text)}
    (name body : Text) (iterable : ForIterable I), (∀ text, P (exec text)) →
    P (enterLoop >>= fun _ => executeForIterable W exec name body iterable)
  loopControl : ∀ (keyword : String) (kind : ArkshControlSignalKind) (line : Text),
    kind = .breakSignal ∨ kind = .continueSignal → P (handleLoopControlLine keyword kind line)
  returnLine : ∀ {N I : Type} {W : World σ N I} {exec : Text → Exec σ (Int × Text)} (line : Text),
    (∀ task : Task σ (Except Text Text), A (runTask exec task)) → P (handleReturnLine W exec line)
  trap : ∀ {exec : Text → Exec σ (Int × Text)} {kind : ArkshTrapKind} (command : Text),
    kind.isSignal → (∀ text, P (exec text)) → A (executeTrap exec kind command)
  failure : ∀ {exec : Text → Exec σ (Int × Text)} (status : Int) (own : Bool),
    (∀ text, P (exec text)) → A (failLine exec status own)
  cut : ∀ {α : Type}, P (Trace.cut : Exec σ α)

theorem holds_ite {Q : Exec σ α → Prop} {c : Prop} [Decidable c] {x y : Exec σ α} (hx : Q x)
    (hy : Q y) : Q (if c then x else y) := by
  split
  · exact hx
  · exact hy

namespace LineRules

variable {P A C : ∀ {α : Type}, Exec σ α → Prop} {β : Type}

theorem any_pure (h : LineRules P A C) (a : α) : A (Pure.pure a : Exec σ α) := h.calm_any (h.pure a)

theorem any_calm_bind (h : LineRules P A C) {x : Exec σ α} {f : α → Exec σ β} (hx : C x)
    (hf : ∀ a, A (f a)) : A (x >>= f) :=
  h.any_bind (h.calm_any hx) hf

end LineRules

/-! ## 2. The executors -/

variable {x : Exec σ (Int × Text)}

section Executors

variable {P A C : ∀ {α : Type}, Exec σ α → Prop} {W : World σ N I}
  {exec : Text → Exec σ (Int × Text)} (h : LineRules P A C)

include h

theorem giveUp_holds (status : Int) (out : Text) : A (giveUp status out : Exec σ (Int × Text)) :=
  h.any_calm_bind (h.tell trivial) fun _ => h.any_pure _

theorem finishDirect_holds (hx : P x) : P (finishDirect x) := by
  refine h.run_bind hx fun ⟨status, out⟩ => ?_
  refine h.any_calm_bind (h.modify fun _ => ⟨rfl, rfl⟩) fun _ => ?_
  refine h.any_calm_bind h.getContext fun c => h.any_calm_bind h.getState fun sh => ?_
  exact h.any_calm_bind h.unhandled fun _ => h.any_calm_bind (h.tell trivial) fun _ => h.any_pure _

theorem refuseLine_holds (message : Text) : A (refuseLine message : Exec σ (Int × Text)) :=
  h.any_calm_bind (h.modify fun _ => ⟨rfl, rfl⟩) fun _ => h.any_pure _

theorem allocate_holds : C (allocate : Exec σ Bool) :=
  h.calm_calm h.getState fun _ => h.calm_calm (h.modify fun _ => ⟨rfl, rfl⟩) fun _ => h.pure _

theorem allocateTree_holds (action : Action (ArkshAst N)) :
    C (allocateTree action : Exec σ Bool) := by
  unfold allocateTree
  split
  · exact allocate_holds h
  · exact h.pure _

variable (hexec : ∀ text, P (exec text))

include hexec

theorem executeFurther_holds (text : Text) : A (executeFurther exec text) := h.late (hexec text)

theorem executeShellFunction_holds (function : FunctionCall σ) :
    A (executeShellFunction exec function) := by
  refine h.late (h.calm_bind h.getState fun sh => ?_)
  split
  · refine h.calm_bind (h.modify fun _ => ⟨rfl, rfl⟩) fun _ => ?_; exact h.any_run (h.any_pure _)
  · refine h.calm_bind (h.modify fun _ => ⟨rfl, rfl⟩) fun _ => ?_
    refine h.run_bind (h.function _ hexec) fun result => ?_
    exact h.any_calm_bind (h.modify fun _ => ⟨rfl, rfl⟩) fun _ => h.any_pure _

theorem executeSource_holds (commands : List (SourceCommand σ)) (out : Text) :
    A (executeSource exec commands out) := by
  induction commands generalizing out with
  | nil => exact h.any_pure _
  | cons c commands ih =>
    rw [executeSource]
    split
    · exact h.any_pure _
    refine h.any_calm_bind (h.modify fun _ => ⟨rfl, rfl⟩) fun _ => ?_
    refine h.any_bind (executeFurther_holds h hexec _) fun r => holds_ite (h.any_pure _) ?_
    split
    · exact h.any_pure _
    · exact ih _

theorem runTask_holds (task : Task σ α) : A (runTask exec task) := by
  induction task with
  | done a => exact h.any_pure a
  | act f next ih =>
    refine h.any_calm_bind (h.modify fun _ => ⟨rfl, rfl⟩) fun _ => ?_
    exact h.any_calm_bind h.getState fun sh => ih _
  | set f next ih
  | signal kind hk next ih => exact h.any_calm_bind (h.modify fun _ => ⟨rfl, rfl⟩) fun _ => ih
  | exit next ih =>
    refine h.any_calm_bind (h.tell trivial) fun _ => ?_
    exact h.any_bind (h.stop fun _ => rfl) fun _ => ih
  | line text next ih =>
    refine h.any_bind (executeFurther_holds h hexec text) fun r => ?_
    exact h.any_calm_bind h.getState fun sh => ih _ _ _
  | call function next ih =>
    refine h.any_bind (executeShellFunction_holds h hexec function) fun r => ?_
    exact h.any_calm_bind h.getState fun sh => ih _ _ _
  | source commands next ih =>
    refine h.any_bind (executeSource_holds h hexec commands []) fun r => ?_
    exact h.any_calm_bind h.getState fun sh => ih _ _ _

theorem executeEntry_holds (entry : ArkshCommandListEntry) : P (executeEntry W exec entry) := by
  refine holds_ite (h.startLine (h.any_run ?_)) (hexec _)
  refine h.any_calm_bind (h.tell trivial) fun _ => h.any_calm_bind h.getState fun sh => ?_
  exact h.any_calm_bind (h.modify fun _ => ⟨rfl, rfl⟩) fun _ => h.any_pure _

theorem executeTested_holds (tested : Bool) (entry : ArkshCommandListEntry) :
    P (executeTested W exec tested entry) :=
  holds_ite (h.tested (executeEntry_holds h hexec entry)) (executeEntry_holds h hexec entry)

theorem executeCommandList_holds (entries : List ArkshCommandListEntry) (status : Int)
    (out : Text) : P (executeCommandList W exec entries status out) := by
  induction entries generalizing status out with
  | nil => exact h.any_run (h.any_pure _)
  | cons entry rest ih =>
    refine holds_ite (ih _ _) ?_
    refine h.run_bind (executeTested_holds h hexec _ _) fun ⟨status, segment⟩ => ?_
    dsimp only
    split
    · exact giveUp_holds h _ _
    · exact h.ifReady (fun _ => ih _ _) fun _ => h.any_bind h.skipped fun _ => h.any_pure _

theorem evaluateConditionStatus_holds (text : Text) : P (evaluateConditionStatus W exec text) := by
  refine h.calm_bind (allocate_holds h) fun allocated => h.any_run ?_
  refine holds_ite ?_ (h.any_pure _)
  refine h.any_calm_bind h.getState fun sh => h.any_bind (runTask_holds h hexec _) fun truth => ?_
  split
  · exact h.any_pure _
  · exact h.any_bind (executeFurther_holds h hexec text) fun r => h.any_pure _

theorem executeBranch_holds (out body : Text) : P (executeBranch exec out body) := by
  refine h.run_bind (hexec body) fun ⟨status, segment⟩ => ?_
  dsimp only
  split
  · exact giveUp_holds h _ _
  · exact h.any_pure _

theorem executeIfCommand_holds (condition thenBranch : Text) (elseBranch : Option Text) :
    P (executeIfCommand W exec condition thenBranch elseBranch) := by
  refine h.run_bind (h.condition (evaluateConditionStatus_holds h hexec _)) fun r => ?_
  split
  · exact giveUp_holds h _ _
  split
  · exact giveUp_holds h _ _
  refine h.ifReady (fun _ => ?_) fun _ => h.any_bind h.skipped fun _ => giveUp_holds h _ _
  refine holds_ite (executeBranch_holds h hexec _ _) ?_
  split
  · exact executeBranch_holds h hexec _ _
  · exact h.any_run (h.any_pure _)

theorem executeForCommand_holds (name source body : Text) :
    P (executeForCommand W exec name source body) := by
  refine h.calm_bind (allocate_holds h) fun allocated => h.any_run ?_
  refine holds_ite ?_ (giveUp_holds h _ _)
  refine h.any_calm_bind h.getState fun sh => h.any_bind (runTask_holds h hexec _) fun source => ?_
  split
  · exact giveUp_holds h _ _
  · exact h.late (h.forLoop _ _ _ hexec)

theorem executeSelected_holds (kind : ArkshAstKind) (node : N) :
    P (executeSelected W exec kind node) := by
  refine h.calm_bind h.getState fun sh => h.any_run ?_
  refine h.any_bind (runTask_holds h hexec _) fun branch => ?_
  split
  · exact giveUp_holds h _ _
  · exact h.any_pure _
  · exact executeFurther_holds h hexec _

theorem executeGroupCommand_holds (node : N) (body : Text) :
    P (executeGroupCommand W exec node body) := by
  refine h.calm_bind h.getState fun before => ?_
  refine h.calm_bind (h.modify fun _ => ⟨rfl, rfl⟩) fun _ => ?_
  refine h.run_bind (hexec body) fun ⟨status, commandOutput⟩ => ?_
  refine h.any_calm_bind (h.modify fun _ => ⟨rfl, rfl⟩) fun _ => ?_
  refine h.any_calm_bind h.getState fun sh => ?_
  split
  · exact h.any_calm_bind (h.modify fun _ => ⟨rfl, rfl⟩) fun _ => giveUp_holds h _ _
  · exact h.any_calm_bind (h.modify fun _ => ⟨rfl, rfl⟩) fun _ => h.any_pure _

theorem executeWithSudoCommand_holds (body : Text) : P (executeWithSudoCommand W exec body) := by
  refine h.calm_bind (h.modify fun _ => ⟨rfl, rfl⟩) fun _ => ?_
  refine h.run_bind (hexec body) fun result => ?_
  exact h.any_calm_bind (h.modify fun _ => ⟨rfl, rfl⟩) fun _ => h.any_pure _

theorem arkshExecuteAst_holds (turns : Nat) (ast : ArkshAst N) :
    P (arkshExecuteAst W exec turns ast) := by
  cases ast with
  | empty => exact h.any_run (h.any_pure _)
  | plain kind node =>
    exact h.calm_bind h.getState fun sh => h.any_run (runTask_holds h hexec _)
  | commandList entries => exact executeCommandList_holds h hexec _ _ _
  | groupCommand node body => exact executeGroupCommand_holds h hexec _ _
  | ifCommand condition thenBranch elseBranch => exact executeIfCommand_holds h hexec _ _ _
  | whileCommand condition body | untilCommand condition body =>
    exact h.whileLoop _ _ _ _ hexec (evaluateConditionStatus_holds h hexec _)
  | forCommand name source body => exact executeForCommand_holds h hexec _ _ _
  | caseCommand node | switchCommand node => exact executeSelected_holds h hexec _ _
  | withSudoCommand body => exact executeWithSudoCommand_holds h hexec _

/-! ## 3. Lines -/

theorem firePendingTraps_holds (kinds : List ArkshTrapKind) :
    A (firePendingTraps W exec kinds) := by
  induction kinds with
  | nil => exact h.any_pure _
  | cons kind kinds ih =>
    refine h.any_calm_bind h.getState fun sh => ?_
    split
    · rename_i hpending
      have hkind := sh.pending.isSignal kind hpending
      refine h.any_bind (h.any_calm_bind (h.modify fun _ => ⟨rfl, rfl⟩) fun _ => ?_) fun _ => ih
      refine h.any_calm_bind h.getState fun sh => ?_
      split
      · exact h.trap _ hkind hexec
      · exact h.any_pure _
    · exact ih

theorem finishLine_holds {plain : Bool} (hx : P x) : P (finishLine W exec plain x) := by
  refine h.run_bind (h.listen hx) fun ⟨⟨status, out⟩, events⟩ => ?_
  refine h.any_calm_bind (h.modify fun _ => ⟨rfl, rfl⟩) fun _ => ?_
  refine h.any_bind (firePendingTraps_holds h hexec _) fun _ => ?_
  refine h.any_bind (h.failure _ _ hexec) fun _ => ?_
  exact h.any_calm_bind (h.tell trivial) fun _ => h.any_pure _

theorem runAction_holds (turns : Nat) (action : Action (ArkshAst N)) :
    P (runAction W exec turns action) := by
  refine h.calm_bind h.getState fun sh => ?_
  cases action with
  | letLine line
  | extendLine line => exact finishDirect_holds h (h.any_run (runTask_holds h hexec _))
  | breakLine line => exact finishDirect_holds h (h.loopControl _ _ _ (Or.inl rfl))
  | continueLine line => exact finishDirect_holds h (h.loopControl _ _ _ (Or.inr rfl))
  | returnLine line =>
    exact finishDirect_holds h (h.returnLine _ fun _ => runTask_holds h hexec _)
  | program ast => exact finishLine_holds h hexec (arkshExecuteAst_holds h hexec _ _)

theorem executeLineStep_holds (turns : Nat) (line : Text) :
    P (executeLineStep W exec turns line) := by
  refine h.calm_bind h.getState fun sh => ?_
  split
  · exact h.calm_bind (h.modify fun _ => ⟨rfl, rfl⟩) fun _ => h.any_run (h.any_pure _)
  · exact h.any_run (refuseLine_holds h _)
  · refine h.calm_bind (allocateTree_holds h _) fun allocated => ?_
    refine holds_ite (h.startLine ?_) (h.any_run (refuseLine_holds h _))
    exact runAction_holds h hexec _ _

end Executors

theorem executeLine_holds {P A C : ∀ {α : Type}, Exec σ α → Prop} (h : LineRules P A C)
    (W : World σ N I) (n : Nat) (line : Text) : P (executeLine W n line) := by
  induction n generalizing line with
  | zero => exact h.cut
  | succ n ih => exact executeLineStep_holds h ih n line

/-! ## 4. One property for all states -/

def Event.IsPlain : Event → Prop
  | .trap _ _ | .conditionOverflow | .itemFailure | .nameStackFull | .failed _ _ | .settled _ _
  | .stopped | .unhandled => False
  | _ => True

theorem Event.IsNote.plain {e : Event} (h : e.IsNote) : e.IsPlain := by
  cases e <;> trivial

structure StepRules (P L : ∀ {α : Type}, Exec σ α → Prop) : Prop where
  pure : ∀ {α : Type} (a : α), P (Pure.pure a)
  bind : ∀ {α β : Type} {x : Exec σ α} {f : α → Exec σ β}, P x → (∀ a, P (f a)) → P (x >>= f)
  getState : P getState
  getContext : P getContext
  modify : ∀ {g : ArkshShell σ → ArkshShell σ}, (∀ sh, (g sh).depths = sh.depths) →
    P (modifyState g)
  tell : ∀ {e : Event}, e.IsPlain → P (Trace.tell e)
  unhandled : ∀ {c : Prop} [Decidable c], P (tellIf c .unhandled)
  listen : ∀ {α : Type} {x : Exec σ α}, P x → P (Trace.listen x)
  function : ∀ {exec : Text → Exec σ (Int × Text)} (body : Text), (∀ text, P (exec text)) →
    P (executeFunctionBody exec body)
  tested : ∀ {α : Type} {x : Exec σ α}, P x → P (suppressErrexit x)
  condition : ∀ {α : Type} {x : Exec σ α}, P x → P (enclosedCondition Context.condition x)
  loopCondition : ∀ {α : Type} {x : Exec σ α}, P x →
    P (enclosedCondition Context.loopCondition x)
  body : ∀ {α : Type} {x : Exec σ α}, P x → P (within Context.body x)
  trap : ∀ {α : Type} {x : Exec σ α} {kind : ArkshTrapKind}, kind.isSignal → P x →
    P (enclose (Event.trap kind) x)
  failure : ∀ {exec : Text → Exec σ (Int × Text)} (status : Int) (own : Bool),
    (∀ text, P (exec text)) → P (failLine exec status own)
  /-- a loop is entered -/
  loop : ∀ {β : Type} {y : Exec σ β}, L y → P (enterLoop >>= fun _ => y)
  /-- a step within a loop -/
  within : ∀ {α β : Type} {x : Exec σ α} {f : α → Exec σ β}, P x → (∀ a, L (f a)) →
    L (x >>= f)
  leave : ∀ {β : Type} {y : Exec σ β}, P y → L (leaveLoop >>= fun _ => y)
  /-- the exits that leave `loop_depth` raised -/
  leaveOpen : ∀ {β : Type} {y : Exec σ β} {e : Event}, e = .conditionOverflow ∨ e = .itemFailure →
    P y → L (Trace.tell e >>= fun _ => Trace.tell .loopEnd >>= fun _ => y)
  cut : ∀ {α : Type}, P (Trace.cut : Exec σ α) ∧ L (Trace.cut : Exec σ α)

theorem resolveLoopControl_depths (sh : ArkshShell σ) :
    (resolveLoopControl sh).2.depths = sh.depths := by
  unfold resolveLoopControl
  split
  · rfl
  · rfl
  · dsimp only
    split_ifs <;> rfl

section Loops

variable {P L : ∀ {α : Type}, Exec σ α → Prop} {W : World σ N I}
  {exec : Text → Exec σ (Int × Text)} (h : StepRules P L)

include h

theorem StepRules.tellIf {c : Prop} [Decidable c] {e : Event} (he : e.IsPlain) :
    P (Trace.tellIf c e) :=
  holds_ite (h.tell he) (h.pure ())

theorem StepRules.skipped : P (reportSkipped : Exec σ Unit) :=
  h.bind h.getState fun _ => h.tellIf trivial

theorem StepRules.allocate : P (allocate : Exec σ Bool) :=
  h.bind h.getState fun _ => h.bind (h.modify fun _ => rfl) fun _ => h.pure _

theorem giveUp_steps (status : Int) (out : Text) : P (giveUp status out : Exec σ (Int × Text)) :=
  h.bind (h.tell trivial) fun _ => h.pure _

variable (hexec : ∀ text, P (exec text))

include hexec

theorem executeBody_steps (out body : Text) : P (executeBody exec out body) := by
  refine h.bind (h.body (hexec body)) fun ⟨status, segment⟩ => ?_
  refine h.bind h.skipped fun _ => h.bind h.getState fun sh => ?_
  split
  · exact h.bind (h.tellIf trivial) fun _ => h.pure _
  · exact h.bind (h.modify resolveLoopControl_depths) fun _ => h.pure _

theorem executeLoop_steps {condition : Text}
    (hcondition : P (evaluateConditionStatus W exec condition)) (stopsOn : Bool) (body : Text)
    (turns : Nat) (status : Int) (out : Text) :
    L (executeLoop W exec stopsOn condition body turns status out) := by
  induction turns generalizing status out with
  | zero => exact h.cut.2
  | succ turns ih =>
    refine h.within (h.tell trivial) fun _ => h.within h.getState fun sh => ?_
    refine holds_ite (h.leave (h.pure _)) ?_
    refine h.within (h.loopCondition hcondition) fun r => ?_
    split
    · exact h.leave (giveUp_steps h _ _)
    split
    · exact h.leaveOpen (Or.inl rfl) (giveUp_steps h _ _)
    refine h.within h.getState fun sh => ?_
    refine holds_ite (h.within h.skipped fun _ => h.leave (giveUp_steps h _ _)) ?_
    refine holds_ite (h.leave (h.pure _)) ?_
    refine h.within (executeBody_steps h hexec _ _) fun b => ?_
    split
    · exact h.leave (giveUp_steps h _ _)
    · exact h.leave (h.pure _)
    · exact ih _ _
    · exact h.leave (h.pure _)
    · exact ih _ _

theorem executeForItems_steps (name body : Text) (items : List I) (status : Int) (out : Text) :
    L (executeForItems W exec name body items status out) := by
  induction items generalizing status out with
  | nil => exact h.within (h.tell trivial) fun _ => h.leave (h.pure _)
  | cons item items ih =>
    refine h.within (h.tell trivial) fun _ => h.within h.getState fun sh => ?_
    refine holds_ite (h.leave (h.pure _)) ?_
    refine h.within h.allocate fun allocated => ?_
    refine holds_ite (h.leave (giveUp_steps h _ _)) ?_
    refine holds_ite (h.leaveOpen (Or.inr rfl) (giveUp_steps h _ _)) ?_
    split
    · exact h.within (h.modify fun _ => rfl) fun _ => h.leave (giveUp_steps h _ _)
    refine h.within (h.modify fun _ => rfl) fun _ => ?_
    refine h.within (executeBody_steps h hexec _ _) fun b => ?_
    split
    · exact h.leave (giveUp_steps h _ _)
    · exact h.leave (h.pure _)
    · exact ih _ _
    · exact h.leave (h.pure _)
    · exact ih _ _

theorem executeForSingle_steps (name body : Text) (item : I) :
    L (executeForSingle W exec name body item) := by
  refine h.within (h.tell trivial) fun _ => h.within h.getState fun sh => ?_
  split
  · exact h.within (h.modify fun _ => rfl) fun _ => h.leave (giveUp_steps h _ _)
  refine h.within (h.modify fun _ => rfl) fun _ => ?_
  refine h.within (executeBody_steps h hexec _ _) fun b => ?_
  split
  · exact h.leave (giveUp_steps h _ _)
  · exact h.leave (h.pure _)
  · exact h.within (h.tell trivial) fun _ => h.leave (h.pure _)
  · exact h.leave (h.pure _)
  · exact h.within (h.tell trivial) fun _ => h.leave (h.pure _)

theorem executeForIterable_steps (name body : Text) (iterable : ForIterable I) :
    L (executeForIterable W exec name body iterable) := by
  cases iterable with
  | list items => exact executeForItems_steps h hexec _ _ _ _ _
  | single item => exact executeForSingle_steps h hexec _ _ _
  | empty => exact h.leave (h.pure _)

omit hexec

theorem handleLoopControlLine_steps (keyword : String) (kind : ArkshControlSignalKind)
    (line : Text) : P (handleLoopControlLine keyword kind line : Exec σ (Int × Text)) := by
  refine h.bind ?_ fun _ => h.bind h.getState fun sh => ?_
  · unfold reportLoopControl
    split
    · exact h.tell trivial
    · exact h.pure _
  refine holds_ite (h.pure _) ?_
  split
  · exact h.pure _
  refine h.bind h.getContext fun c => h.bind (h.tellIf trivial) fun _ => ?_
  exact h.bind (h.modify fun _ => rfl) fun _ => h.pure _

theorem handleReturnLine_steps (line : Text)
    (htask : ∀ task : Task σ (Except Text Text), P (runTask exec task)) :
    P (handleReturnLine W exec line) := by
  refine h.bind h.getState fun sh => ?_
  refine holds_ite (h.bind (h.tell trivial) fun _ => h.pure _) (holds_ite ?_ ?_)
  · refine h.bind (h.tell trivial) fun _ => ?_
    exact h.bind (h.modify fun _ => rfl) fun _ => h.pure _
  refine h.bind (htask _) fun value => ?_
  split
  · exact h.pure _
  · refine h.bind (h.bind h.getState fun sh => h.tellIf trivial) fun _ => ?_
    refine h.bind (h.tell trivial) fun _ => ?_
    exact h.bind (h.modify fun _ => rfl) fun _ => h.pure _

end Loops

theorem StepRules.lineRules {P L : ∀ {α : Type}, Exec σ α → Prop} (h : StepRules P L) :
    LineRules P P P where
  pure := h.pure
  calm_any hx := hx
  any_run hx := hx
  calm_calm := h.bind
  calm_bind := h.bind
  run_bind := h.bind
  any_bind := h.bind
  getState := h.getState
  getContext := h.getContext
  modify hg := h.modify fun sh => congrArg (fun c => c.2.2) (hg sh).1
  stop hg := h.modify fun sh => congrArg (fun c => c.2.2) (hg sh)
  tell he := h.tell he.plain
  unhandled := h.unhandled
  listen := h.listen
  startLine hy := h.bind (h.bind h.getState fun _ => h.tell trivial) fun _ => hy
  late hy := h.bind (h.bind h.getState fun _ => h.tellIf trivial) fun _ => hy
  ifReady hf hg := h.bind h.getState fun sh => holds_ite (hf sh) (hg sh)
  skipped := h.skipped
  function body hexec := h.function body hexec
  tested := h.tested
  condition := h.condition
  whileLoop stopsOn _ body turns hexec hcondition :=
    h.loop (executeLoop_steps h hexec hcondition stopsOn body turns 0 [])
  forLoop name body iterable hexec := h.loop (executeForIterable_steps h hexec name body iterable)
  loopControl keyword kind line _ := handleLoopControlLine_steps h keyword kind line
  returnLine line htask := handleReturnLine_steps h line htask
  trap command hkind hexec := by
    refine h.bind (h.bind h.getState fun sh => h.tellIf trivial) fun _ => ?_
    exact h.bind (h.trap hkind (hexec command)) fun _ => h.pure ()
  failure := h.failure
  cut := h.cut.1

end Arksh
