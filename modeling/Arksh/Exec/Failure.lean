/-
  Subject: What a failing command sets off: the ERR trap and `set -e`; and `$?` behind a line.

  Every line tests its own status, and the commands within a line are lines again. `watchErr` says
  what is due: a command that fails outside of conditions is followed by the ERR trap, if that has
  an action, and then by the end of the shell, if `set -e` is on. A line that only passes on the
  status of a line within it is not such a command.
-/
import Arksh.Exec.Balance

namespace Arksh

open CText Traces Traces.Trace

variable {σ N I α : Type}

/-! ## 1. What is due -/

inductive Due where
  | nothing | errTrap | stop
  deriving DecidableEq

def watchErr : Monitor Event Due
  | .nothing, .failed own err => some (if own && err then .errTrap else .nothing)
  | .nothing, .settled own errexit => some (if own && errexit then .stop else .nothing)
  | .errTrap, .trap .err _ => some .nothing
  | .stop, .stopped => some .nothing
  | m, .interrupted => some m
  | .nothing, .trap .err _ => none
  | .nothing, .stopped => none
  | .nothing, .unhandled => none
  | .nothing, _ => some .nothing
  | _, _ => none

/-- A failing status is passed on, or is that of a line without the parser, where it sets something
    off or should. -/
def Event.PassesOn : Event → Prop
  | .failed own err => own = false ∧ err = true
  | .settled own errexit => own = false ∧ errexit = true
  | .unhandled => True
  | _ => False

instance : DecidablePred Event.PassesOn
  | .failed own err => inferInstanceAs (Decidable (own = false ∧ err = true))
  | .settled own errexit => inferInstanceAs (Decidable (own = false ∧ errexit = true))
  | .unhandled => inferInstanceAs (Decidable True)
  | .line _ | .ended | .late _ | .trap _ _ | .interrupted | .skipped | .exit | .background _ | .loopStart
  | .turn | .loopEnd | .functionStart | .functionEnd | .loopControl _ _ | .returns | .misplaced
  | .abandoned | .conditionOverflow | .itemFailure | .nameStackFull | .gaveUp | .stopped =>
    inferInstanceAs (Decidable False)

/-- The counters say whether a failure is one, outside of the EXIT trap. -/
structure Agrees (k : Context) (sh : ArkshShell σ) : Prop where
  suppressed : k.suppressed = true ↔ 0 < sh.inCondition ∨ 0 < sh.errexitSuppressed
  exitTrap : sh.runningExitTrap = false

/-- The computation does what is due and nothing else. -/
def Reacts (x : Exec σ α) : Prop :=
  ∀ k sh, Agrees k sh →
    Safe watchErr Event.PassesOn k .nothing sh x fun _ m' _ => m' = .nothing

variable {x : Exec σ α}

theorem KeepsDepths.agrees (hx : KeepsDepths x) {k k' : Context} {sh sh' : ArkshShell σ}
    {es : List Event} {a : α} (h : Agrees k sh) (hends : Ends x k' sh es a sh') : Agrees k sh' := by
  have hk := hx.ends hends
  have hc : sh'.inCondition = sh.inCondition := hk.inCondition
  have he : sh'.errexitSuppressed = sh.errexitSuppressed := hk.errexitSuppressed
  have ht : sh'.runningExitTrap = sh.runningExitTrap := hk.runningExitTrap
  refine ⟨?_, ht.trans h.exitTrap⟩
  rw [hc, he]
  exact h.suppressed

theorem Event.IsPlain.watchErr {e : Event} (h : e.IsPlain) :
    Arksh.watchErr .nothing e = some .nothing := by
  cases e <;> first | rfl | exact h.elim

/-! ## 2. Every step does what is due -/

variable {g : ArkshShell σ → ArkshShell σ}

namespace Reacts

variable {β : Type} {e : Event} {sh : ArkshShell σ} {status : Int} {y : Exec σ β}

theorem pure (a : α) : Reacts (Pure.pure a : Exec σ α) := by
  intro k sh _
  exact safe_pure rfl

theorem bind {f : α → Exec σ β} (hk : KeepsDepths x) (hx : Reacts x) (hf : ∀ a, Reacts (f a)) :
    Reacts (x >>= f) := by
  intro k sh hag
  refine safe_bind (((hx k sh hag).and_ends fun _ _ _ h => hk.agrees hag h).mono ?_)
  intro a m₁ sh₁ ⟨hm₁, hag₁⟩
  rw [hm₁]
  exact hf a k sh₁ hag₁

theorem getState : Reacts (Trace.getState : Exec σ (ArkshShell σ)) := by
  intro k sh _
  exact safe_getState rfl

theorem modify : Reacts (modifyState g) := by
  intro k sh _
  exact safe_modifyState rfl

theorem tell (he : e.IsPlain) : Reacts (Trace.tell e : Exec σ Unit) := by
  intro k sh _
  exact safe_tell fun _ => ⟨.nothing, he.watchErr, rfl⟩

theorem bracket {raise lower : ArkshShell σ → ArkshShell σ} {g : Context → Context} (hx : Reacts x)
    (h : ∀ k sh, Agrees k sh → Agrees (g k) (raise sh)) :
    Reacts (do
      modifyState raise
      let a ← within g x
      modifyState lower
      return a) := by
  intro k sh hag
  refine safe_bind (safe_modifyState (safe_bind ?_))
  refine (safe_within (hx (g k) (raise sh) (h k sh hag))).mono ?_
  intro a m₁ sh₁ hm₁
  exact safe_bind (safe_modifyState (safe_pure hm₁))

theorem tested (hx : Reacts x) : Reacts (suppressErrexit x) := by
  refine hx.bracket ?_
  intro k sh hag
  exact ⟨⟨fun _ => Or.inr (Nat.succ_pos _), fun _ => rfl⟩, hag.exitTrap⟩

theorem condition {g : Context → Context} (hg : ∀ k, (g k).suppressed = true) (hx : Reacts x) :
    Reacts (enclosedCondition g x) := by
  refine hx.bracket ?_
  intro k sh hag
  exact ⟨⟨fun _ => Or.inl (Nat.succ_pos _), fun _ => hg k⟩, hag.exitTrap⟩

variable {k : Context}

theorem enterFunction_safe (h : Agrees k sh) :
    Safe watchErr Event.PassesOn k .nothing sh enterFunction fun _ m' sh' =>
      m' = .nothing ∧ Agrees k sh' := by
  have hag : ∀ depth names, Agrees k { sh with functionDepth := depth, functionNameDepth := names } :=
    fun _ _ => ⟨h.suppressed, h.exitTrap⟩
  refine safe_bind (safe_modifyState (safe_bind (safe_tell fun _ => ⟨.nothing, rfl, ?_⟩)))
  refine safe_bind (safe_getState ?_)
  split
  · exact safe_modifyState ⟨rfl, hag _ _⟩
  · exact safe_tell fun _ => ⟨.nothing, rfl, rfl, hag _ _⟩

theorem consumeReturn_safe :
    Safe watchErr Event.PassesOn k .nothing sh (consumeReturn status) fun _ m' _ =>
      m' = .nothing := by
  have hclear : Safe watchErr Event.PassesOn k .nothing sh
      (if status = 0 ∧ sh.controlSignal = .returnSignal then modifyState clearControlSignal
        else Pure.pure ()) fun _ m' _ => m' = .nothing :=
    safe_ite (fun _ => safe_modifyState rfl) fun _ => safe_pure rfl
  refine safe_bind (safe_getState (safe_bind ?_))
  exact safe_tellIf (fun _ _ => ⟨.nothing, rfl, hclear⟩) fun _ => hclear

theorem leaveFunction_safe :
    Safe watchErr Event.PassesOn k .nothing sh (leaveFunction status) fun _ m' _ =>
      m' = .nothing := by
  refine safe_bind (safe_modifyState (safe_bind (consumeReturn_safe.mono ?_)))
  intro _ m' sh' hm
  rw [hm]
  exact safe_tell fun _ => ⟨.nothing, rfl, rfl⟩

variable {exec : Text → Exec σ (Int × Text)}

theorem function (body : Text) (hexec : ∀ text, Reacts (exec text)) :
    Reacts (executeFunctionBody exec body) := by
  intro k sh hag
  refine safe_bind ((enterFunction_safe hag).mono ?_)
  intro _ m₁ sh₁ ⟨hm₁, hag₁⟩
  rw [hm₁]
  refine safe_bind ((safe_within (hexec body (Context.function k) sh₁ ?_)).mono ?_)
  · exact ⟨hag₁.suppressed, hag₁.exitTrap⟩
  · intro result m₂ sh₂ hm₂
    rw [hm₂]
    refine safe_bind (leaveFunction_safe.mono ?_)
    intro _ m₃ sh₃ hm₃
    exact safe_pure hm₃

theorem reportFailure_safe {m m' : Due} {sh : ArkshShell σ} {e : Event} (h : k.suppressed = false)
    (hm : ¬ e.PassesOn → watchErr m e = some m') :
    Safe watchErr Event.PassesOn k m sh (reportFailure e) fun _ m₁ sh' => m₁ = m' ∧ sh' = sh := by
  refine safe_bind (safe_getContext ?_)
  rw [if_neg (by rw [h]; decide)]
  exact safe_tell fun he => ⟨m', hm he, rfl, rfl⟩

theorem executeTrap_safe {command : Text} :
    Safe watchErr Event.PassesOn k .errTrap sh (executeTrap exec .err command) fun _ m' _ =>
      m' = .nothing := by
  have hrun : Safe watchErr Event.PassesOn k .errTrap sh
      (do
        let _ ← enclose (Event.trap .err) (exec command)
        Pure.pure ()) fun _ m' _ => m' = .nothing := by
    refine safe_bind (safe_enclose (fun _ _ _ _ hf => hf) ?_ (safe_idle (fun _ => False) _))
    intro inner m₂ _ _
    exact ⟨Due.nothing, rfl, fun _ _ _ => safe_pure rfl⟩
  refine safe_bind (safe_bind (safe_getState ?_))
  exact safe_tellIf (fun _ _ => ⟨.errTrap, rfl, hrun⟩) fun _ => hrun

theorem executeErrTrap_safe :
    Safe watchErr Event.PassesOn k (if sh.hasErrAction then .errTrap else .nothing) sh
      (executeErrTrap exec) fun _ m' _ => m' = .nothing := by
  refine safe_bind (safe_getState ?_)
  unfold ArkshShell.hasErrAction
  cases (sh.settings.traps .err).action with
  | none => exact safe_pure rfl
  | some command =>
    refine safe_bind (safe_modifyState (safe_bind (executeTrap_safe.mono ?_)))
    intro _ m' sh' hm
    exact safe_modifyState hm

theorem stopOnError_safe {own : Bool} (h : k.suppressed = false) :
    Safe watchErr Event.PassesOn k .nothing sh (stopOnError own) fun _ m' _ => m' = .nothing := by
  refine safe_bind (safe_getState (safe_bind ?_))
  refine (@reportFailure_safe _ _ _ (if sh.stopsOnError then .stop else .nothing) _ _ h ?_).mono ?_
  · intro hpass
    cases own with
    | true => rfl
    | false =>
      have hstops : sh.stopsOnError = false := by
        by_contra hne
        exact hpass ⟨rfl, (Bool.not_eq_false _).mp hne⟩
      rw [hstops]
      rfl
  · intro _ m₁ sh₁ ⟨hm₁, _⟩
    rw [hm₁]
    have hend (sh' : ArkshShell σ) : Safe watchErr Event.PassesOn k .nothing sh'
        (if sh.settings.optErrexit then modifyState fun sh => { sh with running := false }
          else Pure.pure ()) fun _ m' _ => m' = .nothing :=
      safe_ite (fun _ => safe_modifyState rfl) fun _ => safe_pure rfl
    refine safe_bind (safe_tellIf (fun hs _ => ⟨.nothing, ?_, hend sh₁⟩) fun hs => ?_)
    · rw [if_pos hs]; rfl
    · rw [if_neg hs]; exact hend sh₁

theorem failure (status : Int) (own : Bool) : Reacts (failLine exec status own) := by
  refine holds_ite (pure ()) ?_
  intro k sh hag
  refine safe_bind (safe_getState ?_)
  cases hk : k.suppressed with
  | true =>
    have hnot : ¬ (sh.inCondition = 0 ∧ sh.errexitSuppressed = 0 ∧ ¬ sh.runningExitTrap) := by
      intro ⟨hc, he, _⟩
      rcases hag.suppressed.mp hk with hpos | hpos
      · exact absurd hc (Nat.ne_of_gt hpos)
      · exact absurd he (Nat.ne_of_gt hpos)
    have hsilent (e : Event) (sh' : ArkshShell σ) : Safe watchErr Event.PassesOn k .nothing sh'
        (reportFailure e) fun _ m' _ => m' = .nothing := by
      refine safe_bind (safe_getContext ?_)
      rw [if_pos hk]
      exact safe_pure rfl
    rw [if_neg hnot]
    refine safe_bind ((hsilent _ sh).mono ?_)
    intro _ m' sh' hm
    rw [hm]
    exact hsilent _ sh'
  | false =>
    have hzero : ¬ (0 < sh.inCondition ∨ 0 < sh.errexitSuppressed) := by
      rw [← hag.suppressed, hk]
      decide
    have htest : sh.inCondition = 0 ∧ sh.errexitSuppressed = 0 ∧ ¬ sh.runningExitTrap := by
      rw [hag.exitTrap]
      exact ⟨by omega, by omega, by decide⟩
    rw [if_pos htest]
    refine safe_bind ((@reportFailure_safe _ _ _
      (if sh.hasErrAction then .errTrap else .nothing) _ _ hk ?_).mono ?_)
    · intro hpass
      cases own with
      | true => rfl
      | false =>
        have herr : sh.hasErrAction = false := by
          by_contra hne
          exact hpass ⟨rfl, (Bool.not_eq_false _).mp hne⟩
        rw [herr]
        rfl
    · intro _ m₁ sh₁ ⟨hm₁, hsh₁⟩
      rw [hm₁, hsh₁]
      refine safe_bind (executeErrTrap_safe.mono ?_)
      intro _ m₂ sh₂ hm₂
      rw [hm₂]
      exact stopOnError_safe hk

theorem signalTrap {kind : ArkshTrapKind} (hkind : kind.isSignal) :
    Reacts (enclose (Event.trap kind) x) := by
  intro _ _ _
  refine safe_enclose (fun _ _ _ _ hf => hf) ?_ (safe_idle (fun _ => False) x)
  intro inner m₂ _ _
  refine ⟨.nothing, ?_, fun _ _ _ => rfl⟩
  cases kind <;> first | rfl | exact absurd rfl hkind.2

theorem loopDepth_bind {depth : ArkshShell σ → Nat} (he : e.IsPlain) (hy : Reacts y) :
    Reacts ((do
      modifyState fun sh => { sh with loopDepth := depth sh }
      Trace.tell e) >>= fun _ => y) := by
  intro k sh hag
  refine safe_bind (safe_bind (safe_modifyState (safe_tell fun _ => ⟨.nothing, he.watchErr, ?_⟩)))
  exact hy k _ ⟨hag.suppressed, hag.exitTrap⟩

theorem leaveOpen (he : e = .conditionOverflow ∨ e = .itemFailure) (hy : Reacts y) :
    Reacts (Trace.tell e >>= fun _ => Trace.tell .loopEnd >>= fun _ => y) := by
  have hwatch : watchErr .nothing e = some .nothing := by
    rcases he with rfl | rfl <;> rfl
  intro k sh hag
  refine safe_bind (safe_tell fun _ => ⟨.nothing, hwatch, ?_⟩)
  exact safe_bind (safe_tell fun _ => ⟨.nothing, rfl, hy k sh hag⟩)

end Reacts

theorem errRules : @StepRules σ (fun x => KeepsDepths x ∧ Reacts x)
    (fun x => LeavesLoop x ∧ Reacts x) where
  pure a := ⟨depthRules.pure a, Reacts.pure a⟩
  bind hx hf := ⟨hx.1.bind fun a => (hf a).1, hx.2.bind hx.1 fun a => (hf a).2⟩
  getState := ⟨depthRules.getState, Reacts.getState⟩
  getContext := ⟨depthRules.getContext, fun _ _ _ => safe_getContext rfl⟩
  modify hg := ⟨depthRules.modify hg, Reacts.modify⟩
  tell he := ⟨depthRules.tell he, Reacts.tell he⟩
  unhandled := ⟨depthRules.unhandled, fun _ _ _ =>
    safe_tellIf (fun _ h => absurd trivial h) fun _ => rfl⟩
  listen hx := ⟨depthRules.listen hx.1, fun k sh hag =>
    safe_listen ((hx.2 k sh hag).mono fun _ _ _ hm _ => hm)⟩
  function body hexec := ⟨depthRules.function body fun text => (hexec text).1,
    Reacts.function body fun text => (hexec text).2⟩
  tested hx := ⟨depthRules.tested hx.1, hx.2.tested⟩
  condition hx := ⟨depthRules.condition hx.1, hx.2.condition fun _ => rfl⟩
  loopCondition hx := ⟨depthRules.loopCondition hx.1, hx.2.condition fun _ => rfl⟩
  body hx := ⟨depthRules.body hx.1, fun _ sh hag =>
    safe_within (hx.2 _ sh ⟨hag.suppressed, hag.exitTrap⟩)⟩
  trap hkind hx := ⟨depthRules.trap hkind hx.1, Reacts.signalTrap hkind⟩
  failure status own hexec :=
    ⟨depthRules.failure status own fun text => (hexec text).1, Reacts.failure status own⟩
  loop hy := ⟨depthRules.loop hy.1, Reacts.loopDepth_bind trivial hy.2⟩
  within hx hf := ⟨LeavesLoop.bind hx.1 fun a => (hf a).1, hx.2.bind hx.1 fun a => (hf a).2⟩
  leave hy := ⟨depthRules.leave hy.1, Reacts.loopDepth_bind trivial hy.2⟩
  leaveOpen he hy := ⟨depthRules.leaveOpen he hy.1, Reacts.leaveOpen he hy.2⟩
  cut := ⟨⟨depthRules.cut.1, fun _ _ _ => safe_cut⟩, depthRules.cut.2, fun _ _ _ => safe_cut⟩

/-! ## 3. The ERR trap and `set -e` -/

def ErrLaw (run : Run Event (ArkshShell σ) α) : Prop :=
  ∃ m, watchErr.follow .nothing run.events = some m ∧ (run.result ≠ none → m = .nothing)

theorem executeLine_reacts (W : World σ N I) (n : Nat) (line : Text) :
    Reacts (executeLine W n line) :=
  (executeLine_holds errRules.lineRules W n line).2

def errWorld : World Unit String Unit :=
  tableWorld [("test a", .plain .simpleCommand "a"), ("test 1 -eq 2", .plain .simpleCommand "b"),
      ("test a; test 1 -eq 2",
        .commandList [⟨"test a".toList, .always, false⟩, ⟨"test 1 -eq 2".toList, .always, false⟩])]
    [("a", .done (0, [])), ("b", .done (1, []))]

def errShell : ArkshShell Unit :=
  { freshShell () with
    settings := ⟨fun kind => ⟨"test a".toList, decide (kind = .err), false⟩, true⟩ }

def Event.IsTrap : Event → Prop
  | .trap _ _ => True
  | _ => False

instance : DecidablePred Event.IsTrap
  | .trap _ _ => inferInstanceAs (Decidable True)
  | .line _ | .ended | .late _ | .interrupted | .skipped | .exit | .background _ | .loopStart | .turn
  | .loopEnd | .functionStart | .functionEnd | .loopControl _ _ | .returns | .misplaced
  | .abandoned | .conditionOverflow | .itemFailure | .nameStackFull | .gaveUp | .failed _ _
  | .settled _ _ | .stopped | .unhandled => inferInstanceAs (Decidable False)

/-- Where it runs no trap, the computation keeps `$?`. -/
def KeepsStatus (x : Exec σ α) : Prop :=
  ∀ k sh, Safe Monitor.idle Event.IsTrap k () sh x fun _ _ sh' => sh'.lastStatus = sh.lastStatus

def SetsStatus (x : Exec σ (Int × Text)) : Prop :=
  ∀ k sh, Safe Monitor.idle Event.IsTrap k () sh x fun result _ sh' => sh'.lastStatus = result.1

namespace KeepsStatus

variable {β : Type} {exec : Text → Exec σ (Int × Text)}

theorem pure (a : α) : KeepsStatus (Pure.pure a : Exec σ α) := fun _ _ => safe_pure rfl

theorem bind {f : α → Exec σ β} (hx : KeepsStatus x) (hf : ∀ a, KeepsStatus (f a)) :
    KeepsStatus (x >>= f) := by
  intro k sh
  refine safe_bind ((hx k sh).mono ?_)
  intro a _ sh₁ h₁
  refine (hf a k sh₁).mono ?_
  intro b _ sh₂ h₂
  exact h₂.trans h₁

theorem getState : KeepsStatus (Trace.getState : Exec σ (ArkshShell σ)) :=
  fun _ _ => safe_getState rfl

theorem modify (hg : ∀ sh, (g sh).lastStatus = sh.lastStatus) : KeepsStatus (modifyState g) :=
  fun _ sh => safe_modifyState (hg sh)

theorem tell (e : Event) : KeepsStatus (Trace.tell e : Exec σ Unit) :=
  fun _ _ => safe_tell fun _ => ⟨(), rfl, rfl⟩

theorem tellIf {c : Prop} [Decidable c] (e : Event) :
    KeepsStatus (Trace.tellIf c e : Exec σ Unit) :=
  holds_ite (tell e) (pure ())

theorem executeTrap (kind : ArkshTrapKind) (command : Text) :
    KeepsStatus (Arksh.executeTrap exec kind command) := by
  refine bind (getState.bind fun sh => tellIf _) fun _ => bind ?_ fun _ => pure ()
  exact fun _ _ => safe_enclose_excluded fun _ => trivial

theorem firePendingTraps {W : World σ N I} (kinds : List ArkshTrapKind) :
    KeepsStatus (Arksh.firePendingTraps W exec kinds) := by
  induction kinds with
  | nil => exact pure ()
  | cons kind kinds ih =>
    refine getState.bind fun sh => holds_ite (bind (bind ?_ fun _ => ?_) fun _ => ih) ih
    · exact modify fun _ => rfl
    · refine getState.bind fun sh => ?_
      split
      · exact executeTrap _ _
      · exact pure ()

theorem reportFailure (e : Event) : KeepsStatus (Arksh.reportFailure e : Exec σ Unit) := by
  refine bind (fun _ _ => safe_getContext rfl) fun c => ?_
  exact holds_ite (pure ()) (tell e)

theorem failLine (status : Int) (own : Bool) : KeepsStatus (Arksh.failLine exec status own) := by
  refine holds_ite (pure ()) (getState.bind fun sh => (reportFailure _).bind fun _ => ?_)
  refine holds_ite (bind ?_ fun _ => ?_) (reportFailure _)
  · refine getState.bind fun sh => ?_
    split
    · have hset (active : Bool) : KeepsStatus (modifyState (setErrTrap active) : Exec σ Unit) :=
        modify fun _ => rfl
      exact (hset false).bind fun _ => (executeTrap _ _).bind fun _ => hset true
    · exact pure ()
  · refine getState.bind fun sh => (reportFailure _).bind fun _ => (tellIf _).bind fun _ => ?_
    exact holds_ite (modify fun _ => rfl) (pure ())

end KeepsStatus

/-- With this `$?`, where it runs no trap, the computation keeps it and returns it. -/
def ReturnsStatus (status : Int) (x : Exec σ (Int × Text)) : Prop :=
  ∀ k sh, sh.lastStatus = status →
    Safe Monitor.idle Event.IsTrap k () sh x fun result _ sh' => sh'.lastStatus = result.1

theorem ReturnsStatus.pure (status : Int) (out : Text) :
    ReturnsStatus status (Pure.pure (status, out) : Exec σ (Int × Text)) :=
  fun _ _ h => safe_pure h

variable {f : α → Exec σ (Int × Text)}

theorem ReturnsStatus.bind {status : Int} (hx : KeepsStatus x)
    (hf : ∀ a, ReturnsStatus status (f a)) : ReturnsStatus status (x >>= f) := by
  intro k sh h
  refine safe_bind ((hx k sh).mono ?_)
  intro a _ sh₁ h₁
  exact hf a k sh₁ (h₁.trans h)

namespace SetsStatus

variable {exec : Text → Exec σ (Int × Text)} {W : World σ N I}

theorem bind (hf : ∀ a, SetsStatus (f a)) : SetsStatus (x >>= f) := by
  intro k sh
  exact safe_bind ((safe_idle _ x).mono fun a _ sh₁ _ => hf a k sh₁)

theorem store {status : Int} {y : Exec σ (Int × Text)} (hy : ReturnsStatus status y) :
    SetsStatus ((modifyState fun sh => { sh with lastStatus := status }) >>= fun _ => y) := by
  intro k sh
  exact safe_bind (safe_modifyState (hy k _ rfl))

theorem finishDirect {x : Exec σ (Int × Text)} : SetsStatus (Arksh.finishDirect x) := by
  refine bind fun ⟨status, out⟩ => store (ReturnsStatus.bind ?_ fun c => ?_)
  · exact fun _ _ => safe_getContext rfl
  refine ReturnsStatus.bind KeepsStatus.getState fun sh => ?_
  refine ReturnsStatus.bind (KeepsStatus.tellIf _) fun _ => ?_
  exact ReturnsStatus.bind (KeepsStatus.tell _) fun _ => ReturnsStatus.pure _ _

theorem finishLine {plain : Bool} {x : Exec σ (Int × Text)} :
    SetsStatus (Arksh.finishLine W exec plain x) := by
  refine bind fun ⟨⟨status, out⟩, events⟩ => store ?_
  refine ReturnsStatus.bind (KeepsStatus.firePendingTraps _) fun _ => ?_
  refine ReturnsStatus.bind (KeepsStatus.failLine _ _) fun _ => ?_
  exact ReturnsStatus.bind (KeepsStatus.tell _) fun _ => ReturnsStatus.pure _ _

theorem runAction (turns : Nat) (action : Action (ArkshAst N)) :
    SetsStatus (Arksh.runAction W exec turns action) := by
  refine bind fun sh => ?_
  cases action with
  | program ast => exact finishLine
  | letLine line | extendLine line | breakLine line | continueLine line
  | returnLine line => exact finishDirect

theorem executeLineStep (turns : Nat) (line : Text) :
    SetsStatus (Arksh.executeLineStep W exec turns line) := by
  refine bind fun sh => ?_
  split
  · exact store (ReturnsStatus.pure _ _)
  · exact store (ReturnsStatus.pure _ _)
  · refine bind fun allocated => holds_ite (bind fun _ => ?_) ?_
    · exact runAction turns _
    · exact store (ReturnsStatus.pure _ _)

theorem executeLine (W : World σ N I) (n : Nat) (line : Text) :
    SetsStatus (Arksh.executeLine W n line) := by
  cases n with
  | zero => exact fun _ _ => safe_cut
  | succ n => exact executeLineStep n line

end SetsStatus

/-- **Where no trap is run, `$?` is the status of the line**, in every run. -/
theorem lastStatus_run (W : World σ N I) (n : Nat) (line : Text) (k : Context)
    (sh sh' : ArkshShell σ) (es : List Event) (result : Int × Text)
    (h : Ends (executeLine W n line) k sh es result sh') (hquiet : ∀ e ∈ es, ¬ e.IsTrap) :
    sh'.lastStatus = result.1 := by
  obtain ⟨_, _, hlast⟩ := (SetsStatus.executeLine W n line k sh).ends h hquiet
  exact hlast

theorem lastStatus_test :
    ∃ sh', Ends (executeLine errWorld 2 "test 1 -eq 2".toList) Context.top (freshShell ())
        [.line true, .failed true false, .settled true false, .ended] (1, []) sh' ∧
      sh'.lastStatus = 1 :=
  ⟨_, rfl, lastStatus_run errWorld 2 "test 1 -eq 2".toList Context.top (freshShell ()) _ _ (1, []) rfl
    (by decide)⟩

/-- With an ERR trap whose action succeeds, the status of `test 1 -eq 2` is 1 and `$?` is 0 behind it. -/
theorem not_lastStatus_err : ¬ ∀ (W : World Unit String Unit) n line k sh es result sh',
      Ends (executeLine W n line) k sh es result sh' → sh'.lastStatus = result.1 := by
  intro h
  let sh : ArkshShell Unit := { errShell with
    settings := { errShell.settings with optErrexit := false } }
  have hlast := h errWorld 2 "test 1 -eq 2".toList Context.top sh
    [.line true, .failed true true, .trap .err [.line true, .ended], .settled true false, .ended]
    (1, []) _ rfl
  exact absurd hlast (by decide)

end Arksh
