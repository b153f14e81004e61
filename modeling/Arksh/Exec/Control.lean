/-
  Subject: Control transfers: what runs after `exit`, `break`, `continue` and `return`.

  The lists, the loops and the branches look at the flag `running` and at the control signal before
  they run another line. The reader of a file looks at neither, nor do commands that run several
  lines; the event `late` tells where one of them goes on.
-/
import Arksh.Exec.Steps

namespace Arksh

open CText Traces Traces.Trace

variable {σ N I α : Type}

/-! ## 1. No line starts while a transfer is under way -/

/-- A line may not start while a control transfer is under way. -/
def watchLines : Monitor Event Unit
  | _, .line false => none
  | _, _ => some ()

def Event.IsLate : Event → Prop
  | .late _ => True
  | _ => False

instance : DecidablePred Event.IsLate
  | .late _ => inferInstanceAs (Decidable True)
  | .line _ | .ended | .trap _ _ | .interrupted | .skipped | .exit | .background _ | .loopStart | .turn
  | .loopEnd | .functionStart | .functionEnd | .loopControl _ _ | .returns | .misplaced
  | .abandoned | .conditionOverflow | .itemFailure | .nameStackFull | .gaveUp | .failed _ _
  | .settled _ _ | .stopped | .unhandled => inferInstanceAs (Decidable False)

theorem follow_watchLines {u u' : Unit} {es : List Event} (h : watchLines.follow u es = some u') :
    ∀ e ∈ es, e ≠ .line false := by
  induction es generalizing u with
  | nil => exact fun e he => absurd he List.not_mem_nil
  | cons e es ih =>
    obtain ⟨u₁, he, hes⟩ := Option.bind_eq_some_iff.mp h
    intro e' he'
    rcases List.mem_cons.mp he' with rfl | he'
    · rintro rfl; cases he
    · exact ih hes e' he'

/-- From a state in which it may run lines, the computation starts none too late. -/
def Prompt (x : Exec σ α) : Prop :=
  ∀ k sh, sh.ready = true → Safe watchLines Event.IsLate k () sh x fun _ _ _ => True

def AlwaysPrompt (x : Exec σ α) : Prop :=
  ∀ k sh, Safe watchLines Event.IsLate k () sh x fun _ _ _ => True

/-- From any state, the computation starts no line too late, and no transfer. -/
def CalmPrompt (x : Exec σ α) : Prop :=
  ∀ k sh, Safe watchLines Event.IsLate k () sh x fun _ _ sh' => sh'.ready = sh.ready

variable {e : Event}

theorem Event.IsNote.watchLines (h : e.IsNote) : Arksh.watchLines () e = some () := by
  cases e <;> first | rfl | exact h.elim

variable {x : Exec σ α} {exec : Text → Exec σ (Int × Text)}

namespace AlwaysPrompt

variable {β : Type}

theorem pure (a : α) : AlwaysPrompt (Pure.pure a : Exec σ α) := fun _ _ => safe_pure trivial

theorem bind {f : α → Exec σ β} (hx : AlwaysPrompt x) (hf : ∀ a, AlwaysPrompt (f a)) :
    AlwaysPrompt (x >>= f) :=
  fun k sh => safe_bind ((hx k sh).mono fun a _ sh' _ => hf a k sh')

theorem getState : AlwaysPrompt (Trace.getState : Exec σ (ArkshShell σ)) :=
  fun _ _ => safe_getState trivial

theorem getContext : AlwaysPrompt (Trace.getContext : Exec σ Context) :=
  fun _ _ => safe_getContext trivial

theorem modify (g : ArkshShell σ → ArkshShell σ) : AlwaysPrompt (modifyState g) :=
  fun _ _ => safe_modifyState trivial

theorem tell (h : watchLines () e = some ()) : AlwaysPrompt (Trace.tell e : Exec σ Unit) :=
  fun _ _ => safe_tell fun _ => ⟨(), h, trivial⟩

theorem tellIf {c : Prop} [Decidable c] (h : watchLines () e = some ()) :
    AlwaysPrompt (Trace.tellIf c e : Exec σ Unit) :=
  holds_ite (tell h) (pure ())

theorem reportInterrupted : AlwaysPrompt (Arksh.reportInterrupted : Exec σ Unit) :=
  getState.bind fun _ => tellIf rfl

theorem reportSkipped : AlwaysPrompt (Arksh.reportSkipped : Exec σ Unit) :=
  getState.bind fun _ => tellIf rfl

theorem executeTrap (kind : ArkshTrapKind) (command : Text) :
    AlwaysPrompt (Arksh.executeTrap exec kind command) := by
  refine reportInterrupted.bind fun _ => bind ?_ fun _ => pure ()
  intro k sh
  refine safe_enclose (fun _ _ _ _ hf => hf) ?_ (safe_idle (fun _ => False) _)
  exact fun _ _ _ _ => ⟨(), rfl, fun _ _ _ => trivial⟩

theorem failLine (status : Int) (own : Bool) : AlwaysPrompt (Arksh.failLine exec status own) := by
  have hreport {e : Event} (h : watchLines () e = some ()) :
      AlwaysPrompt (reportFailure e : Exec σ Unit) :=
    getContext.bind fun _ => holds_ite (pure ()) (tell h)
  refine holds_ite (pure ()) (getState.bind fun sh => (hreport rfl).bind fun _ => ?_)
  refine holds_ite (bind ?_ fun _ => ?_) (hreport rfl)
  · refine getState.bind fun sh => ?_
    split
    · exact (modify _).bind fun _ => (executeTrap _ _).bind fun _ => modify _
    · exact pure ()
  · refine getState.bind fun sh => (hreport rfl).bind fun _ => (tellIf rfl).bind fun _ => ?_
    exact holds_ite (modify _) (pure ())

theorem giveUp (status : Int) (out : Text) :
    AlwaysPrompt (Arksh.giveUp status out : Exec σ (Int × Text)) :=
  (tell rfl).bind fun _ => pure _

theorem leaveLoop : AlwaysPrompt (Arksh.leaveLoop : Exec σ Unit) :=
  (modify _).bind fun _ => tell rfl

theorem leave (hx : AlwaysPrompt x) : AlwaysPrompt (Arksh.leaveLoop >>= fun _ => x) :=
  leaveLoop.bind fun _ => hx

theorem leaveFunction (status : Int) : AlwaysPrompt (Arksh.leaveFunction status : Exec σ Unit) := by
  refine (modify _).bind fun _ => bind ?_ fun _ => tell rfl
  refine getState.bind fun sh => (tellIf rfl).bind fun _ => ?_
  exact holds_ite (modify _) (pure ())

theorem handleLoopControlLine (keyword : String) (kind : ArkshControlSignalKind) (line : Text) :
    AlwaysPrompt (Arksh.handleLoopControlLine keyword kind line : Exec σ (Int × Text)) := by
  refine bind ?_ fun _ => getState.bind fun sh => holds_ite (pure _) ?_
  · unfold reportLoopControl
    split
    · exact tell rfl
    · exact pure ()
  split
  · exact pure _
  · refine getContext.bind fun c => (tellIf rfl).bind fun _ => ?_
    exact (modify _).bind fun _ => pure _

theorem handleReturnLine {W : World σ N I} (line : Text)
    (htask : ∀ task : Task σ (Except Text Text), AlwaysPrompt (runTask exec task)) :
    AlwaysPrompt (Arksh.handleReturnLine W exec line) := by
  refine getState.bind fun sh => holds_ite ((tell rfl).bind fun _ => pure _) (holds_ite ?_ ?_)
  · exact (tell rfl).bind fun _ => (modify _).bind fun _ => pure _
  refine (htask _).bind fun value => ?_
  split
  · exact pure _
  · refine reportInterrupted.bind fun _ => (tell rfl).bind fun _ => ?_
    exact (modify _).bind fun _ => pure _

end AlwaysPrompt

/-! ## 2. Loops -/

variable {sh : ArkshShell σ}

theorem resolveLoopControl_signal
    (h : (resolveLoopControl sh).1 = .none ∨ (resolveLoopControl sh).1 = .continueLoop) :
    (resolveLoopControl sh).2.controlSignal = .none := by
  unfold resolveLoopControl at h ⊢
  split
  · assumption
  · rename_i hreturn
    rw [hreturn] at h
    rcases h with h | h <;> cases h
  · rename_i hnone hreturn
    split at h
    · contradiction
    · contradiction
    · dsimp only at h ⊢
      split_ifs at h ⊢ <;> first | rfl | (rcases h with h | h <;> cases h)

theorem Prompt.condition {g : Context → Context} (hx : Prompt x) :
    Prompt (enclosedCondition g x) := by
  intro k sh hready
  refine safe_bind (safe_modifyState (safe_bind ((safe_within (hx _ _ ?_)).mono ?_)))
  · exact hready
  · exact fun _ _ _ _ => safe_bind (safe_modifyState (safe_pure trivial))

theorem Prompt.tested (hx : Prompt x) : Prompt (suppressErrexit x) := by
  intro k sh hready
  refine safe_bind (safe_modifyState (safe_bind ((safe_within (hx _ _ ?_)).mono ?_)))
  · exact hready
  · exact fun _ _ _ _ => safe_bind (safe_modifyState (safe_pure trivial))

theorem Prompt.function (body : Text) (hexec : ∀ text, Prompt (exec text)) :
    Prompt (executeFunctionBody exec body) := by
  intro k sh hready
  have hbody (sh' : ArkshShell σ) (hready' : sh'.ready = true) :
      Safe watchLines Event.IsLate k () sh'
        (do
          let result ← within Context.function (exec body)
          leaveFunction result.1
          return result) fun _ _ _ => True := by
    refine safe_bind ((safe_within (hexec body _ sh' hready')).mono ?_)
    intro result _ sh₁ _
    exact AlwaysPrompt.bind (AlwaysPrompt.leaveFunction _) (fun _ => AlwaysPrompt.pure _) k sh₁
  refine safe_bind (safe_bind (safe_modifyState (safe_bind (safe_tell fun _ => ⟨(), rfl, ?_⟩))))
  refine safe_bind (safe_getState (safe_ite (fun _ => ?_) fun _ => ?_))
  · exact safe_modifyState (hbody _ hready)
  · exact safe_tell fun _ => ⟨(), rfl, hbody _ hready⟩

/-- The state is one in which a loop may go on: no signal is pending. -/
def HeadPrompt (x : Exec σ α) : Prop :=
  ∀ k sh, sh.controlSignal = .none →
    Safe watchLines Event.IsLate k () sh x fun _ _ _ => True

theorem HeadPrompt.of_always (hx : AlwaysPrompt x) : HeadPrompt x :=
  fun k sh _ => hx k sh

theorem ready_of_running (hsignal : sh.controlSignal = .none) (hrunning : ¬ ¬ sh.running = true) :
    sh.ready = true := by
  unfold ArkshShell.ready
  rw [hsignal, not_not.mp hrunning]
  rfl

theorem ready_signal (hready : sh.ready = true) : sh.controlSignal = .none :=
  of_decide_eq_true (Bool.and_eq_true_iff.mp hready).2

section Loops

variable {W : World σ N I} {exec : Text → Exec σ (Int × Text)}
  (hexec : ∀ text, Prompt (exec text))

include hexec

theorem executeBody_prompt {f : Option (ArkshLoopControlAction × Int × Text) → Exec σ α}
    (hfail : AlwaysPrompt (f none))
    (hbreak : ∀ status out, AlwaysPrompt (f (some (.breakLoop, status, out))))
    (hcontinue : ∀ status out, HeadPrompt (f (some (.continueLoop, status, out))))
    (hpropagate : ∀ status out, AlwaysPrompt (f (some (.propagate, status, out))))
    (hnone : ∀ status out, HeadPrompt (f (some (.none, status, out))))
    (out body : Text) : Prompt (executeBody exec out body >>= f) := by
  intro k sh hready
  refine safe_bind (safe_bind ((safe_within (hexec body _ sh hready)).mono ?_))
  intro ⟨status, segment⟩ _ sh₁ _
  refine safe_bind ((AlwaysPrompt.reportSkipped k sh₁).mono ?_)
  intro _ _ sh₁ _
  refine safe_bind (safe_getState ?_)
  split
  · refine safe_bind (safe_tellIf (fun _ _ => ⟨(), rfl, ?_⟩) fun _ => ?_)
    · exact safe_pure (hfail k sh₁)
    · exact safe_pure (hfail k sh₁)
  refine safe_bind (safe_modifyState (safe_pure ?_))
  cases haction : (resolveLoopControl sh₁).1 with
  | none => exact hnone _ _ k _ (resolveLoopControl_signal (Or.inl haction))
  | continueLoop => exact hcontinue _ _ k _ (resolveLoopControl_signal (Or.inr haction))
  | breakLoop => exact hbreak _ _ k _
  | propagate => exact hpropagate _ _ k _

theorem executeLoop_prompt {condition : Text}
    (hcondition : Prompt (evaluateConditionStatus W exec condition)) (stopsOn : Bool)
    (body : Text) (turns : Nat) (status : Int) (out : Text) :
    HeadPrompt (executeLoop W exec stopsOn condition body turns status out) := by
  induction turns generalizing status out with
  | zero => exact fun _ _ _ => safe_cut
  | succ turns ih =>
    intro k sh hsignal
    refine safe_bind (safe_tell fun _ => ⟨(), rfl, safe_bind (safe_getState ?_)⟩)
    refine safe_ite (fun _ => (AlwaysPrompt.pure _).leave k sh) fun hrunning => ?_
    have hready := ready_of_running hsignal hrunning
    refine safe_bind ((hcondition.condition k sh hready).mono ?_)
    intro result _ sh₁ _
    split
    · exact (AlwaysPrompt.giveUp _ _).leave k _
    split
    · refine AlwaysPrompt.bind (AlwaysPrompt.tell rfl) (fun _ => ?_) k _
      exact (AlwaysPrompt.tell rfl).bind fun _ => AlwaysPrompt.giveUp _ _
    refine safe_bind (safe_getState (safe_ite (fun _ => ?_) fun hready₁ => ?_))
    · exact AlwaysPrompt.reportSkipped.bind (fun _ => (AlwaysPrompt.giveUp _ _).leave) k _
    refine safe_ite (fun _ => (AlwaysPrompt.pure _).leave k _) fun _ => ?_
    exact executeBody_prompt hexec (AlwaysPrompt.giveUp _ _).leave
      (fun _ _ => (AlwaysPrompt.pure _).leave) (fun _ _ => ih _ _)
      (fun _ _ => (AlwaysPrompt.pure _).leave) (fun _ _ => ih _ _) _ _ k _ (not_not.mp hready₁)

theorem executeForItems_prompt (name body : Text) (items : List I) (status : Int) (out : Text) :
    HeadPrompt (executeForItems W exec name body items status out) := by
  induction items generalizing status out with
  | nil =>
    intro k sh _
    exact AlwaysPrompt.bind (AlwaysPrompt.tell rfl) (fun _ => (AlwaysPrompt.pure _).leave) k sh
  | cons item items ih =>
    intro k sh hsignal
    refine safe_bind (safe_tell fun _ => ⟨(), rfl, safe_bind (safe_getState ?_)⟩)
    refine safe_ite (fun _ => (AlwaysPrompt.pure _).leave k sh) fun hrunning => ?_
    have hready := ready_of_running hsignal hrunning
    refine safe_bind (safe_bind (safe_getState (safe_bind (safe_modifyState (safe_pure ?_)))))
    refine safe_ite (fun _ => (AlwaysPrompt.giveUp _ _).leave k _) fun _ => ?_
    refine safe_ite (fun _ => ?_) fun _ => ?_
    · refine AlwaysPrompt.bind (AlwaysPrompt.tell rfl) (fun _ => ?_) k _
      exact (AlwaysPrompt.tell rfl).bind fun _ => AlwaysPrompt.giveUp _ _
    split
    · exact AlwaysPrompt.bind (AlwaysPrompt.modify _) (fun _ => (AlwaysPrompt.giveUp _ _).leave) k _
    refine safe_bind (safe_modifyState ?_)
    exact executeBody_prompt hexec (AlwaysPrompt.giveUp _ _).leave
      (fun _ _ => (AlwaysPrompt.pure _).leave) (fun _ _ => ih _ _)
      (fun _ _ => (AlwaysPrompt.pure _).leave) (fun _ _ => ih _ _) _ _ k _ hready

theorem executeForSingle_prompt (name body : Text) (item : I) :
    Prompt (executeForSingle W exec name body item) := by
  intro k sh hready
  refine safe_bind (safe_tell fun _ => ⟨(), rfl, safe_bind (safe_getState ?_)⟩)
  split
  · exact AlwaysPrompt.bind (AlwaysPrompt.modify _) (fun _ => (AlwaysPrompt.giveUp _ _).leave) k sh
  refine safe_bind (safe_modifyState ?_)
  have hturn (result : Int × Text) :
      HeadPrompt (Trace.tell .turn >>= fun _ => leaveLoop >>= fun _ =>
        (Pure.pure result : Exec σ (Int × Text))) :=
    .of_always ((AlwaysPrompt.tell rfl).bind fun _ => (AlwaysPrompt.pure _).leave)
  exact executeBody_prompt hexec (AlwaysPrompt.giveUp _ _).leave
    (fun _ _ => (AlwaysPrompt.pure _).leave) (fun _ _ => hturn _)
    (fun _ _ => (AlwaysPrompt.pure _).leave) (fun _ _ => hturn _) _ _ k _ hready

end Loops

/-! ## 3. Every step is prompt -/

theorem promptRules : @LineRules σ Prompt AlwaysPrompt CalmPrompt where
  pure a := fun _ _ => safe_pure rfl
  calm_any hx := fun k sh => (hx k sh).mono fun _ _ _ _ => trivial
  any_run hx := fun k sh _ => hx k sh
  calm_calm hx hf := fun k sh => safe_bind ((hx k sh).mono fun a _ sh₁ h₁ =>
    (hf a k sh₁).mono fun _ _ _ h₂ => h₂.trans h₁)
  calm_bind hx hf := fun k sh hready => safe_bind ((hx k sh).mono fun a _ sh₁ h₁ =>
    hf a k sh₁ (h₁.trans hready))
  run_bind hx hf := fun k sh hready => safe_bind ((hx k sh hready).mono fun a _ sh₁ _ => hf a k sh₁)
  any_bind := AlwaysPrompt.bind
  getState := fun _ _ => safe_getState rfl
  getContext := fun _ _ => safe_getContext rfl
  modify hg := fun _ sh => safe_modifyState (by
    obtain ⟨hc, hr⟩ := hg sh
    unfold ArkshShell.ready
    rw [hr, (Prod.mk.inj hc).1])
  stop _ := AlwaysPrompt.modify _
  tell he := fun _ _ => safe_tell fun _ => ⟨(), he.watchLines, rfl⟩
  unhandled := fun _ _ => safe_tellIf (fun _ _ => ⟨(), rfl, rfl⟩) fun _ => rfl
  listen hx := fun k sh hready => safe_listen ((hx k sh hready).mono fun _ _ _ _ _ => trivial)
  startLine hy := fun k sh hready => by
    refine safe_bind (safe_bind (safe_getState (safe_tell fun _ => ⟨(), ?_, hy k sh hready⟩)))
    rw [hready]
    rfl
  late hy := fun k sh => by
    refine safe_bind (safe_bind (safe_getState (safe_tellIf (fun _ h => absurd trivial h) ?_)))
    exact fun hready => hy k sh (not_not.mp hready)
  ifReady hf hg := fun k sh => safe_bind (safe_getState
    (safe_ite (fun hready => hf sh k sh hready) fun _ => hg sh k sh))
  skipped := AlwaysPrompt.reportSkipped
  function := Prompt.function
  tested := Prompt.tested
  condition := Prompt.condition
  whileLoop stopsOn _ body turns hexec hcondition := by
    intro k sh hready
    refine safe_bind (safe_bind (safe_modifyState (safe_tell fun _ => ⟨(), rfl, ?_⟩)))
    exact executeLoop_prompt hexec hcondition stopsOn body turns 0 [] k _ (ready_signal hready)
  forLoop name body iterable hexec := by
    intro k sh hready
    refine safe_bind (safe_bind (safe_modifyState (safe_tell fun _ => ⟨(), rfl, ?_⟩)))
    cases iterable with
    | list items => exact executeForItems_prompt hexec name body items 0 [] k _ (ready_signal hready)
    | single item => exact executeForSingle_prompt hexec name body item k _ hready
    | empty => exact AlwaysPrompt.bind AlwaysPrompt.leaveLoop (fun _ => AlwaysPrompt.pure _) k _
  loopControl keyword kind line _ := fun k sh _ =>
    AlwaysPrompt.handleLoopControlLine keyword kind line k sh
  returnLine line htask := fun k sh _ => AlwaysPrompt.handleReturnLine line htask k sh
  trap command _ _ := AlwaysPrompt.executeTrap _ command
  failure status own _ := AlwaysPrompt.failLine status own
  cut := fun _ _ _ => safe_cut

/-- No line started while a control transfer was under way. -/
def TransferLaw (run : Run Event (ArkshShell σ) α) : Prop := ∀ e ∈ run.events, e ≠ .line false

theorem Prompt.transferLaw (hx : Prompt x) {k : Context} (hready : sh.ready = true)
    (hlate : ∀ e ∈ (x k sh).events, ¬ e.IsLate) : TransferLaw (x k sh) := by
  obtain ⟨m, hm, _⟩ := hx k sh hready hlate
  exact follow_watchLines hm

/-- **A control transfer is immediate in every run in which no command of a file and no further line
    starts while one is under way.** -/
theorem transfer_run (W : World σ N I) (n : Nat) (k : Context) (sh : ArkshShell σ)
    (hready : sh.ready = true) : (∀ line, (∀ e ∈ (executeLine W n line k sh).events, ¬ e.IsLate) →
      TransferLaw (executeLine W n line k sh)) ∧
    ∀ commands out, (∀ e ∈ (executeSource (executeLine W n) commands out k sh).events, ¬ e.IsLate) →
      TransferLaw (executeSource (executeLine W n) commands out k sh) := by
  have hline := executeLine_holds promptRules W n
  constructor
  · intro line hlate; exact (hline line).transferLaw hready hlate
  · intro commands out hlate
    have hsource := executeSource_holds promptRules hline commands out
    exact Prompt.transferLaw (promptRules.any_run hsource) hready hlate

def exitWorld : World Unit String Unit :=
  tableWorld [("pwd", .plain .simpleCommand "pwd"), ("exit", .plain .simpleCommand "exit"),
      ("exit; pwd", .commandList [⟨"exit".toList, .always, false⟩, ⟨"pwd".toList, .always, false⟩])]
    [("pwd", .done (0, "/\n".toList)), ("exit", .exit (.done (0, [])))]

/-- `exit; pwd` -/
theorem transfer_run_list :
    TransferLaw (executeLine exitWorld 3 "exit; pwd".toList Context.top (freshShell ())) :=
  (transfer_run exitWorld 3 Context.top (freshShell ()) rfl).1 _ (by decide)

/-- A file with the commands `exit` and `pwd`: the second one is run, too. -/
theorem not_transfer_file :
    ¬ ∀ (W : World Unit String Unit) n k sh, sh.ready = true → ∀ commands out,
      TransferLaw (executeSource (executeLine W n) commands out k sh) := by
  intro h
  have hlaw := h exitWorld 2 Context.top (freshShell ()) rfl
    [⟨[], id, .ok "exit".toList⟩, ⟨[], id, .ok "pwd".toList⟩] []
  have hevents : (executeSource (executeLine exitWorld 2) [⟨[], id, .ok "exit".toList⟩,
      ⟨[], id, .ok "pwd".toList⟩] [] Context.top (freshShell ())).events =
      [.line true, .exit, .ended, .late false, .line false, .ended] := rfl
  refine hlaw (.line false) ?_ rfl
  rw [hevents]
  simp

end Arksh
