/-
  Subject: What the commands do to the rest of the shell, every line does.

  The executors themselves touch the rest of the shell only through the parts of the world. Where
  each of these respects a relation that is reflexive and transitive, so does every line that
  finishes, whatever it is built of. A part that is entered and left again, such as a function, a
  group with redirections or `with sudo`, has to respect it only behind both.
-/
import Arksh.Exec.Steps

namespace Arksh

open CText Traces Traces.Trace

variable {σ N I α β : Type} {R : σ → σ → Prop}

/-! ## 1. The steps -/

/-- Every finished run respects the relation. -/
def KeepsRest (R : σ → σ → Prop) (x : Exec σ α) : Prop :=
  ∀ k sh es a sh', Ends x k sh es a sh' → R sh.rest sh'.rest

def FunctionKeeps (R : σ → σ → Prop) (function : FunctionCall σ) : Prop :=
  ∀ s, (∀ message s', function.bind s = (.error message, s') → R s s') ∧
    ∀ s₁ s' s₂, function.bind s = (.ok s₁, s') → R s₁ s₂ → R s (function.leave s₂)

/-- The steps of a command respect the relation. -/
inductive TaskKeeps (R : σ → σ → Prop) : Task σ α → Prop
  | done (a : α) : TaskKeeps R (.done a)
  | act {f : σ → σ} {next : σ → Task σ α} (hf : ∀ s, R s (f s))
      (h : ∀ s, TaskKeeps R (next s)) : TaskKeeps R (.act f next)
  | set {f : ShellSettings → ShellSettings} {next : Task σ α} (h : TaskKeeps R next) :
      TaskKeeps R (.set f next)
  | signal {kind : ArkshTrapKind} {hkind : kind.isSignal} {next : Task σ α}
      (h : TaskKeeps R next) : TaskKeeps R (.signal kind hkind next)
  | exit {next : Task σ α} (h : TaskKeeps R next) : TaskKeeps R (.exit next)
  | line {text : Text} {next : Int → Text → σ → Task σ α}
      (h : ∀ status out s, TaskKeeps R (next status out s)) : TaskKeeps R (.line text next)
  | call {function : FunctionCall σ} {next : Int → Text → σ → Task σ α}
      (hfunction : FunctionKeeps R function)
      (h : ∀ status out s, TaskKeeps R (next status out s)) : TaskKeeps R (.call function next)
  | source {commands : List (SourceCommand σ)} {next : Int → Text → σ → Task σ α}
      (henter : ∀ c ∈ commands, ∀ s, R s (c.enter s))
      (h : ∀ status out s, TaskKeeps R (next status out s)) : TaskKeeps R (.source commands next)

/-- So do all parts of the world but `with sudo`. -/
structure CommandsKeep (R : σ → σ → Prop) (W : World σ N I) : Prop where
  refl : ∀ s, R s s
  trans : ∀ {s s' s''}, R s s' → R s' s'' → R s s''
  perform : ∀ kind node s, TaskKeeps R (W.perform kind node s)
  letLine : ∀ line s, TaskKeeps R (W.letLine line s)
  extendLine : ∀ line s, TaskKeeps R (W.extendLine line s)
  returnValue : ∀ text s, TaskKeeps R (W.returnValue text s)
  conditionValue : ∀ text s, TaskKeeps R (W.conditionValue text s)
  forSource : ∀ source s, TaskKeeps R (W.forSource source s)
  selectBranch : ∀ kind node s, TaskKeeps R (W.selectBranch kind node s)
  assign : ∀ name item s, R s (W.assignForLoopVariable name item s).2
  background : ∀ text s, R s (W.startBackgroundJob text s).2
  compound : ∀ node s s', R (W.enterCompound node s) s' → R s (W.leaveCompound node s s')
  redirect : ∀ node status out s, R s (W.redirectCompound node status out s).2
  jobs : ∀ s, R s (W.refreshJobs s)

structure WorldKeeps (R : σ → σ → Prop) (W : World σ N I) : Prop extends CommandsKeep R W where
  elevate : ∀ s s', R (W.enterSudo s) s' → R s (W.leaveSudo s')

variable {x : Exec σ α} {g : ArkshShell σ → ArkshShell σ}

namespace KeepsRest

variable {W : World σ N I} (h : WorldKeeps R W)

include h

theorem pure (a : α) : KeepsRest R (Pure.pure a : Exec σ α) := by
  intro k sh es b sh' hends
  obtain ⟨_, _, hsh⟩ := pure_ends.mp hends
  rw [hsh]
  exact h.refl _

theorem bind {f : α → Exec σ β} (hx : KeepsRest R x) (hf : ∀ a, KeepsRest R (f a)) :
    KeepsRest R (x >>= f) := by
  intro k sh es b sh' hends
  obtain ⟨a, sh₁, es₁, es₂, hfirst, hrest, _⟩ := bind_ends.mp hends
  exact h.trans (hx k sh es₁ a sh₁ hfirst) (hf a k sh₁ es₂ b sh' hrest)

omit h in
theorem modify (hg : ∀ sh, R sh.rest (g sh).rest) : KeepsRest R (modifyState g : Exec σ Unit) := by
  intro k sh es u sh' hends
  rw [(modifyState_ends.mp hends).2]
  exact hg sh

theorem control (hg : ∀ sh, (g sh).rest = sh.rest) : KeepsRest R (modifyState g : Exec σ Unit) :=
  modify fun sh => (hg sh).symm ▸ h.refl sh.rest

theorem tell (e : Event) : KeepsRest R (Trace.tell e : Exec σ Unit) := by
  intro k sh es u sh' hends
  rw [(tell_ends.mp hends).2]
  exact h.refl _

theorem tellIf {c : Prop} [Decidable c] (e : Event) :
    KeepsRest R (Trace.tellIf c e : Exec σ Unit) := by
  intro k sh es u sh' hends
  rw [(tellIf_ends.mp hends).2]
  exact h.refl _

omit h in
theorem getState_bind {f : ArkshShell σ → Exec σ β} (hf : ∀ sh, KeepsRest R (f sh)) :
    KeepsRest R (getState >>= f) :=
  fun k sh es b sh' hends => hf sh k sh es b sh' (getState_bind_ends.mp hends)

omit h in
theorem getContext_bind {f : Context → Exec σ β} (hf : ∀ c, KeepsRest R (f c)) :
    KeepsRest R (getContext >>= f) := by
  intro k sh es b sh' hends
  obtain ⟨c, sh₁, es₁, es₂, hcontext, hrest, _⟩ := bind_ends.mp hends
  have hrest := hf c k sh₁ es₂ b sh' hrest
  rwa [(getContext_ends.mp hcontext).2.2] at hrest

omit h in
theorem within {g : Context → Context} (hx : KeepsRest R x) : KeepsRest R (Trace.within g x) :=
  fun k sh es a sh' hends => hx (g k) sh es a sh' (within_ends.mp hends)

omit h in
theorem enclose {g : List Event → Event} (hx : KeepsRest R x) :
    KeepsRest R (Trace.enclose g x) := by
  intro k sh es a sh' hends
  obtain ⟨inner, hinner, _⟩ := enclose_ends.mp hends
  exact hx k sh inner a sh' hinner

omit h in
theorem listen (hx : KeepsRest R x) : KeepsRest R (Trace.listen x) :=
  fun k sh es p sh' hends => hx k sh es p.1 sh' (listen_ends.mp hends).1

omit h in
theorem cut : KeepsRest R (Trace.cut : Exec σ α) := fun _ _ _ _ _ hends => absurd hends cut_ends

theorem around {raise lower : ArkshShell σ → ArkshShell σ}
    (hraise : ∀ sh, (raise sh).rest = sh.rest) (hlower : ∀ sh, (lower sh).rest = sh.rest)
    (hx : KeepsRest R x) : KeepsRest R (modifyState raise >>= fun _ => x >>= fun a =>
      modifyState lower >>= fun _ => (Pure.pure a : Exec σ α)) :=
  bind h (control h hraise) fun _ => bind h hx fun a =>
    bind h (control h hlower) fun _ => pure h a

end KeepsRest

/-! ## 2. The executors -/

section Executors

open KeepsRest

variable {W : World σ N I} {exec : Text → Exec σ (Int × Text)} (h : WorldKeeps R W)

include h

theorem giveUp_keepsRest (status : Int) (out : Text) :
    KeepsRest R (giveUp status out : Exec σ (Int × Text)) :=
  bind h (tell h _) fun _ => pure h _

theorem reportLate_keepsRest : KeepsRest R (reportLate : Exec σ Unit) :=
  getState_bind fun _ => tellIf h _

theorem reportSkipped_keepsRest : KeepsRest R (reportSkipped : Exec σ Unit) :=
  getState_bind fun _ => tellIf h _

theorem reportInterrupted_keepsRest : KeepsRest R (reportInterrupted : Exec σ Unit) :=
  getState_bind fun _ => tellIf h _

theorem startLine_keepsRest : KeepsRest R (startLine : Exec σ Unit) :=
  getState_bind fun _ => tell h _

theorem allocate_keepsRest : KeepsRest R (allocate : Exec σ Bool) :=
  getState_bind fun _ => bind h (control h fun _ => rfl) fun _ => pure h _

theorem finishDirect_keepsRest {x : Exec σ (Int × Text)} (hx : KeepsRest R x) :
    KeepsRest R (finishDirect x) := by
  refine bind h hx fun r => bind h (control h fun _ => rfl) fun _ => ?_
  exact getContext_bind fun _ => getState_bind fun _ => bind h (tellIf h _) fun _ =>
    bind h (tell h _) fun _ => pure h _

theorem enterLoop_keepsRest : KeepsRest R (enterLoop : Exec σ Unit) :=
  bind h (control h fun _ => rfl) fun _ => tell h _

theorem leaveLoop_keepsRest (hx : KeepsRest R x) : KeepsRest R (leaveLoop >>= fun _ => x) :=
  bind h (bind h (control h fun _ => rfl) fun _ => tell h _) fun _ => hx

theorem suppressErrexit_keepsRest (hx : KeepsRest R x) : KeepsRest R (suppressErrexit x) :=
  around h (fun _ => rfl) (fun _ => rfl) (within hx)

theorem enclosedCondition_keepsRest {g : Context → Context} (hx : KeepsRest R x) :
    KeepsRest R (enclosedCondition g x) :=
  around h (fun _ => rfl) (fun _ => rfl) (within hx)

theorem handleLoopControlLine_keepsRest (keyword : String) (kind : ArkshControlSignalKind)
    (line : Text) : KeepsRest R (handleLoopControlLine keyword kind line : Exec σ (Int × Text)) := by
  refine bind h ?_ fun _ => getState_bind fun sh => ?_
  · unfold reportLoopControl
    split
    · exact tell h _
    · exact pure h _
  · refine holds_ite (pure h _) ?_
    split
    · exact pure h _
    · exact getContext_bind fun _ => bind h (tellIf h _) fun _ =>
        bind h (control h fun _ => rfl) fun _ => pure h _

variable (hexec : ∀ text, KeepsRest R (exec text))

include hexec

theorem executeFurther_keepsRest (text : Text) : KeepsRest R (executeFurther exec text) :=
  bind h (reportLate_keepsRest h) fun _ => hexec text

theorem executeFunctionBody_keepsRest (body : Text) :
    KeepsRest R (executeFunctionBody exec body) := by
  refine bind h ?_ fun _ => bind h (within (hexec body)) fun r => bind h ?_ fun _ => pure h _
  · refine bind h (control h fun _ => rfl) fun _ => bind h (tell h _) fun _ => ?_
    exact getState_bind fun sh => holds_ite (control h fun _ => rfl) (tell h _)
  · refine bind h (control h fun _ => rfl) fun _ => bind h ?_ fun _ => tell h _
    refine getState_bind fun sh => bind h (tellIf h _) fun _ => ?_
    exact holds_ite (control h fun _ => rfl) (pure h _)

theorem executeShellFunction_keepsRest {function : FunctionCall σ}
    (hfunction : FunctionKeeps R function) : KeepsRest R (executeShellFunction exec function) := by
  refine bind h (reportLate_keepsRest h) fun _ => ?_
  intro k sh es result sh' hends
  rw [getState_bind_ends] at hends
  cases hbind : function.bind sh.rest with
  | mk bound s' =>
    rw [hbind] at hends
    cases bound with
    | error message =>
      rw [modifyState_bind_ends] at hends
      obtain ⟨_, _, hsh⟩ := pure_ends.mp hends
      rw [hsh]
      exact (hfunction sh.rest).1 message s' hbind
    | ok s₁ =>
      rw [modifyState_bind_ends] at hends
      obtain ⟨r, sh₂, es₂, _, hbody, hleave, _⟩ := bind_ends.mp hends
      rw [modifyState_bind_ends] at hleave
      obtain ⟨_, _, hsh⟩ := pure_ends.mp hleave
      have hkept := executeFunctionBody_keepsRest h hexec function.body k _ es₂ r sh₂ hbody
      rw [hsh]
      exact (hfunction sh.rest).2 s₁ s' sh₂.rest hbind hkept

theorem executeSource_keepsRest {commands : List (SourceCommand σ)}
    (henter : ∀ c ∈ commands, ∀ s, R s (c.enter s)) (out : Text) :
    KeepsRest R (executeSource exec commands out) := by
  induction commands generalizing out with
  | nil => exact pure h _
  | cons c commands ih =>
    have hrest : ∀ c ∈ commands, ∀ s, R s (c.enter s) := fun c' hc' =>
      henter c' (List.mem_cons_of_mem c hc')
    rw [executeSource]
    split
    · exact pure h _
    · refine bind h (modify fun sh => henter c List.mem_cons_self sh.rest) fun _ => ?_
      refine bind h (executeFurther_keepsRest h hexec _) fun r => ?_
      obtain ⟨status, lineOut⟩ := r
      refine holds_ite (pure h _) ?_
      split
      · exact pure h _
      · exact ih hrest _

theorem runTask_keepsRest {task : Task σ α} (htask : TaskKeeps R task) :
    KeepsRest R (runTask exec task) := by
  induction htask with
  | done a => exact pure h a
  | act hf _ ih => exact bind h (modify fun sh => hf sh.rest) fun _ => getState_bind fun _ => ih _
  | set _ ih | signal _ ih => exact bind h (control h fun _ => rfl) fun _ => ih
  | exit _ ih => exact bind h (tell h _) fun _ => bind h (control h fun _ => rfl) fun _ => ih
  | line _ ih =>
    exact bind h (executeFurther_keepsRest h hexec _) fun _ => getState_bind fun _ => ih _ _ _
  | call hfunction _ ih =>
    exact bind h (executeShellFunction_keepsRest h hexec hfunction) fun _ =>
      getState_bind fun _ => ih _ _ _
  | source henter _ ih =>
    exact bind h (executeSource_keepsRest h hexec henter []) fun _ =>
      getState_bind fun _ => ih _ _ _

theorem executeTested_keepsRest (tested : Bool) (entry : ArkshCommandListEntry) :
    KeepsRest R (executeTested W exec tested entry) := by
  have hentry : KeepsRest R (executeEntry W exec entry) := by
    refine holds_ite ?_ (hexec entry.text)
    refine bind h (startLine_keepsRest h) fun _ => bind h (tell h _) fun _ => ?_
    intro k sh es result sh' hends
    rw [getState_bind_ends] at hends
    have hjob := h.background entry.text sh.rest
    cases hstart : W.startBackgroundJob entry.text sh.rest with
    | mk outcome rest =>
      rw [modifyState_bind_ends] at hends
      obtain ⟨_, _, hsh⟩ := pure_ends.mp hends
      rw [hsh]
      exact hjob
  cases tested with
  | true => exact suppressErrexit_keepsRest h hentry
  | false => exact hentry

theorem executeCommandList_keepsRest (entries : List ArkshCommandListEntry) (status : Int)
    (out : Text) : KeepsRest R (executeCommandList W exec entries status out) := by
  induction entries generalizing status out with
  | nil => exact pure h _
  | cons entry rest ih =>
    rw [executeCommandList]
    refine holds_ite (ih _ _) (bind h (executeTested_keepsRest h hexec _ _) fun r => ?_)
    dsimp only
    split
    · exact giveUp_keepsRest h _ _
    · exact getState_bind fun sh =>
        holds_ite (ih _ _) (bind h (reportSkipped_keepsRest h) fun _ => pure h _)

theorem evaluateConditionStatus_keepsRest (text : Text) :
    KeepsRest R (evaluateConditionStatus W exec text) := by
  refine bind h (allocate_keepsRest h) fun allocated => ?_
  cases allocated with
  | false => exact pure h _
  | true =>
    refine getState_bind fun sh => ?_
    refine bind h (runTask_keepsRest h hexec (h.conditionValue text sh.rest)) fun truth => ?_
    cases truth with
    | none => exact bind h (executeFurther_keepsRest h hexec text) fun _ => pure h _
    | some truth => exact pure h _

theorem executeBranch_keepsRest (out body : Text) : KeepsRest R (executeBranch exec out body) := by
  refine bind h (hexec body) fun r => ?_
  dsimp only
  split
  · exact giveUp_keepsRest h _ _
  · exact pure h _

theorem executeIfCommand_keepsRest (condition thenBranch : Text) (elseBranch : Option Text) :
    KeepsRest R (executeIfCommand W exec condition thenBranch elseBranch) := by
  refine bind h (enclosedCondition_keepsRest h
    (evaluateConditionStatus_keepsRest h hexec condition)) fun tested => ?_
  cases tested with
  | none => exact giveUp_keepsRest h _ _
  | some tested =>
    dsimp only
    split
    · exact giveUp_keepsRest h _ _
    · refine getState_bind fun sh => holds_ite ?_
        (bind h (reportSkipped_keepsRest h) fun _ => giveUp_keepsRest h _ _)
      refine holds_ite (executeBranch_keepsRest h hexec _ _) ?_
      cases elseBranch with
      | none => exact pure h _
      | some elseBranch => exact executeBranch_keepsRest h hexec _ _

theorem executeBody_keepsRest (out body : Text) : KeepsRest R (executeBody exec out body) := by
  refine bind h (within (hexec body)) fun r => ?_
  refine bind h (reportSkipped_keepsRest h) fun _ => getState_bind fun sh => ?_
  split
  · exact bind h (tellIf h _) fun _ => pure h _
  · refine bind h (control h fun sh => ?_) fun _ => pure h _
    unfold resolveLoopControl
    split
    · rfl
    · rfl
    · dsimp only
      split_ifs <;> rfl

theorem executeLoop_keepsRest (stopsOn : Bool) (condition body : Text) (turns : Nat)
    (status : Int) (out : Text) :
    KeepsRest R (executeLoop W exec stopsOn condition body turns status out) := by
  have hgiveUp := fun status out => leaveLoop_keepsRest h (giveUp_keepsRest h status out)
  induction turns generalizing status out with
  | zero => exact cut
  | succ turns ih =>
    refine bind h (tell h _) fun _ => getState_bind fun sh => ?_
    refine holds_ite (leaveLoop_keepsRest h (pure h _)) ?_
    refine bind h (enclosedCondition_keepsRest h
      (evaluateConditionStatus_keepsRest h hexec condition)) fun tested => ?_
    cases tested with
    | none => exact hgiveUp _ _
    | some tested =>
      dsimp only
      split
      · exact bind h (tell h _) fun _ => bind h (tell h _) fun _ => giveUp_keepsRest h _ _
      refine getState_bind fun sh =>
        holds_ite (bind h (reportSkipped_keepsRest h) fun _ => hgiveUp _ _) ?_
      refine holds_ite (leaveLoop_keepsRest h (pure h _)) ?_
      refine bind h (executeBody_keepsRest h hexec _ _) fun turned => ?_
      split
      · exact hgiveUp _ _
      · exact leaveLoop_keepsRest h (pure h _)
      · exact ih _ _
      · exact leaveLoop_keepsRest h (pure h _)
      · exact ih _ _

omit hexec in
theorem assign_ends {name : Text} {item : I} {message : Option Text} {rest : σ} {k : Context}
    {sh sh' : ArkshShell σ} {es : List Event} {result : Int × Text} {x : Exec σ (Int × Text)}
    (hassign : W.assignForLoopVariable name item sh.rest = (message, rest)) (hx : KeepsRest R x)
    (hends : Ends x k { sh with rest := rest } es result sh') : R sh.rest sh'.rest := by
  have hstep := h.assign name item sh.rest
  rw [hassign] at hstep
  exact h.trans hstep (hx k _ es result sh' hends)

theorem executeForTurn_keepsRest (out body : Text)
    {f : Option (ArkshLoopControlAction × Int × Text) → Exec σ (Int × Text)}
    (hf : ∀ turned, KeepsRest R (f turned)) : KeepsRest R (executeBody exec out body >>= f) :=
  bind h (executeBody_keepsRest h hexec out body) hf

theorem executeForItems_keepsRest (name body : Text) (items : List I) (status : Int) (out : Text) :
    KeepsRest R (executeForItems W exec name body items status out) := by
  have hgiveUp := fun status out => leaveLoop_keepsRest h (giveUp_keepsRest h status out)
  induction items generalizing status out with
  | nil => exact bind h (tell h _) fun _ => leaveLoop_keepsRest h (pure h _)
  | cons item items ih =>
    refine bind h (tell h _) fun _ => ?_
    intro k sh es result sh' hends
    rw [getState_bind_ends] at hends
    by_cases hrunning : ¬ sh.running
    · rw [if_pos hrunning] at hends; exact leaveLoop_keepsRest h (pure h _) k sh es result sh' hends
    · rw [if_neg hrunning] at hends
      obtain ⟨allocated, sh₁, es₁, es₂, hallocate, hafter, _⟩ := bind_ends.mp hends
      have hrest : sh₁.rest = sh.rest := by
        unfold allocate at hallocate
        rw [getState_bind_ends, modifyState_bind_ends] at hallocate
        rw [(pure_ends.mp hallocate).2.2]
      rw [← hrest] at hafter ⊢
      cases allocated with
      | false => exact hgiveUp _ _ k sh₁ es₂ result sh' hafter
      | true =>
        by_cases hitem : ¬ W.setFromItem item
        · rw [if_pos hitem] at hafter
          have hopen : KeepsRest R (Trace.tell .itemFailure >>= fun _ => Trace.tell .loopEnd >>=
              fun _ => (giveUp 1 "unable to prepare for-loop item".toList :
                Exec σ (Int × Text))) :=
            bind h (tell h _) fun _ => bind h (tell h _) fun _ => giveUp_keepsRest h _ _
          exact hopen k sh₁ es₂ result sh' hafter
        · rw [if_neg hitem] at hafter
          cases hassign : W.assignForLoopVariable name item sh₁.rest with
          | mk message rest =>
            rw [hassign] at hafter
            cases message with
            | some message =>
              exact assign_ends h hassign (hgiveUp _ _) hafter
            | none =>
              refine assign_ends h hassign (executeForTurn_keepsRest h hexec _ _ fun turned => ?_)
                hafter
              split
              · exact hgiveUp _ _
              · exact leaveLoop_keepsRest h (pure h _)
              · exact ih _ _
              · exact leaveLoop_keepsRest h (pure h _)
              · exact ih _ _

theorem executeForSingle_keepsRest (name body : Text) (item : I) :
    KeepsRest R (executeForSingle W exec name body item) := by
  have hgiveUp := fun status out => leaveLoop_keepsRest h (giveUp_keepsRest h status out)
  refine bind h (tell h _) fun _ => ?_
  intro k sh es result sh' hends
  rw [getState_bind_ends] at hends
  cases hassign : W.assignForLoopVariable name item sh.rest with
  | mk message rest =>
    rw [hassign] at hends
    cases message with
    | some message =>
      exact assign_ends h hassign (hgiveUp _ _) hends
    | none =>
      refine assign_ends h hassign (executeForTurn_keepsRest h hexec _ _ fun turned => ?_) hends
      split
      · exact hgiveUp _ _
      · exact leaveLoop_keepsRest h (pure h _)
      · exact bind h (tell h _) fun _ => leaveLoop_keepsRest h (pure h _)
      · exact leaveLoop_keepsRest h (pure h _)
      · exact bind h (tell h _) fun _ => leaveLoop_keepsRest h (pure h _)

theorem executeForCommand_keepsRest (name source body : Text) :
    KeepsRest R (executeForCommand W exec name source body) := by
  refine bind h (allocate_keepsRest h) fun allocated => ?_
  cases allocated with
  | false => exact giveUp_keepsRest h _ _
  | true =>
    refine getState_bind fun sh => ?_
    refine bind h (runTask_keepsRest h hexec (h.forSource source sh.rest)) fun iterable => ?_
    cases iterable with
    | error message => exact giveUp_keepsRest h _ _
    | ok iterable =>
      refine bind h (reportLate_keepsRest h) fun _ => bind h (enterLoop_keepsRest h) fun _ => ?_
      cases iterable with
      | list items => exact executeForItems_keepsRest h hexec _ _ _ _ _
      | single item => exact executeForSingle_keepsRest h hexec _ _ _
      | empty => exact leaveLoop_keepsRest h (pure h _)

theorem executeSelected_keepsRest (kind : ArkshAstKind) (node : N) :
    KeepsRest R (executeSelected W exec kind node) := by
  refine getState_bind fun sh => ?_
  refine bind h (runTask_keepsRest h hexec (h.selectBranch kind node sh.rest)) fun selected => ?_
  split
  · exact giveUp_keepsRest h _ _
  · exact pure h _
  · exact executeFurther_keepsRest h hexec _

theorem executeGroupCommand_keepsRest (node : N) (body : Text) :
    KeepsRest R (executeGroupCommand W exec node body) := by
  intro k sh es result sh' hends
  unfold executeGroupCommand at hends
  rw [getState_bind_ends, modifyState_bind_ends] at hends
  obtain ⟨r, sh₁, es₁, es₂, hbody, hafter, _⟩ := bind_ends.mp hends
  obtain ⟨status, commandOutput⟩ := r
  have hcompound := h.compound node sh.rest sh₁.rest (hexec body k _ es₁ _ sh₁ hbody)
  rw [modifyState_bind_ends, getState_bind_ends] at hafter
  have hredirect := h.redirect node status commandOutput (W.leaveCompound node sh.rest sh₁.rest)
  refine h.trans hcompound (h.trans hredirect ?_)
  cases houtcome : W.redirectCompound node status commandOutput
      (W.leaveCompound node sh.rest sh₁.rest) with
  | mk outcome rest =>
    rw [houtcome] at hafter
    cases outcome with
    | error message =>
      exact giveUp_keepsRest h 1 message k _ es₂ result sh' hafter
    | ok out =>
      rw [modifyState_bind_ends] at hafter
      rw [(pure_ends.mp hafter).2.2]
      exact h.refl _

theorem executeWithSudoCommand_keepsRest (body : Text) :
    KeepsRest R (executeWithSudoCommand W exec body) := by
  intro k sh es result sh' hends
  unfold executeWithSudoCommand at hends
  rw [modifyState_bind_ends] at hends
  obtain ⟨r, sh₁, es₁, _, hbody, hafter, _⟩ := bind_ends.mp hends
  rw [modifyState_bind_ends] at hafter
  rw [(pure_ends.mp hafter).2.2]
  exact h.elevate sh.rest sh₁.rest (hexec body k _ es₁ r sh₁ hbody)

theorem arkshExecuteAst_keepsRest (turns : Nat) (ast : ArkshAst N) :
    KeepsRest R (arkshExecuteAst W exec turns ast) := by
  cases ast with
  | empty => exact pure h _
  | plain kind node =>
    exact getState_bind fun sh => runTask_keepsRest h hexec (h.perform kind node sh.rest)
  | commandList entries => exact executeCommandList_keepsRest h hexec _ _ _
  | groupCommand node body => exact executeGroupCommand_keepsRest h hexec _ _
  | ifCommand condition thenBranch elseBranch => exact executeIfCommand_keepsRest h hexec _ _ _
  | whileCommand condition body | untilCommand condition body =>
    exact bind h (enterLoop_keepsRest h) fun _ => executeLoop_keepsRest h hexec _ _ _ _ _ _
  | forCommand name source body => exact executeForCommand_keepsRest h hexec _ _ _
  | caseCommand node | switchCommand node => exact executeSelected_keepsRest h hexec _ _
  | withSudoCommand body => exact executeWithSudoCommand_keepsRest h hexec _

/-! ## 3. Lines -/

theorem handleReturnLine_keepsRest (line : Text) : KeepsRest R (handleReturnLine W exec line) := by
  refine getState_bind fun sh => ?_
  refine holds_ite (bind h (tell h _) fun _ => pure h _) (holds_ite ?_ ?_)
  · exact bind h (tell h _) fun _ => bind h (control h fun _ => rfl) fun _ => pure h _
  refine bind h (runTask_keepsRest h hexec (h.returnValue _ sh.rest)) fun value => ?_
  cases value with
  | error message => exact pure h _
  | ok out =>
    exact bind h (reportInterrupted_keepsRest h) fun _ => bind h (tell h _) fun _ =>
      bind h (control h fun _ => rfl) fun _ => pure h _

theorem executeTrap_keepsRest (kind : ArkshTrapKind) (command : Text) :
    KeepsRest R (executeTrap exec kind command) :=
  bind h (reportInterrupted_keepsRest h) fun _ => bind h (enclose (hexec command)) fun _ => pure h _

theorem firePendingTraps_keepsRest (kinds : List ArkshTrapKind) :
    KeepsRest R (firePendingTraps W exec kinds) := by
  induction kinds with
  | nil => exact pure h _
  | cons kind kinds ih =>
    refine getState_bind fun sh => ?_
    split
    · refine bind h (bind h (modify fun sh => ?_) fun _ => getState_bind fun sh => ?_) fun _ => ih
      · show R sh.rest (if kind = .chld then _ else _)
        split_ifs
        · exact h.jobs sh.rest
        · exact h.refl sh.rest
      · split
        · exact executeTrap_keepsRest h hexec _ _
        · exact pure h _
    · exact ih

theorem failLine_keepsRest (status : Int) (own : Bool) :
    KeepsRest R (failLine exec status own) := by
  have hreport : ∀ event, KeepsRest R (reportFailure event : Exec σ Unit) :=
    fun _ => getContext_bind fun c => holds_ite (pure h _) (tell h _)
  refine holds_ite (pure h _) (getState_bind fun sh => bind h (hreport _) fun _ => ?_)
  refine holds_ite (bind h (getState_bind fun sh => ?_) fun _ => getState_bind fun sh => ?_)
    (hreport _)
  · split
    · exact bind h (control h fun _ => rfl) fun _ =>
        bind h (executeTrap_keepsRest h hexec _ _) fun _ => control h fun _ => rfl
    · exact pure h _
  · refine bind h (hreport _) fun _ => bind h (tellIf h _) fun _ => ?_
    exact holds_ite (control h fun _ => rfl) (pure h _)

theorem runAction_keepsRest (turns : Nat) (action : Action (ArkshAst N)) :
    KeepsRest R (runAction W exec turns action) := by
  refine getState_bind fun sh => ?_
  cases action with
  | letLine line =>
    exact finishDirect_keepsRest h (runTask_keepsRest h hexec (h.letLine line sh.rest))
  | extendLine line =>
    exact finishDirect_keepsRest h (runTask_keepsRest h hexec (h.extendLine line sh.rest))
  | breakLine line
  | continueLine line => exact finishDirect_keepsRest h (handleLoopControlLine_keepsRest h _ _ _)
  | returnLine line => exact finishDirect_keepsRest h (handleReturnLine_keepsRest h hexec line)
  | program ast =>
    refine bind h (listen (arkshExecuteAst_keepsRest h hexec turns ast)) fun r => ?_
    exact bind h (control h fun _ => rfl) fun _ =>
      bind h (firePendingTraps_keepsRest h hexec _) fun _ =>
        bind h (failLine_keepsRest h hexec _ _) fun _ => bind h (tell h _) fun _ => pure h _

theorem executeLineStep_keepsRest (turns : Nat) (line : Text) :
    KeepsRest R (executeLineStep W exec turns line) := by
  have hrefuse : ∀ message, KeepsRest R (refuseLine message : Exec σ (Int × Text)) :=
    fun _ => bind h (control h fun _ => rfl) fun _ => pure h _
  refine getState_bind fun sh => ?_
  split
  · exact bind h (control h fun _ => rfl) fun _ => pure h _
  · exact hrefuse _
  · refine bind h ?_ fun allocated => ?_
    · unfold allocateTree
      split
      · exact allocate_keepsRest h
      · exact pure h _
    · cases allocated with
      | false => exact hrefuse _
      | true =>
        exact bind h (startLine_keepsRest h) fun _ => runAction_keepsRest h hexec turns _

end Executors

/-- **What the parts of the world do to the rest of the shell, every line that finishes does.** -/
theorem executeLine_keepsRest {W : World σ N I} (h : WorldKeeps R W) (n : Nat) (line : Text) :
    KeepsRest R (executeLine W n line) := by
  induction n generalizing line with
  | zero => exact KeepsRest.cut
  | succ n ih => exact executeLineStep_keepsRest h ih n line

end Arksh
