/-
  Subject: The way of an exit code, from `waitpid` to the status of a line.

  `arksh_platform_run_process_pipeline` waits for the stages and gives one code for them. The four
  places that call it for a foreground command return 0 for the code 0 and 1 for all others, so
  that the number is lost before it reaches lists, branches and functions.
-/
import Arksh.Exec.Failure

namespace Arksh

open CText Traces Traces.Trace List

/-! ## 1. The stages of a pipeline -/

/-- What `waitpid` gives for a stage. -/
inductive WaitResult where
  | exited (code : Fin 256)
  | signaled (signal : Nat)
  | stopped
  | failed
  deriving DecidableEq

def WaitResult.stageCode : WaitResult → Nat
  | .exited code => code.val
  | .signaled signal => 128 + signal
  | .stopped => 1
  | .failed => 0

def WaitResult.exitCode : WaitResult → Option Nat
  | .exited code => some code.val
  | .signaled signal => some (128 + signal)
  | .stopped | .failed => none

/-- The variables of the wait loop. `exitCode` is `none` until it is written. -/
structure WaitState where
  stageExitCodes : List Nat
  anyStopped : Bool
  exitCode : Option Nat
  stoppedProcess : Bool

/-- The aggregate of `pipefail`. -/
def aggregateCode (codes : List Nat) : Nat :=
  codes.foldl (fun aggregate code => if code ≠ 0 ∧ aggregate < code then code else aggregate) 0

def waitForStage (interactive usePipefail last : Bool) (s : WaitState) (r : WaitResult) :
    WaitState :=
  let codes := s.stageExitCodes ++ [r.stageCode]
  if r = .failed then { s with stageExitCodes := codes }
  else
    let anyStopped := s.anyStopped || (interactive && r = .stopped)
    let s := { s with stageExitCodes := codes, anyStopped }
    if last then
      if anyStopped then { s with stoppedProcess := true }
      else { s with exitCode := some (if usePipefail then aggregateCode codes else r.stageCode) }
    else s

def waitForStages (interactive usePipefail : Bool) : List WaitResult → WaitState → WaitState
  | [], s => s
  | r :: rs, s =>
    waitForStages interactive usePipefail rs (waitForStage interactive usePipefail rs.isEmpty s r)

/-- A foreground command that is run: the shell, the results of `waitpid` (`none` where it cannot be
    started), the output. -/
structure ForegroundRun where
  interactive : Bool
  optPipefail : Bool
  hasJobSlot : Bool
  waits : Option (List WaitResult)
  output : Text

/-- The end of `arksh_execute_external_command`, and of the three branches of
    `execute_shell_pipeline`. -/
def ForegroundRun.status (run : ForegroundRun) : Int :=
  match run.waits with
  | none => 1
  | some waits =>
    let s := waitForStages run.interactive run.optPipefail waits ⟨[], false, none, false⟩
    if s.stoppedProcess = true ∧ run.hasJobSlot = true then 1
    else if s.exitCode.getD 0 = 0 then 0 else 1

def lastNonZero (codes : List Nat) : Nat := ((codes.filter (· ≠ 0)).getLast?).getD 0

def decidingCode (usePipefail : Bool) (codes : List Nat) : Nat :=
  if usePipefail then lastNonZero codes else codes.getLast?.getD 0

def collapse (code : Nat) : Int := if code = 0 then 0 else 1

variable {r : WaitResult} {code : Nat}

theorem stageCode_of_exitCode (h : r.exitCode = some code) :
    r.stageCode = code ∧ r ≠ .failed ∧ r ≠ .stopped := by
  cases r with
  | exited code' | signaled signal => cases h; exact ⟨rfl, nofun, nofun⟩
  | stopped | failed => cases h

theorem waitForStage_ended (interactive usePipefail last : Bool) {s : WaitState}
    (h : r.exitCode = some code) (hs : s.anyStopped = false) :
    waitForStage interactive usePipefail last s r =
      if last then
        { s with
          stageExitCodes := s.stageExitCodes ++ [code]
          exitCode := some
            (if usePipefail then aggregateCode (s.stageExitCodes ++ [code]) else code) }
      else { s with stageExitCodes := s.stageExitCodes ++ [code] } := by
  obtain ⟨hcode, hfailed, hstopped⟩ := stageCode_of_exitCode h
  have hany : (s.anyStopped || (interactive && decide (r = .stopped))) = false := by
    rw [hs, decide_eq_false hstopped, Bool.and_false, Bool.or_false]
  unfold waitForStage
  rw [if_neg hfailed, hcode]
  dsimp only
  rw [hany, if_neg Bool.false_ne_true, ← hs]

variable {waits : List WaitResult} {codes : List Nat}

theorem waitForStages_ended (interactive usePipefail : Bool)
    (h : waits.mapM WaitResult.exitCode = some codes) (hne : waits ≠ []) (s : WaitState)
    (hs : s.anyStopped = false) :
    waitForStages interactive usePipefail waits s =
      { s with
        stageExitCodes := s.stageExitCodes ++ codes
        exitCode := some (if usePipefail then aggregateCode (s.stageExitCodes ++ codes)
          else codes.getLast?.getD 0) } := by
  induction waits generalizing codes s with
  | nil => exact absurd rfl hne
  | cons r rs ih =>
    rw [mapM_cons] at h
    obtain ⟨code, hcode, hrest⟩ := Option.bind_eq_some_iff.mp h
    obtain ⟨codes', hcodes', heq⟩ := Option.bind_eq_some_iff.mp hrest
    cases heq
    rw [waitForStages, waitForStage_ended interactive usePipefail rs.isEmpty hcode hs]
    cases rs with
    | nil => cases hcodes'; rfl
    | cons r' rs =>
      rw [isEmpty_cons, if_neg Bool.false_ne_true,
        ih hcodes' (cons_ne_nil r' rs) { s with stageExitCodes := s.stageExitCodes ++ [code] }
          hs]
      have hlast : (code :: codes').getLast?.getD 0 = codes'.getLast?.getD 0 := by
        cases codes' with
        | nil =>
          rw [mapM_cons] at hcodes'
          obtain ⟨c, _, hc⟩ := Option.bind_eq_some_iff.mp hcodes'
          obtain ⟨cs, _, hcs⟩ := Option.bind_eq_some_iff.mp hc
          cases hcs
        | cons c cs => rw [getLast?_cons_cons]
      rw [hlast]
      simp only [append_assoc, singleton_append]

theorem aggregateCode_eq_zero_iff (codes : List Nat) :
    aggregateCode codes = 0 ↔ ∀ code ∈ codes, code = 0 := by
  have hfold : ∀ aggregate, codes.foldl (fun aggregate code =>
      if code ≠ 0 ∧ aggregate < code then code else aggregate) aggregate = 0 ↔
      aggregate = 0 ∧ ∀ code ∈ codes, code = 0 := by
    induction codes with
    | nil => simp
    | cons code codes ih =>
      intro aggregate
      rw [foldl_cons, ih, forall_mem_cons, ← and_assoc]
      refine and_congr_left fun _ => ?_
      by_cases hcode : code ≠ 0 ∧ aggregate < code
      · rw [if_pos hcode]; omega
      · rw [if_neg hcode]; omega
  exact (hfold 0).trans (and_iff_right rfl)

theorem lastNonZero_eq_zero_iff (codes : List Nat) :
    lastNonZero codes = 0 ↔ ∀ code ∈ codes, code = 0 := by
  unfold lastNonZero
  cases hlast : (codes.filter (· ≠ 0)).getLast? with
  | none =>
    have hempty := getLast?_eq_none_iff.mp hlast
    refine iff_of_true rfl fun code hcode => ?_
    by_contra hne
    exact absurd (mem_filter.mpr ⟨hcode, decide_eq_true hne⟩) (hempty ▸ not_mem_nil)
  | some code =>
    have hmem := mem_filter.mp (mem_of_getLast? hlast)
    have hne : code ≠ 0 := of_decide_eq_true hmem.2
    exact iff_of_false hne fun hzero => hne (hzero code hmem.1)

/-- **The status of a foreground command whose stages have all ended.** The aggregate is the largest
    code, not the last one; both are 0 for the same codes. -/
theorem ForegroundRun.status_eq {run : ForegroundRun} (hwaits : run.waits = some waits)
    (hcodes : waits.mapM WaitResult.exitCode = some codes) :
    run.status = collapse (decidingCode run.optPipefail codes) := by
  unfold ForegroundRun.status
  rw [hwaits]
  dsimp only
  by_cases hne : waits = []
  · subst hne
    cases hcodes
    cases run.optPipefail <;> rfl
  · rw [waitForStages_ended run.interactive run.optPipefail hcodes hne _ rfl]
    have hzero : (if run.optPipefail = true then aggregateCode codes else codes.getLast?.getD 0) =
        0 ↔ decidingCode run.optPipefail codes = 0 := by
      cases run.optPipefail with
      | true => exact (aggregateCode_eq_zero_iff codes).trans (lastNonZero_eq_zero_iff codes).symm
      | false => exact Iff.rfl
    rw [if_neg fun hstopped => Bool.false_ne_true hstopped.1]
    exact if_congr hzero rfl rfl

/-! ## 2. The command that decides -/

variable {σ N I α : Type}

def runForeground (start : σ → σ) (run : σ → ForegroundRun) : Task σ (Int × Text) :=
  .act start fun rest => .done ((run rest).status, (run rest).output)

def stepTask (exec : Text → Exec σ (Int × Text)) : Task σ α → Exec σ (Task σ α)
  | .done a => return .done a
  | .act f next => do
    modifyState fun sh => { sh with rest := f sh.rest }
    let sh ← getState
    return next sh.rest
  | .set f next => do
    modifyState fun sh => { sh with settings := f sh.settings }
    return next
  | .signal kind h next => do
    modifyState fun sh => { sh with pending := sh.pending.mark kind h }
    return next
  | .exit next => do
    tell .exit
    modifyState fun sh => { sh with running := false }
    return next
  | .line text next => do
    let (status, out) ← executeFurther exec text
    let sh ← getState
    return next status out sh.rest
  | .call function next => do
    let (status, out) ← executeShellFunction exec function
    let sh ← getState
    return next status out sh.rest
  | .source commands next => do
    let (status, out) ← executeSource exec commands []
    let sh ← getState
    return next status out sh.rest

theorem runTask_eq (exec : Text → Exec σ (Int × Text)) (task : Task σ α) :
    runTask exec task = stepTask exec task >>= runTask exec := by
  cases task <;> simp only [runTask, stepTask, bind_assoc, pure_bind]

inductive PassesOn (status : Int) : Task σ (Int × Text) → Prop
  | done (out : Text) : PassesOn status (.done (status, out))
  | act (f : σ → σ) (next : σ → Task σ (Int × Text)) (h : ∀ rest, PassesOn status (next rest)) :
      PassesOn status (.act f next)

/-- A part of a program, with the depth to which it is followed: a line, a tree, the rest of a list,
    the call of a function, what is left of a command. -/
inductive Part (σ N : Type) where
  | line (n : Nat) (text : Text)
  | tree (n : Nat) (ast : ArkshAst N)
  | entries (n : Nat) (entries : List ArkshCommandListEntry) (previousStatus : Int) (out : Text)
  | function (n : Nat) (call : FunctionCall σ)
  | task (n : Nat) (task : Task σ (Int × Text))

def runPart (W : World σ N I) : Part σ N → Exec σ (Int × Text)
  | .line n text => executeLine W n text
  | .tree n ast => arkshExecuteAst W (executeLine W n) n ast
  | .entries n entries previousStatus out =>
    executeCommandList W (executeLine W n) entries previousStatus out
  | .function n call => executeShellFunction (executeLine W n) call
  | .task n task => runTask (executeLine W n) task

/-- Where the status of an entry is tested by the next one. -/
def testedContext (tested : Bool) (k : Context) : Context := if tested then k.condition else k

def testedShell (tested : Bool) (sh : ArkshShell σ) : ArkshShell σ :=
  if tested then { sh with errexitSuppressed := sh.errexitSuppressed + 1 } else sh

def noneRuns (entries : List ArkshCommandListEntry) (status : Int) : Bool :=
  entries.all fun entry => ¬ shouldRunListEntry entry.condition status

/-- The external command that decides a part ended with the code. `fits`: the outputs on the way up
    to the part fit. -/
inductive Decides (W : World σ N I) : Part σ N → Context → ArkshShell σ → Nat → Bool → Prop
  /-- an external command, or a pipeline of them -/
  | foreground {n : Nat} {k : Context} {sh : ArkshShell σ} {start : σ → σ}
      {run : σ → ForegroundRun} {waits : List WaitResult} {codes : List Nat}
      (hwaits : (run (start sh.rest)).waits = some waits)
      (hcodes : waits.mapM WaitResult.exitCode = some codes) :
      Decides W (.task n (runForeground start run)) k sh
        (decidingCode (run (start sh.rest)).optPipefail codes) true
  /-- a command does something before -/
  | step {n : Nat} {k : Context} {sh sh₁ : ArkshShell σ} {task task₁ : Task σ (Int × Text)}
      {es : List Event} {code : Nat} {fits : Bool}
      (hstep : Ends (stepTask (executeLine W n) task) k sh es task₁ sh₁)
      (h : Decides W (.task n task₁) k sh₁ code fits) : Decides W (.task n task) k sh code fits
  /-- `eval` and the like -/
  | eval {n : Nat} {k : Context} {sh : ArkshShell σ} {text : Text}
      {next : Int → Text → σ → Task σ (Int × Text)} {code : Nat} {fits : Bool}
      (hnext : ∀ status out rest, PassesOn status (next status out rest))
      (h : Decides W (.line n text) k sh code fits) :
      Decides W (.task n (.line text next)) k sh code fits
  /-- a shell function -/
  | call {n : Nat} {k : Context} {sh : ArkshShell σ} {function : FunctionCall σ}
      {next : Int → Text → σ → Task σ (Int × Text)} {code : Nat} {fits : Bool}
      (hnext : ∀ status out rest, PassesOn status (next status out rest))
      (h : Decides W (.function n function) k sh code fits) :
      Decides W (.task n (.call function next)) k sh code fits
  /-- the body of a function -/
  | body {n : Nat} {k : Context} {sh sh₁ : ArkshShell σ} {function : FunctionCall σ}
      {rest rest' : σ} {es : List Event} {code : Nat} {fits : Bool}
      (hbind : function.bind sh.rest = (.ok rest, rest'))
      (henter : Ends enterFunction k { sh with rest := rest } es () sh₁)
      (h : Decides W (.line n function.body) k.function sh₁ code fits) :
      Decides W (.function n function) k sh code fits
  /-- a line -/
  | line {n : Nat} {k : Context} {sh : ArkshShell σ} {text : Text} {ast : ArkshAst N}
      {code : Nat} {fits : Bool}
      (hruns : arkshShellExecuteLine (W.lineShell sh.rest) W.parserBody text =
        .runs (.program ast))
      (hmemory : sh.memory 0 = true)
      (h : Decides W (.tree n ast) k { sh with memory := fun m => sh.memory (m + 1) } code fits) :
      Decides W (.line (n + 1) text) k sh code fits
  /-- a command that is no compound command -/
  | plain {n : Nat} {k : Context} {sh : ArkshShell σ} {kind : ArkshAstKind} {node : N}
      {code : Nat} {fits : Bool}
      (h : Decides W (.task n (W.perform kind node sh.rest)) k sh code fits) :
      Decides W (.tree n (.plain kind node)) k sh code fits
  /-- a list -/
  | list {n : Nat} {k : Context} {sh : ArkshShell σ} {entries : List ArkshCommandListEntry}
      {code : Nat} {fits : Bool} (h : Decides W (.entries n entries 0 []) k sh code fits) :
      Decides W (.tree n (.commandList entries)) k sh code fits
  /-- an entry of a list is not run -/
  | skip {n : Nat} {k : Context} {sh : ArkshShell σ} {entry : ArkshCommandListEntry}
      {rest : List ArkshCommandListEntry} {previousStatus : Int} {out : Text} {code : Nat}
      {fits : Bool} (hskip : shouldRunListEntry entry.condition previousStatus = false)
      (h : Decides W (.entries n rest previousStatus out) k sh code fits) :
      Decides W (.entries n (entry :: rest) previousStatus out) k sh code fits
  /-- an entry of a list is run, and a later one decides -/
  | next {n : Nat} {k : Context} {sh sh₁ : ArkshShell σ} {entry : ArkshCommandListEntry}
      {rest : List ArkshCommandListEntry} {previousStatus status : Int} {out segment out₁ : Text}
      {es : List Event} {code : Nat} {fits : Bool}
      (hrun : shouldRunListEntry entry.condition previousStatus = true)
      (hentry : Ends (executeTested W (executeLine W n) (isTested rest) entry) k sh es
        (status, segment) sh₁)
      (hout : appendOutputSegment out segment = some out₁) (hready : sh₁.ready = true)
      (h : Decides W (.entries n rest status out₁) k sh₁ code fits) :
      Decides W (.entries n (entry :: rest) previousStatus out) k sh code fits
  /-- an entry of a list is run, and none behind it -/
  | last {n : Nat} {k : Context} {sh sh₁ : ArkshShell σ} {entry : ArkshCommandListEntry}
      {rest : List ArkshCommandListEntry} {previousStatus status : Int} {out segment : Text}
      {es : List Event} {code : Nat} {fits : Bool}
      (hrun : shouldRunListEntry entry.condition previousStatus = true)
      (hforeground : entry.runInBackground = false)
      (h : Decides W (.line n entry.text) (testedContext (isTested rest) k)
        (testedShell (isTested rest) sh) code fits)
      (hentry : Ends (executeTested W (executeLine W n) (isTested rest) entry) k sh es
        (status, segment) sh₁)
      (hlast : appendOutputSegment out segment = none ∨ sh₁.ready = false ∨
        noneRuns rest status = true) :
      Decides W (.entries n (entry :: rest) previousStatus out) k sh code
        (fits && (appendOutputSegment out segment).isSome)
  /-- a branch of an `if` -/
  | branch {n : Nat} {k : Context} {sh sh₁ sh₂ : ArkshShell σ}
      {condition thenBranch body : Text} {elseBranch : Option Text}
      {conditionStatus status : Int} {segment out output : Text} {es es' : List Event}
      {code : Nat} {fits : Bool}
      (hcondition : Ends (enclosedCondition Context.condition
        (evaluateConditionStatus W (executeLine W n) condition)) k sh es
          (some (conditionStatus, segment)) sh₁)
      (hout : appendOutputSegment [] segment = some out) (hready : sh₁.ready = true)
      (hbody : (if conditionStatus = 0 then some thenBranch else elseBranch) = some body)
      (h : Decides W (.line n body) k sh₁ code fits)
      (hends : Ends (executeLine W n body) k sh₁ es' (status, output) sh₂) :
      Decides W (.tree n (.ifCommand condition thenBranch elseBranch)) k sh code
        (fits && (appendOutputSegment out output).isSome)
  /-- a branch of a `case` or `switch` -/
  | selected {n : Nat} {k : Context} {sh sh₁ : ArkshShell σ} {kind : ArkshAstKind} {node : N}
      {body : Text} {es : List Event} {code : Nat} {fits : Bool} {ast : ArkshAst N}
      (hast : (ast = .caseCommand node ∧ kind = .caseCommand) ∨
        (ast = .switchCommand node ∧ kind = .switchCommand))
      (hselect : Ends (runTask (executeLine W n) (W.selectBranch kind node sh.rest)) k sh es
        (.ok (some body)) sh₁)
      (h : Decides W (.line n body) k sh₁ code fits) : Decides W (.tree n ast) k sh code fits
  /-- a group whose redirections succeed -/
  | group {n : Nat} {k : Context} {sh sh₁ : ArkshShell σ} {node : N} {body : Text}
      {status : Int} {commandOutput out : Text} {rest : σ} {es : List Event} {code : Nat}
      {fits : Bool}
      (h : Decides W (.line n body) k { sh with rest := W.enterCompound node sh.rest } code fits)
      (hends : Ends (executeLine W n body) k { sh with rest := W.enterCompound node sh.rest } es
        (status, commandOutput) sh₁)
      (hredirect : W.redirectCompound node status commandOutput
        (W.leaveCompound node sh.rest sh₁.rest) = (.ok out, rest)) :
      Decides W (.tree n (.groupCommand node body)) k sh code fits
  /-- `with sudo` -/
  | elevated {n : Nat} {k : Context} {sh : ArkshShell σ} {body : Text} {code : Nat} {fits : Bool}
      (h : Decides W (.line n body) k { sh with rest := W.enterSudo sh.rest } code fits) :
      Decides W (.tree n (.withSudoCommand body)) k sh code fits

/-! ## 3. The way of the status -/

variable {out segment : Text} {es₁ : List Event} {sh₁ : ArkshShell σ}

section Way

variable {W : World σ N I} {exec : Text → Exec σ (Int × Text)} {k : Context} {sh sh' : ArkshShell σ}
  {es : List Event} {result : Int × Text} {text body : Text} {status previousStatus : Int}
  {u : Unit} {rest : List ArkshCommandListEntry} {entry : ArkshCommandListEntry} {node : N}

theorem runForeground_ends {start : σ → σ} {run : σ → ForegroundRun}
    (h : Ends (runTask exec (runForeground start run)) k sh es result sh') :
    result.1 = (run (start sh.rest)).status := by
  unfold runForeground at h
  rw [runTask, modifyState_bind_ends, getState_bind_ends, runTask] at h
  obtain ⟨_, hresult, _⟩ := pure_ends.mp h
  rw [hresult]

theorem runTask_passesOn {task : Task σ (Int × Text)} (h : PassesOn status task)
    (hends : Ends (runTask exec task) k sh es result sh') : result.1 = status := by
  induction h generalizing sh es with
  | done out => obtain ⟨_, hresult, _⟩ := pure_ends.mp hends; rw [hresult]
  | act f next _ ih =>
    exact ih _ hends

theorem reportLate_ends (h : Ends reportLate k sh es u sh') : sh' = sh := by
  exact (tellIf_ends.mp h).2

theorem executeFurther_ends (h : Ends (executeFurther exec text) k sh es result sh') :
    ∃ es', Ends (exec text) k sh es' result sh' := by
  obtain ⟨_, sh₁, _, es', hlate, hline, _⟩ := bind_ends.mp h
  rw [reportLate_ends hlate] at hline
  exact ⟨es', hline⟩

section

variable {next : Int → Text → σ → Task σ (Int × Text)}
  (hnext : ∀ status out rest, PassesOn status (next status out rest))
include hnext

theorem runTask_line_ends (h : Ends (runTask exec (.line text next)) k sh es result sh') :
    ∃ es₁ result₁ sh₁, Ends (exec text) k sh es₁ result₁ sh₁ ∧ result.1 = result₁.1 := by
  obtain ⟨result₁, sh₁, _, _, hfurther, hrest, _⟩ := bind_ends.mp h
  obtain ⟨es₁, hline⟩ := executeFurther_ends hfurther
  exact ⟨es₁, result₁, sh₁, hline,
    runTask_passesOn (hnext _ _ _) (getState_bind_ends.mp hrest)⟩

theorem runTask_call_ends {function : FunctionCall σ}
    (h : Ends (runTask exec (.call function next)) k sh es result sh') :
    ∃ es₁ result₁ sh₁, Ends (executeShellFunction exec function) k sh es₁ result₁ sh₁ ∧
      result.1 = result₁.1 := by
  obtain ⟨result₁, sh₁, es₁, _, hcall, hrest, _⟩ := bind_ends.mp h
  exact ⟨es₁, result₁, sh₁, hcall,
    runTask_passesOn (hnext _ _ _) (getState_bind_ends.mp hrest)⟩

end

theorem executeShellFunction_ends {function : FunctionCall σ} {rest rest' : σ}
    (hbind : function.bind sh.rest = (.ok rest, rest'))
    (h : Ends (executeShellFunction exec function) k sh es result sh') :
    ∃ es₁ sh₁ es₂ sh₂, Ends enterFunction k { sh with rest := rest } es₁ () sh₁ ∧
      Ends (exec function.body) k.function sh₁ es₂ result sh₂ := by
  obtain ⟨_, _, _, _, hlate, hcall, _⟩ := bind_ends.mp h
  rw [reportLate_ends hlate, getState_bind_ends, hbind, modifyState_bind_ends] at hcall
  obtain ⟨result₁, _, _, _, hbody, hleave, _⟩ := bind_ends.mp hcall
  rw [modifyState_bind_ends] at hleave
  obtain ⟨_, hresult, _⟩ := pure_ends.mp hleave
  obtain ⟨_, sh₁, es₁, _, henter, hrest, _⟩ := bind_ends.mp hbody
  obtain ⟨result₂, sh₂, es₂, _, hline, hend, _⟩ := bind_ends.mp hrest
  obtain ⟨_, _, _, _, _, hreturn, _⟩ := bind_ends.mp hend
  obtain ⟨_, hresult₁, _⟩ := pure_ends.mp hreturn
  rw [hresult, hresult₁]
  exact ⟨es₁, sh₁, es₂, sh₂, henter, hline⟩

theorem startLine_ends (h : Ends startLine k sh es u sh') : sh' = sh := by
  unfold startLine at h
  rw [getState_bind_ends] at h
  exact (tell_ends.mp h).2

theorem finishLine_ends {plain : Bool} {x : Exec σ (Int × Text)}
    (h : Ends (finishLine W exec plain x) k sh es result sh') :
    ∃ es₁ sh₁, Ends x k sh es₁ result sh₁ := by
  obtain ⟨run, sh₁, es₁, _, hlisten, hend, _⟩ := bind_ends.mp h
  obtain ⟨_, _, _, _, _, hfail, _⟩ := bind_ends.mp (modifyState_bind_ends.mp hend)
  obtain ⟨_, _, _, _, _, hended, _⟩ := bind_ends.mp hfail
  obtain ⟨_, _, _, _, _, hreturn, _⟩ := bind_ends.mp hended
  obtain ⟨_, hresult, _⟩ := pure_ends.mp hreturn
  rw [hresult]
  exact ⟨es₁, sh₁, (listen_ends.mp hlisten).1⟩

theorem executeLine_tree_ends {n : Nat} {ast : ArkshAst N}
    (hruns : arkshShellExecuteLine (W.lineShell sh.rest) W.parserBody text =
      .runs (.program ast)) (hmemory : sh.memory 0 = true)
    (h : Ends (executeLine W (n + 1) text) k sh es result sh') :
    ∃ es₁ sh₁, Ends (arkshExecuteAst W (executeLine W n) n ast) k
      { sh with memory := fun m => sh.memory (m + 1) } es₁ result sh₁ := by
  rw [executeLine] at h
  unfold executeLineStep at h
  rw [getState_bind_ends, hruns] at h
  unfold allocateTree allocate at h
  obtain ⟨allocated, sh₁, _, _, hallocate, hrun, _⟩ := bind_ends.mp h
  rw [getState_bind_ends, modifyState_bind_ends] at hallocate
  obtain ⟨_, hallocated, hsh₁⟩ := pure_ends.mp hallocate
  rw [hallocated, if_pos hmemory] at hrun
  obtain ⟨_, sh₂, _, _, hstart, haction, _⟩ := bind_ends.mp hrun
  rw [startLine_ends hstart, hsh₁] at haction
  exact finishLine_ends (getState_bind_ends.mp haction)

theorem executeTested_ends {tested : Bool} (hforeground : entry.runInBackground = false)
    (h : Ends (executeTested W exec tested entry) k sh es result sh') :
    ∃ es₁ sh₁, Ends (exec entry.text) (testedContext tested k) (testedShell tested sh) es₁ result
      sh₁ := by
  have hentry : executeEntry W exec entry = exec entry.text := by
    unfold executeEntry
    rw [hforeground, if_neg Bool.false_ne_true]
  unfold executeTested at h
  rw [hentry] at h
  cases tested with
  | false => exact ⟨es, sh', h⟩
  | true =>
    rw [if_pos rfl] at h
    unfold suppressErrexit at h
    rw [modifyState_bind_ends] at h
    obtain ⟨result₁, sh₁, es₁, _, hline, hrest, _⟩ := bind_ends.mp h
    rw [modifyState_bind_ends] at hrest
    obtain ⟨_, hresult, _⟩ := pure_ends.mp hrest
    rw [hresult]
    exact ⟨es₁, sh₁, hline⟩

theorem executeCommandList_noneRuns {entries : List ArkshCommandListEntry}
    (hnone : noneRuns entries status = true)
    (h : Ends (executeCommandList W exec entries status out) k sh es result sh') :
    result = (status, out) := by
  induction entries with
  | nil => exact (pure_ends.mp h).2.1
  | cons entry rest ih =>
    obtain ⟨hentry, hrest⟩ := Bool.and_eq_true_iff.mp hnone
    rw [executeCommandList, if_pos (of_decide_eq_true hentry)] at h
    exact ih hrest h

theorem executeCommandList_last (hrun : shouldRunListEntry entry.condition previousStatus = true)
    (hentry : Ends (executeTested W exec (isTested rest) entry) k sh es₁ (status, segment) sh₁)
    (hlast : appendOutputSegment out segment = none ∨ sh₁.ready = false ∨
      noneRuns rest status = true)
    (h : Ends (executeCommandList W exec (entry :: rest) previousStatus out) k sh es result sh') :
    result.1 = if (appendOutputSegment out segment).isSome then status else 1 := by
  rw [executeCommandList, if_neg (not_not_intro hrun)] at h
  obtain ⟨result₁, sh₂, _, _, hentry', hafter, _⟩ := bind_ends.mp h
  obtain ⟨_, hresult₁, hsh₂⟩ := hentry.unique hentry'
  rw [hresult₁, hsh₂] at hafter
  dsimp only at hafter
  cases hout : appendOutputSegment out segment with
  | none =>
    rw [hout] at hafter
    obtain ⟨_, _, _, _, _, hreturn, _⟩ := bind_ends.mp hafter
    obtain ⟨_, hresult, _⟩ := pure_ends.mp hreturn
    rw [hresult]
    rfl
  | some out₁ =>
    rw [hout] at hafter hlast
    rw [getState_bind_ends] at hafter
    by_cases hready : sh₁.ready = true
    · rw [if_pos hready] at hafter
      have hnone : noneRuns rest status = true := by
        rcases hlast with hnone | hnotReady | hnone
        · cases hnone
        · rw [hready] at hnotReady; cases hnotReady
        · exact hnone
      rw [executeCommandList_noneRuns hnone hafter]
      rfl
    · rw [if_neg hready] at hafter
      obtain ⟨_, _, _, _, _, hreturn, _⟩ := bind_ends.mp hafter
      obtain ⟨_, hresult, _⟩ := pure_ends.mp hreturn
      rw [hresult]
      rfl

theorem executeCommandList_next {out₁ : Text}
    (hrun : shouldRunListEntry entry.condition previousStatus = true)
    (hentry : Ends (executeTested W exec (isTested rest) entry) k sh es₁ (status, segment) sh₁)
    (hout : appendOutputSegment out segment = some out₁) (hready : sh₁.ready = true)
    (h : Ends (executeCommandList W exec (entry :: rest) previousStatus out) k sh es result sh') :
    ∃ es₂, Ends (executeCommandList W exec rest status out₁) k sh₁ es₂ result sh' := by
  rw [executeCommandList, if_neg (not_not_intro hrun)] at h
  obtain ⟨result₁, sh₂, _, es₂, hentry', hafter, _⟩ := bind_ends.mp h
  obtain ⟨_, hresult₁, hsh₂⟩ := hentry.unique hentry'
  rw [hresult₁, hsh₂] at hafter
  dsimp only at hafter
  rw [hout] at hafter
  rw [getState_bind_ends, if_pos hready] at hafter
  exact ⟨es₂, hafter⟩

theorem executeIfCommand_branch {condition thenBranch : Text} {elseBranch : Option Text}
    {conditionStatus : Int} {output : Text} {es₂ : List Event} {sh₂ : ArkshShell σ}
    (hcondition : Ends (enclosedCondition Context.condition
      (evaluateConditionStatus W exec condition)) k sh es₁ (some (conditionStatus, segment)) sh₁)
    (hout : appendOutputSegment [] segment = some out) (hready : sh₁.ready = true)
    (hbody : (if conditionStatus = 0 then some thenBranch else elseBranch) = some body)
    (hends : Ends (exec body) k sh₁ es₂ (status, output) sh₂)
    (h : Ends (executeIfCommand W exec condition thenBranch elseBranch) k sh es result sh') :
    result.1 = if (appendOutputSegment out output).isSome then status else 1 := by
  obtain ⟨tested, sh₃, _, es₃, hcondition', hafter, _⟩ := bind_ends.mp h
  obtain ⟨_, htested, hsh₃⟩ := hcondition.unique hcondition'
  rw [htested, hsh₃] at hafter
  dsimp only at hafter
  rw [hout] at hafter
  rw [getState_bind_ends, if_pos hready] at hafter
  have hbranch : Ends (executeBranch exec out body) k sh₁ es₃ result sh' := by
    by_cases hstatus : conditionStatus = 0
    · rw [if_pos hstatus] at hbody hafter
      cases hbody
      exact hafter
    · rw [if_neg hstatus] at hbody hafter
      rw [hbody] at hafter
      exact hafter
  obtain ⟨result₁, sh₄, _, _, hline, hrest, _⟩ := bind_ends.mp hbranch
  obtain ⟨_, hresult₁, _⟩ := hends.unique hline
  rw [hresult₁] at hrest
  dsimp only at hrest
  cases hfits : appendOutputSegment out output with
  | none =>
    rw [hfits] at hrest
    obtain ⟨_, _, _, _, _, hreturn, _⟩ := bind_ends.mp hrest
    obtain ⟨_, hresult, _⟩ := pure_ends.mp hreturn
    rw [hresult]
    rfl
  | some out₁ =>
    rw [hfits] at hrest
    obtain ⟨_, hresult, _⟩ := pure_ends.mp hrest
    rw [hresult]
    rfl

theorem executeSelected_ends {kind : ArkshAstKind}
    (hselect : Ends (runTask exec (W.selectBranch kind node sh.rest)) k sh es₁
      (.ok (some body)) sh₁) (h : Ends (executeSelected W exec kind node) k sh es result sh') :
    ∃ es₂, Ends (exec body) k sh₁ es₂ result sh' := by
  unfold executeSelected at h
  rw [getState_bind_ends] at h
  obtain ⟨selected, sh₂, _, _, hselect', hbranch, _⟩ := bind_ends.mp h
  obtain ⟨_, hselected, hsh₂⟩ := hselect.unique hselect'
  rw [hselected, hsh₂] at hbranch
  exact executeFurther_ends hbranch

theorem executeGroupCommand_ends {commandOutput : Text} {rest : σ}
    (hends : Ends (exec body) k { sh with rest := W.enterCompound node sh.rest } es₁
      (status, commandOutput) sh₁) (hredirect : W.redirectCompound node status commandOutput
      (W.leaveCompound node sh.rest sh₁.rest) = (.ok out, rest))
    (h : Ends (executeGroupCommand W exec node body) k sh es result sh') : result.1 = status := by
  unfold executeGroupCommand at h
  rw [getState_bind_ends, modifyState_bind_ends] at h
  obtain ⟨result₁, sh₂, _, _, hline, hafter, _⟩ := bind_ends.mp h
  obtain ⟨_, hresult₁, hsh₂⟩ := hends.unique hline
  rw [hresult₁, hsh₂] at hafter
  rw [modifyState_bind_ends, getState_bind_ends, hredirect] at hafter
  rw [modifyState_bind_ends] at hafter
  obtain ⟨_, hresult, _⟩ := pure_ends.mp hafter
  rw [hresult]

theorem executeWithSudo_ends (h : Ends (executeWithSudoCommand W exec body) k sh es result sh') :
    ∃ es₁ sh₁, Ends (exec body) k { sh with rest := W.enterSudo sh.rest } es₁ result sh₁ := by
  unfold executeWithSudoCommand at h
  rw [modifyState_bind_ends] at h
  obtain ⟨result₁, sh₁, es₁, _, hline, hafter, _⟩ := bind_ends.mp h
  rw [modifyState_bind_ends] at hafter
  obtain ⟨_, hresult, _⟩ := pure_ends.mp hafter
  rw [hresult]
  exact ⟨es₁, sh₁, hline⟩

end Way

theorem ite_and_isSome (fits : Bool) (o : Option Text) (code : Nat) :
    (if o.isSome then (if fits then collapse code else 1) else 1) =
      if (fits && o.isSome) then collapse code else 1 := by
  cases fits <;> cases o <;> rfl

/-- **A part returns what becomes of the code that decides it**, by induction on the way from the
    command to the part. -/
theorem runPart_status {W : World σ N I} {part : Part σ N} {k : Context} {sh : ArkshShell σ}
    {fits : Bool} (h : Decides W part k sh code fits) {es : List Event} {result : Int × Text}
    {sh' : ArkshShell σ} (hends : Ends (runPart W part) k sh es result sh') :
    result.1 = if fits then collapse code else 1 := by
  induction h generalizing es result sh' with
  | foreground hwaits hcodes =>
    rw [runForeground_ends hends, ForegroundRun.status_eq hwaits hcodes]
    rfl
  | step hstep _ ih =>
    rw [runPart, runTask_eq] at hends
    obtain ⟨_, _, _, _, hstep', hrest, _⟩ := bind_ends.mp hends
    obtain ⟨_, htask, hsh⟩ := hstep.unique hstep'
    rw [htask, hsh] at hrest
    exact ih hrest
  | eval hnext _ ih =>
    obtain ⟨_, _, _, hline, hresult⟩ := runTask_line_ends hnext hends
    rw [hresult]
    exact ih hline
  | call hnext _ ih =>
    obtain ⟨_, _, _, hcall, hresult⟩ := runTask_call_ends hnext hends
    rw [hresult]
    exact ih hcall
  | body hbind henter _ ih =>
    obtain ⟨_, _, _, _, henter', hline⟩ := executeShellFunction_ends hbind hends
    obtain ⟨_, _, hsh⟩ := henter.unique henter'
    rw [hsh] at hline
    exact ih hline
  | line hruns hmemory _ ih =>
    obtain ⟨_, _, htree⟩ := executeLine_tree_ends hruns hmemory hends
    exact ih htree
  | plain _ ih => exact ih (getState_bind_ends.mp hends)
  | list _ ih => exact ih hends
  | skip hskip _ ih =>
    rw [runPart, executeCommandList, if_pos (by rw [hskip]; exact Bool.false_ne_true)] at hends
    exact ih hends
  | next hrun hentry hout hready _ ih =>
    obtain ⟨_, hrest⟩ := executeCommandList_next hrun hentry hout hready hends
    exact ih hrest
  | last hrun hforeground _ hentry hlast ih =>
    obtain ⟨_, _, hline⟩ := executeTested_ends hforeground hentry
    have hstatus := ih hline
    rw [executeCommandList_last hrun hentry hlast hends]
    dsimp only at hstatus
    rw [hstatus, ite_and_isSome]
  | branch hcondition hout hready hbody _ hline ih =>
    have hstatus := ih hline
    rw [executeIfCommand_branch hcondition hout hready hbody hline hends]
    dsimp only at hstatus
    rw [hstatus, ite_and_isSome]
  | selected hast hselect _ ih =>
    rcases hast with ⟨rfl, rfl⟩ | ⟨rfl, rfl⟩
    · obtain ⟨_, hline⟩ := executeSelected_ends hselect hends; exact ih hline
    · obtain ⟨_, hline⟩ := executeSelected_ends hselect hends; exact ih hline
  | group _ hline hredirect ih =>
    rw [executeGroupCommand_ends hline hredirect hends]
    exact ih hline
  | elevated _ ih => obtain ⟨_, _, hline⟩ := executeWithSudo_ends hends; exact ih hline

/-- **Exit status fidelity.** The status of a line is the code of the external command that decides
    it iff this is 1, or 0 and the outputs fit; and so is `$?` if no trap is run. -/
theorem exitStatus_iff (W : World σ N I) (n : Nat) (text : Text) (k : Context)
    (sh sh' : ArkshShell σ) (code : Nat) (fits : Bool) (es : List Event) (result : Int × Text)
    (h : Decides W (.line n text) k sh code fits)
    (hends : Ends (executeLine W n text) k sh es result sh') :
    (result.1 = code ↔ code = 1 ∨ code = 0 ∧ fits = true) ∧
      ((∀ e ∈ es, ¬ e.IsTrap) → (sh'.lastStatus = code ↔ code = 1 ∨ code = 0 ∧ fits = true)) := by
  have hstatus : result.1 = if fits then collapse code else 1 := runPart_status h hends
  have hiff : result.1 = code ↔ code = 1 ∨ code = 0 ∧ fits = true := by
    rw [hstatus]
    unfold collapse
    cases fits with
    | false =>
      rw [if_neg Bool.false_ne_true]
      simp only [Bool.false_eq_true, and_false, or_false]
      omega
    | true =>
      rw [if_pos rfl]
      simp only [and_true]
      by_cases hzero : code = 0
      · rw [if_pos hzero]; omega
      · rw [if_neg hzero]; omega
  refine ⟨hiff, fun hquiet => ?_⟩
  rw [lastStatus_run W n text k sh sh' es result hends hquiet]
  exact hiff

/-- A command of one process, without output. -/
def exitedWith (code : Fin 256) : Unit → ForegroundRun :=
  fun _ => ⟨false, false, true, some [.exited code], []⟩

/-- A shell with two external commands, which end with 1 and with 3. -/
def codeWorld : World Unit String Unit :=
  tableWorld [("one", .plain .simpleCommand "one"), ("three", .plain .simpleCommand "three")]
    [("one", runForeground id (exitedWith 1)), ("three", runForeground id (exitedWith 3))]

theorem codeWorld_decides {name : String} {code : Fin 256}
    (hruns : arkshShellExecuteLine (codeWorld.lineShell ()) codeWorld.parserBody name.toList =
      .runs (.program (.plain .simpleCommand name)))
    (hperform : codeWorld.perform .simpleCommand name () = runForeground id (exitedWith code)) :
    Decides codeWorld (.line 2 name.toList) Context.top (freshShell ()) code.val true := by
  refine .line hruns rfl (.plain ?_)
  have hrest : (freshShell ()).rest = () := rfl
  rw [hrest, hperform]
  have hcodes : [WaitResult.exited code].mapM WaitResult.exitCode = some [code.val] := rfl
  have hdecides : Decides codeWorld (.task 1 (runForeground id (exitedWith code))) Context.top
      (freshShell ()) (decidingCode false [code.val]) true := .foreground rfl hcodes
  exact hdecides

theorem exitStatus_one :
    ∃ sh', Ends (executeLine codeWorld 2 "one".toList) Context.top (freshShell ())
        [.line true, .failed true false, .settled true false, .ended] (1, []) sh' ∧
      sh'.lastStatus = 1 := by
  refine ⟨_, rfl, ?_⟩
  have hdecides : Decides codeWorld (.line 2 "one".toList) Context.top (freshShell ()) 1 true :=
    @codeWorld_decides "one" 1 rfl rfl
  exact ((exitStatus_iff codeWorld 2 "one".toList Context.top (freshShell ()) _ 1 true
    [.line true, .failed true false, .settled true false, .ended] (1, []) hdecides rfl).2
    (by decide)).mpr (.inl rfl)

/-- **The code 3 becomes the status 1.** -/
theorem not_exitStatus_three : ¬ ∀ k sh sh' code fits es result,
      Decides codeWorld (.line 2 "three".toList) k sh code fits →
      Ends (executeLine codeWorld 2 "three".toList) k sh es result sh' → result.1 = code := by
  intro h
  have hdecides : Decides codeWorld (.line 2 "three".toList) Context.top (freshShell ()) 3 true :=
    @codeWorld_decides "three" 3 rfl rfl
  have hthree := h Context.top (freshShell ()) _ 3 true
    [.line true, .failed true false, .settled true false, .ended] (1, []) hdecides rfl
  exact absurd hthree (by decide)

end Arksh
