/-
  Subject: `with sudo do … endwith`: the counter `ctx_sudo`, and the commands that are started
           while it is positive.

  The counter is read in one place only: `arksh_execute_external_command` puts `sudo` in front of
  the words of its command, if there is room for one more. The other places that start processes
  (`execute_shell_pipeline`, `exec` with redirections, background jobs) do not look at it.
-/
import Arksh.Exec.Rest

namespace Arksh

open CText Traces Traces.Trace List Bool

/-! ## 1. Processes -/

/-- A process that was started: the words of the command, those that the process got, whether the
    counter was positive with escalation on, and whether `arksh_execute_external_command` did it. -/
structure StartedCommand where
  wanted : List Text
  argv : List Text
  elevated : Bool
  external : Bool
  deriving DecidableEq

/-- The fields that decide about `sudo`, the processes started so far (which only the run keeps),
    and the other fields. -/
structure SudoState (ρ : Type) where
  ctxSudo : Int
  noSudoEscalation : Bool
  started : List StartedCommand
  other : ρ

/-- What a command has started: a process of its own, the stages that `execute_shell_pipeline` or
    `exec` specify, or a background job. -/
inductive Launch where
  | external (argv : List Text)
  | specs (argvs : List (List Text))
  | background (executablePath commandText : Text)

variable {ρ N I : Type}

def SudoState.elevates (s : SudoState ρ) : Bool := decide (0 < s.ctxSudo) && !s.noSudoEscalation

def buildProcessArgv (argv : List Text) : List Text := argv.take arkshMaxArgs

/-- The specification that `arksh_execute_external_command` makes. -/
def SudoState.externalSpec (s : SudoState ρ) (argv : List Text) : List Text :=
  if 0 < s.ctxSudo then
    if s.noSudoEscalation then argv
    else if argv.length < arkshMaxArgs then "sudo".toList :: argv
    else argv
  else argv

def SudoState.launchedBy (s : SudoState ρ) : Launch → List StartedCommand
  | .external argv => [⟨argv, buildProcessArgv (s.externalSpec argv), s.elevates, true⟩]
  | .specs argvs => argvs.map fun argv => ⟨argv, buildProcessArgv argv, s.elevates, false⟩
  | .background executablePath commandText =>
    let argv := [executablePath, "-c".toList, commandText]
    [⟨argv, argv, s.elevates, false⟩]

def SudoState.launch (s : SudoState ρ) (launch : Launch) : SudoState ρ :=
  { s with started := s.started ++ s.launchedBy launch }

/-- `sudo` in front of the words under `sudo`, and the words alone otherwise. -/
def StartedCommand.Lawful (r : StartedCommand) : Prop :=
  r.argv = if r.elevated then "sudo".toList :: r.wanted else r.wanted

/-- The words fit; and under `sudo` the process was started by `arksh_execute_external_command`,
    with room for one more word. -/
def StartedCommand.Prefixed (r : StartedCommand) : Prop :=
  r.wanted.length ≤ arkshMaxArgs ∧
    (r.elevated = true → r.external = true ∧ r.wanted.length < arkshMaxArgs)

instance (r : StartedCommand) : Decidable r.Lawful := inferInstanceAs (Decidable (_ = _))

theorem take_ne_cons (word : Text) (argv : List Text) : argv.take arkshMaxArgs ≠ word :: argv := by
  intro heq
  have hlength := congrArg List.length heq
  rw [length_take, length_cons] at hlength
  omega

theorem externalSpec_eq (s : SudoState ρ) (argv : List Text) : s.externalSpec argv =
      if s.elevates = true ∧ argv.length < arkshMaxArgs then "sudo".toList :: argv else argv := by
  unfold SudoState.externalSpec SudoState.elevates
  by_cases hctx : 0 < s.ctxSudo
  · cases s.noSudoEscalation <;> simp [hctx]
  · simp [hctx]

theorem launchedBy_lawful_iff (s : SudoState ρ) {launch : Launch} {r : StartedCommand}
    (h : r ∈ s.launchedBy launch) : r.Lawful ↔ r.Prefixed := by
  unfold StartedCommand.Lawful StartedCommand.Prefixed
  cases launch with
  | external argv =>
    rw [mem_singleton.mp h]
    rw [externalSpec_eq]
    unfold buildProcessArgv
    cases s.elevates with
    | false => simp
    | true =>
      by_cases hroom : argv.length < arkshMaxArgs
      · have hfits : ("sudo".toList :: argv).length ≤ arkshMaxArgs := hroom
        rw [if_pos ⟨rfl, hroom⟩, if_pos rfl]
        exact iff_of_true (take_of_length_le hfits) ⟨hroom.le, fun _ => ⟨rfl, hroom⟩⟩
      · rw [if_neg fun hboth => hroom hboth.2, if_pos rfl]
        exact iff_of_false (take_ne_cons _ _) fun hprefixed => hroom (hprefixed.2 rfl).2
  | specs argvs =>
    obtain ⟨argv, _, rfl⟩ := mem_map.mp h
    unfold buildProcessArgv
    cases s.elevates with
    | false => simp
    | true =>
      refine iff_of_false (take_ne_cons _ _) fun hprefixed => ?_
      exact false_ne_true (hprefixed.2 rfl).1
  | background executablePath commandText =>
    rw [mem_singleton.mp h]
    have hfits : [executablePath, "-c".toList, commandText].length ≤ arkshMaxArgs :=
      show 3 ≤ 16 by decide
    cases s.elevates with
    | false => exact iff_of_true rfl ⟨hfits, nofun⟩
    | true =>
      refine iff_of_false (fun heq => ?_) fun hprefixed => ?_
      · have hlength : 3 = 4 := congrArg List.length heq; cases hlength
      · exact false_ne_true (hprefixed.2 rfl).1

/-! ## 2. What a line leaves -/

/-- **The law**: the counter is as before, and every process was started as it should be. -/
structure SudoLaw (s s' : SudoState ρ) : Prop where
  balanced : s'.ctxSudo = s.ctxSudo
  started : ∀ r ∈ s'.started.drop s.started.length, r.Lawful

/-- The counter is as before, and all processes were started from states with at least that
    counter. -/
structure KeepsSudo (s s' : SudoState ρ) : Prop where
  ctx : s'.ctxSudo = s.ctxSudo
  escalation : s'.noSudoEscalation = s.noSudoEscalation
  started : ∃ new, s'.started = s.started ++ new ∧ ∀ r ∈ new, ∃ (t : SudoState ρ) (l : Launch),
    r ∈ t.launchedBy l ∧ s.ctxSudo ≤ t.ctxSudo ∧ t.noSudoEscalation = s.noSudoEscalation

/-- A world whose commands leave the counter alone; `with sudo` raises and lowers it. -/
structure SudoWorld (ρ N I : Type) extends World (SudoState ρ) N I where
  commands : CommandsKeep KeepsSudo toWorld
  enters : ∀ s, enterSudo s = { s with ctxSudo := s.ctxSudo + 1 }
  leaves : ∀ s, leaveSudo s = { s with ctxSudo := s.ctxSudo - 1 }

namespace KeepsSudo

variable {s s' s'' : SudoState ρ}

theorem refl (s : SudoState ρ) : KeepsSudo s s :=
  ⟨rfl, rfl, [], (append_nil _).symm, fun _ hr => absurd hr not_mem_nil⟩

theorem trans (h : KeepsSudo s s') (h' : KeepsSudo s' s'') : KeepsSudo s s'' := by
  obtain ⟨new, hnew, hmade⟩ := h.started
  obtain ⟨new', hnew', hmade'⟩ := h'.started
  refine ⟨h'.ctx.trans h.ctx, h'.escalation.trans h.escalation, new ++ new', ?_, fun r hr => ?_⟩
  · rw [hnew', hnew, append_assoc]
  · rcases mem_append.mp hr with hr | hr
    · exact hmade r hr
    · obtain ⟨t, l, hmem, hctx, hescalation⟩ := hmade' r hr
      exact ⟨t, l, hmem, h.ctx ▸ hctx, hescalation.trans h.escalation⟩

theorem launch (s : SudoState ρ) (l : Launch) : KeepsSudo s (s.launch l) :=
  ⟨rfl, rfl, s.launchedBy l, rfl, fun _ hr => ⟨s, l, hr, le_refl _, rfl⟩⟩

theorem elevate (h : KeepsSudo { s with ctxSudo := s.ctxSudo + 1 } s') :
    KeepsSudo s { s' with ctxSudo := s'.ctxSudo - 1 } := by
  obtain ⟨new, hnew, hmade⟩ := h.started
  have hctx : s'.ctxSudo = s.ctxSudo + 1 := h.ctx
  refine ⟨?_, h.escalation, new, hnew, fun r hr => ?_⟩
  · show s'.ctxSudo - 1 = s.ctxSudo; omega
  · obtain ⟨t, l, hmem, hraised, hescalation⟩ := hmade r hr
    have hraised : s.ctxSudo + 1 ≤ t.ctxSudo := hraised
    exact ⟨t, l, hmem, by omega, hescalation⟩

end KeepsSudo

theorem SudoWorld.keeps (W : SudoWorld ρ N I) : WorldKeeps KeepsSudo W.toWorld where
  toCommandsKeep := W.commands
  elevate := by
    intro s s' h
    rw [W.enters] at h
    rw [W.leaves]
    exact h.elevate

variable {s s' : SudoState ρ}

/-- All commands started within a block are started under `sudo`, if escalation is on. -/
theorem KeepsSudo.elevated (h : KeepsSudo s s') (hs : s.elevates = true) :
    ∀ r ∈ s'.started.drop s.started.length, r.elevated = true := by
  obtain ⟨new, hnew, hmade⟩ := h.started
  rw [hnew, drop_left]
  intro r hr
  obtain ⟨t, l, hmem, hctx, hescalation⟩ := hmade r hr
  obtain ⟨hpositive, hon⟩ := and_eq_true_iff.mp hs
  have ht : t.elevates = true := by
    refine and_eq_true_iff.mpr ⟨decide_eq_true ?_, hescalation ▸ hon⟩
    exact lt_of_lt_of_le (of_decide_eq_true hpositive) hctx
  cases l with
  | external argv => rw [mem_singleton.mp hmem]; exact ht
  | specs argvs => obtain ⟨argv, _, rfl⟩ := mem_map.mp hmem; exact ht
  | background executablePath commandText => rw [mem_singleton.mp hmem]; exact ht

theorem KeepsSudo.law_iff (h : KeepsSudo s s') :
    SudoLaw s s' ↔ ∀ r ∈ s'.started.drop s.started.length, r.Prefixed := by
  obtain ⟨new, hnew, hmade⟩ := h.started
  have hiff : ∀ r ∈ s'.started.drop s.started.length, (r.Lawful ↔ r.Prefixed) := by
    rw [hnew, drop_left]
    intro r hr
    obtain ⟨t, l, hmem, _, _⟩ := hmade r hr
    exact launchedBy_lawful_iff t hmem
  constructor
  · intro hlaw r hr; exact (hiff r hr).mp (hlaw.started r hr)
  · intro hprefixed; exact ⟨h.ctx, fun r hr => (hiff r hr).mpr (hprefixed r hr)⟩

/-! ## 3. The law of lines -/

/-- **`with sudo` covers its block.** In every run of a line that finishes, the law holds iff all
    commands it starts are prefixed; the counter is as before in any case; and in a block, with
    escalation on, all its commands are started under `sudo`. -/
theorem sudoLaw_iff (W : SudoWorld ρ N I) (n : Nat) (line : Text) (k : Context)
    (sh sh' : ArkshShell (SudoState ρ)) (es : List Event) (result : Int × Text)
    (h : Ends (executeLine W.toWorld n line) k sh es result sh') : (SudoLaw sh.rest sh'.rest ↔
      ∀ r ∈ sh'.rest.started.drop sh.rest.started.length, r.Prefixed) ∧
    sh'.rest.ctxSudo = sh.rest.ctxSudo ∧ (sh.rest.elevates = true →
      ∀ r ∈ sh'.rest.started.drop sh.rest.started.length, r.elevated = true) := by
  have hkeeps := executeLine_keepsRest W.keeps n line k sh es result sh' h
  exact ⟨hkeeps.law_iff, hkeeps.ctx, hkeeps.elevated⟩

def launchWorld (trees : List (String × ArkshAst String)) (launches : List (String × Launch)) :
    World (SudoState Unit) String Unit where
  lineShell _ := ⟨fun _ => none, false⟩
  parse text :=
    match trees.find? fun (line, _) => line.toList = text with
    | some (_, ast) => .ok ast
    | none => .error "parse error"
  perform _ node _ :=
    match launches.find? fun (name, _) => name = node with
    | some (_, l) => .act (fun s => s.launch l) fun _ => .done (0, [])
    | none => .done (1, "command not found".toList)
  letLine _ _ := .done (1, [])
  extendLine _ _ := .done (1, [])
  returnValue text _ := .done (.ok text)
  conditionValue _ _ := .done none
  forSource _ _ := .done (.ok .empty)
  setFromItem _ := true
  assignForLoopVariable _ _ s := (none, s)
  selectBranch _ _ _ := .done (.ok none)
  startBackgroundJob text s := ((0, []), s.launch (.background "arksh".toList text))
  enterCompound _ s := s
  leaveCompound _ _ s := s
  redirectCompound _ _ out s := (.ok out, s)
  enterSudo s := { s with ctxSudo := s.ctxSudo + 1 }
  leaveSudo s := { s with ctxSudo := s.ctxSudo - 1 }
  refreshJobs s := s

theorem launchWorld_keeps (trees : List (String × ArkshAst String))
    (launches : List (String × Launch)) : CommandsKeep KeepsSudo (launchWorld trees launches) where
  refl := KeepsSudo.refl
  trans := KeepsSudo.trans
  perform := by
    intro kind node s
    unfold launchWorld
    dsimp only
    split
    · exact .act (fun s => KeepsSudo.launch s _) fun _ => .done _
    · exact .done _
  letLine _ _ := .done _
  extendLine _ _ := .done _
  returnValue _ _ := .done _
  conditionValue _ _ := .done _
  forSource _ _ := .done _
  selectBranch _ _ _ := .done _
  assign _ _ s := KeepsSudo.refl s
  background _ s := KeepsSudo.launch s _
  compound _ _ _ h := h
  redirect _ _ _ s := KeepsSudo.refl s
  jobs s := KeepsSudo.refl s

def sudoWorld : SudoWorld Unit String Unit where
  toWorld := launchWorld
    [("with sudo do ls endwith", .withSudoCommand "ls".toList),
      ("with sudo do ls > f endwith", .withSudoCommand "ls > f".toList),
      ("ls", .plain .simpleCommand "ls"), ("ls > f", .plain .commandPipeline "ls > f")]
    [("ls", .external ["ls".toList]), ("ls > f", .specs [["ls".toList]])]
  commands := launchWorld_keeps _ _
  enters _ := rfl
  leaves _ := rfl

def plainSudoState : SudoState Unit := ⟨0, false, [], ()⟩

theorem sudoLaw_ls :
    ∃ es result sh', Ends (executeLine sudoWorld.toWorld 3 "with sudo do ls endwith".toList)
        Context.top (freshShell plainSudoState) es result sh' ∧ SudoLaw plainSudoState sh'.rest := by
  refine ⟨_, _, _, rfl, ?_⟩
  refine (sudoLaw_iff sudoWorld 3 "with sudo do ls endwith".toList Context.top
    (freshShell plainSudoState) _ _ _ rfl).1.mpr ?_
  intro r hr
  rw [mem_singleton.mp hr]
  exact ⟨by decide, fun _ => ⟨rfl, by decide⟩⟩

/-- **In a block, `ls > f` runs `ls`.** -/
theorem not_sudoLaw_redirected :
    ¬ ∀ line es result sh', Ends (executeLine sudoWorld.toWorld 3 line) Context.top
      (freshShell plainSudoState) es result sh' → SudoLaw plainSudoState sh'.rest := by
  intro h
  have hlaw := (h "with sudo do ls > f endwith".toList _ _ _ rfl).started
    ⟨["ls".toList], ["ls".toList], true, false⟩ mem_cons_self
  exact absurd hlaw (by decide)

end Arksh
