/-
  Subject: What is run for a command that stands alone, that has redirections, and that is the
           first stage of a pipeline.

  `execute_simple_command` handles assignments, then takes the shell function of the name, the
  builtin, or an external command. `execute_shell_pipeline`, which also runs every command with
  redirections, expands the name on its own first, takes the builtin of that name, or an external
  command, and knows neither functions nor assignments.

  How words expand is a parameter, and so is what the redirections do to the shell on the way
  (that they succeed is taken for granted).
-/
import Arksh.Exec.Redirect
import Arksh.Exec.Sudo
import Arksh.Exec.Temporary
import Arksh.Expand.Parameter
import Arksh.Shell.Registry

namespace Arksh

open CText List

/-! ## 1. Words -/

/-- How the words expand, and what the tables of the shell have; `F` and `Fn` are functions of the
    shell and of C. -/
structure ResolveWorld (ρ F Fn : Type) where
  /-- `arksh_expand_word` on the first word, which has one value -/
  expandName : Text → SudoState ρ → Except Text Text × SudoState ρ
  /-- `arksh_expand_word` on another word -/
  expandArgument : Text → SudoState ρ → Except Text (List Text) × SudoState ρ
  /-- the same behind `[[` -/
  expandConditional : Text → SudoState ρ → Except Text Text × SudoState ρ
  findFunction : SudoState ρ → Text → Option F
  findRegisteredCommand : SudoState ρ → Text → Option (ArkshCommandDef Fn)
  /-- the variables are saved and set -/
  assign : List PosixAssignment → SudoState ρ → SudoState ρ
  /-- the targets of the redirections are expanded -/
  expandTargets : List ArkshRedirectionNode → SudoState ρ → SudoState ρ

/-- `ArkshCommandStageNode`: the raw words, and the redirections. -/
structure ArkshCommandStageNode where
  name : Text
  args : List Text
  redirections : List ArkshRedirectionNode

/-- `parse_assoc_assignment` succeeds. -/
def isAssocAssignment (s : Text) : Bool :=
  match s with
  | [] => false
  | c :: _ =>
    let name := s.takeWhile isNameByte
    let key := ((s.dropWhile isNameByte).drop 1).takeWhile (· ≠ ']')
    (isalpha c || c = '_') && decide (name.length < arkshMaxToken) &&
      (s.dropWhile isNameByte).head? = some '[' && decide (key.length < arkshMaxName) &&
      [']', '='].isPrefixOf (((s.dropWhile isNameByte).drop 1).dropWhile (· ≠ ']')) &&
      decide (stripAssocKeyQuotes key ≠ [])

inductive CommandRun (F Fn : Type) where
  | nothing
  | assocAssignments (words : List Text)
  | assignments (assignments : List PosixAssignment)
  | function (f : F) (argv : List Text) (temporaries : List PosixAssignment)
  | builtin (command : ArkshCommandDef Fn) (argv : List Text) (temporaries : List PosixAssignment)
  /-- an external command, which `arksh_execute_external_command` starts under `sudo` or not -/
  | program (underSudo : Bool) (argv : List Text) (temporaries : List PosixAssignment)
  /-- `exec` with redirections: the program is run, and the shell ends -/
  | execProgram (argv : List Text)

variable {ρ F Fn : Type} (W : ResolveWorld ρ F Fn) {values : List Text} {word : Text}

/-- The loop of `expand_command_arguments` behind the first word. -/
def expandArguments : List Text → List Text → SudoState ρ → Except Text (List Text) × SudoState ρ
  | [], argv, s => (.ok argv, s)
  | raw :: raws, argv, s =>
    match W.expandArgument raw s with
    | (.error message, s) => (.error message, s)
    | (.ok values, s) =>
      if arkshMaxArgs < argv.length + values.length then
        (.error "expanded command has too many arguments".toList, s)
      else expandArguments raws (argv ++ values) s

def expandCommandArguments (name : Text) (args : List Text) (s : SudoState ρ) :
    Except Text (List Text) × SudoState ρ :=
  match W.expandName name s with
  | (.error message, s) => (.error message, s)
  | (.ok word, s) => expandArguments W args [word] s

/-- The loop of `expand_conditional_arguments` behind the first word. -/
def expandConditionals : List Text → List Text → SudoState ρ →
    Except Text (List Text) × SudoState ρ
  | [], argv, s => (.ok argv, s)
  | raw :: raws, argv, s =>
    match W.expandConditional raw s with
    | (.error message, s) => (.error message, s)
    | (.ok value, s) =>
      if arkshMaxArgs ≤ argv.length then
        (.error "conditional expression has too many arguments".toList, s)
      else expandConditionals raws (argv ++ [value]) s

def expandConditionalArguments (name : Text) (args : List Text) (s : SudoState ρ) :
    Except Text (List Text) × SudoState ρ :=
  match W.expandName name s with
  | (.error message, s) => (.error message, s)
  | (.ok word, s) => expandConditionals W args [word] s

/-! ## 2. The two executors -/

def simpleWords (stage : ArkshCommandStageNode) (s : SudoState ρ) :
    Except Text (List Text) × SudoState ρ :=
  if stage.name = "[[".toList then expandConditionalArguments W stage.name stage.args s
  else expandCommandArguments W stage.name stage.args s

/-- The end of `execute_simple_command`: the name is looked up. -/
def resolveWords (argv : List Text) (temporaries : List PosixAssignment) (s : SudoState ρ) :
    CommandRun F Fn :=
  match argv with
  | [] => .nothing
  | word :: _ =>
    match W.findFunction s word with
    | some f => .function f argv temporaries
    | none =>
      match W.findRegisteredCommand s word with
      | some command => .builtin command argv temporaries
      | none => .program (s.elevates && decide (argv.length < arkshMaxArgs)) argv temporaries

def executeSimpleCommand (stage : ArkshCommandStageNode) (s : SudoState ρ) : CommandRun F Fn :=
  match simpleWords W stage s with
  | (.error _, _) => .nothing
  | (.ok argv, s) =>
    if argv = [] then .nothing
    else if argv.all isAssocAssignment then .assocAssignments argv
    else
      let (assignments, command) := splitArgv argv
      if command = [] then .assignments assignments
      else if assignments = [] then resolveWords W argv [] s
      else resolveWords W command assignments (W.assign assignments s)

/-- `populate_process_spec_from_stage` -/
def populateProcessSpec (stage : ArkshCommandStageNode) (s : SudoState ρ) :
    Except Text (List Text) × SudoState ρ :=
  match expandCommandArguments W stage.name stage.args s with
  | (.error message, s) => (.error message, s)
  | (.ok argv, s) => (.ok argv, W.expandTargets stage.redirections s)

def executeBuiltinWithRedirection (command : ArkshCommandDef Fn) (stage : ArkshCommandStageNode)
    (s : SudoState ρ) : CommandRun F Fn :=
  match expandCommandArguments W stage.name stage.args s with
  | (.error _, _) => .nothing
  | (.ok argv, s) =>
    if command.name = "exec".toList ∧ stage.redirections ≠ [] ∧ 1 < argv.length then
      match stage.args with
      | [] => .nothing
      | name :: args =>
        match populateProcessSpec W ⟨name, args, stage.redirections⟩ s with
        | (.error _, _) => .nothing
        | (.ok argv, _) => .execProgram argv
    else .builtin command argv []

/-- The stages of a pipeline of external commands; `none` where one is a builtin or does not
    expand. -/
def populateStages : List ArkshCommandStageNode → SudoState ρ → Option (List (List Text))
  | [], _ => some []
  | stage :: stages, s =>
    match W.expandName stage.name s with
    | (.error _, _) => none
    | (.ok name, s) =>
      match W.findRegisteredCommand s name with
      | some _ => none
      | none =>
        match populateProcessSpec W stage s with
        | (.error _, _) => none
        | (.ok argv, s) => (populateStages stages s).map (argv :: ·)

def executeShellPipeline (stage : ArkshCommandStageNode) (later : List ArkshCommandStageNode)
    (s : SudoState ρ) : CommandRun F Fn :=
  match W.expandName stage.name s with
  | (.error _, _) => .nothing
  | (.ok name, s) =>
    if later = [] then
      match W.findRegisteredCommand s name with
      | some command => executeBuiltinWithRedirection W command stage s
      | none =>
        match populateProcessSpec W stage s with
        | (.error _, _) => .nothing
        | (.ok argv, _) => .program false argv []
    else
      match W.findRegisteredCommand s name with
      | some command =>
        if command.fn.2 ≠ .pure then .nothing
        else executeBuiltinWithRedirection W command stage s
      | none =>
        match populateStages W (stage :: later) s with
        | some (argv :: _) => .program false argv []
        | _ => .nothing

/-! ## 3. The law -/

/-- The same is run for the command with its redirections as without them, and as the first stage
    of a pipeline. -/
def CommandLaw (stage : ArkshCommandStageNode) (later : List ArkshCommandStageNode)
    (s : SudoState ρ) : Prop :=
  executeShellPipeline W stage [] s = executeSimpleCommand W stage s ∧
    executeShellPipeline W stage later s = executeSimpleCommand W stage s

/-- The simple command is no assignment and begins with none, no function has its name, and it is
    not started under `sudo`. -/
structure OrdinaryWords (word : Text) (args : List Text) (s : SudoState ρ) : Prop where
  assoc : (word :: args).all isAssocAssignment = false
  posix : splitPosixAssignment arkshMaxToken word = none
  function : W.findFunction s word = none
  plain : W.findRegisteredCommand s word = none →
    (s.elevates && decide ((word :: args).length < arkshMaxArgs)) = false

def ReplacesShell (command : ArkshCommandDef Fn) (stage : ArkshCommandStageNode)
    (argv : List Text) : Prop :=
  command.name = "exec".toList ∧ stage.redirections ≠ [] ∧ 1 < argv.length

instance (command : ArkshCommandDef Fn) (stage : ArkshCommandStageNode) (argv : List Text) :
    Decidable (ReplacesShell command stage argv) :=
  inferInstanceAs (Decidable (_ ∧ _ ∧ _))

/-- The name and the words, expanded again in a pipeline, give `argv` and the command `found`. A
    builtin is pure where it is the first of several stages, and no `exec` with a program and
    redirections; behind an external command the stages are external commands too, and they
    expand. -/
def PipelineWords (stage : ArkshCommandStageNode) (later : List ArkshCommandStageNode)
    (s : SudoState ρ) (found : Option (ArkshCommandDef Fn)) (argv : List Text) : Prop :=
  ∃ name s₁, W.expandName stage.name s = (.ok name, s₁) ∧
    W.findRegisteredCommand s₁ name = found ∧
    match found with
    | some command =>
      (later ≠ [] → command.fn.2 = .pure) ∧
        (∃ s₂, expandCommandArguments W stage.name stage.args s₁ = (.ok argv, s₂)) ∧
        ¬ ReplacesShell command stage argv
    | none =>
      if later = [] then
        ∃ s₂, expandCommandArguments W stage.name stage.args s₁ = (.ok argv, s₂)
      else ∃ others, populateStages W (stage :: later) s₁ = some (argv :: others)

/-- The words do not expand, or a builtin is refused as a source, or a later stage is no external
    command. -/
def PipelineRefuses (stage : ArkshCommandStageNode) (later : List ArkshCommandStageNode)
    (s : SudoState ρ) : Prop :=
  match W.expandName stage.name s with
  | (.error _, _) => True
  | (.ok name, s) =>
    match W.findRegisteredCommand s name with
    | some command =>
      (later ≠ [] ∧ command.fn.2 ≠ .pure) ∨
        match expandCommandArguments W stage.name stage.args s with
        | (.error _, _) => True
        | (.ok argv, s) =>
          ReplacesShell command stage argv ∧ ∀ name args, stage.args = name :: args →
            ∀ argv s', populateProcessSpec W ⟨name, args, stage.redirections⟩ s ≠ (.ok argv, s')
    | none =>
      if later = [] then
        ∀ argv s', expandCommandArguments W stage.name stage.args s ≠ (.ok argv, s')
      else populateStages W (stage :: later) s = none

/-- The conditions under which both executors run the same. -/
def RunsAlike (stage : ArkshCommandStageNode) (later : List ArkshCommandStageNode)
    (s : SudoState ρ) : Prop :=
  match simpleWords W stage s with
  | (.ok (word :: args), s₁) =>
    OrdinaryWords W word args s₁ ∧
      PipelineWords W stage later s (W.findRegisteredCommand s₁ word) (word :: args)
  | _ => PipelineRefuses W stage later s

/-! ## 4. What the pipeline runs -/

variable {W} {stage : ArkshCommandStageNode} {later : List ArkshCommandStageNode}
  {s : SudoState ρ} {command : ArkshCommandDef Fn}

inductive BuiltinRuns (W : ResolveWorld ρ F Fn) (command : ArkshCommandDef Fn)
    (stage : ArkshCommandStageNode) (s : SudoState ρ) : CommandRun F Fn → Prop where
  | refused (message s₁) (h : expandCommandArguments W stage.name stage.args s =
      (.error message, s₁)) : BuiltinRuns W command stage s .nothing
  | runs (argv s₁) (h : expandCommandArguments W stage.name stage.args s = (.ok argv, s₁))
      (hreplaces : ¬ ReplacesShell command stage argv) :
      BuiltinRuns W command stage s (.builtin command argv [])
  | unprepared (argv s₁) (h : expandCommandArguments W stage.name stage.args s = (.ok argv, s₁))
      (hreplaces : ReplacesShell command stage argv)
      (hspec : ∀ name args, stage.args = name :: args → ∀ argv s',
        populateProcessSpec W ⟨name, args, stage.redirections⟩ s₁ ≠ (.ok argv, s')) :
      BuiltinRuns W command stage s .nothing
  | replaces (argv s₁ name args program s') (h : expandCommandArguments W stage.name stage.args s =
      (.ok argv, s₁)) (hreplaces : ReplacesShell command stage argv)
      (hargs : stage.args = name :: args)
      (hspec : populateProcessSpec W ⟨name, args, stage.redirections⟩ s₁ = (.ok program, s')) :
      BuiltinRuns W command stage s (.execProgram program)

theorem executeBuiltinWithRedirection_runs (command : ArkshCommandDef Fn)
    (stage : ArkshCommandStageNode) (s : SudoState ρ) :
    BuiltinRuns W command stage s (executeBuiltinWithRedirection W command stage s) := by
  unfold executeBuiltinWithRedirection
  rcases h : expandCommandArguments W stage.name stage.args s with ⟨message | argv, s₁⟩
  · exact .refused message s₁ h
  · dsimp only
    by_cases hreplaces : ReplacesShell command stage argv
    · have hexec : command.name = "exec".toList ∧ stage.redirections ≠ [] ∧ 1 < argv.length :=
        hreplaces
      rw [if_pos hexec]
      cases hargs : stage.args with
      | nil =>
        refine .unprepared argv s₁ h hreplaces fun name args hcons => ?_
        rw [hargs] at hcons
        cases hcons
      | cons name args =>
        dsimp only
        rcases hspec : populateProcessSpec W ⟨name, args, stage.redirections⟩ s₁ with
          ⟨message | program, s'⟩
        · refine .unprepared argv s₁ h hreplaces fun name' args' hcons argv' s'' hok => ?_
          rw [hargs] at hcons
          cases hcons
          rw [hspec] at hok
          cases hok
        · exact .replaces argv s₁ name args program s' h hreplaces hargs hspec
    · have hexec : ¬ (command.name = "exec".toList ∧ stage.redirections ≠ [] ∧
          1 < argv.length) := hreplaces
      rw [if_neg hexec]
      exact .runs argv s₁ h hreplaces

inductive PipelineRuns (W : ResolveWorld ρ F Fn) (stage : ArkshCommandStageNode)
    (later : List ArkshCommandStageNode) (s : SudoState ρ) : CommandRun F Fn → Prop where
  | nothing (h : PipelineRefuses W stage later s) : PipelineRuns W stage later s .nothing
  | builtin (command argv) (h : PipelineWords W stage later s (some command) argv) :
      PipelineRuns W stage later s (.builtin command argv [])
  | program (argv) (h : PipelineWords W stage later s none argv) :
      PipelineRuns W stage later s (.program false argv [])
  | execProgram (argv) : PipelineRuns W stage later s (.execProgram argv)

section Stages

variable {name : Text} {s₁ : SudoState ρ}

section

variable (hname : W.expandName stage.name s = (.ok name, s₁))
include hname

theorem executeShellPipeline_builtin (hfound : W.findRegisteredCommand s₁ name = some command)
    (hpure : later ≠ [] → command.fn.2 = .pure) :
    executeShellPipeline W stage later s = executeBuiltinWithRedirection W command stage s₁ := by
  unfold executeShellPipeline
  rw [hname]
  dsimp only
  rw [hfound]
  dsimp only
  by_cases hlater : later = []
  · rw [if_pos hlater]
  · rw [if_neg hlater, if_neg (not_not_intro (hpure hlater))]

theorem executeShellPipeline_impure (hfound : W.findRegisteredCommand s₁ name = some command)
    (hlater : later ≠ [] ∧ command.fn.2 ≠ .pure) :
    executeShellPipeline W stage later s = .nothing := by
  unfold executeShellPipeline
  rw [hname]
  dsimp only
  rw [hfound]
  dsimp only
  rw [if_neg hlater.1, if_pos hlater.2]

theorem executeShellPipeline_single (hfound : W.findRegisteredCommand s₁ name = none)
    (hlater : later = []) :
    executeShellPipeline W stage later s =
      match expandCommandArguments W stage.name stage.args s₁ with
      | (.error _, _) => .nothing
      | (.ok argv, _) => .program false argv [] := by
  unfold executeShellPipeline
  rw [hname]
  dsimp only
  rw [hfound]
  rw [if_pos hlater]
  unfold populateProcessSpec
  rcases expandCommandArguments W stage.name stage.args s₁ with ⟨message | argv, s₂⟩ <;> rfl

theorem executeShellPipeline_stages (hfound : W.findRegisteredCommand s₁ name = none)
    (hlater : later ≠ []) :
    executeShellPipeline W stage later s =
      match populateStages W (stage :: later) s₁ with
      | some (argv :: _) => .program false argv []
      | _ => .nothing := by
  unfold executeShellPipeline
  rw [hname]
  dsimp only
  rw [hfound]
  rw [if_neg hlater]

theorem pipelineRefuses_builtin_iff (hfound : W.findRegisteredCommand s₁ name = some command) :
    PipelineRefuses W stage later s ↔ (later ≠ [] ∧ command.fn.2 ≠ .pure) ∨
      match expandCommandArguments W stage.name stage.args s₁ with
      | (.error _, _) => True
      | (.ok argv, s) =>
        ReplacesShell command stage argv ∧ ∀ name args, stage.args = name :: args →
          ∀ argv s', populateProcessSpec W ⟨name, args, stage.redirections⟩ s ≠ (.ok argv, s') := by
  unfold PipelineRefuses
  rw [hname]
  dsimp only
  rw [hfound]

theorem pipelineRefuses_program_iff (hfound : W.findRegisteredCommand s₁ name = none) :
    PipelineRefuses W stage later s ↔ if later = [] then
        ∀ argv s', expandCommandArguments W stage.name stage.args s₁ ≠ (.ok argv, s')
      else populateStages W (stage :: later) s₁ = none := by
  unfold PipelineRefuses
  rw [hname]
  dsimp only
  rw [hfound]

theorem PipelineRuns.ofBuiltin {run : CommandRun F Fn}
    (hfound : W.findRegisteredCommand s₁ name = some command)
    (hpure : later ≠ [] → command.fn.2 = .pure) (h : BuiltinRuns W command stage s₁ run) :
    PipelineRuns W stage later s run := by
  cases h with
  | refused message s₂ h =>
    refine .nothing ((pipelineRefuses_builtin_iff hname hfound).mpr (.inr ?_))
    rw [h]
    trivial
  | runs argv s₂ h hreplaces =>
    exact .builtin command argv ⟨name, s₁, hname, hfound, hpure, ⟨s₂, h⟩, hreplaces⟩
  | unprepared argv s₂ h hreplaces hspec =>
    refine .nothing ((pipelineRefuses_builtin_iff hname hfound).mpr (.inr ?_))
    rw [h]
    exact ⟨hreplaces, hspec⟩
  | replaces argv s₂ name args program s' h hreplaces hargs hspec => exact .execProgram program

end

end Stages

theorem populateStages_cons {argvs : List (List Text)}
    (h : populateStages W (stage :: later) s = some argvs) :
    ∃ argv others, argvs = argv :: others := by
  unfold populateStages at h
  rcases hname : W.expandName stage.name s with ⟨message | name, s₁⟩
  · rw [hname] at h; cases h
  · rw [hname] at h
    dsimp only at h
    cases hfound : W.findRegisteredCommand s₁ name with
    | some command => rw [hfound] at h; cases h
    | none =>
      rw [hfound] at h
      rcases hspec : populateProcessSpec W stage s₁ with ⟨message | argv, s₂⟩
      · rw [hspec] at h; cases h
      · rw [hspec] at h
        obtain ⟨others, _, heq⟩ := Option.map_eq_some_iff.mp h
        exact ⟨argv, others, heq.symm⟩

theorem executeShellPipeline_runs (stage : ArkshCommandStageNode)
    (later : List ArkshCommandStageNode) (s : SudoState ρ) :
    PipelineRuns W stage later s (executeShellPipeline W stage later s) := by
  rcases hname : W.expandName stage.name s with ⟨message | name, s₁⟩
  · have hrun : executeShellPipeline W stage later s = .nothing := by
      unfold executeShellPipeline
      rw [hname]
    rw [hrun]
    refine .nothing ?_
    unfold PipelineRefuses
    rw [hname]
    trivial
  · cases hfound : W.findRegisteredCommand s₁ name with
    | some command =>
      by_cases hpure : later ≠ [] → command.fn.2 = .pure
      · rw [executeShellPipeline_builtin hname hfound hpure]
        exact .ofBuiltin hname hfound hpure (executeBuiltinWithRedirection_runs command stage s₁)
      · have himpure : later ≠ [] ∧ command.fn.2 ≠ .pure := Classical.not_imp.mp hpure
        rw [executeShellPipeline_impure hname hfound himpure]
        exact .nothing ((pipelineRefuses_builtin_iff hname hfound).mpr (.inl himpure))
    | none =>
      have hrefuses : PipelineRefuses W stage later s ↔ _ :=
        pipelineRefuses_program_iff hname hfound
      by_cases hlater : later = []
      · rw [executeShellPipeline_single hname hfound hlater]
        rw [if_pos hlater] at hrefuses
        rcases hargv : expandCommandArguments W stage.name stage.args s₁ with ⟨message | argv, s₂⟩
        · refine .nothing (hrefuses.mpr fun argv s' hok => ?_)
          rw [hargv] at hok
          cases hok
        · refine .program argv ⟨name, s₁, hname, hfound, ?_⟩
          rw [if_pos hlater]
          exact ⟨s₂, hargv⟩
      · rw [executeShellPipeline_stages hname hfound hlater]
        rw [if_neg hlater] at hrefuses
        cases hstages : populateStages W (stage :: later) s₁ with
        | none => exact .nothing (hrefuses.mpr hstages)
        | some argvs =>
          obtain ⟨argv, others, rfl⟩ := populateStages_cons hstages
          refine .program argv ⟨name, s₁, hname, hfound, ?_⟩
          rw [if_neg hlater]
          exact ⟨others, hstages⟩

def CommandRun.found (argv : List Text) : Option (ArkshCommandDef Fn) → CommandRun F Fn
  | some command => .builtin command argv []
  | none => .program false argv []

variable {argv raws : List Text}

theorem PipelineWords.runs {found : Option (ArkshCommandDef Fn)}
    (h : PipelineWords W stage later s found argv) :
    executeShellPipeline W stage later s = .found argv found := by
  obtain ⟨name, s₁, hname, hfound, hwords⟩ := h
  cases found with
  | some command =>
    obtain ⟨hpure, ⟨s₂, hargv⟩, hreplaces⟩ := hwords
    rw [executeShellPipeline_builtin hname hfound hpure]
    unfold executeBuiltinWithRedirection
    rw [hargv]
    exact if_neg hreplaces
  | none =>
    by_cases hlater : later = []
    · rw [if_pos hlater] at hwords
      obtain ⟨s₂, hargv⟩ := hwords
      rw [executeShellPipeline_single hname hfound hlater, hargv]
      rfl
    · rw [if_neg hlater] at hwords
      obtain ⟨others, hstages⟩ := hwords
      rw [executeShellPipeline_stages hname hfound hlater, hstages]
      rfl

theorem PipelineRefuses.runs (h : PipelineRefuses W stage later s) :
    executeShellPipeline W stage later s = .nothing := by
  rcases hname : W.expandName stage.name s with ⟨message | name, s₁⟩
  · unfold executeShellPipeline; rw [hname]
  · cases hfound : W.findRegisteredCommand s₁ name with
    | some command =>
      by_cases hpure : later ≠ [] → command.fn.2 = .pure
      · have hwords := ((pipelineRefuses_builtin_iff hname hfound).mp h).resolve_left
          fun himpure => himpure.2 (hpure himpure.1)
        rw [executeShellPipeline_builtin hname hfound hpure]
        have hruns := executeBuiltinWithRedirection_runs (W := W) command stage s₁
        generalize executeBuiltinWithRedirection W command stage s₁ = run at hruns
        cases hruns with
        | refused | unprepared => rfl
        | runs argv s₂ hargv hreplaces => rw [hargv] at hwords; exact absurd hwords.1 hreplaces
        | replaces argv s₂ name args program s' hargv _ hargs hspec =>
          rw [hargv] at hwords
          exact absurd hspec (hwords.2 name args hargs program s')
      · exact executeShellPipeline_impure hname hfound (Classical.not_imp.mp hpure)
    | none =>
      have hrefuses := (pipelineRefuses_program_iff hname hfound).mp h
      by_cases hlater : later = []
      · rw [if_pos hlater] at hrefuses
        rw [executeShellPipeline_single hname hfound hlater]
        rcases hargv : expandCommandArguments W stage.name stage.args s₁ with ⟨message | argv, s₂⟩
        · rfl
        · exact absurd hargv (hrefuses argv s₂)
      · rw [if_neg hlater] at hrefuses
        rw [executeShellPipeline_stages hname hfound hlater, hrefuses]

theorem executeShellPipeline_found_iff {found : Option (ArkshCommandDef Fn)} :
    executeShellPipeline W stage later s = .found argv found ↔
      PipelineWords W stage later s found argv := by
  refine ⟨fun h => ?_, PipelineWords.runs⟩
  have hruns := executeShellPipeline_runs (W := W) stage later s
  rw [h] at hruns
  cases found with
  | some command =>
    cases hruns with
    | builtin _ _ h => exact h
  | none =>
    cases hruns with
    | program _ h => exact h

theorem executeShellPipeline_nothing_iff :
    executeShellPipeline W stage later s = .nothing ↔ PipelineRefuses W stage later s := by
  refine ⟨fun h => ?_, PipelineRefuses.runs⟩
  have hruns := executeShellPipeline_runs (W := W) stage later s
  rw [h] at hruns
  cases hruns with
  | nothing h => exact h

theorem executeShellPipeline_cases (stage : ArkshCommandStageNode)
    (later : List ArkshCommandStageNode) (s : SudoState ρ) :
    executeShellPipeline W stage later s = .nothing ∨
      (∃ argv found, executeShellPipeline W stage later s = .found argv found) ∨
      ∃ argv, executeShellPipeline W stage later s = .execProgram argv := by
  have hruns := executeShellPipeline_runs (W := W) stage later s
  generalize executeShellPipeline W stage later s = run at hruns
  cases hruns with
  | nothing => exact .inl rfl
  | builtin command argv => exact .inr (.inl ⟨argv, some command, rfl⟩)
  | program argv => exact .inr (.inl ⟨argv, none, rfl⟩)
  | execProgram argv => exact .inr (.inr ⟨argv, rfl⟩)

/-! ## 5. What the command alone runs -/

variable {s s' : SudoState ρ}

theorem expandArguments_ok (W : ResolveWorld ρ F Fn)
    (h : expandArguments W raws argv s = (.ok values, s')) : argv <+: values := by
  induction raws generalizing argv s with
  | nil => cases h; exact prefix_refl _
  | cons raw raws ih =>
    unfold expandArguments at h
    rcases hraw : W.expandArgument raw s with ⟨message | more, s₁⟩
    · rw [hraw] at h; cases h
    · rw [hraw] at h
      dsimp only at h
      by_cases hroom : arkshMaxArgs < argv.length + more.length
      · rw [if_pos hroom] at h; cases h
      · rw [if_neg hroom] at h; exact (prefix_append argv more).trans (ih h)

theorem expandConditionals_ok (W : ResolveWorld ρ F Fn)
    (h : expandConditionals W raws argv s = (.ok values, s')) : argv <+: values := by
  induction raws generalizing argv s with
  | nil => cases h; exact prefix_refl _
  | cons raw raws ih =>
    unfold expandConditionals at h
    rcases hraw : W.expandConditional raw s with ⟨message | value, s₁⟩
    · rw [hraw] at h; cases h
    · rw [hraw] at h
      dsimp only at h
      by_cases hroom : arkshMaxArgs ≤ argv.length
      · rw [if_pos hroom] at h; cases h
      · rw [if_neg hroom] at h; exact (prefix_append argv [value]).trans (ih h)

theorem simpleWords_ne_nil (s' : SudoState ρ) : simpleWords W stage s ≠ (.ok [], s') := by
  intro h
  unfold simpleWords expandConditionalArguments expandCommandArguments at h
  rcases hname : W.expandName stage.name s with ⟨message | word, s₁⟩
  · rw [hname] at h
    rw [ite_self] at h
    cases h
  · rw [hname] at h
    by_cases hconditional : stage.name = "[[".toList
    · rw [if_pos hconditional] at h
      exact cons_ne_nil _ _ (prefix_nil.mp (expandConditionals_ok W h))
    · rw [if_neg hconditional] at h; exact cons_ne_nil _ _ (prefix_nil.mp (expandArguments_ok W h))

theorem resolveWords_cons (word : Text) (args : List Text) (temporaries : List PosixAssignment)
    (s : SudoState ρ) : (∃ f, W.findFunction s word = some f ∧
      resolveWords W (word :: args) temporaries s = .function f (word :: args) temporaries) ∨
    (W.findFunction s word = none ∧ ∃ command, W.findRegisteredCommand s word = some command ∧
      resolveWords W (word :: args) temporaries s = .builtin command (word :: args) temporaries) ∨
    (W.findFunction s word = none ∧ W.findRegisteredCommand s word = none ∧
      resolveWords W (word :: args) temporaries s =
        .program (s.elevates && decide ((word :: args).length < arkshMaxArgs)) (word :: args)
          temporaries) := by
  unfold resolveWords
  dsimp only
  cases hfunction : W.findFunction s word with
  | some f => exact .inl ⟨f, rfl, rfl⟩
  | none =>
    refine .inr ?_
    cases hfound : W.findRegisteredCommand s word with
    | some command => exact .inl ⟨rfl, command, rfl, rfl⟩
    | none => exact .inr ⟨rfl, rfl, rfl⟩

def CommandRun.Unpiped (run : CommandRun F Fn) : Prop :=
  run ≠ .nothing ∧ (∀ argv found, run ≠ .found argv found) ∧ ∀ argv, run ≠ .execProgram argv

theorem CommandRun.Unpiped.ne {run : CommandRun F Fn} (h : run.Unpiped) :
    executeShellPipeline W stage later s ≠ run := by
  rintro rfl
  rcases executeShellPipeline_cases (W := W) stage later s with hrun | ⟨argv, found, hrun⟩ |
    ⟨argv, hrun⟩
  · exact h.1 hrun
  · exact h.2.1 argv found hrun
  · exact h.2.2 argv hrun

theorem CommandRun.unpiped_function (f : F) (argv : List Text)
    (temporaries : List PosixAssignment) :
    (CommandRun.function f argv temporaries : CommandRun F Fn).Unpiped :=
  ⟨nofun, fun _ found => by cases found <;> exact nofun, nofun⟩

variable {temporaries : List PosixAssignment}

theorem CommandRun.unpiped_builtin (command : ArkshCommandDef Fn) (argv : List Text)
    (h : temporaries ≠ []) :
    (CommandRun.builtin command argv temporaries : CommandRun F Fn).Unpiped := by
  refine ⟨nofun, fun argv found heq => ?_, nofun⟩
  cases found with
  | some found => injection heq with _ _ htemporaries; exact h htemporaries
  | none => cases heq

theorem CommandRun.unpiped_program (underSudo : Bool) (argv : List Text)
    (h : underSudo = true ∨ temporaries ≠ []) :
    (CommandRun.program underSudo argv temporaries : CommandRun F Fn).Unpiped := by
  refine ⟨nofun, fun argv found heq => ?_, nofun⟩
  cases found with
  | some found => cases heq
  | none =>
    injection heq with hsudo _ htemporaries
    rcases h with h | h
    · exact Bool.false_ne_true (hsudo.symm.trans h)
    · exact h htemporaries

/-- **Behind temporary assignments nothing runs that a pipeline runs.** -/
theorem resolveWords_unpiped {args : List Text} (h : temporaries ≠ []) (s : SudoState ρ) :
    (resolveWords W (word :: args) temporaries s).Unpiped := by
  rcases resolveWords_cons (W := W) word args temporaries s with ⟨f, _, hrun⟩ |
    ⟨_, command, _, hrun⟩ | ⟨_, _, hrun⟩
  · rw [hrun]; exact CommandRun.unpiped_function f (word :: args) temporaries
  · rw [hrun]; exact CommandRun.unpiped_builtin command (word :: args) h
  · rw [hrun]; exact CommandRun.unpiped_program _ (word :: args) (.inr h)

/-- Without assignments, the command runs alike iff no function has its name and it is not under
    `sudo`. -/
theorem resolveWords_runs_iff (word : Text) (args : List Text) (s s₁ : SudoState ρ) :
    executeShellPipeline W stage later s = resolveWords W (word :: args) [] s₁ ↔
      W.findFunction s₁ word = none ∧ (W.findRegisteredCommand s₁ word = none →
          (s₁.elevates && decide ((word :: args).length < arkshMaxArgs)) = false) ∧
        PipelineWords W stage later s (W.findRegisteredCommand s₁ word) (word :: args) := by
  rcases resolveWords_cons (W := W) word args [] s₁ with ⟨f, hfunction, hrun⟩ |
    ⟨hfunction, command, hfound, hrun⟩ | ⟨hfunction, hfound, hrun⟩
  · rw [hrun, hfunction]
    refine iff_of_false (CommandRun.unpiped_function f (word :: args) []).ne fun h => ?_
    cases h.1
  · rw [hrun, hfunction, hfound]
    have hiff : executeShellPipeline W stage later s = .found (word :: args) (some command) ↔
        PipelineWords W stage later s (some command) (word :: args) :=
      executeShellPipeline_found_iff
    exact hiff.trans ⟨fun h => ⟨rfl, nofun, h⟩, fun h => h.2.2⟩
  · rw [hrun, hfunction, hfound]
    cases hsudo : s₁.elevates && decide ((word :: args).length < arkshMaxArgs) with
    | true =>
      refine iff_of_false (CommandRun.unpiped_program true (word :: args) (.inl rfl)).ne fun h => ?_
      cases h.2.1 rfl
    | false =>
      have hiff : executeShellPipeline W stage later s = .found (word :: args) none ↔
          PipelineWords W stage later s none (word :: args) := executeShellPipeline_found_iff
      exact hiff.trans ⟨fun h => ⟨rfl, fun _ => rfl, h⟩, fun h => h.2.2⟩

/-! ## 6. The law -/

theorem splitArgv_none (args : List Text) (h : splitPosixAssignment arkshMaxToken word = none) :
    splitArgv (word :: args) = ([], word :: args) := by
  rw [splitArgv, h]

theorem splitArgv_some (args : List Text) {assignment : PosixAssignment}
    (h : splitPosixAssignment arkshMaxToken word = some assignment) :
    splitArgv (word :: args) = (assignment :: (splitArgv args).1, (splitArgv args).2) := by
  rw [splitArgv, h]

/-- A command with redirections, or the first stage of a pipeline, is run as without them iff the
    conditions hold. -/
theorem executeShellPipeline_eq_iff (W : ResolveWorld ρ F Fn) (stage : ArkshCommandStageNode)
    (later : List ArkshCommandStageNode) (s : SudoState ρ) :
    executeShellPipeline W stage later s = executeSimpleCommand W stage s ↔
      RunsAlike W stage later s := by
  unfold executeSimpleCommand RunsAlike
  rcases hwords : simpleWords W stage s with ⟨message | argv, s₁⟩
  · exact executeShellPipeline_nothing_iff
  · cases argv with
    | nil => exact absurd hwords (simpleWords_ne_nil s₁)
    | cons word args =>
      dsimp only
      cases hassoc : (word :: args).all isAssocAssignment with
      | true =>
        refine iff_of_false (CommandRun.Unpiped.ne ⟨nofun, ?_, nofun⟩) fun h => ?_
        · intro argv found; cases found <;> exact nofun
        · exact Bool.false_ne_true (h.1.assoc.symm.trans hassoc)
      | false =>
        cases hposix : splitPosixAssignment arkshMaxToken word with
        | some assignment =>
          rw [splitArgv_some args hposix]
          refine iff_of_false (CommandRun.Unpiped.ne ?_) fun h => ?_
          · dsimp only
            cases hcommand : (splitArgv args).2 with
            | nil =>
              exact ⟨nofun, fun _ found => by cases found <;> exact nofun, nofun⟩
            | cons name rest =>
              exact resolveWords_unpiped (cons_ne_nil _ _) _
          · have hplain := h.1.posix
            rw [hposix] at hplain
            cases hplain
        | none =>
          rw [splitArgv_none args hposix]
          refine (resolveWords_runs_iff word args s s₁).trans ⟨?_, ?_⟩
          · intro ⟨hfunction, hplain, hpipeline⟩
            exact ⟨⟨hassoc, hposix, hfunction, hplain⟩, hpipeline⟩
          · intro ⟨hordinary, hpipeline⟩; exact ⟨hordinary.function, hordinary.plain, hpipeline⟩

/-- **A command means the same with redirections and as the first stage of a pipeline iff the
    conditions hold for both.** -/
theorem commandLaw_iff (W : ResolveWorld ρ F Fn) (stage : ArkshCommandStageNode)
    (later : List ArkshCommandStageNode) (s : SudoState ρ) :
    CommandLaw W stage later s ↔ RunsAlike W stage [] s ∧ RunsAlike W stage later s :=
  and_congr (executeShellPipeline_eq_iff W stage [] s)
    (executeShellPipeline_eq_iff W stage later s)

def oneFunctionWorld : ResolveWorld Unit String String where
  expandName word s := (.ok word, s)
  expandArgument word s := (.ok [word], s)
  expandConditional word s := (.ok word, s)
  findFunction _ word := if word = "f".toList then some "echo function" else none
  findRegisteredCommand _ _ := none
  assign _ s := s
  expandTargets _ s := s

theorem outputTruncate_copiesNone :
    (none : Option Nat).isSome = ArkshRedirectionKind.outputTruncate.isDup := rfl

def redirectedStage : ArkshCommandStageNode :=
  ⟨"f".toList, [], [⟨.outputTruncate, 1, none, "file".toList, [], outputTruncate_copiesNone⟩]⟩

/-- **`f > file` runs the external command `f`, not the function.** -/
theorem not_commandLaw_function : ¬ ∀ stage later s, CommandLaw oneFunctionWorld stage later s := by
  intro h
  have hlaw := (h redirectedStage [] plainSudoState).1
  have hpipeline : executeShellPipeline oneFunctionWorld redirectedStage [] plainSudoState =
      .program false ["f".toList] [] := rfl
  have halone : executeSimpleCommand oneFunctionWorld redirectedStage plainSudoState =
      .function "echo function" ["f".toList] [] := rfl
  cases hlaw

end Arksh
