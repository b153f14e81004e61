/-
  Subject: What a subshell leaves of itself in the shell that ran it.

  Both kinds of subshell run on a clone of the shell: a struct copy, with the tables on the heap
  copied one by one. `( P )` runs the clone in the child of a `fork`. `$( P )` runs it in the
  process of the shell: what belongs to the process has to be put back by hand, and what the copy
  left shared is seen by both.
-/
import Arksh.Exec.Builtins
import Arksh.Shell.Scope

namespace Arksh

open CText Tables List

variable {C : Type}

/-! ## 1. The clone -/

def cloneScopeFrameContents (frame : ArkshScopeFrame) : ArkshScopeFrame :=
  { frame with
    bindings := frame.bindings.map fun binding => ⟨arkshValueCopy binding.value, binding.deleted⟩ }

/-- `arksh_shell_clone_subshell`. The root tables are the parent's own; a shell without a frame gets
    an empty one. -/
def arkshShellCloneSubshell (source : ShellTables C) : ShellTables C :=
  let frames := source.store.frames.map cloneScopeFrameContents
  { source with
    store := { source.store with frames := if frames = [] then [emptyFrame] else frames } }

/-- What the parent holds when the clone has run in its process: its own tables and counts, but the
    cells, the environment and the process of the clone. -/
def seenAfter (parent subshell : ShellTables C) : ShellTables C :=
  let cells := subshell.store.positional ++ subshell.spare
  { parent with
    store := { parent.store with
      vars := subshell.store.vars
      bindings := subshell.store.bindings
      positional := cells.take parent.store.positional.length
      env := subshell.store.env }
    spare := cells.drop parent.store.positional.length
    process := subshell.process }

def restoreVisibleVarEnvFromParent (parent : VarStore) (name : Text) : VarStore :=
  syncVisibleVarEnv parent name

def frameNames (frames : List ArkshScopeFrame) : List Text := frames.flatMap (·.vars.names)

def restoreClonedScopeEnv (parent : VarStore) (frames : List ArkshScopeFrame) : VarStore :=
  (frameNames frames).foldl restoreVisibleVarEnvFromParent parent

def arkshShellRestoreAfterSubshell (sys : System) (parent : ShellTables C)
    (frames : List ArkshScopeFrame) : Nat × ShellTables C :=
  match (if parent.cwd = [] then some parent.process.cwd
    else sys.chdir parent.process.cwd parent.cwd) with
  | none => (1, parent)
  | some cwd =>
    (0, { parent with
      store := restoreClonedScopeEnv parent.store frames
      process := { parent.process with cwd } })

/-! ## 2. Subshells -/

/-- The signals that the child of a subshell gives their default action. -/
def resetInChild : ArkshTrapKind → Bool
  | .hup | .int | .quit | .pipe | .term | .usr1 | .usr2 | .chld | .tstp | .ttin | .ttou => true
  | _ => false

/-- The two processes behind a `fork`. -/
structure Forked (C : Type) where
  child : ShellTables C
  parent : ShellTables C

def executeSubshellCommand (body : ShellTables C → ShellTables C) (sh : ShellTables C) :
    Forked C :=
  let subshell := arkshShellCloneSubshell sh
  let signals := fun kind =>
    if resetInChild kind then ArkshSignalPolicy.default else sh.process.signals kind
  { child := body { subshell with process := { subshell.process with signals } }
    parent := sh }

def expandCommandSubstitution (sys : System) (body : ShellTables C → ShellTables C)
    (sh : ShellTables C) : Nat × ShellTables C :=
  let subshell := body (arkshShellCloneSubshell sh)
  arkshShellRestoreAfterSubshell sys (seenAfter sh subshell) subshell.store.frames

inductive SubshellProgram (C : Type) where
  | done
  | builtin (command : Builtin C) (rest : SubshellProgram C)
  /-- `( body )` -/
  | subshell (body rest : SubshellProgram C)
  /-- `$( body )`, in an argument of what follows. -/
  | commandSubstitution (body rest : SubshellProgram C)

def SubshellProgram.run (sys : System) : SubshellProgram C → ShellTables C → ShellTables C
  | .done, sh => sh
  | .builtin command rest, sh => rest.run sys (command.run sys sh).2
  | .subshell body rest, sh => rest.run sys (executeSubshellCommand (body.run sys) sh).parent
  | .commandSubstitution body rest, sh =>
    rest.run sys (expandCommandSubstitution sys (body.run sys) sh).2

/-- **Nothing of what the shell holds has changed.** -/
structure Isolated (before after : ShellTables C) : Prop where
  vars : after.store.vars = before.store.vars
  bindings : after.store.bindings = before.store.bindings
  frames : after.store.frames = before.store.frames
  positional : after.store.positional = before.store.positional
  functions : after.functions = before.functions
  classes : after.classes = before.classes
  aliases : after.aliases = before.aliases
  options : after.options = before.options
  traps : after.traps = before.traps
  cwd : after.cwd = before.cwd
  directory : after.process.cwd = before.process.cwd
  umask : after.process.umask = before.process.umask
  signals : after.process.signals = before.process.signals
  env : after.store.env = before.store.env

/-! ## 3. What a call may do -/

def InStep (parent : ShellTables C) (name : Text) : Prop :=
  parent.store.env name = parent.store.exportedValue parent.store.frames name

/-- A shell to which a command substitution can come back: its directory is the one of the process,
    and the names of its frames are in step with the environment. -/
structure Settled (sys : System) (parent : ShellTables C) : Prop where
  named : parent.cwd ≠ []
  directory : ∀ directory, sys.chdir directory parent.cwd = some parent.process.cwd
  inStep : ∀ n ∈ frameNames parent.store.frames, InStep parent n

/-- What a call may do in a command substitution of `parent`, where `current` is the subshell. -/
def ShellCall.Contained (sys : System) (parent current : ShellTables C) : ShellCall C → Prop
  | .setVar name _ exported =>
    current.store.Accepts name → InStep parent (copyString arkshMaxVarName name) ∧
      (name.length < arkshMaxVarName ∨ exported = false)
  | .assign name _ =>
    let target := (arkshShellResolveNameref current.store name).getD name
    current.store.Accepts target → InStep parent (copyString arkshMaxVarName target)
  | .unsetName namerefOnly name =>
    let target :=
      if namerefOnly then name else (arkshShellResolveNameref current.store name).getD name
    current.store.Accepts target → InStep parent (copyString arkshMaxVarName target) ∧
      (target.length < arkshMaxVarName ∨ current.store.env target = none)
  | .shiftPositional count =>
    let positional := current.store.positional
    0 ≤ count → count.toNat ≤ positional.length →
      (∃ frame ∈ current.store.frames, frame.positional.isSome) ∨
        positional.drop count.toNat ++ List.replicate count.toNat [] = positional
  | .setTrap kind entry =>
    kind = .exit ∨ kind = .err ∨
      signalPolicyForTrap sys (Function.update current.traps kind entry) kind =
        parent.process.signals kind
  | .umask mask => mask = parent.process.umask
  | _ => True

def CallsContained (sys : System) (parent : ShellTables C) :
    List (ShellCall C) → ShellTables C → Prop
  | [], _ => True
  | call :: calls, sh =>
    call.Contained sys parent sh ∧
      ((call.run sys sh).1 = 0 → CallsContained sys parent calls (call.run sys sh).2)

/-- A program whose calls are contained, with those of the command substitutions nested in it. -/
def SubshellProgram.Contained (sys : System) :
    SubshellProgram C → ShellTables C → ShellTables C → Prop
  | .done, _, _ => True
  | .builtin command rest, parent, sh =>
    CallsContained sys parent (command.calls sys sh) sh ∧
      rest.Contained sys parent (command.run sys sh).2
  | .subshell _ rest, parent, sh => rest.Contained sys parent sh
  | .commandSubstitution body rest, parent, sh =>
    Settled sys sh ∧ body.Contained sys sh (arkshShellCloneSubshell sh) ∧
      rest.Contained sys parent (expandCommandSubstitution sys (body.run sys) sh).2

/-! ## 4. The invariant -/

/-- The subshell `sub` has written nothing that `parent` sees but the environment under the names of
    its frames. -/
structure Confined (parent sub : ShellTables C) : Prop where
  vars : sub.store.vars = parent.store.vars
  bindings : sub.store.bindings = parent.store.bindings
  cells : sub.store.positional ++ sub.spare = parent.store.positional ++ parent.spare
  framed : sub.store.frames ≠ []
  inStep : ∀ n ∈ frameNames sub.store.frames, InStep parent n
  env : ∀ n, n ∉ frameNames sub.store.frames → sub.store.env n = parent.store.env n
  umask : sub.process.umask = parent.process.umask
  signals : sub.process.signals = parent.process.signals

variable {frame' : ArkshScopeFrame} {frames frames' : List ArkshScopeFrame}

section Confined

variable {sys : System} {parent sub sub' : ShellTables C} {frame : ArkshScopeFrame}
  {previous : List ArkshScopeFrame} {n v : Text} {e : Bool}

@[simp] theorem frameNames_cons :
    frameNames (frame :: previous) = frame.vars.names ++ frameNames previous := rfl

@[simp] theorem frameNames_clone (frames : List ArkshScopeFrame) :
    frameNames (frames.map cloneScopeFrameContents) = frameNames frames := by
  unfold frameNames
  rw [flatMap_map]
  rfl

theorem frameNames_cloneSubshell (source : ShellTables C) :
    frameNames (arkshShellCloneSubshell source).store.frames = frameNames source.store.frames := by
  unfold arkshShellCloneSubshell
  dsimp only
  split
  · rename_i hnil
    rw [map_eq_nil_iff.mp hnil]
    rfl
  · exact frameNames_clone source.store.frames

theorem Confined.congr (h : Confined parent sub) (hstore : sub'.store = sub.store)
    (hspare : sub'.spare = sub.spare) (humask : sub'.process.umask = sub.process.umask)
    (hsignals : sub'.process.signals = sub.process.signals) : Confined parent sub' where
  vars := by rw [hstore, h.vars]
  bindings := by rw [hstore, h.bindings]
  cells := by rw [hstore, hspare, h.cells]
  framed := by rw [hstore]; exact h.framed
  inStep := by rw [hstore]; exact h.inStep
  env := by rw [hstore]; exact h.env
  umask := by rw [humask, h.umask]
  signals := by rw [hsignals, h.signals]

theorem confined_clone (h : ∀ n ∈ frameNames parent.store.frames, InStep parent n) :
    Confined parent (arkshShellCloneSubshell parent) where
  vars := rfl
  bindings := rfl
  cells := rfl
  framed := by
    unfold arkshShellCloneSubshell
    dsimp only
    split
    · exact cons_ne_nil _ _
    · assumption
  inStep := by
    rw [frameNames_cloneSubshell]
    exact h
  env := fun n _ => rfl
  umask := rfl
  signals := rfl

section

variable (h : Confined parent sub)
include h

/-- A write to the innermost frame and the environment, of names in step. -/
theorem Confined.top {env : Env} (hf : sub.store.frames = frame :: previous)
    (hsub : ∀ m ∈ frame.vars.names, m ∈ frame'.vars.names)
    (hnew : ∀ m ∈ frame'.vars.names, m ∈ frame.vars.names ∨ InStep parent m)
    (henv : ∀ m, m ∉ frame'.vars.names → env m = sub.store.env m) :
    Confined parent { sub with
      store := { sub.store with frames := frame' :: previous, env := env } } where
  vars := h.vars
  bindings := h.bindings
  cells := h.cells
  framed := cons_ne_nil _ _
  inStep := by
    intro m hm
    have hold := h.inStep m
    rw [hf, frameNames_cons] at hold
    rcases mem_append.mp hm with hm | hm
    · rcases hnew m hm with hm | hm
      · exact hold (mem_append_left _ hm)
      · exact hm
    · exact hold (mem_append_right _ hm)
  env := by
    intro m hm
    have hfr : m ∉ frame'.vars.names := fun h => hm (mem_append_left _ h)
    have hprev : m ∉ frameNames previous := fun h => hm (mem_append_right _ h)
    have hold := h.env m
    rw [hf, frameNames_cons] at hold
    show env m = parent.store.env m
    rw [henv m hfr]
    apply hold
    intro hmem
    rcases mem_append.mp hmem with hmem | hmem
    · exact hfr (hsub m hmem)
    · exact hprev hmem
  umask := h.umask
  signals := h.signals

theorem Confined.top_of_vars (hf : sub.store.frames = frame :: previous)
    (hvars : frame'.vars = frame.vars) :
    Confined parent { sub with store := { sub.store with frames := frame' :: previous } } := by
  apply h.top hf
  · intro m hm
    rw [hvars]
    exact hm
  · intro m hm
    rw [hvars] at hm
    exact Or.inl hm
  · intro m _; rfl

theorem Confined.exists_top :
    ∃ frame previous, sub.store.frames = frame :: previous := exists_cons_of_ne_nil h.framed

end

theorem mem_enterVar {names : List Text} {m : Text} (h : m ∈ enterVar names n) :
    m ∈ names ∨ m = copyString arkshMaxVarName n := by
  unfold enterVar at h
  split at h
  · exact mem_enter h
  · exact Or.inl h

theorem Confined.setVar (h : Confined parent sub)
    (hc : sub.store.Accepts n → InStep parent (copyString arkshMaxVarName n) ∧
      (n.length < arkshMaxVarName ∨ e = false)) :
    Confined parent { sub with store := (arkshShellSetVar sub.store n v e).2 } := by
  by_cases hacc : sub.store.Accepts n
  · obtain ⟨frame, previous, hf⟩ := h.exists_top
    obtain ⟨hstep, hfits⟩ := hc hacc
    obtain ⟨frame', env, hset, hnames⟩ := @setVar_frame sub.store frame previous n v e hf
    have hread : (arkshShellSetVar sub.store n v e).2.env = env := by rw [hset]
    rw [hset]
    apply h.top hf
    · intro m hm
      rw [hnames]
      exact mem_enterVar_of_mem hm
    · intro m hm
      rw [hnames] at hm
      rcases mem_enterVar hm with hm | hm
      · exact Or.inl hm
      · rw [hm]; exact Or.inr hstep
    · intro m hm
      rw [← hread]
      by_cases hmn : m = n
      · -- A name that has got no entry is too long, and then it is not exported.
        have hlong : ¬ n.length < arkshMaxVarName := fun hlt => hm (by
          rw [hnames, hmn]
          exact mem_enterVar_self ((accepts_frame_iff hf).mp hacc) hlt)
        rw [setVar_env, effectiveExported_of_le (Nat.not_lt.mp hlong),
          hfits.resolve_left hlong, if_neg fun h => Bool.false_ne_true h.2]
      · exact setVar_env_of_ne hmn
  · rw [setVar_of_not_accepts hacc]; exact h

theorem Confined.unsetVar (h : Confined parent sub)
    (hc : sub.store.Accepts n → InStep parent (copyString arkshMaxVarName n) ∧
      (n.length < arkshMaxVarName ∨ sub.store.env n = none)) :
    Confined parent { sub with store := (arkshShellUnsetVar sub.store n).2 } := by
  obtain ⟨frame, previous, hf⟩ := h.exists_top
  by_cases hacc : sub.store.Accepts n
  · have hacc' := (accepts_frame_iff hf).mp hacc
    obtain ⟨hstep, hfits⟩ := hc hacc
    obtain ⟨frame', env, hset, hnames⟩ := @unsetVar_frame sub.store frame previous n hf
    have hread : (arkshShellUnsetVar sub.store n).2.env = env := by rw [hset]
    rw [hset]
    apply h.top hf
    · intro m hm
      rw [hnames]
      exact mem_enterVar_of_mem hm
    · intro m hm
      rw [hnames] at hm
      rcases mem_enterVar hm with hm | hm
      · exact Or.inl hm
      · rw [hm]; exact Or.inr hstep
    · intro m hm
      rw [← hread]
      by_cases hmn : m = n
      · have hlong : ¬ n.length < arkshMaxVarName := fun hlt => hm (by
          rw [hnames, hmn]
          exact mem_enterVar_self hacc' hlt)
        rw [hmn, unsetVar_env_of_le hf hacc' (Nat.not_lt.mp hlong), hfits.resolve_left hlong]
      · exact unsetVar_env_of_ne hmn
  · rw [unsetVar_of_not_accepted hf fun hacc' => hacc ((accepts_frame_iff hf).mpr hacc')]; exact h

theorem setBinding_frame {sh : VarStore} {value : ArkshValue}
    (hf : sh.frames = frame :: previous) :
    ∃ bindings, (arkshShellSetBinding sh n value).2 =
      { sh with frames := { frame with bindings } :: previous } := by
  have hsame : sh = { sh with frames := { frame with bindings := frame.bindings } :: previous } := by
    rw [← hf]
  unfold arkshShellSetBinding
  rw [hf]
  dsimp only
  split
  · exact ⟨frame.bindings, hsame⟩
  · split
    · exact ⟨frame.bindings, hsame⟩
    · rename_i bindings _; exact ⟨bindings, rfl⟩

theorem unsetBinding_frame {sh : VarStore} (hf : sh.frames = frame :: previous) :
    ∃ bindings, (arkshShellUnsetBinding sh n).2 =
      { sh with frames := { frame with bindings } :: previous } := by
  have hsame : sh = { sh with frames := { frame with bindings := frame.bindings } :: previous } := by
    rw [← hf]
  unfold arkshShellUnsetBinding
  rw [hf]
  dsimp only
  split
  · exact ⟨frame.bindings, hsame⟩
  · split
    · exact ⟨frame.bindings, hsame⟩
    · rename_i bindings _; exact ⟨bindings, rfl⟩

section

variable (h : Confined parent sub)
include h

theorem Confined.setBinding {value : ArkshValue} :
    Confined parent { sub with store := (arkshShellSetBinding sub.store n value).2 } := by
  obtain ⟨frame, previous, hf⟩ := h.exists_top
  obtain ⟨bindings, hset⟩ := @setBinding_frame frame previous n sub.store value hf
  rw [hset]
  exact h.top_of_vars hf rfl

theorem Confined.unsetBinding :
    Confined parent { sub with store := (arkshShellUnsetBinding sub.store n).2 } := by
  obtain ⟨frame, previous, hf⟩ := h.exists_top
  obtain ⟨bindings, hset⟩ := @unsetBinding_frame frame previous n sub.store hf
  rw [hset]
  exact h.top_of_vars hf rfl

theorem Confined.setPositional {values : List Text} :
    Confined parent (arkshShellSetPositionalArgv sub values).2 := by
  obtain ⟨frame, previous, hf⟩ := h.exists_top
  unfold arkshShellSetPositionalArgv
  split
  · exact h
  · rw [hf]; exact h.top_of_vars hf rfl

end

theorem shiftFrames_vars {count status : Nat}
    (h : shiftFrames count frames = some (status, frames')) :
    frames'.map (·.vars) = frames.map (·.vars) := by
  induction frames generalizing frames' with
  | nil => cases h
  | cons frame previous ih =>
    unfold shiftFrames at h
    split at h
    · split at h
      · cases h; rfl
      · cases h; rfl
    · obtain ⟨r, hr, hpair⟩ := Option.map_eq_some_iff.mp h
      obtain ⟨hstatus, hframes⟩ := Prod.mk.inj hpair
      have hprev := @ih r.2 (by rw [hr, ← hstatus])
      rw [← hframes, map_cons, map_cons, hprev]

theorem shiftFrames_eq_none {count : Nat} (h : shiftFrames count frames = none) :
    ¬ ∃ frame ∈ frames, frame.positional.isSome := by
  induction frames with
  | nil => intro ⟨frame, hmem, _⟩; exact absurd hmem not_mem_nil
  | cons frame previous ih =>
    unfold shiftFrames at h
    split at h
    · split at h <;> cases h
    · rename_i hnone
      intro ⟨fr, hmem, hsome⟩
      rcases mem_cons.mp hmem with rfl | hmem
      · rw [hnone] at hsome; cases hsome
      · exact ih (Option.map_eq_none_iff.mp h) ⟨fr, hmem, hsome⟩

theorem frameNames_eq (h : frames'.map (·.vars) = frames.map (·.vars)) :
    frameNames frames' = frameNames frames := by
  have hflat := congrArg (List.flatMap NameTable.names) h
  rwa [flatMap_map, flatMap_map] at hflat

theorem Confined.shiftPositional {count : Int} (h : Confined parent sub)
    (hc : (ShellCall.shiftPositional count).Contained sys parent sub) :
    Confined parent (arkshShellShiftPositional sub count).2 := by
  unfold arkshShellShiftPositional
  split
  · exact h
  · rename_i hpos
    split
    · rename_i status frames hshift
      have hvars := shiftFrames_vars hshift
      have hnames := frameNames_eq hvars
      have hframed : frames ≠ [] := by
        intro hnil
        rw [hnil] at hvars
        exact h.framed (map_eq_nil_iff.mp hvars.symm)
      exact {
        vars := h.vars
        bindings := h.bindings
        cells := h.cells
        framed := hframed
        inStep := by
          intro n hn
          exact h.inStep n (hnames ▸ hn)
        env := by
          intro n hn
          exact h.env n (hnames ▸ hn)
        umask := h.umask
        signals := h.signals }
    · rename_i hnone
      split
      · exact h
      · rename_i hcount
        have hcells := (hc (Int.not_lt.mp hpos) (Nat.not_lt.mp hcount)).resolve_left
          (shiftFrames_eq_none hnone)
        exact {
          vars := h.vars
          bindings := h.bindings
          cells := by
            show sub.store.positional.drop count.toNat ++
              (List.replicate count.toNat [] ++ sub.spare) = _
            rw [← append_assoc, hcells, h.cells]
          framed := h.framed
          inStep := h.inStep
          env := h.env
          umask := h.umask
          signals := h.signals }

section

variable {size cap : Nat} [NeZero size] {E : Type} (table : NameTable size cap E) (entry : E)
  (withTable : NameTable size cap E → ShellTables C)
include table entry withTable

theorem updateTable_cases : (updateTable sub table n entry withTable).2 = sub ∨
      ∃ table', (updateTable sub table n entry withTable).2 = withTable table' := by
  unfold updateTable
  split
  · exact Or.inl rfl
  · rename_i table' _; exact Or.inr ⟨table', rfl⟩

theorem Confined.updateTable (h : Confined parent sub)
    (hwith : ∀ table, Confined parent (withTable table)) :
    Confined parent (Arksh.updateTable sub table n entry withTable).2 := by
  rcases @updateTable_cases C sub n size cap _ E table entry withTable with hr | ⟨table', hr⟩
  · rw [hr]; exact h
  · rw [hr]; exact hwith table'

end

theorem Confined.setTrap {kind : ArkshTrapKind} {entry : ArkshTrapEntry} (h : Confined parent sub)
    (hc : (ShellCall.setTrap kind entry : ShellCall C).Contained sys parent sub) :
    Confined parent (Arksh.setTrap sys sub kind entry) := by
  unfold Arksh.setTrap
  split
  · exact h.congr rfl rfl rfl rfl
  · rename_i hsignal
    have hpolicy := (or_assoc.mpr hc).resolve_left hsignal
    refine Confined.congr h rfl rfl rfl ?_
    show Function.update sub.process.signals kind _ = _
    rw [hpolicy, ← h.signals, Function.update_eq_self]

/-- **What one call keeps.** -/
theorem Confined.call {c : ShellCall C} (h : Confined parent sub)
    (hc : c.Contained sys parent sub) : Confined parent (c.run sys sub).2 := by
  cases c with
  | setVar name value exported => exact h.setVar hc
  | assign name value => exact h.setVar fun hacc => ⟨hc hacc, Or.inr rfl⟩
  | unsetName namerefOnly name => exact (h.unsetVar hc).unsetBinding
  | setBinding name value => exact h.setBinding
  | removeKey name key =>
    unfold ShellCall.run
    dsimp only
    split
    · exact h
    · exact h.setBinding
  | setPositional values => exact h.setPositional
  | shiftPositional count => exact h.shiftPositional hc
  | setFunction name function | setClass name definition | setAlias name value =>
    unfold ShellCall.run
    dsimp only
    split
    · exact h.updateTable _ _ _ fun _ => h.congr rfl rfl rfl rfl
    · exact h
  | setOption option enable => exact h.congr rfl rfl rfl rfl
  | setTrap kind entry => exact h.setTrap hc
  | chdir directory cwd =>
    unfold ShellCall.run
    dsimp only
    split <;> exact h.congr rfl rfl rfl rfl
  | umask mask => exact h.congr rfl rfl (hc.trans h.umask.symm) rfl
  | fail => exact h

theorem Confined.calls {calls : List (ShellCall C)} (h : Confined parent sub)
    (hc : CallsContained sys parent calls sub) : Confined parent (runCalls sys calls sub).2 := by
  induction calls generalizing sub with
  | nil => exact h
  | cons call calls ih =>
    obtain ⟨hcall, hrest⟩ := hc
    have hnext := h.call hcall
    unfold runCalls
    dsimp only
    split
    · rename_i hstatus; exact ih hnext (hrest hstatus)
    · exact hnext

/-! ## 5. The way back -/

theorem restore_of_confined (hset : Settled sys parent) (h : Confined parent sub) :
    arkshShellRestoreAfterSubshell sys (seenAfter parent sub) sub.store.frames = (0, parent) := by
  have hseen : seenAfter parent sub =
      { parent with
        store := { parent.store with env := sub.store.env }, process := sub.process } := by
    unfold seenAfter
    dsimp only
    rw [h.cells, take_left, drop_left, h.vars, h.bindings]
  have hdir : sys.chdir sub.process.cwd parent.cwd = some parent.process.cwd :=
    hset.directory sub.process.cwd
  have hprocess : { sub.process with cwd := parent.process.cwd } = parent.process := by
    dsimp only
    rw [h.umask, h.signals]
  have hstore : restoreClonedScopeEnv { parent.store with env := sub.store.env } sub.store.frames =
      parent.store := by
    have hsync := sync_all (frameNames sub.store.frames)
      { parent.store with env := sub.store.env }
    show (frameNames sub.store.frames).foldl syncVisibleVarEnv _ = _
    rw [hsync]
    have henv : (fun m => if m ∈ frameNames sub.store.frames
        then parent.store.exportedValue parent.store.frames m else sub.store.env m) =
        parent.store.env := by
      funext m
      split
      · rename_i hm; exact (h.inStep m hm).symm
      · rename_i hm; exact h.env m hm
    show { parent.store with env := fun m => if m ∈ frameNames sub.store.frames
        then parent.store.exportedValue parent.store.frames m else sub.store.env m } = _
    rw [henv]
  rw [hseen]
  unfold arkshShellRestoreAfterSubshell
  rw [if_neg hset.named, hdir]
  dsimp only
  rw [hstore, hprocess]

theorem Confined.program {P : SubshellProgram C} (h : Confined parent sub)
    (hc : P.Contained sys parent sub) : Confined parent (P.run sys sub) := by
  induction P generalizing parent sub with
  | done => exact h
  | builtin command rest ih => obtain ⟨hcalls, hrest⟩ := hc; exact ih (h.calls hcalls) hrest
  | subshell body rest _ ih => exact ih h hc
  | commandSubstitution body rest ihbody ih =>
    obtain ⟨hset, hbody, hrest⟩ := hc
    have hinner := ihbody (confined_clone hset.inStep) hbody
    have hback : (expandCommandSubstitution sys (body.run sys) sub).2 = sub :=
      congrArg Prod.snd (restore_of_confined hset hinner)
    show Confined parent (rest.run sys (expandCommandSubstitution sys (body.run sys) sub).2)
    rw [hback] at hrest ⊢
    exact ih h hrest

end Confined

theorem Isolated.refl (sh : ShellTables C) : Isolated sh sh :=
  ⟨rfl, rfl, rfl, rfl, rfl, rfl, rfl, rfl, rfl, rfl, rfl, rfl, rfl, rfl⟩

/-- **Subshell isolation**: `( P )` leaves the shell as it was, whatever it runs; and so does
    `$( P )` in a settled shell, if its calls are contained. -/
theorem subshell_isolation (sys : System) (sh : ShellTables C) (P : SubshellProgram C) :
    Isolated sh (executeSubshellCommand (P.run sys) sh).parent ∧
    (Settled sys sh → P.Contained sys sh (arkshShellCloneSubshell sh) →
      Isolated sh (expandCommandSubstitution sys (P.run sys) sh).2) := by
  constructor
  · exact Isolated.refl sh
  · intro hset hc
    have hrun := (confined_clone hset.inStep).program hc
    have hback : (expandCommandSubstitution sys (P.run sys) sh).2 = sh :=
      congrArg Prod.snd (restore_of_confined hset hrun)
    rw [hback]
    exact Isolated.refl sh

/-- A shell at `/` with two positional parameters and nothing else. -/
def twoParameters : ShellTables Unit where
  store := ⟨.empty, .empty, ["a".toList, "b".toList], [], noEnv⟩
  spare := []
  functions := .empty
  classes := .empty
  aliases := .empty
  options := fun _ => false
  traps := fun _ => ⟨[], false, false⟩
  cwd := "/".toList
  process := ⟨"/".toList, 0o022, fun _ => .default⟩

/-- A system with the one directory `/`. -/
def rootOnly : System where
  chdir := fun _ path => if path = "/".toList then some "/".toList else none
  getcwd := some
  interactive := false

theorem subshell_isolation_assignment :
    let P : SubshellProgram Unit := .builtin (.assignments [("A".toList, "1".toList)]) .done
    Isolated twoParameters (expandCommandSubstitution rootOnly (P.run rootOnly) twoParameters).2 := by
  intro P
  apply (subshell_isolation rootOnly twoParameters P).2
  · exact ⟨by decide, fun _ => rfl, fun _ h => absurd h not_mem_nil⟩
  · have hstep : InStep twoParameters "A".toList := by unfold InStep; decide
    exact ⟨⟨fun _ => hstep, fun _ => trivial⟩, trivial⟩

/-- The parameters that `shift` moves in a command substitution are those of the shell, and its
    mask is that of the process. -/
theorem not_isolated_shift :
    let shift : SubshellProgram Unit := .builtin (.shift []) .done
    let umask : SubshellProgram Unit := .builtin (.umask ["077".toList]) .done
    ¬ Isolated twoParameters
        (expandCommandSubstitution rootOnly (shift.run rootOnly) twoParameters).2 ∧
      ¬ Isolated twoParameters
        (expandCommandSubstitution rootOnly (umask.run rootOnly) twoParameters).2 := by
  intro shift umask
  constructor
  · intro h
    have hpositional := h.positional
    revert hpositional
    decide
  · intro h
    have humask := h.umask
    revert humask
    decide

end Arksh
