/-
  Subject: The context in which `arksh_shell_source_file` of `src/shell.c` runs a file.

  The program path, the place in the metadata and the positional parameters become those of the
  file, and behind it they are set again to what the caller saw. The parameters are read in the
  nearest frame that has some and written in the innermost one. What the lines of the file do to
  the shell is arbitrary.
-/
import Arksh.Shell.Source
import Arksh.Platform.ResolvePath

namespace Arksh

open CText List Option

variable {C : Type} {values : List Text}

/-! ## 1. The context -/

def HeldParams (params : List Text) : Prop :=
  params.length ≤ arkshMaxPositionalParams ∧ ∀ value ∈ params, value.length < arkshMaxVarValue

/-- What `arksh_shell_get_positional_count` and `arksh_shell_get_positional` show. -/
def visiblePositional (sh : VarStore) : List Text :=
  (sh.frames.findSome? (·.positional)).getD sh.positional

def positionalArrays (sh : VarStore) : List (List Text) :=
  sh.positional :: sh.frames.filterMap (·.positional)

/-- The fields of an `ArkshShell` that `arksh_shell_source_file` uses. A shell that has started has
    metadata. -/
structure SourcedShell (C : Type) where
  tables : ShellTables C
  programPath : Text
  currentSourcePath : Text
  currentSourceLine : Nat
  programPath_fits : programPath.length < arkshMaxPath
  sourcePath_fits : currentSourcePath.length < arkshMaxPath
  positional_held : ∀ params ∈ positionalArrays tables.store, HeldParams params

/-- What a command sees of the file that it is in. -/
structure SourceContext where
  programPath : Text
  currentSourcePath : Text
  currentSourceLine : Nat
  positional : List Text

def SourcedShell.context (sh : SourcedShell C) : SourceContext :=
  ⟨sh.programPath, sh.currentSourcePath, sh.currentSourceLine, visiblePositional sh.tables.store⟩

theorem visiblePositional_held (sh : SourcedShell C) :
    HeldParams (visiblePositional sh.tables.store) := by
  refine sh.positional_held _ ?_
  unfold visiblePositional positionalArrays
  cases hfound : sh.tables.store.frames.findSome? (·.positional) with
  | none => exact mem_cons_self
  | some params =>
    obtain ⟨frame, hframe, hparams⟩ := exists_of_findSome?_eq_some hfound
    exact mem_cons_of_mem _ (mem_filterMap.mpr ⟨frame, hframe, hparams⟩)

/-! ## 2. Setting the parameters -/

theorem heldParams_copies (h : values.length ≤ arkshMaxPositionalParams) :
    HeldParams (values.map (copyString arkshMaxVarValue)) := by
  refine ⟨by rwa [length_map], fun value hvalue => ?_⟩
  obtain ⟨src, -, rfl⟩ := mem_map.mp hvalue
  exact copyString_length_lt (by decide) src

theorem HeldParams.copies (h : HeldParams values) :
    (values.take arkshMaxPositionalParams).map (copyString arkshMaxVarValue) = values := by
  rw [take_of_length_le h.1]
  exact (map_congr_left fun value hvalue => copyString_of_lt (h.2 value hvalue)).trans (map_id _)

theorem setPositional_held {sh : ShellTables C}
    (h : ∀ params ∈ positionalArrays sh.store, HeldParams params) :
    ∀ params ∈ positionalArrays (arkshShellSetPositionalArgv sh values).2.store,
      HeldParams params := by
  unfold arkshShellSetPositionalArgv
  split
  · exact h
  next hcount =>
  have hstored := heldParams_copies (Nat.not_lt.mp hcount)
  split
  next frame previous hframes =>
    intro params hparams
    rcases mem_cons.mp hparams with rfl | hparams
    · exact h _ mem_cons_self
    rcases mem_cons.mp hparams with rfl | hparams
    · exact hstored
    · refine h params (mem_cons_of_mem _ ?_)
      rw [hframes]
      obtain ⟨f, hf, hpositional⟩ := mem_filterMap.mp hparams
      exact mem_filterMap.mpr ⟨f, mem_cons_of_mem _ hf, hpositional⟩
  next hframes =>
    intro params hparams
    rcases mem_cons.mp hparams with rfl | hparams
    · exact hstored
    · exact h params (mem_cons_of_mem _ hparams)

theorem visible_setPositional (sh : ShellTables C) (h : values.length ≤ arkshMaxPositionalParams) :
    (arkshShellSetPositionalArgv sh values).1 = 0 ∧
      visiblePositional (arkshShellSetPositionalArgv sh values).2.store =
        values.map (copyString arkshMaxVarValue) := by
  unfold arkshShellSetPositionalArgv
  rw [if_neg (Nat.not_lt.mpr h)]
  cases hframes : sh.store.frames with
  | nil => refine ⟨rfl, ?_⟩; simp [visiblePositional, hframes]
  | cons frame previous => exact ⟨rfl, rfl⟩

/-! ## 3. A file -/

def SourcedShell.setPlace (sh : SourcedShell C) (program source : Text) (line : Nat) :
    SourcedShell C :=
  { sh with
    programPath := copyString arkshMaxPath program
    currentSourcePath := copyString arkshMaxPath source
    currentSourceLine := line
    programPath_fits := copyString_length_lt (by decide) program
    sourcePath_fits := copyString_length_lt (by decide) source }

def SourcedShell.setPositional (sh : SourcedShell C) (values : List Text) : Nat × SourcedShell C :=
  let r := arkshShellSetPositionalArgv sh.tables values
  (r.1, { sh with tables := r.2, positional_held := setPositional_held sh.positional_held })

/-- The context of a file; where the parameters are not stored, the caller's is kept. -/
def enterFile (resolved : Text) (args : List Text) (sh : SourcedShell C) :
    Option (SourcedShell C) :=
  let (status, entered) := (sh.setPlace resolved resolved 0).setPositional args
  if status ≠ 0 then none else some entered

def leaveFile (before after : SourcedShell C) : Bool × SourcedShell C :=
  let saved := (visiblePositional before.tables.store).take arkshMaxPositionalParams
  let placed := after.setPlace (copyString arkshMaxPath before.programPath)
    (copyString arkshMaxPath before.currentSourcePath) before.currentSourceLine
  let (status, left) := placed.setPositional (saved.map (copyString arkshMaxVarValue))
  (status = 0, left)

def fileHost (resolvePath openFile : SourcedShell C → Text → Option Text)
    (execute : Text → SourcedShell C → (Int × Text) × SourcedShell C) :
    SourceHost (SourcedShell C) where
  resolvePath := resolvePath
  openFile := openFile
  enter := enterFile
  leave := leaveFile
  enterLine line sh := { sh with currentSourceLine := line }
  execute := execute

theorem leaveFile_context (before after : SourcedShell C) :
    (leaveFile before after).1 = true ∧ (leaveFile before after).2.context = before.context := by
  have hheld := visiblePositional_held before
  obtain ⟨hstatus, hvisible⟩ := visible_setPositional after.tables hheld.1
  have hprogram := copyString_of_lt before.programPath_fits
  have hsource := copyString_of_lt before.sourcePath_fits
  have hcopies := hheld.copies
  have hsame := hcopies
  rw [take_of_length_le hheld.1] at hsame
  simp only [leaveFile, hcopies, hprogram, hsource]
  refine ⟨decide_eq_true hstatus, ?_⟩
  show SourceContext.mk (copyString arkshMaxPath before.programPath)
    (copyString arkshMaxPath before.currentSourcePath) before.currentSourceLine
    (visiblePositional (arkshShellSetPositionalArgv after.tables _).2.store) = _
  rw [hprogram, hsource, hvisible, hsame]
  rfl

/-- **Behind a file the context is what it was**, however the file ended and whatever its lines
    did. -/
theorem sourceContext (resolvePath openFile : SourcedShell C → Text → Option Text)
    (execute : Text → SourcedShell C → (Int × Text) × SourcedShell C) (size : Nat) (path : Text)
    (args : List Text) (sh : SourcedShell C) :
    (arkshShellSourceFile (fileHost resolvePath openFile execute) size path args sh).shell.context =
      sh.context := by
  unfold arkshShellSourceFile
  split
  · rfl
  split
  · rfl
  split
  · rfl
  next entered _ =>
  dsimp only
  split
  next left hleave =>
    exact (congrArg (·.2.context) hleave).symm.trans (leaveFile_context _ _).2
  next left hleave =>
    exact (congrArg (·.2.context) hleave).symm.trans (leaveFile_context _ _).2

/-- A shell with the parameter `a`, at the prompt. -/
def promptShell : SourcedShell Unit where
  tables := ⟨⟨.empty, .empty, ["a".toList], [], noEnv⟩, [], .empty, .empty, .empty, fun _ => false,
    fun _ => ⟨[], false, false⟩, "/".toList, ⟨"/".toList, 0o022, fun _ => .default⟩⟩
  programPath := "arksh".toList
  currentSourcePath := []
  currentSourceLine := 0
  programPath_fits := by decide
  sourcePath_fits := by decide
  positional_held := by simp [positionalArrays, HeldParams, arkshMaxPositionalParams, arkshMaxVarValue]

example : (enterFile "f".toList ["x".toList] promptShell).map SourcedShell.context =
    some ⟨"f".toList, "f".toList, 0, ["x".toList]⟩ := by rfl

end Arksh
