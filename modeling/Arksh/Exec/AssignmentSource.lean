/-
  Subject: Which words of a simple command `execute_simple_command` treats as assignments, and which
           are assignments in the source.

  The executor looks at the words behind their expansion. In the source an assignment is a raw word
  that begins with a name and an equals sign.
-/
import Arksh.Exec.Resolve
import Arksh.Expand.Word
import Arksh.Lib.Decimal

namespace Arksh

open CText Scan List

variable {ρ F Fn : Type}

/-! ## 1. Assignments of a run and of the source -/

/-- Whether a run treats words as assignments `name[key]=value`, and how many of the expanded
    words. -/
def CommandRun.treated : CommandRun F Fn → Bool × Nat
  | .nothing => (false, 0)
  | .assocAssignments words => (true, words.length)
  | .assignments found => (false, found.length)
  | .function _ _ temporaries => (false, temporaries.length)
  | .builtin _ _ temporaries => (false, temporaries.length)
  | .program _ _ temporaries => (false, temporaries.length)
  | .execProgram _ => (false, 0)

/-- A name and an equals sign. -/
def isPosixAssignment (word : Text) : Bool := (splitPosixAssignment arkshMaxToken word).isSome

def ArkshCommandStageNode.words (stage : ArkshCommandStageNode) : List Text :=
  stage.name :: stage.args

def sourceAssignments (stage : ArkshCommandStageNode) : Bool × Nat :=
  if stage.words.all isAssocAssignment then (true, stage.words.length)
  else (false, (stage.words.takeWhile isPosixAssignment).length)

section World

variable (W : ResolveWorld ρ F Fn)

def wordValues (expand : Text → SudoState ρ → Except Text (List Text) × SudoState ρ) :
    List Text → SudoState ρ → Option (List (List Text))
  | [], _ => some []
  | raw :: raws, s =>
    match expand raw s with
    | (.error _, _) => none
    | (.ok values, s) => (wordValues expand raws s).map (values :: ·)

/-- How a word behind the first expands: to one value behind `[[`. -/
def expandBehind (stage : ArkshCommandStageNode) (raw : Text) (s : SudoState ρ) :
    Except Text (List Text) × SudoState ρ :=
  if stage.name = "[[".toList then
    match W.expandConditional raw s with
    | (.error message, s) => (.error message, s)
    | (.ok value, s) => (.ok [value], s)
  else W.expandArgument raw s

def stageValues (stage : ArkshCommandStageNode) (s : SudoState ρ) : Option (List (List Text)) :=
  match W.expandName stage.name s with
  | (.error _, _) => none
  | (.ok word, s) => (wordValues (expandBehind W stage) stage.args s).map ([word] :: ·)

/-- A command whose words expand treats as assignments the values of the raw words that are
    assignments, in the form that they have there. -/
def AssignmentLaw (stage : ArkshCommandStageNode) (s : SudoState ρ) : Prop :=
  ∀ argv s' groups, simpleWords W stage s = (.ok argv, s') → stageValues W stage s = some groups →
    (executeSimpleCommand W stage s).treated =
      ((sourceAssignments stage).1,
        ((groups.take (sourceAssignments stage).2).flatten).length)

def ValuesAsSource (stage : ArkshCommandStageNode) (groups : List (List Text)) : Prop :=
  if stage.words.all isAssocAssignment then ∀ value ∈ groups.flatten, isAssocAssignment value = true
  else
    (∃ value ∈ groups.flatten, isAssocAssignment value = false) ∧
      (∀ value ∈ (groups.take (sourceAssignments stage).2).flatten, isPosixAssignment value = true) ∧
      ∀ value ∈ ((groups.drop (sourceAssignments stage).2).flatten).head?,
        isPosixAssignment value = false

end World

/-! ## 2. What a run treats as assignments -/

section Treated

variable {W : ResolveWorld ρ F Fn} {stage : ArkshCommandStageNode} {s s' : SudoState ρ}
  {argv : List Text} {groups : List (List Text)}
  {expand : Text → SudoState ρ → Except Text (List Text) × SudoState ρ}

theorem resolveWords_treated {words : List Text} (hwords : words ≠ [])
    (temporaries : List PosixAssignment) (s : SudoState ρ) :
    (resolveWords W words temporaries s).treated = (false, temporaries.length) := by
  obtain ⟨word, rest, rfl⟩ := exists_cons_of_ne_nil hwords
  unfold resolveWords
  dsimp only
  split
  · rfl
  · split <;> rfl

theorem splitArgv_length (argv : List Text) :
    (splitArgv argv).1.length = (argv.takeWhile isPosixAssignment).length := by
  induction argv with
  | nil => rfl
  | cons word rest ih =>
    cases hword : splitPosixAssignment arkshMaxToken word with
    | none =>
      have hnot : isPosixAssignment word = false := by rw [isPosixAssignment, hword]; rfl
      rw [splitArgv_none rest hword, takeWhile_cons, hnot]
      rfl
    | some assignment =>
      have hform : isPosixAssignment word = true := by rw [isPosixAssignment, hword]; rfl
      rw [splitArgv_some rest hword, takeWhile_cons, hform]
      exact congrArg Nat.succ ih

/-- **A run looks at the expanded words only.** -/
theorem executeSimpleCommand_treated (hwords : simpleWords W stage s = (.ok argv, s'))
    (hne : argv ≠ []) : (executeSimpleCommand W stage s).treated =
      if argv.all isAssocAssignment then (true, argv.length)
      else (false, (argv.takeWhile isPosixAssignment).length) := by
  rw [executeSimpleCommand, hwords]
  dsimp only
  rw [if_neg hne, ← splitArgv_length]
  by_cases hassoc : argv.all isAssocAssignment = true
  · rw [if_pos hassoc, if_pos hassoc]; rfl
  rw [if_neg hassoc, if_neg hassoc]
  by_cases hcommand : (splitArgv argv).2 = []
  · rw [if_pos hcommand]; rfl
  rw [if_neg hcommand]
  by_cases hassignments : (splitArgv argv).1 = []
  · rw [if_pos hassignments, resolveWords_treated hne, hassignments]
  · rw [if_neg hassignments, resolveWords_treated hcommand]

theorem wordValues_length :
    ∀ {raws : List Text} {s : SudoState ρ} {groups : List (List Text)},
      wordValues expand raws s = some groups → groups.length = raws.length := by
  intro raws
  induction raws with
  | nil =>
    intro s groups h
    cases h
    rfl
  | cons raw raws ih =>
    intro s groups h
    rw [wordValues] at h
    split at h
    · cases h
    · obtain ⟨rest, hrest, rfl⟩ := Option.map_eq_some_iff.mp h; exact congrArg Nat.succ (ih hrest)

theorem expandArguments_values : ∀ {raws front : List Text} {s : SudoState ρ},
    expandArguments W raws front s = (.ok argv, s') →
      ∃ groups, wordValues W.expandArgument raws s = some groups ∧ argv = front ++ groups.flatten := by
  intro raws
  induction raws with
  | nil =>
    intro front s h
    cases h
    exact ⟨[], rfl, by simp⟩
  | cons raw raws ih =>
    intro front s h
    rw [expandArguments] at h
    rw [wordValues]
    rcases hexpand : W.expandArgument raw s with ⟨_ | values, s₁⟩
    · rw [hexpand] at h; cases h
    · rw [hexpand] at h
      dsimp only at h
      split at h
      · cases h
      · obtain ⟨groups, hgroups, rfl⟩ := ih h
        exact ⟨values :: groups, congrArg (Option.map _) hgroups, by simp⟩

theorem expandConditionals_values
    (hexpand : ∀ raw s, expand raw s = match W.expandConditional raw s with
      | (.error message, s) => (.error message, s)
      | (.ok value, s) => (.ok [value], s)) :
    ∀ {raws front : List Text} {s : SudoState ρ},
      expandConditionals W raws front s = (.ok argv, s') →
        ∃ groups, wordValues expand raws s = some groups ∧ argv = front ++ groups.flatten := by
  intro raws
  induction raws with
  | nil =>
    intro front s h
    cases h
    exact ⟨[], rfl, by simp⟩
  | cons raw raws ih =>
    intro front s h
    rw [expandConditionals] at h
    rw [wordValues, hexpand]
    rcases hvalue : W.expandConditional raw s with ⟨_ | value, s₁⟩
    · rw [hvalue] at h; cases h
    · rw [hvalue] at h
      dsimp only at h
      split at h
      · cases h
      · obtain ⟨groups, hgroups, rfl⟩ := ih h
        exact ⟨[value] :: groups, congrArg (Option.map _) hgroups, by simp⟩

theorem simpleWords_values (h : simpleWords W stage s = (.ok argv, s')) :
    ∃ groups, stageValues W stage s = some groups ∧ argv = groups.flatten ∧ argv ≠ [] ∧
      groups.length = stage.words.length := by
  have hbehind : ∃ word s₁ groups, W.expandName stage.name s = (.ok word, s₁) ∧
      wordValues (expandBehind W stage) stage.args s₁ = some groups ∧
      argv = [word] ++ groups.flatten := by
    rw [simpleWords] at h
    by_cases hname : stage.name = "[[".toList
    · rw [if_pos hname, expandConditionalArguments] at h
      split at h
      · cases h
      · next word s₁ hword =>
        have hexpand : ∀ raw s, expandBehind W stage raw s = match W.expandConditional raw s with
            | (.error message, s) => (.error message, s)
            | (.ok value, s) => (.ok [value], s) := by
          intro raw s
          rw [expandBehind, if_pos hname]
        obtain ⟨groups, hgroups, hargv⟩ := expandConditionals_values hexpand h
        exact ⟨word, s₁, groups, hword, hgroups, hargv⟩
    · rw [if_neg hname, expandCommandArguments] at h
      split at h
      · cases h
      · next word s₁ hword =>
        have hexpand : expandBehind W stage = W.expandArgument := by
          funext raw s
          rw [expandBehind, if_neg hname]
        obtain ⟨groups, hgroups, hargv⟩ := expandArguments_values h
        exact ⟨word, s₁, groups, hword, by rw [hexpand]; exact hgroups, hargv⟩
  obtain ⟨word, s₁, groups, hword, hgroups, hargv⟩ := hbehind
  refine ⟨[word] :: groups, ?_, by rw [hargv]; rfl, by rw [hargv]; simp, ?_⟩
  · rw [stageValues, hword]; exact congrArg (Option.map _) hgroups
  · exact congrArg Nat.succ (wordValues_length hgroups)

end Treated

/-! ## 3. The law -/

theorem takeWhile_length_iff {p : Text → Bool} {front back : List Text} :
    ((front ++ back).takeWhile p).length = front.length ↔
      (∀ value ∈ front, p value = true) ∧ ∀ value ∈ back.head?, p value = false := by
  constructor
  · intro h
    have hfront : ∀ value ∈ front, p value = true := by
      have hprefix : (front ++ back).takeWhile p = front := by
        have hfirst := takeWhile_prefix p (l := front ++ back)
        rw [prefix_iff_eq_take, h, take_left] at hfirst
        exact hfirst
      intro value hvalue
      rw [← hprefix] at hvalue
      exact mem_takeWhile_imp hvalue
    refine ⟨hfront, fun value hvalue => ?_⟩
    rw [takeWhile_append_of_pos hfront, length_append] at h
    cases back with
    | nil => cases hvalue
    | cons b back =>
      cases hvalue
      rw [← Bool.not_eq_true]
      intro hb
      rw [takeWhile_cons_of_pos hb, length_cons] at h
      omega
  · rintro ⟨hfront, hback⟩
    rw [takeWhile_append_of_pos hfront, length_append]
    cases back with
    | nil => rfl
    | cons b back =>
      have hb := hback b rfl
      rw [takeWhile_cons_of_neg (by rw [hb]; exact Bool.false_ne_true)]
      rfl

/-- **Assignments are recognised from the source where the values have the form of their words**, and
    nowhere else. -/
theorem assignmentLaw_iff (W : ResolveWorld ρ F Fn) (stage : ArkshCommandStageNode)
    (s : SudoState ρ) :
    AssignmentLaw W stage s ↔ ∀ argv s' groups, simpleWords W stage s = (.ok argv, s') →
      stageValues W stage s = some groups → ValuesAsSource stage groups := by
  refine forall_congr' fun argv => forall_congr' fun s' => forall_congr' fun groups =>
    imp_congr_right fun hwords => imp_congr_right fun hvalues => ?_
  obtain ⟨groups', hgroups', hargv, hne, hlength⟩ := simpleWords_values hwords
  obtain rfl : groups' = groups := Option.some.inj (hgroups'.symm.trans hvalues)
  rw [executeSimpleCommand_treated hwords hne, ValuesAsSource]
  by_cases hsource : stage.words.all isAssocAssignment = true
  · have hassignments : sourceAssignments stage = (true, stage.words.length) := if_pos hsource
    rw [if_pos hsource, hassignments, ← hlength, take_length, ← hargv, ← all_eq_true]
    by_cases hassoc : argv.all isAssocAssignment = true
    · rw [if_pos hassoc]; exact iff_of_true rfl hassoc
    · rw [if_neg hassoc]
      refine iff_of_false (fun h => ?_) hassoc
      cases congrArg Prod.fst h
  · have hassignments : (sourceAssignments stage).1 = false := by
      rw [sourceAssignments, if_neg hsource]
    generalize (sourceAssignments stage).2 = count
    have hsplit : (groups'.take count).flatten ++ (groups'.drop count).flatten = argv := by
      rw [← flatten_append, take_append_drop, hargv]
    have hassoc : argv.all isAssocAssignment = true ↔
        ¬ ∃ value ∈ groups'.flatten, isAssocAssignment value = false := by
      rw [hargv, all_eq_true]
      push Not
      simp only [Bool.not_eq_false]
    rw [if_neg hsource, hassignments]
    by_cases hall : argv.all isAssocAssignment = true
    · rw [if_pos hall]
      refine iff_of_false (fun h => ?_) fun h => hassoc.mp hall h.1
      cases congrArg Prod.fst h
    · rw [if_neg hall, Prod.mk.injEq, ← hsplit, takeWhile_length_iff]; tauto

/-! ## 4. A variable as the first word -/

def oneVariableView : ShellView (SudoState Unit) where
  lastStatus _ := 0
  shellPid _ := 1
  lastBgPid _ := -1
  parentPid _ := 0
  processId _ := 1
  currentSourceLine _ := 0
  functionName _ := none
  currentSourcePath _ := []
  programPath _ := "arksh".toList
  optNounset _ := false
  positional _ := []
  getVar _ name := if name = ['x'] then some "PATH=/tmp".toList else none
  setVar s _ _ := s
  assocBinding _ _ := none
  executeCommand s _ := ([], s)

def oneVariableWorld : ResolveWorld Unit Unit Unit where
  expandName raw s :=
    match expandRawToken oneVariableView s .commandName raw with
    | .ok e => (.ok e.expanded, e.shell)
    | .error _ => (.error [], s)
  expandArgument raw s := (.ok [raw], s)
  expandConditional raw s := (.ok raw, s)
  findFunction _ _ := none
  findRegisteredCommand _ _ := none
  assign _ s := s
  expandTargets _ s := s

/-- `$x`, where `x` is `PATH=/tmp`. -/
theorem not_assignmentLaw : ¬ ∀ stage s, AssignmentLaw oneVariableWorld stage s := by
  intro h
  have hname : oneVariableWorld.expandName "$x".toList plainSudoState =
      (.ok "PATH=/tmp".toList, plainSudoState) := rfl
  have hwords : simpleWords oneVariableWorld ⟨"$x".toList, [], []⟩ plainSudoState =
      (.ok ["PATH=/tmp".toList], plainSudoState) := by
    rfl
  have hvalues : stageValues oneVariableWorld ⟨"$x".toList, [], []⟩ plainSudoState =
      some [["PATH=/tmp".toList]] := by
    rfl
  have hlaw := h ⟨"$x".toList, [], []⟩ plainSudoState _ _ _ hwords hvalues
  exact absurd hlaw (by decide)

end Arksh
