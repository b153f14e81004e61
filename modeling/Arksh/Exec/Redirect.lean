/-
  Subject: The descriptors with which the programs of a pipeline are executed.

  `arksh_platform_run_process_pipeline` opens the pipe behind a stage, forks, and in the child
  connects stdin and stdout, carries out the redirections, closes what it opened, and executes the
  program. What it opened are the lowest descriptors that were free; nothing keeps them apart from
  those that the redirections name.
-/
import Arksh.Lib.Descriptors
import Arksh.Shell.Line

namespace Arksh

open CText Descriptors Descriptors.FdTable Option Nat

/-! ## 1. Redirections -/

def arkshMaxRedirections : Nat := 8

inductive ArkshRedirectionKind where
  | input | outputTruncate | outputAppend | errorTruncate | errorAppend | errorToOutput
  | fdInput | fdOutputTruncate | fdOutputAppend | fdDupInput | fdDupOutput | fdClose
  | hereString | heredoc
  deriving DecidableEq

def ArkshRedirectionKind.isDup (kind : ArkshRedirectionKind) : Bool :=
  kind = .errorToOutput || kind = .fdDupInput || kind = .fdDupOutput

structure ArkshRedirectionNode where
  kind : ArkshRedirectionKind
  fd : Nat
  targetFd : Option Nat
  rawTarget : Text
  heredocBody : Text
  hasTarget : targetFd.isSome = kind.isDup

inductive OpenMode where
  | read | truncate | append
  deriving DecidableEq

/-- `ArkshPlatformRedirectionSpec`; a `target_fd` of -1 is `none`. -/
structure ArkshPlatformRedirectionSpec where
  fd : Nat
  inputMode : Bool
  appendMode : Bool
  targetFd : Option Nat
  closeTarget : Bool
  path : Text
  text : Text

/-- What a descriptor refers to: an entry of the shell's table, a pipe, or what a redirection
    opened. -/
inductive OpenFile where
  | inherited (label : Nat)
  | pipeRead (stage : Nat)
  | pipeWrite (stage : Nat)
  | captureRead
  | captureWrite
  | opened (redirection : Nat) (path : Text) (mode : OpenMode)
  | text (redirection : Nat) (content : Text)
  deriving DecidableEq

/-- What the shell and the system answer: the expansion of the target of a redirection, and
    whether a file can be opened for one. -/
structure RedirectionWorld where
  expand : Nat → Text → Option Text
  opens : Nat → Text → OpenMode → Bool

def ArkshRedirectionKind.openMode : ArkshRedirectionKind → Option OpenMode
  | .input | .fdInput => some .read
  | .outputTruncate | .fdOutputTruncate | .errorTruncate => some .truncate
  | .outputAppend | .fdOutputAppend | .errorAppend => some .append
  | _ => none

/-! ## 2. What the redirections mean -/

variable (world : RedirectionWorld)

inductive RedirectionEffect where
  | close
  | text (content : Text)
  | file (path : Text) (mode : OpenMode)
  | copy (source : Nat)
  deriving DecidableEq

def ArkshRedirectionNode.effect (i : Nat) (r : ArkshRedirectionNode) : Option RedirectionEffect :=
  match r.kind, r.kind.openMode with
  | .fdClose, _ => some .close
  | .heredoc, _ => some (.text r.heredocBody)
  | .hereString, _ => (world.expand i r.rawTarget).map fun value => .text (value ++ ['\n'])
  | _, some mode => (world.expand i r.rawTarget).map fun path => .file path mode
  | _, none => r.targetFd.map .copy

def posixEffect (i fd : Nat) (effect : RedirectionEffect) (t : FdTable OpenFile) :
    Option (FdTable OpenFile) :=
  match effect with
  | .close => some (close t fd)
  | .text content => some (putEntry t fd (some (.text i content)))
  | .file path mode =>
    if path = [] ∨ world.opens i path mode = false then none
    else some (putEntry t fd (some (.opened i path mode)))
  | .copy source => dup2 t source fd

def posixRedirection (i : Nat) (r : ArkshRedirectionNode) (t : FdTable OpenFile) :
    Option (FdTable OpenFile) :=
  (r.effect world i).bind fun effect => posixEffect world i r.fd effect t

/-- The redirections from left to right, counted from `i`. -/
def posixRedirections : Nat → List ArkshRedirectionNode → FdTable OpenFile →
    Option (FdTable OpenFile)
  | _, [], t => some t
  | i, r :: rs, t => (posixRedirection world i r t).bind (posixRedirections (i + 1) rs)

/-- The place of a stage in a pipeline. `capture`: the shell reads the output of the last stage. -/
structure StagePlace where
  stage : Nat
  count : Nat
  capture : Bool
  inside : stage < count

def connected (place : StagePlace) (t : FdTable OpenFile) : FdTable OpenFile :=
  let t := if 0 < place.stage then putEntry t 0 (some (.pipeRead (place.stage - 1))) else t
  if place.stage + 1 < place.count then putEntry t 1 (some (.pipeWrite place.stage))
  else if place.capture = true then putEntry t 1 (some .captureWrite)
  else t

def shellTable (table : FdTable Nat) : FdTable OpenFile := table.map (Option.map .inherited)

/-- The table that the place and the redirections mean, or `none` where one of them fails. -/
def posixDescriptors (table : FdTable Nat) (place : StagePlace) (rs : List ArkshRedirectionNode) :
    Option (FdTable OpenFile) :=
  posixRedirections world 0 rs (connected place (shellTable table))

/-! ## 3. What the child does -/

/-- The redirection of a stage in `populate_process_spec_from_stage`. -/
def populateRedirection (i : Nat) (r : ArkshRedirectionNode) :
    Option ArkshPlatformRedirectionSpec :=
  let spec : ArkshPlatformRedirectionSpec := ⟨r.fd, false, false, r.targetFd, false, [], []⟩
  match r.kind with
  | .input | .fdInput =>
    (world.expand i r.rawTarget).map fun path => { spec with inputMode := true, path }
  | .outputTruncate | .fdOutputTruncate | .errorTruncate =>
    (world.expand i r.rawTarget).map fun path => { spec with path }
  | .outputAppend | .fdOutputAppend | .errorAppend =>
    (world.expand i r.rawTarget).map fun path => { spec with appendMode := true, path }
  | .errorToOutput | .fdDupInput | .fdDupOutput => some spec
  | .fdClose => some { spec with closeTarget := true }
  | .heredoc => some { spec with inputMode := true, text := r.heredocBody }
  | .hereString =>
    (world.expand i r.rawTarget).map fun value =>
      { spec with inputMode := true, text := value ++ ['\n'] }

/-- The loop over the redirections of a stage, with its check of the room. -/
def populateRedirections : Nat → List ArkshRedirectionNode →
    Option (List ArkshPlatformRedirectionSpec)
  | _, [] => some []
  | i, r :: rs =>
    if arkshMaxRedirections ≤ i then none
    else
      (populateRedirection world i r).bind fun spec =>
        (populateRedirections (i + 1) rs).map (spec :: ·)

structure StagePipes where
  table : FdTable OpenFile
  previousRead : Option Nat
  nextPipe : Option (Nat × Nat)
  capturePipe : Option (Nat × Nat)

/-- A round of the loop of `arksh_platform_run_process_pipeline` up to `fork`. -/
def openStagePipes (count : Nat) (capture : Bool) (stage : Nat)
    (before : FdTable OpenFile × Option Nat) : StagePipes :=
  if stage + 1 < count then
    let p := pipe before.1 (.pipeRead stage) (.pipeWrite stage)
    ⟨p.2, before.2, some p.1, none⟩
  else if capture = true then
    let p := pipe before.1 .captureRead .captureWrite
    ⟨p.2, before.2, none, some p.1⟩
  else ⟨before.1, before.2, none, none⟩

def beforeRound (table : FdTable Nat) (count : Nat) (capture : Bool) :
    Nat → FdTable OpenFile × Option Nat
  | 0 => (shellTable table, none)
  | stage + 1 =>
    let p := openStagePipes count capture stage (beforeRound table count capture stage)
    (closeAll p.table (p.previousRead.toList ++ (p.nextPipe.map Prod.snd).toList ++
      (p.capturePipe.map Prod.snd).toList), p.nextPipe.map Prod.fst)

def stagePipes (table : FdTable Nat) (place : StagePlace) : StagePipes :=
  openStagePipes place.count place.capture place.stage
    (beforeRound table place.count place.capture place.stage)

/-- A `dup2` whose failure is ignored. -/
def dup2OrKeep (t : FdTable OpenFile) (oldFd newFd : Nat) : FdTable OpenFile :=
  (dup2 t oldFd newFd).getD t

def connectInput (p : StagePipes) : FdTable OpenFile :=
  match p.previousRead with
  | some fd => dup2OrKeep p.table fd 0
  | none => p.table

def connectChild (p : StagePipes) : FdTable OpenFile :=
  match p.nextPipe, p.capturePipe with
  | some next, _ => dup2OrKeep (connectInput p) next.2 1
  | none, some capture => dup2OrKeep (connectInput p) capture.2 1
  | none, none => connectInput p

def StagePipes.descriptors (p : StagePipes) : List Nat :=
  p.previousRead.toList ++ (p.nextPipe.elim [] fun next => [next.1, next.2]) ++
    (p.capturePipe.elim [] fun capture => [capture.1, capture.2])

def ArkshPlatformRedirectionSpec.mode (spec : ArkshPlatformRedirectionSpec) : OpenMode :=
  if spec.inputMode then .read else if spec.appendMode then .append else .truncate

/-- One redirection in the child. The list has the descriptors that it got from `open` and
    `pipe`. -/
def childRedirection (i : Nat) (spec : ArkshPlatformRedirectionSpec)
    (s : FdTable OpenFile × List Nat) : Option (FdTable OpenFile × List Nat) :=
  if spec.closeTarget = true then some (close s.1 spec.fd, s.2)
  else if spec.text ≠ [] then
    let p := pipe s.1 (.text i spec.text) (.text i spec.text)
    (dup2 (close p.2 p.1.2) p.1.1 spec.fd).map fun t => (t, p.1.1 :: s.2)
  else if spec.path ≠ [] then
    if world.opens i spec.path spec.mode = false then none
    else
      let p := openFile s.1 (.opened i spec.path spec.mode)
      (dup2 p.2 p.1 spec.fd).map fun t => (t, p.1 :: s.2)
  else
    match spec.targetFd with
    | some source => (dup2 s.1 source spec.fd).map fun t => (t, s.2)
    | none => some s

def childRedirections : Nat → List ArkshPlatformRedirectionSpec → FdTable OpenFile × List Nat →
    Option (FdTable OpenFile × List Nat)
  | _, [], s => some s
  | i, spec :: specs, s => (childRedirection world i spec s).bind (childRedirections (i + 1) specs)

/-- The table with which the program of the stage is executed, or `none` where it is not. -/
def childDescriptors (table : FdTable Nat) (place : StagePlace) (rs : List ArkshRedirectionNode) :
    Option (FdTable OpenFile) :=
  let p := stagePipes table place
  (populateRedirections world 0 rs).bind fun specs =>
    (childRedirections world 0 specs (connectChild p, [])).map fun s =>
      closeAll s.1 (p.descriptors ++ s.2)

/-! ## 4. The law -/

def SameEntries : Option (FdTable OpenFile) → Option (FdTable OpenFile) → Prop
  | some t, some t' => ∀ n, entry t n = entry t' n
  | none, none => True
  | _, _ => False

/-- The program is executed with the descriptors that the redirections mean, or not at all where one
    of them fails. -/
def RedirectionLaw (table : FdTable Nat) (place : StagePlace) (rs : List ArkshRedirectionNode) :
    Prop :=
  SameEntries (childDescriptors world table place rs) (posixDescriptors world table place rs)

/-- The redirection of `fd` meets no descriptor that the child opened itself (`own`, and the one
    that comes next), and neither its text nor its name is empty. -/
def KeepsApart (i fd : Nat) (effect : RedirectionEffect) (t : FdTable OpenFile)
    (own : List Nat) : Prop :=
  match effect with
  | .close => True
  | .text content => content ≠ [] ∧ fd ∉ lowestFree t :: own
  | .file path mode => path ≠ [] ∧ (world.opens i path mode = true → fd ∉ lowestFree t :: own)
  | .copy source => entry t source ≠ none → source ∉ own ∧ fd ∉ own

def AllKeepApart (pipes : List Nat) : Nat → List ArkshRedirectionNode →
    FdTable OpenFile × List Nat → Prop
  | _, [], _ => True
  | i, r :: rs, s =>
    (∀ effect, r.effect world i = some effect →
      KeepsApart world i r.fd effect s.1 (pipes ++ s.2)) ∧
    ∀ spec s', populateRedirection world i r = some spec →
      childRedirection world i spec s = some s' → AllKeepApart pipes (i + 1) rs s'

/-- The pipes are apart from the standard descriptors that they are connected to, and the
    redirections from what the child opens. -/
def DescriptorsApart (table : FdTable Nat) (place : StagePlace) (rs : List ArkshRedirectionNode) :
    Prop :=
  let p := stagePipes table place
  (∀ fd ∈ p.descriptors, entry (connected place (shellTable table)) fd = none) ∧
    AllKeepApart world p.descriptors 0 rs (connectChild p, [])

/-! ## 5. One redirection in the child -/

section Step

variable {world} {C E : FdTable OpenFile} {own pipes opened : List Nat} {i fd : Nat}

structure DescriptorsMatch (C : FdTable OpenFile) (own : List Nat) (E : FdTable OpenFile) : Prop where
  agree : ∀ n, n ∉ own → entry C n = entry E n
  clear : ∀ n, n ∈ own → entry E n = none

theorem sameEntries_closeAll :
    SameEntries (some (closeAll C own)) (some E) ↔ DescriptorsMatch C own E := by
  constructor
  · intro h
    refine ⟨fun n hn => ?_, fun n hn => ?_⟩
    · have hsame := h n
      rw [entry_closeAll, if_neg hn] at hsame
      exact hsame
    · have hsame := h n
      rw [entry_closeAll, if_pos hn] at hsame
      exact hsame.symm
  · intro h n
    rw [entry_closeAll]
    by_cases hn : n ∈ own
    · rw [if_pos hn, h.clear n hn]
    · rw [if_neg hn, h.agree n hn]

def StepMatches (pipes : List Nat) :
    Option (FdTable OpenFile × List Nat) → Option (FdTable OpenFile) → Prop
  | some s, some E => DescriptorsMatch s.1 (pipes ++ s.2) E
  | none, none => True
  | _, _ => False

/-- The spec that `populate_process_spec_from_stage` makes of it. -/
def RedirectionEffect.spec (fd : Nat) : RedirectionEffect → ArkshPlatformRedirectionSpec
  | .close => ⟨fd, false, false, none, true, [], []⟩
  | .text content => ⟨fd, true, false, none, false, [], content⟩
  | .file path .read => ⟨fd, true, false, none, false, path, []⟩
  | .file path .truncate => ⟨fd, false, false, none, false, path, []⟩
  | .file path .append => ⟨fd, false, true, none, false, path, []⟩
  | .copy source => ⟨fd, false, false, some source, false, [], []⟩

theorem populateRedirection_eq (i : Nat) (r : ArkshRedirectionNode) :
    populateRedirection world i r = (r.effect world i).map (RedirectionEffect.spec r.fd) := by
  obtain ⟨kind, fd, target, raw, body, has⟩ := r
  cases kind <;> cases target <;> first
    | (exact absurd has Bool.noConfusion)
    | (simp only [populateRedirection, ArkshRedirectionNode.effect,
        ArkshRedirectionKind.openMode, map_map]
       rfl)

/-- What the child opened itself is closed again, unless it is the descriptor to be redirected. -/
theorem match_assign_iff {C' : FdTable OpenFile} {own' : List Nat} {a : Nat} {f : OpenFile}
    (h : DescriptorsMatch C own E) (hfree : entry C a = none)
    (hC' : ∀ n, n ≠ a → entry C' n = if n = fd then some f else entry C n)
    (hown' : ∀ n, n ∈ own' ↔ n ∈ a :: own) :
    DescriptorsMatch C' own' (putEntry E fd (some f)) ↔ fd ∉ a :: own := by
  constructor
  · intro hmatch hmem
    have hclear := hmatch.clear fd ((hown' fd).mpr hmem)
    rw [entry_putEntry_self] at hclear
    cases hclear
  · intro hfd
    refine ⟨fun n hn => ?_, fun n hn => ?_⟩
    · have hapart : n ∉ a :: own := fun hmem => hn ((hown' n).mpr hmem)
      have hne : n ≠ a := fun heq => hapart (heq ▸ List.mem_cons_self)
      have hold : n ∉ own := fun hmem => hapart (List.mem_cons_of_mem a hmem)
      rw [hC' n hne, entry_putEntry, h.agree n hold]
    · have hmem := (hown' n).mp hn
      have hne : n ≠ fd := fun heq => hfd (heq ▸ hmem)
      rw [entry_putEntry_of_ne E _ hne]
      by_cases hold : n ∈ own
      · exact h.clear n hold
      · have heq : n = a := (List.mem_cons.mp hmem).resolve_right hold
        rw [← h.agree n hold, heq, hfree]

theorem mem_own_cons (a n : Nat) : n ∈ pipes ++ a :: opened ↔ n ∈ a :: (pipes ++ opened) := by
  simp only [List.mem_append, List.mem_cons]
  tauto

theorem childRedirection_text {content : Text} (hcontent : content ≠ []) :
    childRedirection world i ((RedirectionEffect.text content).spec fd) (C, opened) =
      (dup2 (close (pipe C (.text i content) (.text i content)).2
        (pipe C (.text i content) (.text i content)).1.2) (lowestFree C) fd).map
          fun t => (t, lowestFree C :: opened) :=
  if_pos hcontent

theorem childRedirection_file (path : Text) (mode : OpenMode) :
    childRedirection world i ((RedirectionEffect.file path mode).spec fd) (C, opened) =
      if path ≠ [] then if world.opens i path mode = false then none else
          (dup2 (putEntry C (lowestFree C) (some (.opened i path mode))) (lowestFree C) fd).map
            fun t => (t, lowestFree C :: opened) else some (C, opened) := by
  cases mode <;> rfl

def TextsBefore (i : Nat) (E : FdTable OpenFile) : Prop :=
  ∀ n j content, entry E n = some (.text j content) → j < i

theorem childText_match (content : Text) (h : DescriptorsMatch C (pipes ++ opened) E)
    (htexts : TextsBefore i E) :
    StepMatches pipes (childRedirection world i ((RedirectionEffect.text content).spec fd) (C, opened))
        (posixEffect world i fd (.text content) E) ↔
      KeepsApart world i fd (.text content) C (pipes ++ opened) := by
  by_cases hempty : content = []
  · -- the child does not touch the descriptor
    refine iff_of_false (fun hmatch => ?_) fun hkeeps => hkeeps.1 hempty
    subst hempty
    have hmatch : DescriptorsMatch C (pipes ++ opened) (putEntry E fd (some (.text i []))) := hmatch
    by_cases hown : fd ∈ pipes ++ opened
    · have hclear := hmatch.clear fd hown
      rw [entry_putEntry_self] at hclear
      cases hclear
    · have hagree := hmatch.agree fd hown
      rw [entry_putEntry_self, h.agree fd hown] at hagree
      exact lt_irrefl i (htexts fd i [] hagree)
  · have hread := entry_pipe_read C (.text i content : OpenFile) (.text i content)
    have hdup := dup2_of_entry ((hread (lowestFree C)).trans (if_pos rfl)) fd
    rw [childRedirection_text hempty, hdup]
    refine Iff.trans (match_assign_iff h (entry_lowestFree C) (fun n hn => ?_)
      (mem_own_cons _)) ⟨fun hfd => ⟨hempty, hfd⟩, fun hkeeps => hkeeps.2⟩
    rw [entry_putEntry, hread, if_neg hn]

theorem childFile_match (path : Text) (mode : OpenMode)
    (h : DescriptorsMatch C (pipes ++ opened) E) :
    StepMatches pipes (childRedirection world i ((RedirectionEffect.file path mode).spec fd) (C, opened))
        (posixEffect world i fd (.file path mode) E) ↔
      KeepsApart world i fd (.file path mode) C (pipes ++ opened) := by
  rw [childRedirection_file]
  have hposix : posixEffect world i fd (.file path mode) E =
      if path = [] ∨ world.opens i path mode = false then none
      else some (putEntry E fd (some (.opened i path mode))) := rfl
  rw [hposix]
  by_cases hempty : path = []
  · rw [if_neg (not_not_intro hempty), if_pos (Or.inl hempty)]
    exact iff_of_false id fun hkeeps => hkeeps.1 hempty
  · rw [if_pos hempty]
    by_cases hopens : world.opens i path mode = false
    · rw [if_pos hopens, if_pos (Or.inr hopens)]
      refine iff_of_true trivial ⟨hempty, fun hopen => ?_⟩
      rw [hopens] at hopen
      cases hopen
    · have hopen : world.opens i path mode = true := Bool.eq_true_of_not_eq_false hopens
      rw [if_neg hopens, if_neg (not_or_intro hempty hopens)]
      have hdup := dup2_of_entry (entry_putEntry_self C (lowestFree C)
        (some (.opened i path mode : OpenFile))) fd
      rw [hdup]
      refine Iff.trans (match_assign_iff h (entry_lowestFree C) (fun n hn => ?_)
        (mem_own_cons _)) ⟨fun hfd => ⟨hempty, fun _ => hfd⟩, fun hkeeps => hkeeps.2 hopen⟩
      rw [entry_putEntry, entry_putEntry_of_ne C _ hn]

theorem childCopy_match (source : Nat) (h : DescriptorsMatch C (pipes ++ opened) E) :
    StepMatches pipes (childRedirection world i ((RedirectionEffect.copy source).spec fd) (C, opened))
        (posixEffect world i fd (.copy source) E) ↔
      KeepsApart world i fd (.copy source) C (pipes ++ opened) := by
  have hstep : childRedirection world i ((RedirectionEffect.copy source).spec fd) (C, opened) =
      (dup2 C source fd).map fun t => (t, opened) := rfl
  rw [hstep]
  show StepMatches pipes _ (dup2 E source fd) ↔ _
  by_cases hopen : entry C source = none
  · -- neither table has the source
    have hmeant : entry E source = none := by
      by_cases hown : source ∈ pipes ++ opened
      · exact h.clear source hown
      · rw [← h.agree source hown, hopen]
    rw [dup2_of_free hopen, dup2_of_free hmeant]
    exact iff_of_true trivial fun hsome => absurd hopen hsome
  · obtain ⟨f, hf⟩ := ne_none_iff_exists'.mp hopen
    rw [dup2_of_entry hf]
    by_cases hown : source ∈ pipes ++ opened
    · rw [dup2_of_free (h.clear source hown)]
      exact iff_of_false id fun hkeeps => (hkeeps hopen).1 hown
    · rw [dup2_of_entry ((h.agree source hown).symm.trans hf)]
      constructor
      · intro hmatch hsome
        refine ⟨hown, fun hfd => ?_⟩
        have hclear := hmatch.clear fd hfd
        rw [entry_putEntry_self] at hclear
        cases hclear
      · intro hkeeps
        have hfd := (hkeeps hopen).2
        refine ⟨fun n hn => ?_, fun n hn => ?_⟩
        · show entry (putEntry C fd (some f)) n = _
          rw [entry_putEntry, entry_putEntry, h.agree n hn]
        · have hne : n ≠ fd := fun heq => hfd (heq ▸ hn)
          rw [entry_putEntry_of_ne E _ hne, h.clear n hn]

theorem childRedirection_match (effect : RedirectionEffect)
    (h : DescriptorsMatch C (pipes ++ opened) E) (htexts : TextsBefore i E) :
    StepMatches pipes (childRedirection world i (effect.spec fd) (C, opened))
        (posixEffect world i fd effect E) ↔ KeepsApart world i fd effect C (pipes ++ opened) := by
  cases effect with
  | close =>
    refine iff_of_true ⟨fun n hn => ?_, fun n hn => ?_⟩ trivial
    · show entry (close C fd) n = entry (close E fd) n; rw [entry_close, entry_close, h.agree n hn]
    · show entry (close E fd) n = none; rw [entry_close, h.clear n hn, ite_self]
  | text content => exact childText_match content h htexts
  | file path mode => exact childFile_match path mode h
  | copy source => exact childCopy_match source h

theorem posixEffect_texts {effect : RedirectionEffect} {E' : FdTable OpenFile}
    (hstep : posixEffect world i fd effect E = some E') (htexts : TextsBefore i E) :
    TextsBefore (i + 1) E' := by
  -- every call copies an entry, clears one, or makes one of its own number
  have hput : ∀ e : Option OpenFile, (∀ j content, e = some (.text j content) → j < i + 1) →
      TextsBefore (i + 1) (putEntry E fd e) := by
    intro e he n j content hentry
    rw [entry_putEntry] at hentry
    by_cases hn : n = fd
    · rw [if_pos hn] at hentry; exact he j content hentry
    · rw [if_neg hn] at hentry; exact lt_succ_of_lt (htexts n j content hentry)
  cases effect with
  | close => cases hstep; exact hput none fun j content he => by cases he
  | text content =>
    cases hstep
    refine hput _ fun j content' he => ?_
    cases he
    exact lt_succ_self i
  | file path mode =>
    have hposix : (if path = [] ∨ world.opens i path mode = false then none
        else some (putEntry E fd (some (.opened i path mode)))) = some E' := hstep
    by_cases hfails : path = [] ∨ world.opens i path mode = false
    · rw [if_pos hfails] at hposix; cases hposix
    · rw [if_neg hfails] at hposix
      cases hposix
      exact hput _ fun j content he => by cases he
  | copy source =>
    obtain ⟨f, hf, heq⟩ := map_eq_some_iff.mp (show dup2 E source fd = some E' from hstep)
    cases heq
    refine hput _ fun j content he => lt_succ_of_lt (htexts source j content ?_)
    rw [hf, he]

end Step

/-! ## 6. The redirections in the child -/

section Run

variable {world} {C E : FdTable OpenFile} {pipes opened : List Nat} {i : Nat}

/-- The child's part of `childDescriptors` before it closes anything. -/
def childRun (world : RedirectionWorld) (i : Nat) (rs : List ArkshRedirectionNode)
    (s : FdTable OpenFile × List Nat) : Option (FdTable OpenFile × List Nat) :=
  (populateRedirections world i rs).bind fun specs => childRedirections world i specs s

theorem childRun_cons (r : ArkshRedirectionNode) (rs : List ArkshRedirectionNode)
    (s : FdTable OpenFile × List Nat) (hi : i < arkshMaxRedirections) :
    childRun world i (r :: rs) s = (r.effect world i).bind fun effect =>
        (childRedirection world i (effect.spec r.fd) s).bind (childRun world (i + 1) rs) := by
  unfold childRun
  rw [populateRedirections, if_neg (not_le.mpr hi), populateRedirection_eq]
  cases r.effect world i with
  | none => rfl
  | some effect =>
    simp only [map_some, bind_some]
    cases populateRedirections world (i + 1) rs with
    | none =>
      cases childRedirection world i (effect.spec r.fd) s <;> rfl
    | some specs => rfl

theorem sameEntries_iff (x : Option (FdTable OpenFile × List Nat)) (y : Option (FdTable OpenFile)) :
    SameEntries (x.map fun s => closeAll s.1 (pipes ++ s.2)) y ↔ StepMatches pipes x y := by
  cases x with
  | none => cases y <;> exact Iff.rfl
  | some s =>
    cases y with
    | none => exact Iff.rfl
    | some E => exact sameEntries_closeAll

theorem allKeepApart_cons (r : ArkshRedirectionNode) (rs : List ArkshRedirectionNode)
    (s : FdTable OpenFile × List Nat) : AllKeepApart world pipes i (r :: rs) s ↔
      ∀ effect, r.effect world i = some effect → KeepsApart world i r.fd effect s.1 (pipes ++ s.2) ∧
          ∀ s', childRedirection world i (effect.spec r.fd) s = some s' →
            AllKeepApart world pipes (i + 1) rs s' := by
  constructor
  · intro h effect heffect
    refine ⟨h.1 effect heffect, fun s' hs' => h.2 (effect.spec r.fd) s' ?_ hs'⟩
    rw [populateRedirection_eq, heffect]
    rfl
  · intro h
    refine ⟨fun effect heffect => (h effect heffect).1, fun spec s' hspec hs' => ?_⟩
    rw [populateRedirection_eq] at hspec
    obtain ⟨effect, heffect, rfl⟩ := map_eq_some_iff.mp hspec
    exact (h effect heffect).2 s' hs'

/-- What comes behind a step matches, however far it goes, iff the step does and what follows
    does. -/
theorem stepMatches_bind (x : Option (FdTable OpenFile × List Nat)) (y : Option (FdTable OpenFile))
    (f : Nat → FdTable OpenFile × List Nat → Option (FdTable OpenFile × List Nat))
    (g : Nat → FdTable OpenFile → Option (FdTable OpenFile))
    (hf : ∀ s, f 0 s = some s) (hg : ∀ t, g 0 t = some t) :
    (∀ n, StepMatches pipes (x.bind (f n)) (y.bind (g n))) ↔
      StepMatches pipes x y ∧ ∀ s' E', x = some s' → y = some E' →
        ∀ n, StepMatches pipes (f n s') (g n E') := by
  have hf0 : x.bind (f 0) = x := by rw [funext hf, bind_fun_some]
  have hg0 : y.bind (g 0) = y := by rw [funext hg, bind_fun_some]
  constructor
  · intro hall
    have hfirst := hall 0
    rw [hf0, hg0] at hfirst
    refine ⟨hfirst, fun s' E' hx hy n => ?_⟩
    have hn := hall n
    rw [hx, hy] at hn
    exact hn
  · intro hrest n
    obtain ⟨hfirst, hafter⟩ := hrest
    cases x with
    | none =>
      cases y with
      | none => trivial
      | some E' => exact hfirst.elim
    | some s' =>
      cases y with
      | none => exact hfirst.elim
      | some E' => exact hafter s' E' rfl rfl n

theorem childRun_match (rs : List ArkshRedirectionNode)
    (hroom : i + rs.length ≤ arkshMaxRedirections)
    (h : DescriptorsMatch C (pipes ++ opened) E) (htexts : TextsBefore i E) :
    (∀ n, StepMatches pipes (childRun world i (rs.take n) (C, opened))
      (posixRedirections world i (rs.take n) E)) ↔ AllKeepApart world pipes i rs (C, opened) := by
  induction rs generalizing i C opened E with
  | nil =>
    refine iff_of_true (fun n => ?_) trivial
    rw [List.take_nil]
    exact h
  | cons r rs ih =>
    have hlength : i + rs.length + 1 ≤ arkshMaxRedirections := hroom
    have hi : i < arkshMaxRedirections := by omega
    have hchild : ∀ n, childRun world i ((r :: rs).take (n + 1)) (C, opened) =
        (r.effect world i).bind fun effect =>
          (childRedirection world i (effect.spec r.fd) (C, opened)).bind
            (childRun world (i + 1) (rs.take n)) := fun n => childRun_cons r (rs.take n) _ hi
    have hposix : ∀ n, posixRedirections world i ((r :: rs).take (n + 1)) E =
        ((r.effect world i).bind fun effect => posixEffect world i r.fd effect E).bind
          (posixRedirections world (i + 1) (rs.take n)) := fun n => rfl
    rw [allKeepApart_cons]
    cases heffect : r.effect world i with
    | none =>
      refine iff_of_true (fun n => ?_) fun effect hnone => by cases hnone
      cases n with
      | zero => exact h
      | succ n => rw [hchild, hposix, heffect]; trivial
    | some effect =>
      have hstep : StepMatches pipes (childRedirection world i (effect.spec r.fd) (C, opened))
            (posixEffect world i r.fd effect E) ↔
          KeepsApart world i r.fd effect C (pipes ++ opened) :=
        childRedirection_match effect h htexts
      have hfirst : (∀ n, StepMatches pipes (childRun world i ((r :: rs).take n) (C, opened))
          (posixRedirections world i ((r :: rs).take n) E)) ↔
          ∀ n, StepMatches pipes
            ((childRedirection world i (effect.spec r.fd) (C, opened)).bind
              (childRun world (i + 1) (rs.take n)))
            ((posixEffect world i r.fd effect E).bind
              (posixRedirections world (i + 1) (rs.take n))) := by
        constructor
        · intro hall n
          have hn := hall (n + 1)
          rw [hchild, hposix, heffect] at hn
          exact hn
        · intro hall n
          cases n with
          | zero => exact h
          | succ n => rw [hchild, hposix, heffect]; exact hall n
      rw [hfirst, stepMatches_bind _ _ _ _ (fun s => rfl) fun t => rfl, hstep]
      constructor
      · intro hmatch effect' heq
        cases heq
        refine ⟨hmatch.1, fun s' hs' => ?_⟩
        have hsteps := hstep.mpr hmatch.1
        rw [hs'] at hsteps
        cases hE' : posixEffect world i r.fd effect E with
        | none => rw [hE'] at hsteps; exact hsteps.elim
        | some E' =>
          rw [hE'] at hsteps
          exact (ih (by omega) hsteps (posixEffect_texts hE' htexts)).mp
            (hmatch.2 s' E' hs' hE')
      · intro hkeep
        obtain ⟨hapart, hafter⟩ := hkeep effect rfl
        refine ⟨hapart, fun s' E' hs' hE' => ?_⟩
        have hsteps := hstep.mpr hapart
        rw [hs', hE'] at hsteps
        exact (ih (by omega) hsteps (posixEffect_texts hE' htexts)).mpr (hafter s' hs')

end Run

/-! ## 7. The pipes of a stage -/

section Pipes

variable {table : FdTable Nat} {shell : FdTable OpenFile} {stage count : Nat} {capture : Bool}
  {before : FdTable OpenFile × Option Nat} {n : Nat} {p : StagePipes}

/-- What a round begins with: the entries of the shell, and the read end of the pipe from the
    previous stage. -/
structure RoundStart (shell : FdTable OpenFile) (stage : Nat)
    (before : FdTable OpenFile × Option Nat) : Prop where
  entries : ∀ n, before.2 ≠ some n → entry before.1 n = entry shell n
  first : stage = 0 → before.2 = none
  piped : 0 < stage → ∃ fd, before.2 = some fd ∧
    entry before.1 fd = some (.pipeRead (stage - 1)) ∧ entry shell fd = none

section

variable (h : RoundStart shell stage before)
include h

theorem RoundStart.free (hfree : entry before.1 n = none) :
    before.2 ≠ some n ∧ entry shell n = none := by
  have hne : before.2 ≠ some n := by
    intro heq
    have hstage : 0 < stage := pos_of_ne_zero fun hzero => by
      rw [h.first hzero] at heq
      cases heq
    obtain ⟨fd, hfd, hopen, _⟩ := h.piped hstage
    rw [hfd] at heq
    cases heq
    rw [hfree] at hopen
    cases hopen
  exact ⟨hne, (h.entries n hne).symm.trans hfree⟩

theorem RoundStart.previous (hn : before.2 = some n) :
    0 < stage ∧ entry before.1 n = some (.pipeRead (stage - 1)) ∧ entry shell n = none := by
  have hstage : 0 < stage := pos_of_ne_zero fun hzero => by
    rw [h.first hzero] at hn
    cases hn
  obtain ⟨fd, hfd, hopen⟩ := h.piped hstage
  rw [hfd] at hn
  cases hn
  exact ⟨hstage, hopen⟩

theorem RoundStart.next : RoundStart shell (stage + 1)
      (closeAll (pipe before.1 (.pipeRead stage) (.pipeWrite stage)).2
        (before.2.toList ++ [(pipe before.1 (.pipeRead stage) (.pipeWrite stage)).1.2]),
        some (pipe before.1 (.pipeRead stage) (.pipeWrite stage)).1.1) := by
  obtain ⟨hread, hwrite, hends⟩ := pipe_ends before.1 (.pipeRead stage) (.pipeWrite stage)
  have hentry := entry_pipe before.1 (.pipeRead stage) (.pipeWrite stage)
  generalize pipe before.1 (.pipeRead stage) (.pipeWrite stage) = p at *
  refine ⟨fun n hn => ?_, fun hzero => absurd hzero (succ_ne_zero stage), fun _ => ?_⟩
  · have hne : n ≠ p.1.1 := fun heq => hn (heq ▸ rfl)
    show entry (closeAll p.2 _) n = _
    rw [entry_closeAll, hentry, if_neg hne]
    by_cases hw : n = p.1.2
    · rw [if_pos (by simp [hw]), hw, (h.free hwrite).2]
    · by_cases hprevious : before.2 = some n
      · rw [if_pos (by simp [hprevious]), (h.previous hprevious).2.2]
      · rw [if_neg (by simp [hprevious, hw]), if_neg hw, h.entries n hprevious]
  · refine ⟨p.1.1, rfl, ?_, (h.free hread).2⟩
    show entry (closeAll p.2 _) p.1.1 = _
    rw [entry_closeAll, hentry, if_neg (Ne.symm hends), if_pos rfl,
      if_neg (by simp [(h.free hread).1, Ne.symm hends])]
    rfl

end

theorem openStagePipes_next (h : stage + 1 < count) : openStagePipes count capture stage before =
      ⟨(pipe before.1 (.pipeRead stage) (.pipeWrite stage)).2, before.2,
        some (pipe before.1 (.pipeRead stage) (.pipeWrite stage)).1, none⟩ := by
  unfold openStagePipes
  rw [if_pos h]

theorem beforeRound_start (h : stage < count) :
    RoundStart (shellTable table) stage (beforeRound table count capture stage) := by
  induction stage with
  | zero =>
    exact ⟨fun n _ => rfl, fun _ => rfl, fun hpos => absurd hpos (lt_irrefl 0)⟩
  | succ stage ih =>
    rw [beforeRound, openStagePipes_next h]
    simpa using (ih (lt_of_succ_lt h)).next

def connectedInput (stage : Nat) (t : FdTable OpenFile) : FdTable OpenFile :=
  if 0 < stage then putEntry t 0 (some (.pipeRead (stage - 1))) else t

theorem connectInput_eq (h : RoundStart shell stage before) (hprevious : p.previousRead = before.2)
    (hkept : ∀ n, before.2 = some n → entry p.table n = entry before.1 n) :
    connectInput p = connectedInput stage p.table := by
  unfold connectInput connectedInput
  rw [hprevious]
  by_cases hstage : 0 < stage
  · obtain ⟨fd, hfd, hopen, _⟩ := h.piped hstage
    have hentry : entry p.table fd = some (.pipeRead (stage - 1)) := (hkept fd hfd).trans hopen
    rw [if_pos hstage, hfd]
    show (dup2 p.table fd 0).getD p.table = _
    rw [dup2_of_entry hentry]
    rfl
  · rw [if_neg hstage, h.first (Nat.eq_zero_of_not_pos hstage)]

theorem entry_connectedInput_of_eq {t t' : FdTable OpenFile} (h : entry t n = entry t' n) :
    entry (connectedInput stage t) n = entry (connectedInput stage t') n := by
  unfold connectedInput
  by_cases hstage : 0 < stage
  · rw [if_pos hstage, if_pos hstage, entry_putEntry, entry_putEntry, h]
  · rw [if_neg hstage, if_neg hstage, h]

theorem entry_connectedInput_of_ne (t : FdTable OpenFile) (hn : n ≠ 0) :
    entry (connectedInput stage t) n = entry t n := by
  unfold connectedInput
  by_cases hstage : 0 < stage
  · rw [if_pos hstage, entry_putEntry_of_ne t _ hn]
  · rw [if_neg hstage]

theorem entry_connect_pipe (h : RoundStart shell stage before) {readEnd writeEnd : OpenFile}
    (htable : p.table = (pipe before.1 readEnd writeEnd).2) (hprevious : p.previousRead = before.2)
    (hn : before.2 ≠ some n) (hread : n ≠ (pipe before.1 readEnd writeEnd).1.1)
    (hwrite : n ≠ (pipe before.1 readEnd writeEnd).1.2) :
    entry (dup2OrKeep (connectInput p) (pipe before.1 readEnd writeEnd).1.2 1) n =
      entry (putEntry (connectedInput stage shell) 1 (some writeEnd)) n := by
  obtain ⟨hreadFree, hwriteFree, _⟩ := pipe_ends before.1 readEnd writeEnd
  have hzero := pipe_write_ne_zero before.1 readEnd writeEnd
  have hentry := entry_pipe before.1 readEnd writeEnd
  rw [← htable] at hentry
  generalize (pipe before.1 readEnd writeEnd).1 = ends at *
  have hkept : ∀ m, before.2 = some m → entry p.table m = entry before.1 m := by
    intro m hm
    have hneRead : m ≠ ends.1 := fun heq => (h.free hreadFree).1 (heq ▸ hm)
    have hneWrite : m ≠ ends.2 := fun heq => (h.free hwriteFree).1 (heq ▸ hm)
    rw [hentry, if_neg hneWrite, if_neg hneRead]
  have hopen : entry (connectedInput stage p.table) ends.2 = some writeEnd := by
    rw [entry_connectedInput_of_ne _ hzero, hentry, if_pos rfl]
  have hshell : entry p.table n = entry shell n := by
    rw [hentry, if_neg hwrite, if_neg hread, h.entries n hn]
  rw [connectInput_eq h hprevious hkept]
  show entry ((dup2 (connectedInput stage p.table) ends.2 1).getD _) n = _
  rw [dup2_of_entry hopen]
  show entry (putEntry (connectedInput stage p.table) 1 (some writeEnd)) n = _
  rw [entry_putEntry, entry_putEntry, entry_connectedInput_of_eq hshell]

theorem entry_connectChild (table : FdTable Nat) (place : StagePlace)
    (hn : n ∉ (stagePipes table place).descriptors) :
    entry (connectChild (stagePipes table place)) n =
      entry (connected place (shellTable table)) n := by
  have h : RoundStart (shellTable table) place.stage
      (beforeRound table place.count place.capture place.stage) := beforeRound_start place.inside
  have hinput : connected place (shellTable table) =
      if place.stage + 1 < place.count then
        putEntry (connectedInput place.stage (shellTable table)) 1 (some (.pipeWrite place.stage))
      else if place.capture = true then
        putEntry (connectedInput place.stage (shellTable table)) 1 (some .captureWrite)
      else connectedInput place.stage (shellTable table) := rfl
  rw [hinput]
  unfold stagePipes openStagePipes at hn ⊢
  by_cases hnext : place.stage + 1 < place.count
  · rw [if_pos hnext] at hn
    rw [if_pos hnext, if_pos hnext]
    simp only [StagePipes.descriptors, List.mem_append, mem_toList, elim_some,
      elim_none, List.mem_cons, List.not_mem_nil, or_false, not_or] at hn
    exact entry_connect_pipe h rfl rfl hn.1 hn.2.1 hn.2.2
  · rw [if_neg hnext] at hn
    rw [if_neg hnext, if_neg hnext]
    by_cases hcapture : place.capture = true
    · rw [if_pos hcapture] at hn
      rw [if_pos hcapture, if_pos hcapture]
      simp only [StagePipes.descriptors, List.mem_append, mem_toList, elim_some,
        elim_none, List.mem_cons, List.not_mem_nil, or_false, not_or] at hn
      exact entry_connect_pipe h rfl rfl hn.1 hn.2.1 hn.2.2
    · rw [if_neg hcapture] at hn
      rw [if_neg hcapture, if_neg hcapture]
      simp only [StagePipes.descriptors, List.mem_append, mem_toList, elim_none,
        List.not_mem_nil, or_false] at hn
      show entry (connectInput _) n = _
      rw [connectInput_eq h rfl fun _ _ => rfl]
      exact entry_connectedInput_of_eq (h.entries n hn)

end Pipes

/-! ## 8. The law -/

abbrev StageRedirections := { rs : List ArkshRedirectionNode // rs.length ≤ arkshMaxRedirections }

theorem childDescriptors_eq (world : RedirectionWorld) (table : FdTable Nat) (place : StagePlace)
    (rs : List ArkshRedirectionNode) : childDescriptors world table place rs =
      (childRun world 0 rs (connectChild (stagePipes table place), [])).map fun s =>
        closeAll s.1 ((stagePipes table place).descriptors ++ s.2) := by
  unfold childDescriptors childRun
  cases populateRedirections world 0 rs <;> rfl

theorem connected_texts (table : FdTable Nat) (place : StagePlace) :
    TextsBefore 0 (connected place (shellTable table)) := by
  have hshell : TextsBefore 0 (shellTable table) := by
    intro n j content hentry
    unfold entry shellTable at hentry
    cases hn : (table)[n]? with
    | none => simp [hn] at hentry
    | some e => cases e <;> simp [hn] at hentry
  have hput : ∀ t fd (f : OpenFile), TextsBefore 0 t → (∀ j content, f ≠ .text j content) →
      TextsBefore 0 (putEntry t fd (some f)) := by
    intro t fd f ht hf n j content hentry
    rw [entry_putEntry] at hentry
    by_cases hn : n = fd
    · rw [if_pos hn] at hentry; exact absurd (Option.some.inj hentry) (hf j content)
    · rw [if_neg hn] at hentry; exact ht n j content hentry
  have hinput : TextsBefore 0 (connectedInput place.stage (shellTable table)) := by
    unfold connectedInput
    by_cases hstage : 0 < place.stage
    · rw [if_pos hstage]; exact hput _ _ _ hshell fun j content heq => by cases heq
    · rwa [if_neg hstage]
  show TextsBefore 0 (if place.stage + 1 < place.count then
      putEntry (connectedInput place.stage (shellTable table)) 1 (some (.pipeWrite place.stage))
    else if place.capture = true then
      putEntry (connectedInput place.stage (shellTable table)) 1 (some .captureWrite)
    else connectedInput place.stage (shellTable table))
  by_cases hnext : place.stage + 1 < place.count
  · rw [if_pos hnext]; exact hput _ _ _ hinput fun j content heq => by cases heq
  · rw [if_neg hnext]
    by_cases hcapture : place.capture = true
    · rw [if_pos hcapture]; exact hput _ _ _ hinput fun j content heq => by cases heq
    · rwa [if_neg hcapture]

/-- **Redirections of external commands.** The program of a stage has the descriptors that the
    redirections mean if the pipes and the redirections are apart; and as far as one goes in their
    list, iff these are. -/
theorem redirectionLaw_iff (world : RedirectionWorld) (table : FdTable Nat) (place : StagePlace)
    (rs : StageRedirections) :
    (DescriptorsApart world table place rs.1 → RedirectionLaw world table place rs.1) ∧
      ((∀ n, RedirectionLaw world table place (rs.1.take n)) ↔
        DescriptorsApart world table place rs.1) := by
  have hexact : (∀ n, RedirectionLaw world table place (rs.1.take n)) ↔
      DescriptorsApart world table place rs.1 := by
    have hlaw : ∀ n, RedirectionLaw world table place (rs.1.take n) ↔
        StepMatches (stagePipes table place).descriptors
          (childRun world 0 (rs.1.take n) (connectChild (stagePipes table place), []))
          (posixRedirections world 0 (rs.1.take n) (connected place (shellTable table))) := by
      intro n
      unfold RedirectionLaw
      rw [childDescriptors_eq]
      exact sameEntries_iff _ _
    have hrun : ∀ hclear : (∀ fd ∈ (stagePipes table place).descriptors,
          entry (connected place (shellTable table)) fd = none),
        (∀ n, StepMatches (stagePipes table place).descriptors
          (childRun world 0 (rs.1.take n) (connectChild (stagePipes table place), []))
          (posixRedirections world 0 (rs.1.take n) (connected place (shellTable table)))) ↔
        AllKeepApart world (stagePipes table place).descriptors 0 rs.1
          (connectChild (stagePipes table place), []) := fun hclear =>
      childRun_match rs.1 (le_trans (zero_add _).le rs.2)
        ⟨fun n hn => entry_connectChild table place (by simpa using hn),
          fun n hn => hclear n (by simpa using hn)⟩ (connected_texts table place)
    constructor
    · intro hall
      -- the empty list says that the pipes are apart
      have hnone : DescriptorsMatch _ ((stagePipes table place).descriptors ++ []) _ :=
        (hlaw 0).mp (hall 0)
      have hclear : ∀ fd ∈ (stagePipes table place).descriptors,
          entry (connected place (shellTable table)) fd = none := fun fd hfd =>
        hnone.clear fd (by simpa using hfd)
      exact ⟨hclear, (hrun hclear).mp fun n => (hlaw n).mp (hall n)⟩
    · intro hapart n; exact (hlaw n).mpr ((hrun hapart.1).mpr hapart.2 n)
  refine ⟨fun hapart => ?_, hexact⟩
  have hall := hexact.mpr hapart rs.1.length
  rwa [List.take_length] at hall

/-- A shell that expands every word to itself, and in which every file can be opened. -/
def openWorld : RedirectionWorld := ⟨fun _ value => some value, fun _ _ _ => true⟩

def redirectThree : ArkshRedirectionNode := ⟨.fdOutputTruncate, 3, none, "f".toList, [], by decide⟩

/-- A here-document of no lines. -/
def emptyHeredoc : ArkshRedirectionNode := ⟨.heredoc, 0, none, "E".toList, [], by decide⟩

/-- **With 0, 1 and 2 open, `open` gives 3 for `3> f`, and the child closes it again; an empty
    here-document leaves the stdin of the shell.** -/
theorem not_redirectionLaw_lowest :
    ¬ RedirectionLaw openWorld [some 0, some 1, some 2] ⟨0, 1, false, Nat.zero_lt_one⟩
      [redirectThree] ∧
    ¬ RedirectionLaw openWorld [some 0, some 1, some 2] ⟨0, 1, false, Nat.zero_lt_one⟩
      [emptyHeredoc] := by
  refine ⟨fun hlaw => ?_, fun hlaw => ?_⟩
  · have hthree : (none : Option OpenFile) = some (.opened 0 "f".toList .truncate) := hlaw 3
    cases hthree
  · have hzero : some (OpenFile.inherited 0) = some (.text 0 []) := hlaw 0; cases hzero

end Arksh
