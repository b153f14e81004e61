/-
  Subject: The output redirections of a builtin, behind its call in
           `execute_builtin_with_redirection` of `src/executor.c`.

  If the builtin succeeded, its text is written to the first `>` or `>>` and to nothing behind it,
  `2>` makes its file empty, and every other redirection is passed over; if it failed, all of them
  are. Meant is that the redirections make the descriptors, from left to right, and that the text
  then goes where descriptor 1 or 2 leads.

  That the targets expand and that their files can be opened is taken for granted.
-/
import Arksh.Exec.Redirect
import Mathlib.Logic.Function.Basic

namespace Arksh

open CText List Function

abbrev FileTexts := Text → Option Text

/-! ## 1. The code -/

def writeTextFile (files : FileTexts) (path text : Text) (append : Bool) : FileTexts :=
  update files path (some ((if append then (files path).getD [] else []) ++ text))

variable (expand : Text → Text) {path : Text}

def replayRedirection (r : ArkshRedirectionNode) (s : Text × FileTexts) : Text × FileTexts :=
  match r.kind with
  | .outputTruncate => ([], writeTextFile s.2 (expand r.rawTarget) s.1 false)
  | .outputAppend => ([], writeTextFile s.2 (expand r.rawTarget) s.1 true)
  | .errorTruncate => (s.1, writeTextFile s.2 (expand r.rawTarget) [] false)
  | _ => s

/-- The loop. -/
def replayRedirections : List ArkshRedirectionNode → Text × FileTexts → Text × FileTexts
  | [], s => s
  | r :: rs, s => replayRedirections rs (replayRedirection expand r s)

/-- `execute_builtin_with_redirection`, behind the call of the builtin: the text in `out`, and the
    files. -/
def builtinOutputWithRedirection (status : Int) (text : Text) (rs : List ArkshRedirectionNode)
    (files : FileTexts) : Text × FileTexts :=
  if status ≠ 0 then (text, files) else replayRedirections expand rs (text, files)

/-! ## 2. What is meant -/

/-- Where a descriptor leads. -/
inductive Sink where
  | returned
  | file (path : Text)
  | closed
  deriving DecidableEq

/-- Where a redirection of output makes its descriptor lead, unless it copies a closed one. -/
def redirectSink (r : ArkshRedirectionNode) (t : Nat → Sink) : Option Sink :=
  match r.kind.openMode, r.targetFd with
  | some .read, _ => none
  | some _, _ => some (.file (expand r.rawTarget))
  | none, some source => if t source = .closed then none else some (t source)
  | none, none => if r.kind = .fdClose then some .closed else none

def redirectSinks : List ArkshRedirectionNode → (Nat → Sink) → Option (Nat → Sink)
  | [], t => some t
  | r :: rs, t => (redirectSink expand r t).bind fun sink => redirectSinks rs (update t r.fd sink)

def openTarget (files : FileTexts) (r : ArkshRedirectionNode) : FileTexts :=
  match r.kind.openMode with
  | some .truncate => writeTextFile files (expand r.rawTarget) [] false
  | some .append => writeTextFile files (expand r.rawTarget) [] true
  | _ => files

def openTargets (rs : List ArkshRedirectionNode) (files : FileTexts) : FileTexts :=
  rs.foldl (openTarget expand) files

def sendText (sink : Sink) (text : Text) (files : FileTexts) : Text × FileTexts :=
  match sink with
  | .returned => (text, files)
  | .file path => ([], writeTextFile files path text true)
  | .closed => ([], files)

/-- The descriptors of the shell. -/
def standardSinks (fd : Nat) : Sink := if fd = 1 ∨ fd = 2 then .returned else .closed

structure OutputRedirections where
  nodes : List ArkshRedirectionNode
  sinks : Nat → Sink
  applied : redirectSinks expand nodes standardSinks = some sinks

/-- Where the text of the builtin goes: normal text to descriptor 1, that of an error to 2. -/
def OutputRedirections.sink (q : OutputRedirections expand) (status : Int) : Sink :=
  q.sinks (if status ≠ 0 then 2 else 1)

def BuiltinRedirections (status : Int) (text : Text) (q : OutputRedirections expand) : Prop :=
  ∀ files, builtinOutputWithRedirection expand status text q.nodes files =
    sendText (q.sink expand status) text (openTargets expand q.nodes files)

/-! ## 3. What the code makes of it -/

def ArkshRedirectionNode.isReplayed (r : ArkshRedirectionNode) : Bool :=
  r.kind ∈ [.outputTruncate, .outputAppend, .errorTruncate]

/-- The redirections that open a file behind the builtin. -/
def replayedRedirections (status : Int) (rs : List ArkshRedirectionNode) :
    List ArkshRedirectionNode :=
  if status ≠ 0 then [] else rs.filter (·.isReplayed)

def textPlace (sink : Sink) (r : ArkshRedirectionNode) : Sink :=
  if r.kind ∈ [.outputTruncate, .errorTruncate] ∧ sink = .file (expand r.rawTarget) then .closed
  else if r.kind ∈ [.outputTruncate, .outputAppend] ∧ sink = .returned then
    .file (expand r.rawTarget)
  else sink

def finalPlace (status : Int) (rs : List ArkshRedirectionNode) : Sink :=
  if status ≠ 0 then .returned else rs.foldl (textPlace expand) .returned

/-- What becomes of a file by a redirection: nothing, or whether it is emptied. -/
def openedBy (path : Text) (opened : Option Bool) (r : ArkshRedirectionNode) : Option Bool :=
  if expand r.rawTarget ≠ path then opened
  else
    match r.kind.openMode with
    | some .truncate => some true
    | some .append => some (opened = some true)
    | _ => opened

/-- What becomes of the file by all of them. -/
def openedAs (path : Text) (rs : List ArkshRedirectionNode) : Option Bool :=
  rs.foldl (openedBy expand path) none

def openedText (opened : Option Bool) (text : Option Text) : Option Text :=
  match opened with
  | none => text
  | some true => some []
  | some false => some (text.getD [])

variable {expand} {rs : List ArkshRedirectionNode} {files F G : FileTexts} {text : Text}
  {sink : Sink}

theorem replay_sendText (r : ArkshRedirectionNode) :
    replayRedirection expand r (sendText sink text files) =
      sendText (textPlace expand sink r) text (replayRedirection expand r ([], files)).2 := by
  unfold replayRedirection textPlace sendText
  cases sink with
  | returned => cases r.kind <;> simp [writeTextFile]
  | closed => cases r.kind <;> simp
  | file path =>
    by_cases hpath : path = expand r.rawTarget
    · subst hpath; cases r.kind <;> simp [writeTextFile]
    · cases r.kind <;> simp [writeTextFile, hpath, Ne.symm hpath, update_comm]

theorem replay_nil (r : ArkshRedirectionNode) :
    (replayRedirection expand r ([], files)).1 = [] := by
  unfold replayRedirection
  cases r.kind <;> rfl

theorem replayRedirections_sendText (sink : Sink) :
    replayRedirections expand rs (sendText sink text files) =
      sendText (rs.foldl (textPlace expand) sink) text
        (replayRedirections expand rs ([], files)).2 := by
  induction rs generalizing sink files with
  | nil => rfl
  | cons r rs ih =>
    rw [replayRedirections, replay_sendText, ih, replayRedirections, foldl_cons,
      ← Prod.mk.eta (p := replayRedirection expand r ([], files)), replay_nil]

theorem replayRedirections_nil : replayRedirections expand rs ([], files) =
    ([], openTargets expand (rs.filter (·.isReplayed)) files) := by
  induction rs generalizing files with
  | nil => rfl
  | cons r rs ih =>
    rw [replayRedirections, ← Prod.mk.eta (p := replayRedirection expand r ([], files)),
      replay_nil, ih, filter_cons]
    unfold replayRedirection ArkshRedirectionNode.isReplayed
    cases hkind : r.kind <;> simp [openTargets, openTarget, hkind, ArkshRedirectionKind.openMode]

theorem builtinOutputWithRedirection_eq (status : Int) :
    builtinOutputWithRedirection expand status text rs files =
      sendText (finalPlace expand status rs) text
        (openTargets expand (replayedRedirections status rs) files) := by
  unfold builtinOutputWithRedirection finalPlace replayedRedirections
  split
  · rfl
  · exact (replayRedirections_sendText .returned).trans (by rw [replayRedirections_nil])

/-! ## 4. The files -/

variable {opened : Option Bool}

theorem openTarget_apply (r : ArkshRedirectionNode) (h : F path = openedText opened (files path)) :
    openTarget expand F r path = openedText (openedBy expand path opened r) (files path) := by
  unfold openTarget openedBy
  by_cases hpath : expand r.rawTarget = path
  · subst hpath
    rw [if_neg (not_not_intro rfl)]
    rcases r.kind.openMode with _ | mode
    · exact h
    · cases mode with
      | read => exact h
      | truncate => simp [writeTextFile, openedText]
      | append => rcases opened with _ | _ | _ <;> simp [writeTextFile, h, openedText]
  · rw [if_pos hpath, ← h]
    rcases r.kind.openMode with _ | mode
    · rfl
    · cases mode <;> simp [writeTextFile, Ne.symm hpath]

theorem openTargets_apply (path : Text) :
    openTargets expand rs files path = openedText (openedAs expand path rs) (files path) := by
  induction rs using reverseRecOn with
  | nil => rfl
  | append_singleton rs r ih =>
    unfold openTargets openedAs at ih ⊢
    rw [foldl_append, foldl_append]
    exact openTarget_apply r ih

theorem openTargets_isSome (h : (openedAs expand path rs).isSome) :
    (openTargets expand rs files path).isSome := by
  obtain ⟨emptied, he⟩ := Option.isSome_iff_exists.mp h
  rw [openTargets_apply, he]
  cases emptied <;> rfl

theorem openTargets_eq_iff {rs' : List ArkshRedirectionNode} :
    (∀ files, openTargets expand rs files = openTargets expand rs' files) ↔
      ∀ path, openedAs expand path rs = openedAs expand path rs' := by
  constructor
  · intro h path
    have hnew := congrFun (h fun _ => none) path
    have hold := congrFun (h fun _ => some ['x']) path
    simp only [openTargets_apply] at hnew hold
    revert hnew hold
    rcases openedAs expand path rs with _ | _ | _ <;>
      rcases openedAs expand path rs' with _ | _ | _ <;> simp [openedText]
  · intro h files
    funext path
    rw [openTargets_apply, openTargets_apply, h]

/-! ## 5. The text -/

theorem openedBy_isSome (r : ArkshRedirectionNode) (h : opened.isSome ∨
      expand r.rawTarget = path ∧ r.kind.openMode ∈ [some .truncate, some .append]) :
    (openedBy expand path opened r).isSome := by
  unfold openedBy
  rcases h with h | ⟨hpath, hmode⟩
  · split
    · exact h
    · split <;> simp [h]
  · rw [if_neg (not_not_intro hpath)]
    simp only [mem_cons, not_mem_nil, or_false] at hmode
    rcases hmode with hmode | hmode <;> simp [hmode]

theorem redirectSinks_opened {t sinks : Nat → Sink} (h : redirectSinks expand rs t = some sinks)
    (ht : ∀ fd, t fd = .file path → opened.isSome) {fd : Nat} (hfd : sinks fd = .file path) :
    (rs.foldl (openedBy expand path) opened).isSome := by
  induction rs generalizing t opened with
  | nil => cases h; exact ht fd hfd
  | cons r rs ih =>
    obtain ⟨sink, hsink, hrest⟩ := Option.bind_eq_some_iff.mp h
    refine ih hrest fun n hn => openedBy_isSome r ?_
    by_cases hne : n = r.fd
    · subst hne
      rw [update_self] at hn
      subst hn
      unfold redirectSink at hsink
      split at hsink
      · cases hsink
      · next mode hread hmode =>
        cases hsink
        refine .inr ⟨rfl, ?_⟩
        rw [hmode]
        cases mode with
        | read => exact absurd rfl hread
        | truncate | append => simp
      · split at hsink
        · cases hsink
        · exact .inl (ht _ (Option.some.inj hsink))
      · split at hsink <;> cases hsink
    · rw [update_of_ne hne] at hn; exact .inl (ht n hn)

theorem textPlace_opened (hsink : sink = .file path → opened.isSome)
    (h : rs.foldl (textPlace expand) sink = .file path) :
    ((rs.filter (·.isReplayed)).foldl (openedBy expand path) opened).isSome := by
  induction rs generalizing sink opened with
  | nil => exact hsink h
  | cons r rs ih =>
    rw [filter_cons]
    split
    next hkind =>
      refine ih (fun hplace => openedBy_isSome r ?_) h
      unfold textPlace at hplace
      split at hplace
      · cases hplace
      split at hplace
      next hkept =>
        cases hplace
        refine .inr ⟨rfl, ?_⟩
        have hmode := hkept.1
        simp only [mem_cons, not_mem_nil, or_false] at hmode
        rcases hmode with hmode | hmode <;> simp [hmode, ArkshRedirectionKind.openMode]
      · exact .inl (hsink hplace)
    next hkind =>
      have hsame : textPlace expand sink r = sink := by
        simp only [ArkshRedirectionNode.isReplayed, mem_cons, not_mem_nil, or_false, not_or,
          decide_eq_true_eq] at hkind
        simp [textPlace, hkind]
      rw [foldl_cons, hsame] at h
      exact ih hsink h

/-! ## 6. The law -/

theorem sendText_nil (h : ∀ path, sink = .file path → (F path).isSome) :
    sendText sink [] F = ([], F) := by
  cases sink with
  | returned | closed => rfl
  | file path =>
    obtain ⟨held, hheld⟩ := Option.isSome_iff_exists.mp (h path rfl)
    simp [sendText, writeTextFile, hheld]

theorem sendText_content (path : Text) : ((sendText sink text F).2 path).getD [] =
    (F path).getD [] ++ if sink = .file path then text else [] := by
  cases sink with
  | returned | closed => simp [sendText]
  | file path' =>
    by_cases hpath : path' = path
    · subst hpath; simp [sendText, writeTextFile]
    · simp [sendText, writeTextFile, hpath, Ne.symm hpath]

theorem sink_of_sendText {sink' : Sink} (htext : text ≠ [])
    (hcontent : ∀ path, (F path).getD [] = (G path).getD [])
    (h : sendText sink text F = sendText sink' text G) : sink = sink' := by
  have hreturned : sink = .returned ↔ sink' = .returned := by
    have hfst := congrArg Prod.fst h
    cases sink <;> cases sink' <;> simp_all [sendText]
  have hfile : ∀ path, sink = .file path ↔ sink' = .file path := by
    intro path
    have hsame := congrArg (fun s => (s.2 path).getD []) h
    simp only [sendText_content, hcontent, append_cancel_left_eq] at hsame
    by_cases hs : sink = .file path <;> by_cases hs' : sink' = .file path <;> simp_all
  cases sink with
  | returned => exact (hreturned.mp rfl).symm
  | file path => exact ((hfile path).mp rfl).symm
  | closed =>
    cases sink' with
    | returned => exact hreturned.mpr rfl
    | file path => exact (hfile path).mpr rfl
    | closed => rfl

theorem files_of_sendText (hF : ∀ path, sink = .file path → (F path).isSome)
    (hG : ∀ path, sink = .file path → (G path).isSome)
    (h : sendText sink text F = sendText sink text G) : F = G := by
  cases sink with
  | returned | closed => exact congrArg Prod.snd h
  | file path =>
    funext path'
    by_cases hpath : path' = path
    · subst hpath
      have hsame := congrArg (fun s => (s.2 path').getD []) h
      simp only [sendText_content, append_cancel_right_eq] at hsame
      obtain ⟨x, hx⟩ := Option.isSome_iff_exists.mp (hF path' rfl)
      obtain ⟨y, hy⟩ := Option.isSome_iff_exists.mp (hG path' rfl)
      rw [hx, hy] at hsame ⊢
      exact congrArg some hsame
    · have hsame := congrFun (congrArg Prod.snd h) path'
      simpa [sendText, writeTextFile, hpath] using hsame

def twoOutputs : OutputRedirections id where
  nodes :=
    [⟨.outputTruncate, 1, none, ['a'], [], by decide⟩,
      ⟨.outputTruncate, 1, none, ['b'], [], by decide⟩]
  sinks := update (update standardSinks 1 (.file ['a'])) 1 (.file ['b'])
  applied := rfl

end Arksh
