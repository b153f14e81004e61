/-
  Subject: `^_`, over every sequence of keys.

  A key that edits the line saves it first, with the cursor. TAB, UP, DOWN and the end of a search
  put a text into the line and leave the snapshot as it is, and so does the ENTER that begins a
  further line: behind them `^_` goes back to an older line.

  Invariant of a run: on a line that was not changed there is no snapshot but that of the empty
  line, and then the line is empty.
-/
import Arksh.Shell.SubmittedInput

namespace Arksh

open CText CBuffer Scan List Option Nat

/-! ## 1. The law -/

def undoKey : KeyEvent := { key := .named .ctrlUnderscore }

section Law

variable (history : List HistoryEntry) (outSize : Nat)

def lineChanged : Bool → List KeyEvent → Session → Bool
  | changed, [], _ => changed
  | changed, event :: events, session =>
    match keyStep history outSize event session with
    | .ok (.going next) =>
      lineChanged
        (if (endedLine session event.key).isSome then false
          else changed || next.editor.text ≠ session.editor.text) events next
    | _ => changed

/-- `^_` leads to this line and this cursor. -/
def Undoes (session : Session) (text : Text) (cursor : Nat) : Prop :=
  ∃ after, keyStep history outSize undoKey session = .ok (.going after) ∧
    after.editor.text = text ∧ after.editor.cursor = cursor

/-- `^_` takes back the last key, if that changed the line, and changes nothing on a line that was
    not changed. -/
structure UndoLaw (keys : List KeyEvent) (session : Session) : Prop where
  restores : ∀ front event before next, keys = front ++ [event] →
    readKeys history outSize front session = .ok (.going before) →
    keyStep history outSize event before = .ok (.going next) →
    endedLine before event.key = none → event.key ≠ undoKey.key →
    next.editor.text ≠ before.editor.text →
      Undoes history outSize next before.editor.text before.editor.cursor
  leaves : ∀ next, readKeys history outSize keys session = .ok (.going next) →
    next.mode = .editing → lineChanged history outSize false keys session = false →
      Undoes history outSize next next.editor.text next.editor.cursor

/-- `handle_completion` calls `replace_range`. -/
def replaces (e : Editor) (candidates : List Candidate) : Bool :=
  let context := findObjectMemberContext e.line.bytes e.cursor
  let typedLen := e.cursor - completionStart e.line.bytes e.cursor context
  typedLen < arkshMaxPath &&
    match collected e context candidates with
    | .ok [_] => true
    | .ok (first :: rest) =>
      let shared := sharedPrefixLength first.1 rest
      typedLen < shared && shared < arkshMaxPath
    | _ => false

/-- The key puts a text into the line without saving the line first. -/
def unsaved (session : Session) (event : KeyEvent) : Bool :=
  let e := session.editor
  match session.mode, event.key with
  | .editing, .named .tab => replaces e event.candidates
  | .editing, .named .up => !e.inContinuation && history ≠ [] && e.historyIndex ≠ 0
  | .editing, .named .down => !e.inContinuation && history ≠ [] && e.historyIndex < history.length
  | .editing, _ => false
  | .searching s, key => s.matchStr.isSome && key.endsSearch

/-- A key saves the line before it puts another there, or the line is what was saved last; and a
    further line begins without a snapshot but that of the empty line. -/
def SavesStep (event : KeyEvent) (session : Session) : Prop :=
  if (endedLine session event.key).isSome then
    event.needsMore = true → session.editor.undoValid = true →
      session.editor.snapshot = ([], 0, true)
  else
    unsaved history session event = true →
      session.editor.snapshot = (session.editor.text, session.editor.cursor, true)

def SavesSteps : List KeyEvent → Session → Prop
  | [], _ => True
  | event :: events, session =>
    SavesStep history event session ∧
      ∀ next, keyStep history outSize event session = .ok (.going next) → SavesSteps events next

end Law

/-! ## 2. One key -/

variable {history : List HistoryEntry} {outSize : Nat} {session next : Session} {event : KeyEvent}
  {e : Editor} {changed : Bool}

theorem undo_text (h : EditorInv history.length e) (hvalid : e.undoValid = true) :
    Yields (fun e' => e'.text = e.snapshot.1 ∧ e'.cursor = e.undoCursor) (undo e) := by
  obtain ⟨u, hu, hlen⟩ := h.undoLine hvalid
  obtain ⟨line, hcopy, hline⟩ := holds_copy (b := e.line) hu hu.length_lt
  have hbounds : Yields (Holds · u) (inBounds (e.line.copy 0 e.undoLine 0 (e.undoLength + 1))) :=
    yields_inBounds ⟨line, hlen ▸ hcopy, hline⟩
  unfold undo
  rw [if_pos hvalid]
  refine hbounds.map fun line hline => ⟨?_, rfl⟩
  show line.bytes.take e.undoLength = e.undoLine.bytes.take e.undoLength
  rw [hline.take_bytes hlen.le, hu.take_bytes hlen.le]

theorem undoes_iff (hinv : session.Inv history.length) (hmode : session.mode = .editing)
    {text : Text} {cursor : Nat} : Undoes history outSize session text cursor ↔
      if session.editor.undoValid then session.editor.snapshot = (text, cursor, true)
      else session.editor.text = text ∧ session.editor.cursor = cursor := by
  obtain ⟨e, mode⟩ := session
  obtain rfl : mode = .editing := hmode
  have hstep : keyStep history outSize undoKey ⟨e, .editing⟩ =
      (undo { e with lastTab := false }).map fun e =>
        .going { editor := e, mode := .editing } := rfl
  unfold Undoes
  rw [hstep]
  dsimp only
  by_cases hvalid : e.undoValid = true
  · have hkept : EditorInv history.length { e with lastTab := false } := { hinv.editor with }
    obtain ⟨e', hundo, htext, hcursor⟩ := undo_text hkept hvalid
    rw [if_pos hvalid, hundo, Editor.snapshot, hvalid, Prod.mk.injEq, Prod.mk.injEq]
    constructor
    · rintro ⟨_, hafter, rfl, rfl⟩
      cases hafter
      exact ⟨htext.symm, hcursor.symm, rfl⟩
    · rintro ⟨rfl, rfl, -⟩
      exact ⟨_, rfl, htext, hcursor⟩
  · have hundo : undo { e with lastTab := false } = .ok { e with lastTab := false } :=
      if_neg hvalid
    rw [if_neg hvalid, hundo]
    constructor
    · rintro ⟨_, hafter, rfl, rfl⟩
      cases hafter
      exact ⟨rfl, rfl⟩
    · rintro ⟨rfl, rfl⟩
      exact ⟨_, rfl, rfl, rfl⟩

theorem keyStep_turned (hinv : session.Inv history.length)
    (hstep : keyStep history outSize event session = .ok (.going next))
    (hended : endedLine session event.key = none) :
    (session.mode = .editing ∧ Turned event.key session.editor next.editor ∨
      session.mode ≠ .editing ∧ KeepsUndo session.editor next.editor) ∧
    (next.mode = .editing ∨ next.editor.text = session.editor.text) := by
  obtain ⟨e, mode⟩ := session
  obtain ⟨key, needsMore, candidates⟩ := event
  cases mode with
  | editing =>
    by_cases hends : key ∈ [.failed, .named .enter, .named .ctrlC, .named .ctrlD]
    · simp only [mem_cons, not_mem_nil, or_false] at hends
      rcases hends with rfl | rfl | rfl | rfl
      · cases hstep
      · cases hended
      · cases hstep
      · unfold keyStep editStep at hstep
        dsimp only at hstep
        split at hstep
        · cases hstep
        split at hstep
        · obtain ⟨t, -, hreturned⟩ := map_ok.mp hstep; cases hreturned
        · cases hstep
          exact ⟨.inl ⟨rfl, ⟨rfl, rfl⟩, .inr ⟨⟨⟨rfl, rfl⟩, rfl⟩, rfl⟩⟩, .inl rfl⟩
    · obtain ⟨_, hnext, hturned, hmode⟩ :=
        editStep_turned hinv.editor.cursor (by exact hends) _ hstep
      cases hnext
      exact ⟨.inl ⟨rfl, hturned⟩, hmode⟩
  | searching s =>
    have henter : key ≠ .named .enter := by rintro rfl; cases hended
    obtain ⟨_, hnext, hkeeps, hmode⟩ := searchStep_keeps (by exact henter) _ hstep
    cases hnext
    exact ⟨.inr ⟨fun hediting => (by cases hediting), hkeeps⟩, hmode⟩

theorem handleCompletion_unchanged {candidates : List Candidate}
    (h : replaces e candidates = false) (forceList : Bool) :
    Gives (· = e) (handleCompletion e forceList candidates) := by
  unfold handleCompletion
  unfold replaces at h
  dsimp only at h ⊢
  split
  · exact gives_ok rfl
  next hroom =>
    rw [decide_eq_true (Nat.lt_of_not_le hroom), Bool.true_and] at h
    refine gives_after fun _ => ?_
    intro e' hcompletion
    obtain ⟨collection, hcollected, hcompletion⟩ := bind_ok.mp hcompletion
    rw [hcollected] at h
    rcases collection with - | ⟨first, - | ⟨second, rest⟩⟩
    · cases hcompletion
      rfl
    · cases h
    · simp only [Bool.and_eq_false_iff, decide_eq_false_iff_not] at h
      dsimp only at hcompletion
      split at hcompletion
      · rw [if_neg (by omega)] at hcompletion
        cases hcompletion
        rfl
      split at hcompletion
      · rw [if_pos (by omega)] at hcompletion
        cases hcompletion
        rfl
      · cases hcompletion
        rfl

/-- A key that does not save the line and puts no text there leaves the line alone. -/
theorem keyStep_unchanged (hstep : keyStep history outSize event session = .ok (.going next))
    (hended : endedLine session event.key = none) (h : unsaved history session event = false) :
    session.mode = .editing ∧ event.key ∉ unsavedKeys ∨
      next.editor.text = session.editor.text := by
  obtain ⟨e, mode⟩ := session
  obtain ⟨key, needsMore, candidates⟩ := event
  cases mode with
  | editing =>
    by_cases hkey : key ∈ unsavedKeys
    · right
      simp only [unsavedKeys, mem_cons, not_mem_nil, or_false] at hkey
      rcases hkey with rfl | rfl | rfl
      · obtain ⟨e', hcompletion, hnext⟩ := map_ok.mp hstep
        cases hnext
        have hsame := handleCompletion_unchanged
          (e := { e with lastTab := true }) h e.lastTab e' hcompletion
        rw [hsame]
        rfl
      · have hup : (if e.inContinuation then .ok { e with lastTab := false }
            else historyUp history { e with lastTab := false }) =
            .ok { e with lastTab := false } := by
          split
          · rfl
          next hline => exact if_pos (by simpa [unsaved, hline, or_iff_not_imp_left] using h)
        obtain ⟨_, hkeyed, hnext⟩ := map_ok.mp hstep
        cases hup.symm.trans hkeyed
        cases hnext
        rfl
      · have hdown : (if e.inContinuation then .ok { e with lastTab := false }
            else historyDown history { e with lastTab := false }) =
            .ok { e with lastTab := false } := by
          split
          · rfl
          next hline => exact if_pos (by simpa [unsaved, hline, or_iff_not_imp_left] using h)
        obtain ⟨_, hkeyed, hnext⟩ := map_ok.mp hstep
        cases hdown.symm.trans hkeyed
        cases hnext
        rfl
    · exact .inl ⟨rfl, hkey⟩
  | searching s =>
    have henter : key ≠ .named .enter := by rintro rfl; cases hended
    have haccept : key.endsSearch = true → Gives (· = e) (acceptMatch e s) := by
      intro hends
      have hnone : s.matchStr = none := by simpa [unsaved, hends] using h
      rw [acceptMatch, hnone]
      exact gives_ok rfl
    obtain ⟨_, hnext, hsame, -⟩ := searchStep_goes (R := (· = e)) (by exact henter) rfl haccept _ hstep
    cases hnext
    exact .inr (congrArg Editor.text hsame)

theorem enterLine_fresh (h : EditorInv history.length e) (needsMore : Bool) :
    Gives (fun r => ∀ next, r = .going next → needsMore = true ∧ next.mode = .editing ∧
      next.editor.length = 0 ∧ next.editor.snapshot = e.snapshot)
      (enterLine history outSize e needsMore) := by
  obtain ⟨m, hm, hmulti⟩ := h.multi
  obtain ⟨e', happend, b, hb, rfl⟩ := appendLine_appended hm hmulti h.text.1 h.text.2
  unfold enterLine
  rw [happend]
  show Gives _ (if _ then _ else _)
  split
  next hgoes =>
    refine gives_after fun line => gives_mapped fun scratch => ?_
    rintro _ ⟨⟩
    exact ⟨hgoes.2, rfl, rfl, rfl⟩
  · exact gives_mapped fun _ => nofun

/-- ENTER empties the line and leaves the snapshot. -/
theorem keyStep_fresh (hinv : session.Inv history.length)
    (hstep : keyStep history outSize event session = .ok (.going next))
    (hended : (endedLine session event.key).isSome = true) :
    event.needsMore = true ∧ next.mode = .editing ∧ next.editor.length = 0 ∧
      next.editor.snapshot = session.editor.snapshot := by
  obtain ⟨e, mode⟩ := session
  obtain ⟨key, needsMore, candidates⟩ := event
  cases mode with
  | editing =>
    have hkey : key = .named .enter ∨ key = .named .ctrlD := by
      unfold endedLine at hended
      split at hended
      next hkey => exact .inl hkey
      next hkey => exact .inl hkey
      next hkey => exact .inr hkey
      · cases hended
    rcases hkey with rfl | rfl
    · have hkept : EditorInv history.length { e with lastTab := false } := { hinv.editor with }
      exact enterLine_fresh hkept needsMore _ hstep next rfl
    · obtain ⟨hline, hnone, -⟩ := ctrlD_step rfl hstep
      rw [hline, if_neg fun hends => hnone _ rfl hends.1] at hended
      cases hended
  | searching s =>
    obtain rfl : key = .named .enter := by
      unfold endedLine at hended
      split at hended <;> first | assumption | contradiction
    obtain ⟨e', haccept, hline⟩ := acceptMatch_yields hinv.editor hinv.mode
    have hkeeps := acceptMatch_keeps s e' haccept
    have hstep : (acceptMatch e s).bind (enterLine history outSize · needsMore) =
      .ok (.going next) := hstep
    rw [haccept] at hstep
    obtain ⟨hmore, hmode, hlength, hsnapshot⟩ := enterLine_fresh hline needsMore _ hstep next rfl
    exact ⟨hmore, hmode, hlength, hsnapshot.trans hkeeps.2⟩

/-! ## 3. Runs -/

/-- `^_` leaves the line empty, or as it is. -/
def UndoesNothing (e : Editor) : Prop :=
  e.undoValid = true → e.snapshot = ([], 0, true) ∧ e.length = 0

theorem length_of_text (hinv : session.Inv history.length) (hnext : next.Inv history.length)
    (h : next.editor.text = session.editor.text) : next.editor.length = session.editor.length := by
  rw [hnext.editor.text.2, h, ← hinv.editor.text.2]

theorem valid_of_snapshot {e e' : Editor} (h : e'.snapshot = e.snapshot) :
    e'.undoValid = e.undoValid := congrArg (·.2.2) h

section

variable (hinv : session.Inv history.length)
include hinv

/-- A key that leaves the line alone leaves it bare, and so does one that begins another line. -/
theorem keyStep_undoesNothing (hstep : keyStep history outSize event session = .ok (.going next))
    (hsaves : SavesStep history event session)
    (hbare : changed = false → UndoesNothing session.editor)
    (hchanged : (if (endedLine session event.key).isSome then false
      else changed || next.editor.text ≠ session.editor.text) = false) :
    UndoesNothing next.editor := by
  by_cases hended : (endedLine session event.key).isSome = true
  · obtain ⟨hmore, -, hlength, hsnapshot⟩ := keyStep_fresh hinv hstep hended
    rw [SavesStep, if_pos hended] at hsaves
    intro hvalid
    rw [valid_of_snapshot hsnapshot] at hvalid
    exact ⟨hsnapshot.trans (hsaves hmore hvalid), hlength⟩
  · rw [if_neg hended, Bool.or_eq_false_iff] at hchanged
    obtain ⟨hunchanged, hsame⟩ := hchanged
    have htext : next.editor.text = session.editor.text := by simpa using hsame
    have hlength := length_of_text hinv (keyStep_inv hinv hstep) htext
    have hkept (hkeeps : KeepsUndo session.editor next.editor) : UndoesNothing next.editor := by
      intro hvalid
      rw [valid_of_snapshot hkeeps.2] at hvalid
      obtain ⟨hsnapshot, hzero⟩ := hbare hunchanged hvalid
      exact ⟨hkeeps.2.trans hsnapshot, hlength.trans hzero⟩
    obtain ⟨⟨-, -, hturned⟩ | ⟨-, hkeeps⟩, -⟩ := keyStep_turned hinv hstep (by simpa using hended)
    · split at hturned
      · intro hvalid
        rw [hturned] at hvalid
        cases hvalid
      split at hturned
      · exact hkept hturned
      · rcases hturned with ⟨-, -, hne⟩ | ⟨hkeeps, -⟩
        · exact absurd hlength hne
        · exact hkept hkeeps
    · exact hkept hkeeps

theorem readKeys_undoesNothing {keys : List KeyEvent}
    (hsaves : SavesSteps history outSize keys session)
    (hbare : changed = false → UndoesNothing session.editor)
    (hrun : readKeys history outSize keys session = .ok (.going next))
    (hchanged : lineChanged history outSize changed keys session = false) :
    UndoesNothing next.editor := by
  induction keys generalizing session changed with
  | nil => cases hrun; exact hbare hchanged
  | cons event keys ih =>
    unfold readKeys at hrun
    obtain ⟨r, hstep, hrun⟩ := bind_ok.mp hrun
    cases r with
    | returned status out => cases hrun
    | going middle =>
      rw [lineChanged, hstep] at hchanged
      exact ih (keyStep_inv hinv hstep) (hsaves.2 middle hstep)
        (keyStep_undoesNothing hinv hstep hsaves.1 hbare) hrun hchanged

theorem savesSteps_append {front rest : List KeyEvent}
    (hsaves : SavesSteps history outSize (front ++ rest) session)
    (hrun : readKeys history outSize front session = .ok (.going next)) :
    next.Inv history.length ∧ SavesSteps history outSize rest next := by
  induction front generalizing session with
  | nil => cases hrun; exact ⟨hinv, hsaves⟩
  | cons event front ih =>
    unfold readKeys at hrun
    obtain ⟨r, hstep, hrun⟩ := bind_ok.mp hrun
    cases r with
    | returned status out => cases hrun
    | going middle => exact ih (keyStep_inv hinv hstep) (hsaves.2 middle hstep) hrun

end

/-- **In every run whose keys save the line that they change, `^_` takes back the last change, and
    nothing where nothing was changed.** -/
theorem undoLaw_run (history : List HistoryEntry) (outSize : Nat) (keys : List KeyEvent)
    (frame : Editor) (killBuf : {b : Buffer arkshMaxLine // ∃ k, Holds b k})
    (hsaves : SavesSteps history outSize keys (startReading history frame killBuf)) :
    UndoLaw history outSize keys (startReading history frame killBuf) where
  restores := by
    rintro front event before next rfl hrun hstep hended hkey htext
    obtain ⟨hinv, hsaves, -⟩ := savesSteps_append (startReading_inv frame killBuf) hsaves hrun
    rw [SavesStep, hended, if_neg (by simp)] at hsaves
    have hsaved : before.mode = .editing ∧ event.key ∉ unsavedKeys ∨
        before.editor.snapshot = (before.editor.text, before.editor.cursor, true) := by
      by_cases hunsaved : unsaved history before event = true
      · exact .inr (hsaves hunsaved)
      · exact .inl ((keyStep_unchanged hstep hended (by simpa using hunsaved)).resolve_right htext)
    obtain ⟨hturned, hmode⟩ := keyStep_turned hinv hstep hended
    have hsnapshot : next.editor.snapshot = (before.editor.text, before.editor.cursor, true) := by
      rcases hturned with ⟨hediting, -, hturned⟩ | ⟨hsearching, hkeeps⟩
      · rw [if_neg (show event.key ≠ .named .ctrlUnderscore from hkey)] at hturned
        split at hturned
        next hunsaved =>
          exact hturned.2.trans (hsaved.resolve_left fun h => h.2 hunsaved)
        · rcases hturned with ⟨-, hsnapshot, -⟩ | ⟨-, hsame⟩
          · exact hsnapshot
          · exact absurd hsame htext
      · exact hkeeps.2.trans (hsaved.resolve_left fun h => hsearching h.1)
    rw [undoes_iff (keyStep_inv hinv hstep) (hmode.resolve_right htext),
      if_pos (show next.editor.undoValid = true from congrArg (·.2.2) hsnapshot)]
    exact hsnapshot
  leaves := by
    intro next hrun hmode hchanged
    have hall : SavesSteps history outSize (keys ++ []) (startReading history frame killBuf) :=
      (append_nil keys).symm ▸ hsaves
    have hinv := (savesSteps_append (startReading_inv frame killBuf) hall hrun).1
    have hbare := readKeys_undoesNothing (startReading_inv frame killBuf) hsaves (fun _ => nofun)
      hrun hchanged
    rw [undoes_iff hinv hmode]
    split
    next hvalid =>
      obtain ⟨hsnapshot, hzero⟩ := hbare hvalid
      have hcursor := hinv.editor.cursor
      have htext : next.editor.text = [] := by rw [Editor.text, hzero, take_zero]
      rw [hsnapshot, htext, Nat.eq_zero_of_le_zero (hcursor.trans_eq hzero)]
    · exact ⟨rfl, rfl⟩

instance decidableSavesSteps (history : List HistoryEntry) (outSize : Nat) :
    ∀ keys session, Decidable (SavesSteps history outSize keys session)
  | [], _ => isTrue trivial
  | event :: events, session =>
    have : Decidable (SavesStep history event session) := by unfold SavesStep; infer_instance
    have : Decidable (∀ next, keyStep history outSize event session = .ok (.going next) →
        SavesSteps history outSize events next) :=
      match keyStep history outSize event session with
      | .ok (.going next) =>
        have := decidableSavesSteps history outSize events next
        decidable_of_iff (SavesSteps history outSize events next)
          ⟨fun h _ heq => by cases heq; exact h, fun h => h next rfl⟩
      | .ok (.returned _ _) => isTrue fun _ heq => by cases heq
      | .error _ => isTrue fun _ heq => by cases heq
    inferInstanceAs (Decidable (_ ∧ _))

/-- "ab", LEFT, `^U`, UP, TAB, "c" and `^_`. -/
def mixedKeys : List KeyEvent :=
  [{ key := .byte ⟨'a', by decide⟩ }, { key := .byte ⟨'b', by decide⟩ }, { key := .named .left },
    { key := .named .ctrlU }, { key := .named .up }, { key := .named .tab },
    { key := .byte ⟨'c', by decide⟩ }, { key := .named .ctrlUnderscore }]


theorem undoLaw_run_typed : UndoLaw [] arkshMaxOutput mixedKeys
    (startReading [] zeroFrame ⟨zeros arkshMaxLine, [], zeros_holds (by decide)⟩) :=
  undoLaw_run [] arkshMaxOutput mixedKeys zeroFrame _ (by decide +kernel)

/-- `^_` behind these keys leaves the line as it is. -/
def undoKeepsLine (history : List HistoryEntry) (outSize : Nat) (keys : List KeyEvent)
    (session : Session) : Bool :=
  match readKeys history outSize keys session with
  | .ok (.going ⟨e, .editing⟩) =>
    match keyStep history outSize undoKey ⟨e, .editing⟩ with
    | .ok (.going after) => decide (after.editor.text = e.text)
    | _ => true
  | _ => true

/-- **"ab" and ENTER in an open construct: on the empty line `^_` brings back the "a".** -/
theorem not_undoLaw : ¬ UndoLaw [] arkshMaxOutput
    [{ key := .byte ⟨'a', by decide⟩ }, { key := .byte ⟨'b', by decide⟩ },
      { key := .named .enter, needsMore := true }]
    (startReading [] zeroFrame ⟨zeros arkshMaxLine, [], zeros_holds (by decide)⟩) := by
  generalize hkeys : [_, _, _] = keys
  generalize hsession : startReading [] zeroFrame _ = session
  intro hlaw
  have hchanged : lineChanged [] arkshMaxOutput false keys session = false := by
    rw [← hkeys, ← hsession]
    decide +kernel
  have hundo : undoKeepsLine [] arkshMaxOutput keys session = false := by
    rw [← hkeys, ← hsession]
    decide +kernel
  unfold undoKeepsLine at hundo
  split at hundo
  next e hrun =>
    obtain ⟨after, hstep, htext, -⟩ := hlaw.leaves _ hrun rfl hchanged
    rw [hstep] at hundo
    exact of_decide_eq_false hundo htext
  · cases hundo

end Arksh
