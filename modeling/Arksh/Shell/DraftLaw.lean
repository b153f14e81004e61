/-
  Subject: What the keys of the line editor do together.

  What is killed is what `^Y` puts in, whatever is pressed in between; UP and DOWN walk along the
  history and back to the line that was typed; `^R` walks along the entries that hold what is
  searched for; and TAB puts in what all the candidates share.
-/
import Arksh.Shell.Draft

namespace Arksh

open CText CBuffer Scan List Option Nat

/-! ## 1. Runs of the editor and of the drafts -/

/-- A run of the editor that goes on, from the first key of a line. -/
def Reaches (history : List HistoryEntry) (outSize : Nat) (session : Session) : Prop :=
  ∃ keys frame killBuf,
    readKeys history outSize keys (startReading history frame killBuf) = .ok (.going session)

def startDraft (history : List HistoryEntry) (killed : Text) : DraftSession where
  draft :=
    { text := [], cursor := 0, killed := killed, saved := none, index := history.length
      scratch := [], input := [], further := false }
  mode := .editing

section Runs

variable {history : List HistoryEntry} {outSize : Nat} {session next : Session}
  {keys : List KeyEvent}

theorem readKeys_inv (h : session.Inv history.length)
    (hrun : readKeys history outSize keys session = .ok (.going next)) :
    next.Inv history.length := by
  obtain ⟨r, hr, hinv⟩ :=
    readKeys_yields outSize h (keysHandled_of_yields outSize ⟨_, hrun, trivial⟩)
  cases hrun.symm.trans hr
  exact hinv

theorem Reaches.inv (h : Reaches history outSize session) : session.Inv history.length := by
  obtain ⟨keys, frame, killBuf, hrun⟩ := h
  exact readKeys_inv (startReading_inv frame killBuf) hrun

theorem shown_run (h : session.Inv history.length)
    (hrun : readKeys history outSize keys session = .ok (.going next)) :
    session.shown.run history outSize keys = .going next.shown := by
  rw [← readKeys_draft h, hrun]
  rfl

/-- Where the drafts go on, so does the editor. -/
theorem readKeys_going {keys : List KeyEvent} {d : DraftSession} (h : session.Inv history.length)
    (hrun : session.shown.run history outSize keys = .going d) :
    ∃ next, readKeys history outSize keys session = .ok (.going next) ∧ next.shown = d := by
  rw [← readKeys_draft h] at hrun
  cases hr : readKeys history outSize keys session with
  | error fault => rw [hr] at hrun; cases hrun
  | ok r =>
    rw [hr] at hrun
    cases r with
    | going next => exact ⟨next, rfl, Drafted.going.inj hrun⟩
    | returned status out => cases hrun

theorem editing_of_shown (h : session.shown.mode = .editing) : session.mode = .editing := by
  obtain ⟨e, mode⟩ := session
  cases mode with
  | editing => rfl
  | searching s => cases h

theorem DraftSession.run_append {front rest : List KeyEvent} {d d' : DraftSession}
    (h : d.run history outSize front = .going d') :
    d.run history outSize (front ++ rest) = d'.run history outSize rest := by
  induction front generalizing d with
  | nil =>
    cases h
    rfl
  | cons event front ih =>
    rw [cons_append]
    rw [DraftSession.run] at h ⊢
    cases hstep : d.press history outSize event with
    | going next =>
      rw [hstep] at h
      exact ih h
    | returned status out => rw [hstep] at h; cases h
    | undefined => rw [hstep] at h; cases h

theorem startReading_shown (frame : Editor)
    (killBuf : {b : Buffer arkshMaxLine // ∃ k, Holds b k}) :
    (startReading history frame killBuf).shown = startDraft history (shown killBuf.1) := by
  have hscratch : shown (terminated frame.historyScratch) = [] :=
    shown_of_holds (terminated_holds _ (by decide))
  rw [startDraft, ← hscratch]
  rfl

/-- **Every run of the editor is the run of the drafts**, up to the key on which `isprint` is
    undefined. -/
theorem readKeys_refines (history : List HistoryEntry) (outSize : Nat) (keys : List KeyEvent)
    (frame : Editor) (killBuf : {b : Buffer arkshMaxLine // ∃ k, Holds b k}) :
    observed (readKeys history outSize keys (startReading history frame killBuf)) =
      (startDraft history (shown killBuf.1)).run history outSize keys := by
  rw [readKeys_draft (startReading_inv frame killBuf), startReading_shown]

end Runs

/-! ## 2. Killing and yanking -/

def killKeys : List Key := [.named .ctrlK, .named .ctrlU, .named .ctrlW]

section Kill

variable {d : Draft}

/-- What is killed stood where the cursor is afterwards. -/
theorem kill_split {start stop : Nat} (hstop : stop ≤ d.text.length)
    (hchanged : (d.kill start stop).text ≠ d.text) :
    d.text = ((d.kill start stop).splice (d.kill start stop).cursor (d.kill start stop).cursor
      (d.kill start stop).killed).text := by
  by_cases hlt : start < stop
  · have hkill : d.kill start stop = { d.save.splice start stop [] with
        killed := (d.text.drop start).take (stop - start) } := if_pos hlt
    have hfront : (d.text.take start).length = start := by rw [length_take]; omega
    rw [hkill]
    simp only [Draft.splice, Draft.save, append_nil, length_nil, Nat.add_zero]
    rw [take_left' hfront, drop_left' hfront, append_assoc,
      show d.text.drop stop = (d.text.drop start).drop (stop - start) by
        rw [drop_drop, Nat.add_sub_cancel' hlt.le], take_append_drop, take_append_drop]
  · exact absurd (congrArg Draft.text (if_neg hlt)) hchanged

theorem killed_ne_nil {start stop : Nat} (hstop : stop ≤ d.text.length)
    (hchanged : (d.kill start stop).text ≠ d.text) : (d.kill start stop).killed ≠ [] := by
  intro hempty
  have hsplit := kill_split hstop hchanged
  rw [hempty, Draft.splice, append_nil, take_append_drop] at hsplit
  exact hchanged hsplit.symm

theorem insert_text {s : Text} (hne : s ≠ []) : (d.insert s).text =
    if d.text.length + s.length < arkshMaxLine then (d.splice d.cursor d.cursor s).text
    else d.text := by
  simp only [Draft.insert, hne, ne_eq, not_false_eq_true, true_and]
  split <;> rfl

@[simp] theorem insert_killed (s : Text) : (d.insert s).killed = d.killed := by
  unfold Draft.insert; split <;> rfl

@[simp] theorem erase_killed (start stop : Nat) : (d.erase start stop).killed = d.killed := by
  unfold Draft.erase; split <;> rfl

@[simp] theorem undo_killed : d.undo.killed = d.killed := by
  unfold Draft.undo; split <;> rfl

@[simp] theorem up_killed (history : List HistoryEntry) : (d.up history).killed = d.killed := by
  unfold Draft.up
  split
  · rfl
  · split <;> rfl

@[simp] theorem down_killed (history : List HistoryEntry) :
    (d.down history).killed = d.killed := by
  unfold Draft.down
  split
  · rfl
  · split <;> rfl

@[simp] theorem replace_killed (start : Nat) (s : Text) :
    (d.replace start s).killed = d.killed := by
  unfold Draft.replace; split <;> rfl

@[simp] theorem complete_killed (candidates : List Candidate) :
    (d.complete candidates).killed = d.killed := by
  unfold Draft.complete
  dsimp only
  split
  · rfl
  · split
    · rfl
    · exact replace_killed _ _
    · split
      · exact replace_killed _ _
      · rfl

@[simp] theorem accept_killed (q : Query) : (d.accept q).killed = d.killed := by
  unfold Draft.accept; split <;> rfl

theorem key_killed {history : List HistoryEntry} {event : KeyEvent} (hkey : event.key ∉ killKeys) :
    (d.key history event).killed = d.killed := by
  obtain ⟨key, needsMore, candidates⟩ := event
  cases key with
  | failed => rfl
  | byte c =>
    unfold Draft.key
    dsimp only
    split
    · exact insert_killed _
    · rfl
  | named name =>
    cases name with
    | ctrlK | ctrlU | ctrlW => exact absurd (by simp [killKeys]) hkey
    | _ => simp [Draft.key]

end Kill

section Yank

variable {history : List HistoryEntry} {outSize : Nat} {d next : DraftSession} {event : KeyEvent}

theorem enter_killed {draft : Draft} {needsMore : Bool}
    (h : draft.enter history outSize needsMore = .going next) :
    next.draft.killed = draft.killed := by
  unfold Draft.enter at h
  dsimp only at h
  split at h
  · cases h; rfl
  · cases h

/-- Only a key that kills changes what was killed. -/
theorem press_killed (hkey : event.key ∉ killKeys)
    (h : d.press history outSize event = .going next) : next.draft.killed = d.draft.killed := by
  obtain ⟨draft, mode⟩ := d
  cases mode with
  | editing =>
    replace h : draft.edit history outSize event = .going next := h
    unfold Draft.edit at h
    split at h
    · cases h
    · cases h
    · exact enter_killed h
    · split at h
      · cases h
      split at h
      · cases h
      · cases h; rfl
    · cases h; rfl
    · cases h
    · cases h
    · cases h; exact key_killed hkey
  | searching q =>
    obtain ⟨key, needsMore, candidates⟩ := event
    replace h : draft.search history outSize q ⟨key, needsMore, candidates⟩ = .going next := h
    unfold Draft.search at h
    cases key with
    | failed => cases h; rfl
    | byte c =>
      dsimp only at h
      split at h
      · cases h; rfl
      · cases h; exact accept_killed _
    | named name =>
      cases name with
      | resize | ctrlG | esc | ctrlC | ctrlR | backspace => cases h; rfl
      | enter => exact (enter_killed h).trans (accept_killed _)
      | _ => cases h

theorem run_killed {keys : List KeyEvent} (hkeys : ∀ event ∈ keys, event.key ∉ killKeys)
    (h : d.run history outSize keys = .going next) : next.draft.killed = d.draft.killed := by
  induction keys generalizing d with
  | nil => cases h; rfl
  | cons event keys ih =>
    rw [DraftSession.run] at h
    cases hstep : d.press history outSize event with
    | going d' =>
      rw [hstep] at h
      rw [ih (fun event h => hkeys event (mem_cons_of_mem _ h)) h,
        press_killed (hkeys event mem_cons_self) hstep]
    | returned status out => rw [hstep] at h; cases h
    | undefined => rw [hstep] at h; cases h

theorem edit_kill {draft : Draft} (hkey : event.key ∈ killKeys)
    (hcursor : draft.cursor ≤ draft.text.length) : ∃ start stop, stop ≤ draft.text.length ∧
      draft.edit history outSize event = .going ⟨draft.kill start stop, .editing⟩ := by
  obtain ⟨key, needsMore, candidates⟩ := event
  simp only [killKeys, mem_cons, not_mem_nil, or_false] at hkey
  rcases hkey with rfl | rfl | rfl
  · exact ⟨draft.cursor, _, le_rfl, rfl⟩
  · exact ⟨0, _, hcursor, rfl⟩
  · exact ⟨wordBackward draft.text draft.cursor, _, hcursor, rfl⟩

def yankKey : KeyEvent := { key := .named .ctrlY }

/-- The line with a text at the cursor. -/
def Editor.withAtCursor (e : Editor) (k : Text) : Text :=
  e.text.take e.cursor ++ k ++ e.text.drop e.cursor

/-- **What a key has killed is what `^Y` puts in**, whatever is pressed in between. -/
theorem yank_puts_killed {session killed later : Session} {between : List KeyEvent}
    (hsession : Reaches history outSize session) (hmode : session.mode = .editing)
    (hkey : event.key ∈ killKeys)
    (hkill : readKeys history outSize [event] session = .ok (.going killed))
    (hchanged : killed.editor.text ≠ session.editor.text)
    (hbetween : ∀ event ∈ between, event.key ∉ killKeys)
    (hlater : readKeys history outSize between killed = .ok (.going later))
    (hediting : later.mode = .editing) :
    ∃ k yanked, session.editor.text = killed.editor.withAtCursor k ∧
      readKeys history outSize [yankKey] later = .ok (.going yanked) ∧
      yanked.editor.text = if later.editor.length + k.length < arkshMaxLine then
        later.editor.withAtCursor k else later.editor.text := by
  have hinv := hsession.inv
  have hkilled := readKeys_inv hinv hkill
  have hlast := readKeys_inv hkilled hlater
  obtain ⟨e, mode⟩ := session
  obtain ⟨e', mode'⟩ := later
  subst hmode hediting
  have hcursor : e.draft.cursor ≤ e.draft.text.length :=
    hinv.editor.length_text ▸ hinv.editor.cursor
  obtain ⟨start, stop, hstop, hedit⟩ :=
    @edit_kill history outSize _ _ hkey hcursor
  have hrun := shown_run hinv hkill
  rw [DraftSession.run, show Session.shown ⟨e, .editing⟩ = ⟨e.draft, .editing⟩ from rfl,
    DraftSession.press, hedit] at hrun
  have hdraft : killed.editor.draft = e.draft.kill start stop :=
    congrArg DraftSession.draft (Drafted.going.inj hrun).symm
  have htext : killed.editor.text = (e.draft.kill start stop).text := congrArg Draft.text hdraft
  have hshorter : (e.draft.kill start stop).text ≠ e.draft.text := htext ▸ hchanged
  have hsplit := kill_split hstop hshorter
  have hsame : e'.draft.killed = (e.draft.kill start stop).killed :=
    (run_killed hbetween (shown_run hkilled hlater)).trans (congrArg Draft.killed hdraft)
  have hputs : (Session.shown ⟨e', .editing⟩).run history outSize [yankKey] =
      .going ⟨e'.draft.insert e'.draft.killed, .editing⟩ := rfl
  obtain ⟨yanked, hyank, hshown⟩ := readKeys_going hlast hputs
  refine ⟨(e.draft.kill start stop).killed, yanked, ?_, hyank, ?_⟩
  · rw [← hdraft] at hsplit ⊢
    exact hsplit
  · rw [show yanked.editor.text = (e'.draft.insert e'.draft.killed).text from
      congrArg (·.draft.text) hshown, hsame, insert_text (killed_ne_nil hstop hshorter),
      show e'.draft.text.length = e'.length from hlast.editor.length_text]
    rfl

/-- "a" is killed, "b" typed, and "a" put in behind it. -/
theorem yank_puts_killed_typed : ∃ later yanked : Session, later.editor.text = ['b'] ∧
    readKeys [] arkshMaxOutput [yankKey] later = .ok (.going yanked) ∧
    yanked.editor.text = ['b', 'a'] := by
  have hzero : ∃ k, Holds (zeros arkshMaxLine) k := ⟨[], zeros_holds (by decide)⟩
  obtain ⟨session, hrun, hshown⟩ := @readKeys_going [] arkshMaxOutput _
    [{ key := .byte ⟨'a', by decide⟩ }] _ (startReading_inv zeroFrame ⟨_, hzero⟩)
    (by rw [startReading_shown]; rfl)
  have hreaches : Reaches [] arkshMaxOutput session := ⟨_, _, _, hrun⟩
  obtain ⟨killed, hkill, hempty⟩ := @readKeys_going [] arkshMaxOutput _
    [{ key := .named .ctrlU }] _ hreaches.inv (by rw [hshown]; rfl)
  have hinv := readKeys_inv hreaches.inv hkill
  obtain ⟨later, hlater, hb⟩ := @readKeys_going [] arkshMaxOutput _
    [{ key := .byte ⟨'b', by decide⟩ }] _ hinv (by rw [hempty]; rfl)
  have htext : session.editor.text = ['a'] := congrArg (·.draft.text) hshown
  have hkilled : killed.editor.text = [] := congrArg (·.draft.text) hempty
  have htyped : later.editor.text = ['b'] := congrArg (·.draft.text) hb
  have hcursor : later.editor.cursor = 1 := congrArg (·.draft.cursor) hb
  have hbetween : ∀ event ∈ [({ key := .byte ⟨'b', by decide⟩ } : KeyEvent)],
      event.key ∉ killKeys := forall_mem_singleton.mpr (by decide)
  obtain ⟨k, yanked, hsplit, hyank, hline⟩ := yank_puts_killed hreaches
    (editing_of_shown (by rw [hshown])) (by decide) hkill (by rw [htext, hkilled]; decide)
    hbetween hlater (editing_of_shown (by rw [hb]))
  have hk : k = ['a'] := by simpa [Editor.withAtCursor, htext, hkilled] using hsplit.symm
  have hlength := (readKeys_inv hinv hlater).editor.length_text
  rw [htyped, length_singleton] at hlength
  refine ⟨later, yanked, htyped, hyank, ?_⟩
  rw [hline, hk, ← hlength, if_pos (by decide), Editor.withAtCursor, htyped, hcursor]
  rfl

end Yank

/-! ## 3. Walks along the history -/

def walkKey (up : Bool) : KeyEvent := { key := .named (if up then .up else .down) }

/-- Where a walk ends. -/
def walked (count : Nat) : Nat → List Bool → Nat
  | i, [] => i
  | i, up :: moves => walked count (if up then i - 1 else min (i + 1) count) moves

section Walks

variable {history : List HistoryEntry} {outSize : Nat} {typed : Text} {d : Draft} {i : Nat}

/-- The lines of the history, and the one that was typed. -/
def walkLines (history : List HistoryEntry) (typed : Text) : List Text :=
  history.map (·.1) ++ [typed]

/-- The editor is at a line, with the one that was typed kept where it is at another. -/
structure Walks (history : List HistoryEntry) (typed : Text) (d : Draft) (i : Nat) : Prop where
  index : d.index = i
  first : d.further = false
  text : (walkLines history typed)[i]? = some d.text
  scratch : i < history.length → d.scratch = typed

theorem walkLines_lt (h : i < history.length) :
    (walkLines history typed)[i]? = history[i]?.map (·.1) := by
  rw [walkLines, getElem?_append_left (by simpa using h), getElem?_map]

theorem walkLines_end : (walkLines history typed)[history.length]? = some typed := by
  simp [walkLines]

section

variable (h : Walks history typed d i)
include h

theorem Walks.le : i ≤ history.length := by
  obtain ⟨hlt, -⟩ := List.getElem?_eq_some_iff.mp h.text
  simp only [walkLines, length_append, length_map, length_singleton] at hlt
  omega

theorem Walks.up : Walks history typed (d.up history) (i - 1) := by
  unfold Draft.up
  split
  next hstop =>
    have hzero : i = 0 := by simpa [h.first, h.index] using hstop
    subst hzero
    exact h
  next hgo =>
    simp only [h.first, h.index, Bool.false_eq_true, false_or] at hgo ⊢
    have hlt : i - 1 < history.length := by have := h.le; omega
    obtain ⟨entry, hentry⟩ : ∃ entry, history[i - 1]? = some entry :=
      ⟨_, getElem?_eq_getElem hlt⟩
    rw [hentry]
    refine ⟨rfl, rfl, ?_, fun _ => ?_⟩
    · rw [walkLines_lt hlt, hentry]
      rfl
    · show (if i = history.length then d.text else d.scratch) = typed
      split
      next hend =>
        have htext := h.text
        rw [hend, walkLines_end] at htext
        exact (Option.some.inj htext).symm
      next hend => exact h.scratch (lt_of_le_of_ne h.le hend)

theorem Walks.down : Walks history typed (d.down history) (min (i + 1) history.length) := by
  have hle := h.le
  unfold Draft.down
  split
  next hstop =>
    have hend : history.length ≤ i := by simpa [h.first, h.index] using hstop
    rw [show min (i + 1) history.length = i by omega]
    exact h
  next hgo =>
    simp only [h.first, h.index, Bool.false_eq_true, false_or, not_le] at hgo ⊢
    rw [Nat.min_eq_left hgo]
    by_cases hlt : i + 1 < history.length
    · rw [getElem?_eq_getElem hlt]
      refine ⟨rfl, rfl, ?_, fun _ => h.scratch hgo⟩
      rw [walkLines_lt hlt, getElem?_eq_getElem hlt]
      rfl
    · have hend : i + 1 = history.length := by omega
      rw [getElem?_eq_none (by omega)]
      refine ⟨rfl, rfl, ?_, fun hlt' => absurd hlt' hlt⟩
      show _ = some d.scratch
      rw [h.scratch hgo, show i.succ = history.length from hend, walkLines_end]

end

theorem Walks.run {moves : List Bool} (h : Walks history typed d i) : ∃ d',
    DraftSession.run history outSize (moves.map walkKey) ⟨d, .editing⟩ = .going ⟨d', .editing⟩ ∧
      Walks history typed d' (walked history.length i moves) := by
  induction moves generalizing d i with
  | nil => exact ⟨d, rfl, h⟩
  | cons up moves ih =>
    cases up with
    | true => exact ih h.up
    | false => exact ih h.down

/-- **UP and DOWN walk along the history, with the line that was typed behind its end.** -/
theorem history_walk {session : Session} (hsession : Reaches history outSize session)
    (hmode : session.mode = .editing) (hfirst : session.editor.inContinuation = false)
    (hbottom : session.editor.historyIndex = history.length) (moves : List Bool) :
    ∃ next, readKeys history outSize (moves.map walkKey) session = .ok (.going next) ∧
      (walkLines history session.editor.text)[walked history.length history.length moves]? =
        some next.editor.text := by
  obtain ⟨e, mode⟩ := session
  subst hmode
  have hwalks : Walks history e.text e.draft history.length :=
    ⟨hbottom, hfirst, walkLines_end, fun hlt => absurd hlt (lt_irrefl _)⟩
  obtain ⟨d, hrun, hd⟩ := @Walks.run history outSize _ _ _ moves hwalks
  obtain ⟨next, hnext, hshown⟩ := readKeys_going hsession.inv hrun
  refine ⟨next, hnext, ?_⟩
  rw [show next.editor.text = d.text from congrArg (·.draft.text) hshown]
  exact hd.text

/-- Three times UP in a history of two, and DOWN. -/
theorem history_walk_up : ∃ next,
    readKeys [⟨['a'], by decide, by decide⟩, ⟨['b'], by decide, by decide⟩] arkshMaxOutput
      ([true, true, true, false].map walkKey)
      (startReading [⟨['a'], by decide, by decide⟩, ⟨['b'], by decide, by decide⟩] zeroFrame
        ⟨zeros arkshMaxLine, [], zeros_holds (by decide)⟩) = .ok (.going next) ∧
    some ['b'] = some next.editor.text :=
  history_walk ⟨[], _, _, rfl⟩ rfl rfl rfl [true, true, true, false]

end Walks

/-! ## 4. Searches -/

/-- The entries in front of one that hold what is searched for, the newest first. -/
def matchesBelow (history : List HistoryEntry) (text : Text) (start : Nat) : List Nat :=
  (range start).reverse.filter fun i => history[i]?.any fun entry => decide (text <:+: entry.1)

/-- The search at one of its matches. -/
def Query.at (history : List HistoryEntry) (text : Text) (j : Nat) : Query :=
  match (matchesBelow history text history.length)[j]? with
  | some found => ⟨text, found, found, history[found]?⟩
  | none => restart history text

section Searches

variable {history : List HistoryEntry} {outSize : Nat} {text : Text} {start found j : Nat}

theorem matchesBelow_succ : matchesBelow history text (start + 1) =
    if history[start]?.any fun entry => decide (text <:+: entry.1) then
      start :: matchesBelow history text start
    else matchesBelow history text start := by
  rw [matchesBelow, range_succ, reverse_append, reverse_singleton, singleton_append, filter_cons]
  rfl

theorem findHistoryMatch_head (htext : text ≠ []) (hstart : start ≤ history.length) :
    findHistoryMatch history text start = (matchesBelow history text start).head? := by
  induction start with
  | zero => rfl
  | succ start ih =>
    rw [findHistoryMatch, matchesBelow_succ, getElem?_eq_getElem hstart, any_some]
    dsimp only
    by_cases hmatch : text <:+: history[start].1
    · rw [if_pos ⟨htext, hmatch⟩, if_pos (decide_eq_true hmatch)]
      rfl
    · rw [if_neg fun h => hmatch h.2, if_neg (by simpa using hmatch)]
      exact ih (le_of_succ_le hstart)

/-- In front of a match are those behind it in the list. -/
theorem matchesBelow_drop (h : (matchesBelow history text start)[j]? = some found) :
    matchesBelow history text found = (matchesBelow history text start).drop (j + 1) := by
  induction start generalizing j with
  | zero => cases h
  | succ start ih =>
    rw [matchesBelow_succ] at h ⊢
    split at h
    next hmatch =>
      rw [if_pos hmatch]
      cases j with
      | zero =>
        cases h
        rfl
      | succ j => exact ih h
    next hmatch =>
      rw [if_neg hmatch]
      exact ih h

theorem matchesBelow_lt (h : found ∈ matchesBelow history text start) : found < start := by
  obtain ⟨hrange, -⟩ := mem_filter.mp h
  exact mem_range.mp (mem_reverse.mp hrange)

theorem at_text : (Query.at history text j).text = text := by
  unfold Query.at
  split <;> rfl

theorem find_head {q : Query} (htext : q.text ≠ []) (hfrom : q.searchFrom ≤ history.length) :
    q.find history = match (matchesBelow history q.text q.searchFrom).head? with
      | some found => { q with searchFrom := found, matchIdx := found, hit := history[found]? }
      | none => q := by
  rw [← findHistoryMatch_head htext hfrom]
  rfl

theorem find_restart (htext : text ≠ []) :
    (Query.restart history text).find history = Query.at history text 0 := by
  rw [find_head htext le_rfl, head?_eq_getElem?]
  rfl

/-- `^R` goes to the next match, if there is one. -/
theorem older_at (htext : text ≠ [])
    (hj : j ≤ (matchesBelow history text history.length).length - 1) :
    (Query.at history text j).older history = Query.at history text
      (min (j + 1) ((matchesBelow history text history.length).length - 1)) := by
  unfold Query.older
  rw [if_neg (by rw [at_text]; exact htext)]
  cases hfound : (matchesBelow history text history.length)[j]? with
  | none =>
    have hempty : matchesBelow history text history.length = [] := by
      rw [List.getElem?_eq_none_iff] at hfound
      exact eq_nil_of_length_eq_zero (by omega)
    have hat (i : Nat) : Query.at history text i = Query.restart history text := by
      rw [Query.at, hempty, getElem?_nil]
    have hstay : (if history.length < history.length then history.length else history.length) =
        history.length := if_neg (lt_irrefl _)
    rw [hat, hat]
    show Query.find history
      ⟨text, if history.length < history.length then history.length else history.length, _, _⟩ = _
    rw [hstay]
    show (Query.restart history text).find history = _
    rw [find_restart htext, hat]
  | some found =>
    have hat : Query.at history text j = ⟨text, found, found, history[found]?⟩ := by
      rw [Query.at, hfound]
    have hlt := matchesBelow_lt (mem_of_getElem? hfound)
    rw [hat, if_pos hlt, find_head (by exact htext) hlt.le]
    dsimp only
    rw [matchesBelow_drop hfound, head?_drop]
    obtain ⟨hbound, -⟩ := List.getElem?_eq_some_iff.mp hfound
    cases hnext : (matchesBelow history text history.length)[j + 1]? with
    | none =>
      rw [List.getElem?_eq_none_iff] at hnext
      rw [show min (j + 1) ((matchesBelow history text history.length).length - 1) = j by omega,
        hat]
    | some older =>
      obtain ⟨hbound', -⟩ := List.getElem?_eq_some_iff.mp hnext
      rw [Nat.min_eq_left (by omega), Query.at, hnext]

end Searches

section Searching

variable {history : List HistoryEntry} {outSize : Nat} {text : Text} {d : Draft} {j : Nat}

abbrev Printable := {c : Char // 32 ≤ c.toNat ∧ c.toNat < 127}

def searchKey : KeyEvent := { key := .named .ctrlR }

def typedKey (c : Printable) : KeyEvent := { key := .byte ⟨c.1, by have := c.2; omega⟩ }

theorem press_typed (c : Printable) (q : Query) (hroom : q.text.length + 1 < arkshMaxLine) :
    DraftSession.press history outSize (typedKey c) ⟨d, .searching q⟩ =
      .going ⟨d, .searching (Query.at history (q.text ++ [c.1]) 0)⟩ := by
  have htype : q.type history c.1 = Query.at history (q.text ++ [c.1]) 0 := by
    rw [Query.type, if_pos hroom, find_restart (by simp)]
  rw [← htype]
  exact if_pos c.2

/-- What is typed is what is searched for. -/
theorem run_typed {q : Query} (typed : List Printable)
    (hroom : q.text.length + typed.length < arkshMaxLine) (htyped : typed ≠ []) :
    DraftSession.run history outSize (typed.map typedKey) ⟨d, .searching q⟩ =
      .going ⟨d, .searching (Query.at history (q.text ++ typed.map (·.1)) 0)⟩ := by
  induction typed generalizing q with
  | nil => exact absurd rfl htyped
  | cons c typed ih =>
    rw [length_cons] at hroom
    rw [map_cons, DraftSession.run, press_typed c q (by omega)]
    dsimp only
    cases typed with
    | nil => rfl
    | cons c' typed =>
      rw [ih (by simp only [at_text, length_append, length_singleton]; omega) (cons_ne_nil _ _),
        at_text, append_assoc]
      rfl

theorem run_older (htext : text ≠ [])
    (hj : j ≤ (matchesBelow history text history.length).length - 1) (n : Nat) :
    DraftSession.run history outSize (replicate n searchKey)
      ⟨d, .searching (Query.at history text j)⟩ = .going ⟨d, .searching (Query.at history text
        (min (j + n) ((matchesBelow history text history.length).length - 1)))⟩ := by
  induction n generalizing j with
  | zero => rw [Nat.add_zero, Nat.min_eq_left hj]; rfl
  | succ n ih =>
    have holder := older_at htext hj
    generalize (matchesBelow history text history.length).length - 1 = last at *
    rw [replicate_succ, DraftSession.run, show DraftSession.press history outSize searchKey
      ⟨d, .searching (Query.at history text j)⟩ =
        .going ⟨d, .searching ((Query.at history text j).older history)⟩ from rfl, holder]
    dsimp only
    rw [ih (Nat.min_le_right _ _)]
    rw [show min (min (j + 1) last + n) last = min (j + (n + 1)) last by omega]

/-- The entry that holds what is searched for, with so many newer ones. -/
def matched (history : List HistoryEntry) (text : Text) (n : Nat) : Option HistoryEntry :=
  let found := matchesBelow history text history.length
  found[min n (found.length - 1)]?.bind fun i => history[i]?

theorem at_hit : (Query.at history text j).hit =
    (matchesBelow history text history.length)[j]?.bind fun i => history[i]? := by
  unfold Query.at
  cases (matchesBelow history text history.length)[j]? with
  | none => rfl
  | some found => rfl

/-- **`^R`, a text and n times `^R`: ENTER ends the match with n newer ones**, or the oldest. -/
theorem search_walk {session : Session} (hsession : Reaches history outSize session)
    (hmode : session.mode = .editing) (hfirst : session.editor.inContinuation = false)
    (typed : List Printable) (htyped : typed ≠ []) (hroom : typed.length < arkshMaxLine)
    (n : Nat) : ∃ next, readKeys history outSize
        (searchKey :: (typed.map typedKey ++ replicate n searchKey)) session = .ok (.going next) ∧
      endedLine next (.named .enter) = some ((matched history (typed.map (·.1)) n).elim
        session.editor.text (·.1)) := by
  obtain ⟨e, mode⟩ := session
  subst hmode
  have hrun : DraftSession.run history outSize
      (searchKey :: (typed.map typedKey ++ replicate n searchKey)) ⟨e.draft, .editing⟩ =
        .going ⟨e.draft, .searching (Query.at history (typed.map (·.1))
          (min n ((matchesBelow history (typed.map (·.1)) history.length).length - 1)))⟩ := by
    have hstart : DraftSession.press history outSize searchKey ⟨e.draft, .editing⟩ =
        .going ⟨e.draft, .searching (Query.restart history [])⟩ := by
      show Drafted.going ⟨_, if e.inContinuation then _ else _⟩ = _
      rw [hfirst]
      rfl
    rw [DraftSession.run, hstart]
    dsimp only
    rw [DraftSession.run_append (run_typed (q := Query.restart history []) typed
      (by rwa [Query.restart, length_nil, Nat.zero_add]) htyped)]
    rw [show (Query.restart history []).text ++ typed.map (·.1) = typed.map (·.1) from rfl,
      run_older (mt map_eq_nil_iff.mp htyped) (Nat.zero_le _), Nat.zero_add]
  obtain ⟨⟨e', mode⟩, hnext, hshown⟩ := readKeys_going hsession.inv hrun
  refine ⟨_, hnext, ?_⟩
  cases mode with
  | editing => cases congrArg (·.mode) hshown
  | searching s =>
    have hdraft : e'.draft = e.draft := congrArg (·.draft) hshown
    have hquery := DraftMode.searching.inj (congrArg (·.mode) hshown)
    show some (s.matchStr.elim e'.text (·.1)) = some _
    rw [show e'.text = e.text from congrArg Draft.text hdraft,
      show s.matchStr = _ from congrArg Query.hit hquery, at_hit]
    rfl

/-- Of "ab", "ba" and "c" the older one with an "a". -/
theorem search_walk_older : ∃ next, readKeys
      [⟨['a', 'b'], by decide, by decide⟩, ⟨['b', 'a'], by decide, by decide⟩,
        ⟨['c'], by decide, by decide⟩] arkshMaxOutput
      [searchKey, typedKey ⟨'a', by decide⟩, searchKey] (startReading
        [⟨['a', 'b'], by decide, by decide⟩, ⟨['b', 'a'], by decide, by decide⟩,
          ⟨['c'], by decide, by decide⟩] zeroFrame
        ⟨zeros arkshMaxLine, [], zeros_holds (by decide)⟩) = .ok (.going next) ∧
    endedLine next (.named .enter) = some ['a', 'b'] :=
  search_walk ⟨[], _, _, rfl⟩ rfl rfl [⟨'a', by decide⟩] (by decide) (by decide) 1

end Searching

/-! ## 5. Completions -/

/-- The longest text that all the candidates begin with. -/
structure LongestShared (shared : Text) (candidates : List Candidate) : Prop where
  begins : ∀ c ∈ candidates, shared <+: c.1
  longest : ∀ s, (∀ c ∈ candidates, s <+: c.1) → s <+: shared

def tabKey (candidates : List Candidate) : KeyEvent :=
  { key := .named .tab, candidates := candidates }

section Completion

variable {history : List HistoryEntry} {outSize : Nat}

theorem take_sharedLength (a b : Text) :
    sharedLength a b ≤ a.length ∧ a.take (sharedLength a b) <+: b := by
  induction a generalizing b with
  | nil => exact ⟨le_rfl, nil_prefix⟩
  | cons c a ih =>
    cases b with
    | nil => exact ⟨zero_le _, nil_prefix⟩
    | cons d b =>
      rw [sharedLength]
      split
      next heq =>
        subst heq
        obtain ⟨hle, hbegins⟩ := ih b
        exact ⟨succ_le_succ hle, (prefix_cons_inj c).mpr hbegins⟩
      · exact ⟨zero_le _, nil_prefix⟩

theorem le_sharedLength {a b s : Text} (ha : s <+: a) (hb : s <+: b) :
    s.length ≤ sharedLength a b := by
  induction s generalizing a b with
  | nil => exact zero_le _
  | cons c s ih =>
    obtain ⟨u, rfl⟩ := ha
    obtain ⟨v, rfl⟩ := hb
    rw [cons_append, cons_append, sharedLength, if_pos rfl, length_cons]
    exact succ_le_succ (ih (prefix_append _ _) (prefix_append _ _))

/-- What the candidates so far share is cut to what they share with the next one. -/
theorem shared_fold (first : Text) (rest : List Candidate) (m : Nat) :
    let n := rest.foldl (fun length item => sharedLength (first.take length) item.1) m
    n ≤ m ∧ (∀ c ∈ rest, first.take n <+: c.1) ∧
      ∀ s, s <+: first.take m → (∀ c ∈ rest, s <+: c.1) → s <+: first.take n := by
  induction rest generalizing m with
  | nil => exact ⟨le_rfl, fun _ => nofun, fun s hs _ => hs⟩
  | cons item rest ih =>
    obtain ⟨hle, hitem⟩ := take_sharedLength (first.take m) item.1
    obtain ⟨hn, hrest, hlongest⟩ := ih (sharedLength (first.take m) item.1)
    have hm : sharedLength (first.take m) item.1 ≤ m := hle.trans (length_take_le _ _)
    rw [take_take, Nat.min_eq_left hm] at hitem
    refine ⟨hn.trans hm, fun c hc => ?_, fun s hs hall => ?_⟩
    · rcases mem_cons.mp hc with rfl | hc
      · exact (take_prefix_take_left hn).trans hitem
      · exact hrest c hc
    · refine hlongest s ?_ fun c hc => hall c (mem_cons_of_mem _ hc)
      exact prefix_take_iff.mpr
        ⟨hs.trans ( take_prefix _ _), le_sharedLength hs (hall item mem_cons_self)⟩

theorem longest_shared (first : Candidate) (rest : List Candidate) :
    sharedPrefixLength first.1 rest ≤ first.1.length ∧
      LongestShared (first.1.take (sharedPrefixLength first.1 rest)) (first :: rest) := by
  obtain ⟨hle, hrest, hlongest⟩ := shared_fold first.1 rest first.1.length
  refine ⟨hle, fun c hc => ?_, fun s hs => ?_⟩
  · rcases mem_cons.mp hc with rfl | hc
    · exact take_prefix _ _
    · exact hrest c hc
  · rw [take_length] at hlongest
    exact hlongest s (hs first mem_cons_self) fun c hc => hs c (mem_cons_of_mem _ hc)

/-- **TAB puts in the longest text that all of several candidates begin with**, where it is longer
    than the typed one and fits. -/
theorem tab_shares {session : Session} (hsession : Reaches history outSize session)
    (hmode : session.mode = .editing) (first second : Candidate) (rest : List Candidate) :
    ∃ shared next, LongestShared shared (first :: second :: rest) ∧
      readKeys history outSize [tabKey (first :: second :: rest)] session = .ok (.going next) ∧
      let e := session.editor
      let start := completionStart e.text e.cursor (findObjectMemberContext e.text e.cursor)
      next.editor.text =
        if (e.cursor - start < shared.length ∧ shared.length < arkshMaxPath) ∧
            start + shared.length + (e.length - e.cursor) < arkshMaxLine then
          e.text.take start ++ shared ++ e.text.drop e.cursor
        else e.text := by
  obtain ⟨e, mode⟩ := session
  subst hmode
  have htab : (Session.shown ⟨e, .editing⟩).run history outSize
      [tabKey (first :: second :: rest)] =
        .going ⟨e.draft.complete (first :: second :: rest), .editing⟩ := rfl
  obtain ⟨next, hnext, hshown⟩ := readKeys_going hsession.inv htab
  obtain ⟨hle, hshared⟩ := longest_shared first (second :: rest)
  refine ⟨_, next, hshared, hnext, ?_⟩
  have hlength : e.draft.text.length = e.length := hsession.inv.editor.length_text
  rw [show next.editor.text = (e.draft.complete _).text from congrArg (·.draft.text) hshown,
    length_take, Nat.min_eq_left hle]
  unfold Draft.complete
  dsimp only
  rw [show e.draft.text = e.text from rfl] at hlength ⊢
  rw [show e.draft.cursor = e.cursor from rfl]
  generalize completionStart e.text e.cursor (findObjectMemberContext e.text e.cursor) = start
  have hcount : (first.1.take (sharedPrefixLength first.1 (second :: rest))).length =
      sharedPrefixLength first.1 (second :: rest) := by rw [length_take, Nat.min_eq_left hle]
  generalize sharedPrefixLength first.1 (second :: rest) = shared at hcount ⊢
  by_cases hlong : e.cursor - start ≥ arkshMaxPath
  · rw [if_pos hlong, if_neg fun h => by omega]
    rfl
  rw [if_neg hlong]
  by_cases hmore : e.cursor - start < shared ∧ shared < arkshMaxPath
  · rw [if_pos hmore, Draft.replace, hcount, show e.draft.text = e.text from rfl, hlength,
      show e.draft.cursor = e.cursor from rfl]
    by_cases hroom : start + shared + (e.length - e.cursor) < arkshMaxLine
    · rw [if_pos hroom, if_pos ⟨hmore, hroom⟩]
      rfl
    · rw [if_neg hroom, if_neg fun h => hroom h.2]
      rfl
  · rw [if_neg hmore, if_neg fun h => hmore h.1]
    rfl

/-- TAB on an empty line, with "list" and "line". -/
theorem tab_shares_two : ∃ shared next,
    LongestShared shared [⟨"list".toList, by decide⟩, ⟨"line".toList, by decide⟩] ∧
    readKeys [] arkshMaxOutput [tabKey [⟨"list".toList, by decide⟩, ⟨"line".toList, by decide⟩]]
      (startReading [] zeroFrame ⟨zeros arkshMaxLine, [], zeros_holds (by decide)⟩) =
        .ok (.going next) ∧ next.editor.text = shared := by
  obtain ⟨shared, next, hshared, hrun, htext⟩ := @tab_shares [] arkshMaxOutput _
    ⟨[], zeroFrame, ⟨_, [], zeros_holds (by decide)⟩, rfl⟩ rfl
    ⟨"list".toList, by decide⟩ ⟨"line".toList, by decide⟩ []
  refine ⟨shared, next, hshared, hrun, ?_⟩
  have hshort : shared.length ≤ "list".toList.length := (hshared.begins _ mem_cons_self).length_le
  have hlong : "li".toList.length ≤ shared.length := (hshared.longest _ (by decide)).length_le
  have hpath : 4 < arkshMaxPath ∧ 4 < arkshMaxLine := by decide
  have hfits : 0 < shared.length ∧ shared.length < arkshMaxPath ∧
      0 + shared.length + 0 < arkshMaxLine := by
    have hcounts : "list".toList.length = 4 ∧ "li".toList.length = 2 := by decide
    omega
  exact htext.trans ((if_pos ⟨⟨hfits.1, hfits.2.1⟩, hfits.2.2⟩).trans (append_nil shared))

end Completion

end Arksh
