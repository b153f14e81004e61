/-
  Subject: What the line editor is for: a draft of an input that keys edit.

  A `Draft` has texts where the editor has buffers, lengths and bytes to move. Key by key the
  editor does to its buffers what `DraftSession.press` does to the texts; so what is proved of
  drafts holds of every run of the editor.

  The three keys that kill take a stretch of the line away, and `^Y` puts it where the cursor is;
  UP and DOWN walk along the history.
-/
import Arksh.Shell.SubmittedInput

namespace Arksh

open CText CBuffer Scan List Option Nat

/-! ## 1. Drafts -/

structure Draft where
  text : Text
  cursor : Nat
  killed : Text
  saved : Option (Text × Nat)
  index : Nat
  scratch : Text
  input : Text
  further : Bool

namespace Draft

def save (d : Draft) : Draft := { d with saved := some (d.text, d.cursor) }

/-- A stretch of the line gives way to a text, with the cursor behind it. -/
def splice (d : Draft) (start stop : Nat) (s : Text) : Draft :=
  { d with text := d.text.take start ++ s ++ d.text.drop stop, cursor := start + s.length }

/-- The line is another text. -/
def put (d : Draft) (text : Text) : Draft := { d with text := text, cursor := text.length }

/-- A stretch of the line is cut out and kept. -/
def kill (d : Draft) (start stop : Nat) : Draft :=
  if start < stop then
    { d.save.splice start stop [] with killed := (d.text.drop start).take (stop - start) }
  else d

/-- A text that fits is put in at the cursor. -/
def insert (d : Draft) (s : Text) : Draft :=
  if s ≠ [] ∧ d.text.length + s.length < arkshMaxLine then d.save.splice d.cursor d.cursor s else d

def erase (d : Draft) (start stop : Nat) : Draft :=
  if start < stop ∧ stop ≤ d.text.length then d.save.splice start stop [] else d

def undo (d : Draft) : Draft :=
  match d.saved with
  | some (text, cursor) => { d with text := text, cursor := cursor, saved := none }
  | none => d

section History

variable (history : List HistoryEntry)

def up (d : Draft) : Draft :=
  if d.further ∨ d.index = 0 then d
  else
    match history[d.index - 1]? with
    | some entry =>
      { d with
        scratch := if d.index = history.length then d.text else d.scratch
        index := d.index - 1 }.put entry.1
    | none => d

def down (d : Draft) : Draft :=
  if d.further ∨ d.index ≥ history.length then d
  else
    match history[d.index + 1]? with
    | some entry => { d with index := d.index + 1 }.put entry.1
    | none => { d with index := d.index + 1 }.put d.scratch

end History

/-- A stretch gives way to a completion, if that fits. -/
def replace (d : Draft) (start : Nat) (s : Text) : Draft :=
  if start + s.length + (d.text.length - d.cursor) < arkshMaxLine then d.splice start d.cursor s
  else d

/-- TAB: a single candidate is put in, and what several share where it is more than what was
    typed. -/
def complete (d : Draft) (candidates : List Candidate) : Draft :=
  let context := findObjectMemberContext d.text d.cursor
  let start := completionStart d.text d.cursor context
  if d.cursor - start ≥ arkshMaxPath then d
  else
    match candidates with
    | [] => d
    | [only] => d.replace start (onlyReplacement context.isSome only.1)
    | first :: rest =>
      let shared := sharedPrefixLength first.1 rest
      if d.cursor - start < shared ∧ shared < arkshMaxPath then
        d.replace start (first.1.take shared)
      else d

end Draft

/-! ## 2. Searches -/

/-- What is searched for, and what was found. -/
structure Query where
  text : Text
  searchFrom : Nat
  matchIdx : Nat
  hit : Option HistoryEntry

inductive DraftMode where
  | editing
  | searching (query : Query)

structure DraftSession where
  draft : Draft
  mode : DraftMode

/-- A run goes on, has returned, or has given `isprint` a code that C does not allow. -/
inductive Drafted where
  | going (session : DraftSession)
  | returned (status : LineReadStatus) (out : Text)
  | undefined

section Press

variable (history : List HistoryEntry) (outSize : Nat)

namespace Query

def restart (text : Text) : Query := ⟨text, history.length, history.length, none⟩

/-- The newest match in front of an entry; what was found before stays where there is none. -/
def find (q : Query) : Query :=
  match findHistoryMatch history q.text q.searchFrom with
  | some found => { q with searchFrom := found, matchIdx := found, hit := history[found]? }
  | none => q

def type (q : Query) (c : Char) : Query :=
  if q.text.length + 1 < arkshMaxLine then (restart history (q.text ++ [c])).find history else q

def shorten (q : Query) : Query :=
  if q.text = [] then q
  else if q.text.length = 1 then restart history []
  else (restart history q.text.dropLast).find history

def older (q : Query) : Query :=
  if q.text = [] then q
  else
    { q with searchFrom := if q.matchIdx < history.length then q.matchIdx else q.searchFrom }.find
      history

end Query

/-! ## 3. Keys -/

def Draft.accept (d : Draft) (q : Query) : Draft :=
  match q.hit with
  | some entry => { d.put entry.1 with index := q.matchIdx }
  | none => d

/-- ENTER: the line goes to the input, which is returned or goes on with an empty line. -/
def Draft.enter (d : Draft) (needsMore : Bool) : Drafted :=
  let input := appended d.input d.text
  if input ≠ [] ∧ needsMore then
    .going
      { draft :=
          { d.put [] with
            input := input, further := true, index := history.length, scratch := [] }
        mode := .editing }
  else .returned .ok (copyString outSize input)

def Draft.search (d : Draft) (q : Query) (event : KeyEvent) : Drafted :=
  match event.key with
  | .named .resize => .going ⟨d, .searching q⟩
  | .failed | .named .ctrlG | .named .esc | .named .ctrlC => .going ⟨d, .editing⟩
  | .named .enter => (d.accept q).enter history outSize event.needsMore
  | .named .ctrlR => .going ⟨d, .searching (q.older history)⟩
  | .named .backspace => .going ⟨d, .searching (q.shorten history)⟩
  | .named _ => .undefined
  | .byte c =>
    if 32 ≤ c.1.toNat ∧ c.1.toNat < 127 then .going ⟨d, .searching (q.type history c.1)⟩
    else .going ⟨d.accept q, .editing⟩

/-- The keys that leave the editor where it is, in front of another key. -/
def Draft.key (d : Draft) (event : KeyEvent) : Draft :=
  match event.key with
  | .named .ctrlA => { d with cursor := 0 }
  | .named .ctrlE => { d with cursor := d.text.length }
  | .named .left => { d with cursor := d.cursor - 1 }
  | .named .right => { d with cursor := min (d.cursor + 1) d.text.length }
  | .named .wordLeft => { d with cursor := wordBackward d.text d.cursor }
  | .named .wordRight => { d with cursor := wordForward d.text d.text.length d.cursor }
  | .named .up => d.up history
  | .named .down => d.down history
  | .named .tab => d.complete event.candidates
  | .named .ctrlK => d.kill d.cursor d.text.length
  | .named .ctrlU => d.kill 0 d.cursor
  | .named .ctrlW => d.kill (wordBackward d.text d.cursor) d.cursor
  | .named .ctrlY => d.insert d.killed
  | .named .ctrlUnderscore => d.undo
  | .named .backspace => d.erase (d.cursor - 1) d.cursor
  | .named .delete => d.erase d.cursor (d.cursor + 1)
  | .byte c => if 32 ≤ c.1.toNat ∧ c.1.toNat < 127 then d.insert [c.1] else d
  | _ => d

def Draft.edit (d : Draft) (event : KeyEvent) : Drafted :=
  match event.key with
  | .failed => .returned .error []
  | .named .ctrlC => .returned .ok []
  | .named .enter => d.enter history outSize event.needsMore
  | .named .ctrlD =>
    if d.input ≠ [] then .returned .ok (copyString outSize d.input)
    else if d.text = [] then .returned .eof []
    else .going ⟨d, .editing⟩
  | .named .ctrlR =>
    .going ⟨d, if d.further then .editing else .searching (Query.restart history [])⟩
  | .named .ctrlG | .named .esc => .undefined
  | _ => .going ⟨d.key history event, .editing⟩

def DraftSession.press (event : KeyEvent) (session : DraftSession) : Drafted :=
  match session.mode with
  | .editing => session.draft.edit history outSize event
  | .searching q => session.draft.search history outSize q event

/-- A run of keys. -/
def DraftSession.run : List KeyEvent → DraftSession → Drafted
  | [], session => .going session
  | event :: events, session =>
    match session.press history outSize event with
    | .going session => session.run events
    | ended => ended

end Press

/-! ## 4. What the editor shows -/

/-- The text that a buffer holds. -/
def shown {size : Nat} (b : Buffer size) : Text := b.bytes.takeWhile (· ≠ nul)

def Editor.draft (e : Editor) : Draft where
  text := e.text
  cursor := e.cursor
  killed := shown e.killBuf
  saved := if e.undoValid then some (e.undoLine.bytes.take e.undoLength, e.undoCursor) else none
  index := e.historyIndex
  scratch := shown e.historyScratch
  input := e.multi.bytes.take e.multiLen
  further := e.inContinuation

def Search.toQuery (s : Search) : Query :=
  ⟨s.query.bytes.take s.queryLen, s.searchFrom, s.matchIdx, s.matchStr⟩

def Session.shown (session : Session) : DraftSession where
  draft := session.editor.draft
  mode :=
    match session.mode with
    | .editing => .editing
    | .searching s => .searching s.toQuery

def Reading.shown : Reading → Drafted
  | .going session => .going session.shown
  | .returned status out => .returned status out

def observed : Checked Reading → Drafted
  | .ok r => r.shown
  | .error _ => .undefined

section Buffers

variable {size : Nat} {b : Buffer size} {t : Text}

theorem shown_of_holds (h : Holds b t) : shown b = t := by
  obtain ⟨rest, hrest⟩ := h.front
  have hall : ∀ c ∈ t, (fun c => decide (c ≠ nul)) c = true := fun c hc =>
    decide_eq_true fun heq => h.plain (heq ▸ hc)
  rw [shown, ← hrest, append_assoc, takeWhile_append_of_pos hall]
  simp

theorem take_of_holds (h : Holds b t) : b.bytes.take t.length = t := by
  rw [h.take_bytes le_rfl, take_length]

end Buffers

section Edits

variable {history : List HistoryEntry} {e : Editor} {line : Buffer arkshMaxLine} {start stop : Nat}
  {s : Text} {f : Editor → Checked Editor}

theorem draft_line {length cursor : Nat} {t : Text} (hline : line.bytes.take length = t) :
    { e with line := line, length := length, cursor := cursor }.draft =
      { e.draft with text := t, cursor := cursor } := by
  rw [← hline]
  rfl

theorem undo_draft : Gives (fun e' => e'.draft = e.draft.undo) (undo e) := by
  unfold undo
  split
  next hvalid =>
    have hundo : e.draft.undo = { e.draft with
        text := e.undoLine.bytes.take e.undoLength, cursor := e.undoCursor, saved := none } := by
      unfold Draft.undo Editor.draft
      rw [if_pos hvalid]
    intro r hr
    obtain ⟨line, hcopy, rfl⟩ := map_ok.mp hr
    rw [hundo, ← take_copy (inBounds_ok hcopy)]
    rfl
  next hvalid =>
    refine gives_ok ?_
    unfold Draft.undo Editor.draft
    rw [if_neg hvalid]

theorem applyHistoryEntry_draft (entry : HistoryEntry) :
    Gives (fun e' => e'.draft = e.draft.put entry.1) (applyHistoryEntry e entry.1) := by
  intro r hr
  obtain ⟨_, heq, line, t, hline, ht, rfl⟩ := applyHistoryEntry_line (e := e) entry.2.2
  rw [copyString_of_lt entry.2.1] at ht
  subst ht
  cases hr.symm.trans heq
  exact draft_line (take_of_holds hline)

variable (h : EditorInv history.length e)
include h

theorem EditorInv.length_text : e.text.length = e.length := h.text.2.symm

theorem replaced (hs : nul ∉ s) (hstart : start ≤ stop) (hstop : stop ≤ e.length)
    (hroom : start + s.length + (e.length - stop) < arkshMaxLine)
    (hline : (e.line.move (start + s.length) stop
      (e.length - stop + 1)).bind (·.write start s) = some line) :
    line.bytes.take (start + s.length + (e.length - stop)) =
      e.text.take start ++ s ++ e.text.drop stop := by
  obtain ⟨htext, hlen⟩ := h.text
  rw [hlen] at hstop hroom hline ⊢
  obtain ⟨b, hb, hholds⟩ := holds_replace htext hs hstart hstop hroom
  cases hline.symm.trans hb
  have hcount : (e.text.take start ++ s ++ e.text.drop stop).length =
      start + s.length + (e.text.length - stop) := by
    simp only [length_append, length_take, length_drop]
    omega
  rw [← hcount, take_of_holds hholds]

theorem cut_text (hstart : start ≤ stop) (hstop : stop ≤ e.length)
    (hline : e.line.move start stop (e.length - stop + 1) = some line) :
    line.bytes.take (start + (e.length - stop)) = e.text.take start ++ [] ++ e.text.drop stop := by
  have hlt := h.text.1.length_lt
  rw [h.length_text] at hlt
  refine replaced h (s := []) not_mem_nil hstart hstop (by simp; omega) ?_
  rw [length_nil, Nat.add_zero, hline, bind_some, write_eq (by simp; omega)]
  simp

/-- The snapshot in front of a change. -/
theorem saveUndo_draft {P : Editor → Prop}
    (hf : ∀ e', EditorInv history.length e' → SameLine e e' → e'.text = e.text →
      e'.draft = e.draft.save → Gives P (f e')) : Gives P ((saveUndo e).bind f) := by
  intro r hr
  obtain ⟨e', hsave, hr⟩ := bind_ok.mp hr
  obtain ⟨_, heq, hinv, hsame⟩ := saveUndo_yields h
  cases hsave.symm.trans heq
  refine hf e' hinv hsame (by rw [Editor.text, hsame.line, hsame.length, ← Editor.text]) ?_ r hr
  obtain ⟨undoLine, hcopy, rfl⟩ := map_ok.mp hsave
  have htext : undoLine.bytes.take e.length = e.text := take_copy (inBounds_ok hcopy)
  rw [Editor.draft]
  simp only [if_true, htext]
  rfl

theorem killToEnd_draft :
    Gives (fun e' => e'.draft = e.draft.kill e.cursor e.text.length) (killToEnd e) := by
  unfold killToEnd
  rw [h.length_text]
  split
  next hlt =>
    have hkill : e.draft.kill e.cursor e.length =
        { e.draft.save.splice e.cursor e.length [] with
          killed := (e.text.drop e.cursor).take (e.length - e.cursor) } := if_pos hlt
    rw [hkill]
    refine saveUndo_draft h fun e' h' hsame htext hsave => ?_
    rw [← hsave, ← htext, ← hsame.cursor, ← hsame.length]
    obtain ⟨hholds, hlen⟩ := h'.text
    have hcursor : e'.cursor ≤ e'.text.length := hlen ▸ h'.cursor
    have hplain : nul ∉ e'.text.drop e'.cursor := fun hc => hholds.plain (mem_of_mem_drop hc)
    obtain ⟨b, hb, hkilled⟩ := holds_copyString (b := e'.killBuf) (by decide) hplain
    obtain ⟨line, hcut, hline⟩ := holds_cut hholds hcursor
    rw [hholds.text hcursor, bind_some, hb, hcut]
    refine gives_ok ?_
    have hshort := hholds.length_lt
    rw [copyString_of_lt (by rw [length_drop]; omega)] at hkilled
    have hall : (e'.text.drop e'.cursor).take (e'.length - e'.cursor) = e'.text.drop e'.cursor :=
      take_of_length_le (by rw [length_drop, hlen])
    have hfront := take_of_holds hline
    rw [length_take, min_eq_left hcursor] at hfront
    rw [hall, ← shown_of_holds hkilled]
    show Draft.mk _ _ _ _ _ _ _ _ = Draft.mk (e'.text.take _ ++ [] ++ e'.text.drop _) _ _ _ _ _ _ _
    rw [hlen, drop_length, append_nil, append_nil, ← hfront]
    rfl
  next hle => exact gives_ok (if_neg hle).symm

theorem killBack_draft {newPos : Nat} (hpos : newPos < e.cursor) :
    Gives (fun e' => e'.draft = e.draft.kill newPos e.cursor) (killBack e newPos) := by
  have hkill : e.draft.kill newPos e.cursor = { e.draft.save.splice newPos e.cursor [] with
      killed := (e.text.drop newPos).take (e.cursor - newPos) } := if_pos hpos
  rw [hkill]
  refine saveUndo_draft h fun e' h' hsame htext hsave => ?_
  rw [← hsave, ← htext]
  rw [← hsame.cursor] at hpos ⊢
  obtain ⟨hholds, hlen⟩ := h'.text
  have hcursor := h'.cursor
  obtain ⟨b, hb, hkilled⟩ := killed_holds h' hpos.le hholds hlen
  rw [hb]
  intro r hr
  obtain ⟨line, hmove, rfl⟩ := map_ok.mp hr
  have hline := cut_text h' hpos.le hcursor (inBounds_ok hmove)
  rw [show newPos + (e'.length - e'.cursor) = e'.length - (e'.cursor - newPos) by omega] at hline
  rw [← shown_of_holds hkilled]
  show Draft.mk _ _ _ _ _ _ _ _ = Draft.mk (e'.text.take _ ++ [] ++ e'.text.drop _) _ _ _ _ _ _ _
  rw [← hline]
  rfl

theorem insert_draft (hs : nul ∉ s) (hne : s ≠ []) (hroom : e.length + s.length < arkshMaxLine) :
    Gives (fun e' => e'.draft = e.draft.insert s) ((saveUndo e).bind fun e =>
      (inBounds ((e.line.move (e.cursor + s.length) e.cursor (e.length - e.cursor + 1)).bind
        (·.write e.cursor s))).map fun line =>
          { e with
            line := line, length := e.length + s.length, cursor := e.cursor + s.length }) := by
  have hinsert : e.draft.insert s = e.draft.save.splice e.cursor e.cursor s :=
    if_pos ⟨hne, by rw [← h.length_text] at hroom; exact hroom⟩
  rw [hinsert]
  refine saveUndo_draft h fun e' h' hsame _ hsave => ?_
  rw [← hsave, ← hsame.cursor]
  have hcursor := h'.cursor
  rw [← hsame.length] at hroom
  intro r hr
  obtain ⟨line, hmove, rfl⟩ := map_ok.mp hr
  have hline := replaced h' hs le_rfl hcursor (by omega) (inBounds_ok hmove)
  rw [show e'.cursor + s.length + (e'.length - e'.cursor) = e'.length + s.length by omega] at hline
  exact draft_line hline

theorem erase_draft (hstart : start < stop) (hstop : stop ≤ e.length)
    (hf : ∀ e', e'.cursor = e.cursor → e'.length = e.length → f e' =
      (inBounds (e'.line.move start stop (e'.length - stop + 1))).map fun line =>
        { e' with line := line, length := start + (e'.length - stop), cursor := start }) :
    Gives (fun e' => e'.draft = e.draft.erase start stop) ((saveUndo e).bind f) := by
  have herase : e.draft.erase start stop = e.draft.save.splice start stop [] :=
    if_pos ⟨hstart, by rw [← h.length_text] at hstop; exact hstop⟩
  rw [herase]
  refine saveUndo_draft h fun e' h' hsame _ hsave => ?_
  rw [← hsave, hf e' hsame.cursor hsame.length]
  rw [← hsame.length] at hstop
  intro r hr
  obtain ⟨line, hmove, rfl⟩ := map_ok.mp hr
  exact draft_line (cut_text h' hstart.le hstop (inBounds_ok hmove))

theorem backspace_draft :
    Gives (fun e' => e'.draft = e.draft.erase (e.cursor - 1) e.cursor) (backspace e) := by
  unfold backspace
  split
  next hpos =>
    refine erase_draft h (by omega) h.cursor fun e' hcursor hlength => ?_
    have hle := h.cursor
    rw [hcursor, show e'.length - 1 = e.cursor - 1 + (e'.length - e.cursor) by omega]
  next hzero => exact gives_ok (if_neg fun hlt => hzero (by omega)).symm

theorem delete_draft :
    Gives (fun e' => e'.draft = e.draft.erase e.cursor (e.cursor + 1)) (delete e) := by
  unfold delete
  split
  next hlt =>
    refine erase_draft h (lt_succ_self _) hlt fun e' hcursor hlength => ?_
    rw [← hcursor, show e'.length - e'.cursor = e'.length - (e'.cursor + 1) + 1 by omega,
      show e'.length - 1 = e'.cursor + (e'.length - (e'.cursor + 1)) by omega]
  next hle =>
    refine gives_ok (if_neg fun hlt => hle ?_).symm
    rw [← h.length_text]
    exact hlt.2

theorem yank_draft : Gives (fun e' => e'.draft = e.draft.insert (shown e.killBuf)) (yank e) := by
  obtain ⟨k, hk⟩ := h.killBuf
  unfold yank
  rw [hk.text (zero_le _), drop_zero, shown_of_holds hk]
  show Gives _ (if _ then _ else _)
  split
  next hroom => exact insert_draft h hk.plain (ne_nil_of_length_pos hroom.1) hroom.2
  next hroom =>
    refine gives_ok (if_neg fun hfits => hroom ⟨length_pos_of_ne_nil hfits.1, ?_⟩).symm
    rw [← h.length_text]
    exact hfits.2

theorem insertChar_draft {c : Char} (hc : c ≠ nul) :
    Gives (fun e' => e'.draft = e.draft.insert [c]) (insertChar e c) := by
  unfold insertChar
  split
  next hroom =>
    refine gives_ok (if_neg fun hfits => ?_).symm
    rw [← h.length_text] at hroom
    exact absurd hfits.2 (Nat.not_lt.mpr hroom)
  next hroom =>
    exact insert_draft h (s := [c]) (by simpa using hc.symm) (cons_ne_nil _ _) (Nat.not_le.mp hroom)

theorem historyUp_draft : Gives (fun e' => e'.draft = e.draft.up history)
    (if e.inContinuation then .ok e else historyUp history e) := by
  have hle := h.historyIndex
  split
  next hline => exact gives_ok (if_pos (.inl hline)).symm
  next hline =>
    unfold historyUp
    split
    next hstop =>
      refine gives_ok (if_pos (.inr ?_)).symm
      rcases hstop with rfl | hzero
      · exact Nat.eq_zero_of_le_zero hle
      · exact hzero
    next hgo =>
      rw [not_or] at hgo
      obtain ⟨entry, hentry⟩ : ∃ entry, history[e.historyIndex - 1]? = some entry :=
        ⟨_, getElem?_eq_getElem (by omega)⟩
      have hup : e.draft.up history = { e.draft with
          scratch := if e.historyIndex = history.length then e.text else shown e.historyScratch
          index := e.historyIndex - 1 }.put entry.1 := by
        have hturn : ¬ (e.draft.further ∨ e.draft.index = 0) := not_or.mpr ⟨hline, hgo.2⟩
        rw [Draft.up, if_neg hturn, show e.draft.index = e.historyIndex from rfl, hentry]
        rfl
      rw [hup]
      refine gives_bind (P := fun e' => ∃ b, e' = { e with historyScratch := b } ∧
        shown b = if e.historyIndex = history.length then e.text else shown e.historyScratch) ?_ ?_
      · split
        · obtain ⟨htext, -⟩ := h.text
          obtain ⟨b, hb, hscratch⟩ :=
            holds_copyString (b := e.historyScratch) (by decide) htext.plain
          rw [htext.text (zero_le _), bind_some, drop_zero, hb]
          rw [copyString_of_lt htext.length_lt] at hscratch
          exact gives_ok ⟨b, rfl, shown_of_holds hscratch⟩
        · exact gives_ok ⟨_, rfl, rfl⟩
      · rintro _ ⟨b, rfl, hb⟩
        rw [← hb]
        dsimp only
        rw [hentry]
        exact applyHistoryEntry_draft entry

theorem historyDown_draft : Gives (fun e' => e'.draft = e.draft.down history)
    (if e.inContinuation then .ok e else historyDown history e) := by
  split
  next hline => exact gives_ok (if_pos (.inl hline)).symm
  next hline =>
    unfold historyDown
    split
    next hstop =>
      refine gives_ok (if_pos (.inr ?_)).symm
      rcases hstop with rfl | hend
      · exact zero_le _
      · exact hend
    next hgo =>
      rw [not_or] at hgo
      have hturn : ¬ (e.draft.further ∨ e.draft.index ≥ history.length) :=
        not_or.mpr ⟨hline, hgo.2⟩
      rw [Draft.down, if_neg hturn, show e.draft.index = e.historyIndex from rfl]
      dsimp only
      by_cases hend : e.historyIndex + 1 = history.length
      · obtain ⟨s, hs⟩ := h.scratch
        rw [if_pos hend, getElem?_eq_none hend.ge, hs.text (zero_le _), drop_zero]
        obtain rfl := shown_of_holds hs
        exact applyHistoryEntry_draft ⟨shown e.historyScratch, hs.length_lt, hs.plain⟩
      · rw [if_neg hend, getElem?_eq_getElem (by omega)]
        exact applyHistoryEntry_draft _

theorem replaceRange_draft (hs : nul ∉ s) (hstart : start ≤ e.cursor) :
    Gives (fun e' => e'.draft = e.draft.replace start s) (replaceRange e start e.cursor s) := by
  unfold replaceRange Draft.replace
  rw [if_neg (Nat.not_lt.mpr hstart), show e.draft.text.length = e.length from h.length_text,
    show e.draft.cursor = e.cursor from rfl]
  by_cases hroom : start + s.length + (e.length - e.cursor) < arkshMaxLine
  · rw [if_pos hroom, if_neg (Nat.not_le.mpr hroom)]
    intro r hr
    obtain ⟨line, hmove, rfl⟩ := map_ok.mp hr
    exact draft_line (replaced h hs hstart h.cursor hroom (inBounds_ok hmove))
  · rw [if_neg hroom, if_pos (Nat.not_lt.mp hroom)]
    exact gives_ok rfl

end Edits

/-! ## 5. Completions and words -/

section Scans

variable {p : Char → Bool} {a b : List Char} {pos left cursor : Nat}

theorem scanBack_congr (h : ∀ i < pos, a.getD i nul = b.getD i nul) :
    scanBack p a pos = scanBack p b pos := by
  induction pos with
  | zero => rfl
  | succ pos ih =>
    rw [scanBack, scanBack, h pos (lt_succ_self pos),
      ih fun i hi => h i (hi.trans (lt_succ_self _))]

theorem scanForward_congr (h : ∀ i < pos + left, a.getD i nul = b.getD i nul) :
    scanForward p a left pos = scanForward p b left pos := by
  induction left generalizing pos with
  | zero => rfl
  | succ left ih => rw [scanForward, scanForward, h pos (by omega), ih fun i hi => h i (by omega)]

theorem findObjectMemberContext_congr (h : ∀ i < cursor, a.getD i nul = b.getD i nul) :
    findObjectMemberContext a cursor = findObjectMemberContext b cursor := by
  have hscan (p : Char → Bool) {pos : Nat} (hpos : pos ≤ cursor) :
      scanBack p a pos = scanBack p b pos := scanBack_congr fun i hi => h i (hi.trans_le hpos)
  unfold findObjectMemberContext
  dsimp only
  have hmember := scanBack_le isMemberChar b cursor
  rw [hscan _ le_rfl]
  generalize scanBack isMemberChar b cursor = member at hmember ⊢
  have hblank := scanBack_le isspace b member
  rw [hscan _ hmember]
  generalize scanBack isspace b member = scan at hblank ⊢
  by_cases hshort : scan < 2
  · rw [if_pos (.inl hshort), if_pos (.inl hshort)]
  · have hend := scanBack_le isspace b (scan - 2)
    rw [h (scan - 1) (by omega), h (scan - 2) (by omega), hscan isspace (by omega),
      hscan _ (by omega)]

theorem findObjectMemberContext_lt {receiverStart receiverEnd memberStart : Nat}
    (h : findObjectMemberContext a cursor = some (receiverStart, receiverEnd, memberStart)) :
    receiverStart < receiverEnd := by
  unfold findObjectMemberContext at h
  dsimp only at h
  split at h
  · cases h
  split at h
  · cases h
  split at h
  · cases h
  next hlt =>
    simp only [Option.some.injEq, Prod.mk.injEq] at h
    omega

end Scans

section Words

variable {history : List HistoryEntry} {e : Editor}

theorem getD_text {i : Nat} (hi : i < e.length) :
    e.line.bytes.getD i nul = e.text.getD i nul := by
  rw [Editor.text, getD_eq_getElem?_getD, getD_eq_getElem?_getD, getElem?_take_of_lt hi]

variable (h : EditorInv history.length e)
include h

theorem wordBackward_text : wordBackward e.line.bytes e.cursor = wordBackward e.text e.cursor := by
  have hcursor := h.cursor
  have hblank : scanBack isspace e.line.bytes e.cursor = scanBack isspace e.text e.cursor :=
    scanBack_congr fun i hi => getD_text (by omega)
  have hle := scanBack_le isspace e.text e.cursor
  unfold wordBackward
  rw [hblank, scanBack_congr fun i hi => getD_text (by omega)]

theorem wordForward_text : wordForward e.line.bytes e.length e.cursor =
    wordForward e.text e.length e.cursor := by
  have hcursor := h.cursor
  have hword : scanForward (fun c => !isspace c) e.line.bytes (e.length - e.cursor) e.cursor =
      scanForward (fun c => !isspace c) e.text (e.length - e.cursor) e.cursor :=
    scanForward_congr fun i hi => getD_text (by omega)
  have hle := scanForward_le (fun c => !isspace c) e.text (e.length - e.cursor) e.cursor
  unfold wordForward
  rw [hword, scanForward_congr fun i hi => getD_text (by omega)]

theorem handleCompletion_draft (forceList : Bool) (candidates : List Candidate) :
    Gives (fun e' => e'.draft = e.draft.complete candidates)
      (handleCompletion e forceList candidates) := by
  have hcursor := h.cursor
  have hcontext : findObjectMemberContext e.line.bytes e.cursor =
      findObjectMemberContext e.text e.cursor :=
    findObjectMemberContext_congr fun i hi => getD_text (by omega)
  have hstart : completionStart e.line.bytes e.cursor (findObjectMemberContext e.text e.cursor) =
      completionStart e.text e.cursor (findObjectMemberContext e.text e.cursor) := by
    unfold completionStart findTokenStart
    rw [scanBack_congr fun i hi => getD_text (by omega)]
  have hle := completionStart_le e.text e.cursor
  have hcollected : Gives (· = candidates)
      (collected e (findObjectMemberContext e.text e.cursor) candidates) := by
    have hroom := h.text.1.length_lt
    rw [h.length_text] at hroom
    unfold collected
    split
    next receiverStart receiverEnd memberStart hsome =>
      have hlt := findObjectMemberContext_lt hsome
      have hend := (findObjectMemberContext_le hsome).2.1
      dsimp only
      rw [if_neg (by omega)]
      exact gives_mapped fun _ => rfl
    · exact gives_ok rfl
  unfold handleCompletion Draft.complete
  rw [hcontext, show e.draft.text = e.text from rfl, show e.draft.cursor = e.cursor from rfl]
  dsimp only
  rw [hstart]
  generalize findObjectMemberContext e.text e.cursor = context at *
  generalize completionStart e.text e.cursor context = start at *
  by_cases hlong : e.cursor - start ≥ arkshMaxPath
  · rw [if_pos hlong, if_pos hlong]
    exact gives_ok rfl
  rw [if_neg hlong, if_neg hlong]
  refine gives_after fun _ => gives_bind hcollected ?_
  rintro _ rfl
  rename_i candidates
  rcases candidates with - | ⟨first, - | ⟨second, rest⟩⟩
  · exact gives_ok rfl
  · exact replaceRange_draft h (onlyReplacement_plain _ first) hle
  · have hshared : nul ∉ first.1.take (sharedPrefixLength first.1 (second :: rest)) :=
      fun hc => first.2.2 (mem_of_mem_take hc)
    have hreplace := replaceRange_draft h hshared hle
    dsimp only
    generalize sharedPrefixLength first.1 (second :: rest) = shared at *
    by_cases hmore : e.cursor - start < shared
    · by_cases hroom : shared < arkshMaxPath
      · simp only [hmore, hroom, Nat.not_le.mpr hroom, and_self, if_true,
          if_false, ite_self]
        exact hreplace
      · simp only [hmore, hroom, Nat.not_lt.mp hroom, and_false, if_true,
          if_false, ite_self]
        exact gives_ok rfl
    · simp only [hmore, false_and, if_false, ite_self]
      exact gives_ok rfl

end Words

/-! ## 6. Searches and lines -/

section Search

variable {history : List HistoryEntry} {s : Search} {query : Buffer arkshMaxLine} {q : Text}
  {len : Nat}

theorem SearchInv.text (h : SearchInv history.length s) :
    Holds s.query s.toQuery.text ∧ s.queryLen = s.toQuery.text.length := by
  obtain ⟨q, hq, hlen⟩ := h.query
  have htext : s.toQuery.text = q := by
    rw [Search.toQuery, hlen]
    exact take_of_holds hq
  rw [htext]
  exact ⟨hq, hlen⟩

theorem findMatch_query (h : SearchInv history.length s) :
    Gives (fun s' => s'.toQuery = s.toQuery.find history) (findMatch history s) := by
  unfold findMatch Query.find
  rw [h.text.1.text (zero_le _), drop_zero]
  refine gives_ok ?_
  rw [show s.toQuery.searchFrom = s.searchFrom from rfl]
  dsimp only
  cases findHistoryMatch history s.toQuery.text s.searchFrom with
  | none => rfl
  | some found => rfl

/-- A search for another text. -/
theorem restart_query (hquery : Holds query q) (hlen : len = q.length) :
    ({ s with query := query, queryLen := len }.restart history).toQuery =
      Query.restart history q := by
  subst hlen
  show Query.mk (query.bytes.take q.length) _ _ _ = _
  rw [take_of_holds hquery]
  rfl

theorem restart_inv (hquery : Holds query q) (hlen : len = q.length) : SearchInv history.length
      ({ s with query := query, queryLen := len }.restart history) :=
  { query := ⟨q, hquery, hlen⟩, searchFrom := le_rfl, matchIdx := le_rfl }

variable (h : SearchInv history.length s)
include h

theorem typeQuery_query {c : Char} (hc : c ≠ nul) :
    Gives (fun s' => s'.toQuery = s.toQuery.type history c) (typeQuery history s c) := by
  obtain ⟨hq, hlen⟩ := h.text
  unfold typeQuery Query.type
  rw [hlen]
  split
  next hroom =>
    obtain ⟨query, hwrite, hquery⟩ := holds_append hq (s := [c]) (by simpa using hc.symm) hroom
    have hcount : s.toQuery.text.length + 1 = (s.toQuery.text ++ [c]).length := by simp
    rw [show s.query.write s.toQuery.text.length [c, nul] = some query from hwrite,
      ← restart_query hquery hcount]
    exact findMatch_query (restart_inv hquery hcount)
  · exact gives_ok rfl

theorem shortenQuery_query :
    Gives (fun s' => s'.toQuery = s.toQuery.shorten history) (shortenQuery history s) := by
  obtain ⟨hq, hlen⟩ := h.text
  unfold shortenQuery Query.shorten
  rw [hlen]
  by_cases hpos : 0 < s.toQuery.text.length
  · rw [if_pos hpos, if_neg (ne_nil_of_length_pos hpos)]
    obtain ⟨query, hwrite, hquery⟩ := holds_cut hq (sub_le s.toQuery.text.length 1)
    rw [← dropLast_eq_take] at hquery
    have hcount : s.toQuery.text.length - 1 = s.toQuery.text.dropLast.length :=
      length_dropLast.symm
    rw [hwrite]
    show Gives _ (if 0 < s.toQuery.text.length - 1 then _ else _)
    by_cases hone : s.toQuery.text.length = 1
    · rw [if_pos hone, if_neg (by omega)]
      refine gives_ok ?_
      have hempty : s.toQuery.text.dropLast = [] :=
        eq_nil_of_length_eq_zero (by rw [← hcount, hone])
      rw [restart_query hquery hcount, hempty]
    · rw [if_neg hone, if_pos (by omega), ← restart_query hquery hcount]
      exact findMatch_query (restart_inv hquery hcount)
  · rw [if_neg hpos, if_pos (eq_nil_of_length_eq_zero (by omega))]
    exact gives_ok rfl

theorem searchOlder_query :
    Gives (fun s' => s'.toQuery = s.toQuery.older history) (searchOlder history s) := by
  obtain ⟨hq, hlen⟩ := h.text
  unfold searchOlder Query.older
  rw [show s.toQuery.matchIdx = s.matchIdx from rfl]
  by_cases hpos : 0 < s.queryLen
  · rw [if_pos hpos, if_neg (ne_nil_of_length_pos (hlen ▸ hpos))]
    by_cases hfound : s.matchIdx < history.length
    · rw [if_pos hfound, if_pos hfound]
      exact findMatch_query (s := { s with searchFrom := s.matchIdx })
        { h with searchFrom := h.matchIdx }
    · rw [if_neg hfound, if_neg hfound]
      exact findMatch_query h
  · rw [if_neg hpos, if_pos (eq_nil_of_length_eq_zero (by omega))]
    exact gives_ok rfl

end Search

section Lines

variable {history : List HistoryEntry} {outSize : Nat} {e : Editor} {s : Search}

theorem acceptMatch_draft :
    Gives (fun e' => e'.draft = e.draft.accept s.toQuery) (acceptMatch e s) := by
  unfold acceptMatch Draft.accept
  rw [show s.toQuery.hit = s.matchStr from rfl]
  cases s.matchStr with
  | none => exact gives_ok rfl
  | some entry =>
    refine gives_map (applyHistoryEntry_draft entry) fun e' hdraft => ?_
    dsimp only
    rw [← hdraft]
    rfl

variable (h : EditorInv history.length e)
include h

theorem EditorInv.input : Holds e.multi e.draft.input ∧ e.multiLen = e.draft.input.length := by
  obtain ⟨m, hm, hlen⟩ := h.multi
  have hinput : e.draft.input = m := by
    rw [Editor.draft, hlen]
    exact take_of_holds hm
  rw [hinput]
  exact ⟨hm, hlen⟩

theorem submit_draft : Gives (fun r => r.shown = .returned .ok (copyString outSize e.draft.input))
    (submit outSize e) := by
  unfold submit
  rw [h.input.1.text (zero_le _), drop_zero]
  exact gives_ok rfl

theorem enterLine_draft (needsMore : Bool) :
    Gives (fun r => r.shown = e.draft.enter history outSize needsMore)
      (enterLine history outSize e needsMore) := by
  obtain ⟨hinput, hmulti⟩ := h.input
  obtain ⟨htext, hlen⟩ := h.text
  obtain ⟨s, hs⟩ := h.scratch
  obtain ⟨e', happend, b, hb, he'⟩ := appendLine_appended hinput hmulti htext hlen
  have hinv : EditorInv history.length e' := by
    subst he'
    exact { h with multi := ⟨_, hb, rfl⟩ }
  unfold enterLine Draft.enter
  rw [happend]
  have hfull : 0 < e'.multiLen ↔ appended e.draft.input e.draft.text ≠ [] := by
    subst he'
    exact length_pos_iff
  have hdraft : e'.draft.input = appended e.draft.input e.draft.text := by
    subst he'
    exact take_of_holds hb
  by_cases hgoes : appended e.draft.input e.draft.text ≠ [] ∧ needsMore
  · obtain ⟨line, hline, hempty⟩ := holds_cut htext (zero_le _)
    obtain ⟨scratch, hscratch, hclear⟩ := holds_cut hs (zero_le _)
    have hgo : 0 < e'.multiLen ∧ needsMore := hgoes.imp_left hfull.mpr
    dsimp only
    rw [if_pos hgoes]
    show Gives _ (if _ then _ else _)
    rw [if_pos hgo]
    subst he'
    dsimp only
    rw [hline, hscratch]
    refine gives_ok ?_
    rw [← hdraft]
    show Drafted.going ⟨Draft.mk _ _ _ _ _ (shown scratch) _ _, _⟩ = _
    rw [shown_of_holds hclear]
    rfl
  · have hends : ¬ (0 < e'.multiLen ∧ needsMore) := fun hgo => hgoes (hgo.imp_left hfull.mp)
    dsimp only
    rw [if_neg hgoes]
    show Gives _ (if _ then _ else _)
    rw [if_neg hends, ← hdraft]
    exact submit_draft hinv

end Lines

/-! ## 7. Runs -/

section Runs

variable {history : List HistoryEntry} {outSize : Nat} {e : Editor} {session : Session}

/-- What `isprint` says of a byte, which is not NUL where it is printable. -/
theorem isprint_draft (c : {c : Char // c.toNat < 256}) : ∃ printable : Bool,
    isprint (Key.byte c).code = .ok printable ∧
      (printable = true ↔ 32 ≤ c.1.toNat ∧ c.1.toNat < 127) ∧ (printable = true → c.1 ≠ nul) := by
  obtain ⟨printable, hprint, hplain⟩ := isprint_byte c
  refine ⟨printable, hprint, ?_, hplain⟩
  unfold isprint at hprint
  rw [if_pos (by simp only [Key.code]; omega)] at hprint
  cases hprint
  rw [decide_eq_true_iff]
  simp only [Key.code]
  omega

theorem editStep_draft (h : EditorInv history.length e) (event : KeyEvent) :
    Gives (fun r => r.shown = e.draft.edit history outSize event)
      (editStep history outSize e event) := by
  obtain ⟨key, needsMore, candidates⟩ := event
  unfold editStep
  rw [show e.draft = { e with lastTab := key = Key.named .tab }.draft from rfl]
  replace h : EditorInv history.length { e with lastTab := key = Key.named .tab } := { h with }
  generalize { e with lastTab := key = Key.named .tab } = e' at h ⊢
  have hlength : e'.draft.text.length = e'.length := h.length_text
  have hcursor := h.cursor
  have hedit {r : Checked Editor} {d : Draft} (hr : Gives (fun e => e.draft = d) r) :
      Gives (fun r : Reading => r.shown = .going ⟨d, .editing⟩)
        (r.map fun e => .going { editor := e, mode := .editing }) :=
    gives_map hr fun _ ha => congrArg (Drafted.going ⟨·, _⟩) ha
  have hmove {cursor cursor' : Nat} (hsame : cursor = cursor') :
      Gives (fun r : Reading => r.shown = .going ⟨{ e'.draft with cursor := cursor' }, .editing⟩)
        (.ok (.going { editor := { e' with cursor := cursor }, mode := .editing })) :=
    gives_ok (by rw [hsame]; rfl)
  cases key with
  | failed => exact gives_ok rfl
  | byte c =>
    obtain ⟨printable, hprint, hcode, hplain⟩ := isprint_draft c
    show Gives _ ((isprint (Key.byte c).code).bind _)
    rw [hprint]
    unfold Draft.edit Draft.key
    dsimp only
    refine hedit ?_
    by_cases hb : printable = true
    · rw [if_pos hb, if_pos (hcode.mp hb)]
      exact insertChar_draft h (hplain hb)
    · rw [if_neg hb, if_neg fun h => hb (hcode.mpr h)]
      exact gives_ok rfl
  | named name =>
    cases name with
    | backspace => exact hedit (backspace_draft h)
    | delete => exact hedit (delete_draft h)
    | ctrlK => exact hedit (killToEnd_draft h)
    | ctrlU =>
      refine hedit ?_
      unfold killToStart
      split
      next hpos => exact killBack_draft h hpos
      next hzero => exact gives_ok (if_neg hzero).symm
    | ctrlW =>
      refine hedit ?_
      unfold killWord
      rw [wordBackward_text h]
      split
      next hpos => exact killBack_draft h (wordBackward_lt _ hpos)
      next hzero =>
        exact gives_ok (if_neg fun hlt => hzero (zero_lt_of_lt hlt)).symm
    | ctrlY => exact hedit (yank_draft h)
    | ctrlUnderscore => exact hedit undo_draft
    | up => exact hedit (historyUp_draft h)
    | down => exact hedit (historyDown_draft h)
    | tab => exact hedit (handleCompletion_draft h _ _)
    | enter => exact enterLine_draft h needsMore
    | ctrlC => exact gives_ok rfl
    | ctrlD =>
      obtain ⟨hinput, hmulti⟩ := h.input
      have hline : e'.draft.text = [] ↔ e'.length = 0 := by rw [← hlength, length_eq_zero_iff]
      have hempty : e'.draft.input = [] ↔ e'.multiLen = 0 := by rw [hmulti, length_eq_zero_iff]
      unfold Draft.edit
      dsimp only
      by_cases hnone : e'.draft.input = []
      · have hzero : e'.multiLen = 0 := hempty.mp hnone
        rw [if_neg (not_not.mpr hnone)]
        by_cases hend : e'.draft.text = []
        · rw [if_pos hend, if_pos ⟨hline.mp hend, hzero⟩]
          exact gives_ok rfl
        · rw [if_neg hend, if_neg fun hz => hend (hline.mpr hz.1), if_neg (by omega)]
          exact gives_ok rfl
      · have hpos : e'.multiLen ≠ 0 := fun hz => hnone (hempty.mpr hz)
        rw [if_pos hnone, if_neg fun hz => hpos hz.2, if_pos (Nat.pos_of_ne_zero hpos)]
        exact submit_draft h
    | ctrlR =>
      unfold Draft.edit
      dsimp only
      rw [show e'.draft.further = e'.inContinuation from rfl]
      cases e'.inContinuation with
      | true => exact gives_ok rfl
      | false => exact gives_ok rfl
    | ctrlA => exact hmove rfl
    | ctrlE => exact hmove hlength.symm
    | left =>
      refine hedit (gives_ok ?_)
      show _ = { e'.draft with cursor := e'.cursor - 1 }
      split
      · rfl
      next hzero => rw [show e'.cursor - 1 = e'.cursor by omega]; rfl
    | right =>
      refine hedit (gives_ok ?_)
      show _ = { e'.draft with cursor := min (e'.cursor + 1) e'.draft.text.length }
      rw [hlength]
      split
      next hlt => rw [Nat.min_eq_left hlt]; rfl
      next hle => rw [show min (e'.cursor + 1) e'.length = e'.cursor by omega]; rfl
    | wordLeft => exact hmove (wordBackward_text h)
    | wordRight =>
      refine hmove ?_
      rw [hlength]
      exact wordForward_text h
    | resize => exact hedit (gives_ok rfl)
    | ctrlG | esc => exact fun r hr => by cases hr

theorem searchStep_draft {s : Search} (h : EditorInv history.length e)
    (hs : SearchInv history.length s) (event : KeyEvent) :
    Gives (fun r => r.shown = e.draft.search history outSize s.toQuery event)
      (searchStep history outSize e s event) := by
  obtain ⟨key, needsMore, candidates⟩ := event
  unfold searchStep
  have hback {r : Checked Editor} {d : Draft} (hr : Gives (fun e => e.draft = d) r) :
      Gives (fun r : Reading => r.shown = .going ⟨d, .editing⟩)
        (r.map fun e => .going { editor := e, mode := .editing }) :=
    gives_map hr fun _ ha => congrArg (Drafted.going ⟨·, _⟩) ha
  have hsearch {r : Checked Search} {q : Query} (hr : Gives (fun s => s.toQuery = q) r) :
      Gives (fun r : Reading => r.shown = .going ⟨e.draft, .searching q⟩)
        (r.map fun s => .going { editor := e, mode := .searching s }) :=
    gives_map hr fun _ hq => congrArg (Drafted.going ⟨e.draft, .searching ·⟩) hq
  cases key with
  | failed => exact hback (gives_ok rfl)
  | byte c =>
    obtain ⟨printable, hprint, hcode, hplain⟩ := isprint_draft c
    show Gives _ ((isprint (Key.byte c).code).bind _)
    rw [hprint]
    unfold Draft.search
    dsimp only
    by_cases hb : printable = true
    · have hbounds := hcode.mp hb
      have hcodes : printable = true ∧ (Key.byte c).code < 128 :=
        ⟨hb, by simp only [Key.code]; omega⟩
      rw [if_pos hbounds]
      show Gives _ (if _ then _ else _)
      rw [if_pos hcodes]
      exact hsearch (typeQuery_query hs (hplain hb))
    · rw [if_neg fun h => hb (hcode.mpr h)]
      show Gives _ (if _ then _ else _)
      rw [if_neg fun h => hb h.1]
      exact hback acceptMatch_draft
  | named name =>
    cases name with
    | resize => exact hsearch (gives_ok rfl)
    | ctrlG | esc | ctrlC => exact hback (gives_ok rfl)
    | enter =>
      intro r hr
      obtain ⟨e', haccept, hr⟩ := bind_ok.mp hr
      obtain ⟨_, heq, h'⟩ := acceptMatch_yields h hs
      cases haccept.symm.trans heq
      have hdraft : e'.draft = e.draft.accept s.toQuery := acceptMatch_draft _ haccept
      rw [show e.draft.search history outSize s.toQuery ⟨_, needsMore, candidates⟩ =
        (e.draft.accept s.toQuery).enter history outSize needsMore from rfl, ← hdraft]
      exact enterLine_draft h' needsMore r hr
    | ctrlR => exact hsearch (searchOlder_query hs)
    | backspace => exact hsearch (shortenQuery_query hs)
    | _ => exact fun r hr => by cases hr

theorem press_undefined {event : KeyEvent} (h : ¬ session.mode.Handles event.key) :
    session.shown.press history outSize event = .undefined := by
  obtain ⟨e, mode⟩ := session
  obtain ⟨key, needsMore, candidates⟩ := event
  cases mode with
  | editing =>
    rcases not_and_or.mp h with hg | he
    · rw [show key = .named .ctrlG from not_not.mp hg]
      rfl
    · rw [show key = .named .esc from not_not.mp he]
      rfl
  | searching s =>
    cases key with
    | failed | byte c => exact absurd trivial h
    | named name =>
      have hname : name ∉ [.resize, .ctrlG, .esc, .ctrlC, .enter, .ctrlR, .backspace] := h
      cases name <;> first | rfl | exact absurd (by decide) hname

theorem keyStep_draft (h : session.Inv history.length) (event : KeyEvent) :
    observed (keyStep history outSize event session) =
      session.shown.press history outSize event := by
  by_cases hhandles : session.mode.Handles event.key
  · obtain ⟨r, hr, -⟩ := keyStep_yields outSize h hhandles
    obtain ⟨e, mode⟩ := session
    rw [hr]
    cases mode with
    | editing => exact editStep_draft h.editor event r hr
    | searching s => exact searchStep_draft h.editor h.mode event r hr
  · obtain ⟨code, hfault⟩ := @keyStep_fault history outSize _ _ hhandles
    rw [hfault, press_undefined hhandles]
    rfl

/-- **A run of keys on the buffers is the run on the drafts that they show.** -/
theorem readKeys_draft {keys : List KeyEvent} (h : session.Inv history.length) :
    observed (readKeys history outSize keys session) =
      session.shown.run history outSize keys := by
  induction keys generalizing session with
  | nil => rfl
  | cons event events ih =>
    unfold readKeys DraftSession.run
    rw [← keyStep_draft h event]
    cases hstep : keyStep history outSize event session with
    | error fault => rfl
    | ok r =>
      cases r with
      | going next => exact ih (keyStep_inv h hstep)
      | returned status out => rfl

end Runs

end Arksh
