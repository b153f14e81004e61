/-
  Subject: What `arksh_line_editor_read_line` returns, beside the lines that were ended.

  A line that does not fit behind the others is left out, and nothing tells of it; at the end of
  the input so is the line that stands in the editor, and what is too long for the caller is cut.

  Invariant of a run: the input is no longer than the lines, joined, and it is the joined lines as
  long as these are short enough.
-/
import Arksh.Lib.Scan
import Arksh.Shell.EditorBounds

namespace Arksh

open CText CBuffer Scan List Option Nat

/-! ## 1. The lines -/

def Editor.text (e : Editor) : Text := e.line.bytes.take e.length

/-- The line that a key ends: ENTER that of the editor or the match of the search, `^D` that of the
    editor, if it ends an input. -/
def endedLine (session : Session) (key : Key) : Option Text :=
  match session.mode, key with
  | .searching s, .named .enter => some (s.matchStr.elim session.editor.text (·.1))
  | .editing, .named .enter => some session.editor.text
  | .editing, .named .ctrlD =>
    if 0 < session.editor.multiLen ∧ 0 < session.editor.length then some session.editor.text
    else none
  | _, _ => none

def joinedLines (lines : List Text) : Text := ['\n'].intercalate lines

section Law

variable (history : List HistoryEntry) (outSize : Nat)

def endedLines : List KeyEvent → Session → List Text
  | [], _ => []
  | event :: events, session =>
    (endedLine session event.key).toList ++
      match keyStep history outSize event session with
      | .ok (.going next) => endedLines events next
      | _ => []

def SubmitLaw (keys : List KeyEvent) (event : KeyEvent) (session : Session) : Prop :=
  ∀ next out, readKeys history outSize keys session = .ok (.going next) →
    keyStep history outSize event next = .ok (.returned .ok out) → event.key ≠ .named .ctrlC →
    out = joinedLines (endedLines history outSize (keys ++ [event]) session)

/-- If the keys lead to one that returns an input, other than `^C`: the lines fit, joined, and `^D`
    is pressed on an empty line. -/
def SubmitFits (keys : List KeyEvent) (event : KeyEvent) (session : Session) : Prop :=
  ∀ next out, readKeys history outSize keys session = .ok (.going next) →
    keyStep history outSize event next = .ok (.returned .ok out) → event.key ≠ .named .ctrlC →
    (joinedLines (endedLines history outSize (keys ++ [event]) session)).length <
        min arkshMaxOutput outSize ∧
      (event.key = .named .ctrlD → next.editor.length = 0)

end Law

/-! ## 2. What the handlers leave alone -/

/-- The results of a step that succeeds have the property. -/
def Gives {α : Type} (P : α → Prop) (r : Checked α) : Prop := ∀ a, r = .ok a → P a

section Gives

variable {α β : Type} {P : α → Prop} {Q : β → Prop} {r : Checked α} {f : α → Checked β}

theorem gives_ok {a : α} (h : P a) : Gives P (.ok a) := by
  intro _ ha
  cases ha
  exact h

theorem gives_bind (hr : Gives P r) (hf : ∀ a, P a → Gives Q (f a)) : Gives Q (r.bind f) := by
  intro b hb
  obtain ⟨a, ha, hb⟩ := bind_ok.mp hb
  exact hf a (hr a ha) b hb

theorem gives_after (hf : ∀ a, Gives Q (f a)) : Gives Q (r.bind f) :=
  gives_bind (P := fun _ => True) (fun _ _ => trivial) fun a _ => hf a

theorem gives_map {f : α → β} (hr : Gives P r) (hf : ∀ a, P a → Q (f a)) : Gives Q (r.map f) := by
  intro b hb
  obtain ⟨a, ha, rfl⟩ := map_ok.mp hb
  exact hf a (hr a ha)

theorem gives_mapped {f : α → β} (hf : ∀ a, Q (f a)) : Gives Q (r.map f) :=
  gives_map (P := fun _ => True) (fun _ _ => trivial) fun a _ => hf a

end Gives

theorem inBounds_ok {α : Type} {x : Option α} {a : α} (h : inBounds x = .ok a) : x = some a := by
  cases x with
  | none => cases h
  | some b => cases h; rfl

theorem take_copy {size count : Nat} {b b' source : Buffer size}
    (h : b.copy 0 source 0 (count + 1) = some b') :
    b'.bytes.take count = source.bytes.take count := by
  obtain ⟨s, hread, hwrite⟩ := bind_eq_some_iff.mp h
  unfold Buffer.read at hread
  split at hread
  next hsize =>
    cases hread
    unfold Buffer.write at hwrite
    split at hwrite
    · cases hwrite
      have hlen := source.length_bytes
      dsimp only
      rw [take_zero, nil_append, drop_zero, take_append_of_le_length, take_take,
        Nat.min_eq_left (le_succ count)]
      rw [length_take]
      omega
    · cases hwrite
  · cases hread

def SameInput (e e' : Editor) : Prop := e'.multi = e.multi ∧ e'.multiLen = e.multiLen

/-- What `^_` restores. -/
def Editor.snapshot (e : Editor) : Text × Nat × Bool :=
  (e.undoLine.bytes.take e.undoLength, e.undoCursor, e.undoValid)

def KeepsUndo (e e' : Editor) : Prop := SameInput e e' ∧ e'.snapshot = e.snapshot

/-- The line was saved, and another one is as long as it was not. -/
def Saves (e e' : Editor) : Prop :=
  SameInput e e' ∧ e'.snapshot = (e.text, e.cursor, true) ∧ e'.length ≠ e.length

/-- Where the line is changed it was saved. -/
def Edits (e e' : Editor) : Prop := Saves e e' ∨ KeepsUndo e e' ∧ e'.text = e.text

section Handlers

variable {e : Editor}

theorem keeps_ok : Gives (KeepsUndo e) (.ok e) := gives_ok ⟨⟨rfl, rfl⟩, rfl⟩

theorem edits_ok : Gives (Edits e) (.ok e) := gives_ok (.inr ⟨⟨⟨rfl, rfl⟩, rfl⟩, rfl⟩)

theorem saveUndo_edits {f : Editor → Checked Editor}
    (hf : ∀ undoLine, Gives (fun e' => KeepsUndo
        { e with undoLine, undoLength := e.length, undoCursor := e.cursor, undoValid := true } e' ∧
        e'.length ≠ e.length)
      (f { e with undoLine, undoLength := e.length, undoCursor := e.cursor, undoValid := true })) :
    Gives (Edits e) ((saveUndo e).bind f) := by
  intro e' h
  obtain ⟨e₁, hsave, h⟩ := bind_ok.mp h
  obtain ⟨undoLine, hcopy, rfl⟩ := map_ok.mp hsave
  obtain ⟨hkeeps, hlength⟩ := hf undoLine e' h
  refine .inl ⟨hkeeps.1, hkeeps.2.trans ?_, hlength⟩
  have htext : undoLine.bytes.take e.length = e.text := take_copy (inBounds_ok hcopy)
  rw [Editor.snapshot, htext]

theorem keeps_ite {c : Prop} [Decidable c] {r r' : Checked Editor} (hr : Gives (KeepsUndo e) r)
    (hr' : Gives (KeepsUndo e) r') : Gives (KeepsUndo e) (if c then r else r') := by
  split
  · exact hr
  · exact hr'

theorem killToEnd_edits : Gives (Edits e) (killToEnd e) := by
  unfold killToEnd
  split
  next hlt =>
    exact saveUndo_edits fun _ => gives_after fun _ => gives_mapped fun _ =>
      ⟨⟨⟨rfl, rfl⟩, rfl⟩, hlt.ne⟩
  · exact edits_ok

theorem killBack_edits {newPos : Nat} (hpos : newPos < e.cursor) (hcursor : e.cursor ≤ e.length) :
    Gives (Edits e) (killBack e newPos) :=
  saveUndo_edits fun _ => gives_after fun _ => gives_mapped fun _ =>
    ⟨⟨⟨rfl, rfl⟩, rfl⟩, by dsimp only; omega⟩

theorem yank_edits : Gives (Edits e) (yank e) := by
  refine gives_after fun killed => ?_
  split
  next hroom =>
    exact saveUndo_edits fun _ => gives_mapped fun _ => ⟨⟨⟨rfl, rfl⟩, rfl⟩, by dsimp only; omega⟩
  · exact edits_ok

theorem backspace_edits (hcursor : e.cursor ≤ e.length) : Gives (Edits e) (backspace e) := by
  unfold backspace
  split
  · exact saveUndo_edits fun _ => gives_mapped fun _ => ⟨⟨⟨rfl, rfl⟩, rfl⟩, by dsimp only; omega⟩
  · exact edits_ok

theorem delete_edits : Gives (Edits e) (delete e) := by
  unfold delete
  split
  · exact saveUndo_edits fun _ => gives_mapped fun _ => ⟨⟨⟨rfl, rfl⟩, rfl⟩, by dsimp only; omega⟩
  · exact edits_ok

theorem insertChar_edits (c : Char) : Gives (Edits e) (insertChar e c) := by
  unfold insertChar
  split
  · exact edits_ok
  · exact saveUndo_edits fun _ => gives_mapped fun _ => ⟨⟨⟨rfl, rfl⟩, rfl⟩, by dsimp only; omega⟩

theorem undo_gives : Gives (fun e' => SameInput e e' ∧ e'.undoValid = false) (undo e) := by
  unfold undo
  split
  · exact gives_mapped fun _ => ⟨⟨rfl, rfl⟩, rfl⟩
  next hvalid => exact gives_ok ⟨⟨rfl, rfl⟩, Bool.eq_false_iff.mpr hvalid⟩

theorem applyHistoryEntry_keeps (entry : Text) : Gives (KeepsUndo e) (applyHistoryEntry e entry) :=
  gives_after fun _ => gives_mapped fun _ => ⟨⟨rfl, rfl⟩, rfl⟩

theorem historyUp_keeps (history : List HistoryEntry) :
    Gives (KeepsUndo e) (historyUp history e) := by
  refine keeps_ite keeps_ok
    (gives_bind (P := KeepsUndo e) ?_ fun e₁ h₁ => gives_after fun entry => ?_)
  · exact keeps_ite (gives_mapped fun _ => ⟨⟨rfl, rfl⟩, rfl⟩) keeps_ok
  · intro e' h
    obtain ⟨hinput, hsnapshot⟩ := applyHistoryEntry_keeps _ e' h
    exact ⟨⟨hinput.1.trans h₁.1.1, hinput.2.trans h₁.1.2⟩, hsnapshot.trans h₁.2⟩

theorem historyDown_keeps (history : List HistoryEntry) :
    Gives (KeepsUndo e) (historyDown history e) :=
  keeps_ite keeps_ok (keeps_ite (gives_after fun _ => applyHistoryEntry_keeps _)
    (gives_after fun _ => applyHistoryEntry_keeps _))

theorem replaceRange_keeps (start stop : Nat) (replacement : Text) :
    Gives (KeepsUndo e) (replaceRange e start stop replacement) :=
  keeps_ite keeps_ok (keeps_ite keeps_ok (gives_mapped fun _ => ⟨⟨rfl, rfl⟩, rfl⟩))

theorem handleCompletion_keeps (forceList : Bool) (candidates : List Candidate) :
    Gives (KeepsUndo e) (handleCompletion e forceList candidates) := by
  refine keeps_ite keeps_ok (gives_after fun _ => gives_after fun candidates => ?_)
  rcases candidates with - | ⟨first, - | ⟨second, rest⟩⟩
  · exact keeps_ok
  · exact replaceRange_keeps _ _ _
  · exact keeps_ite (keeps_ite (replaceRange_keeps _ _ _) keeps_ok)
      (keeps_ite (keeps_ite keeps_ok (replaceRange_keeps _ _ _)) keeps_ok)

theorem acceptMatch_keeps (s : Search) : Gives (KeepsUndo e) (acceptMatch e s) := by
  unfold acceptMatch
  split
  · exact gives_map (applyHistoryEntry_keeps _) fun _ h => h
  · exact keeps_ok

end Handlers

/-! ## 3. Turns that end no line -/

/-- What a turn makes of the editor, where it ends no line; in a search the line is left alone. -/
def Reading.Goes (e : Editor) (R : Editor → Prop) (r : Reading) : Prop :=
  ∃ next, r = .going next ∧ R next.editor ∧ (next.mode = .editing ∨ next.editor.text = e.text)

/-- The keys that the search takes itself, but for ENTER and what is typed. -/
def searchKeys : List Key :=
  [.named .resize, .failed, .named .ctrlG, .named .esc, .named .ctrlC, .named .ctrlR,
    .named .backspace]

/-- `do_reverse_search` ends with this key and takes its match. -/
def Key.endsSearch (key : Key) : Bool :=
  key ∉ searchKeys && !decide (32 ≤ key.code ∧ key.code < 127)

/-- The keys that change the line without saving it. -/
def unsavedKeys : List Key := [.named .tab, .named .up, .named .down]

def Turned (key : Key) (e e' : Editor) : Prop :=
  SameInput e e' ∧
    if key = .named .ctrlUnderscore then e'.undoValid = false
    else if key ∈ unsavedKeys then KeepsUndo e e'
    else Edits e e'

section Turns

variable {history : List HistoryEntry} {outSize : Nat} {e : Editor} {event : KeyEvent}
  {R : Editor → Prop} {s : Search}

theorem gives_goes {r : Checked Editor} (hr : Gives R r) :
    Gives (Reading.Goes e R) (r.map fun e => .going { editor := e, mode := .editing }) :=
  gives_map hr fun _ h => ⟨_, rfl, h, .inl rfl⟩

theorem Edits.input {e e' : Editor} (h : Edits e e') : SameInput e e' :=
  h.elim And.left fun h => h.1.1

theorem wordBackward_lt (bytes : List Char) {cursor : Nat} (h : 0 < cursor) :
    wordBackward bytes cursor < cursor := by
  obtain ⟨pos, rfl⟩ := exists_eq_succ_of_ne_zero h.ne'
  unfold wordBackward
  rw [scanBack]
  split
  · exact ((scanBack_le _ _ _).trans (scanBack_le _ _ _)).trans_lt (lt_succ_self pos)
  next hspace =>
    rw [scanBack, if_pos (by simpa using hspace)]
    exact (scanBack_le _ _ _).trans_lt (lt_succ_self pos)

theorem editStep_turned (hcursor : e.cursor ≤ e.length)
    (hends : event.key ∉ [.failed, .named .enter, .named .ctrlC, .named .ctrlD]) :
    Gives (Reading.Goes e (Turned event.key e)) (editStep history outSize e event) := by
  obtain ⟨key, needsMore, candidates⟩ := event
  unfold editStep
  show Gives (Reading.Goes { e with lastTab := key = Key.named .tab }
    (Turned key { e with lastTab := key = Key.named .tab })) _
  replace hcursor : { e with lastTab := key = Key.named .tab }.cursor ≤
    { e with lastTab := key = Key.named .tab }.length := hcursor
  generalize { e with lastTab := key = Key.named .tab } = e' at hcursor ⊢
  have hedit {r : Checked Editor} (hr : Gives (Edits e') r)
      (hkey : key ≠ .named .ctrlUnderscore ∧ key ∉ unsavedKeys) :
      Gives (Reading.Goes e' (Turned key e'))
        (r.map fun e => .going { editor := e, mode := .editing }) :=
    gives_goes fun a ha => ⟨(hr a ha).input, by rw [if_neg hkey.1, if_neg hkey.2]; exact hr a ha⟩
  have hkeep {r : Checked Editor} (hr : Gives (KeepsUndo e') r)
      (hkey : key ≠ .named .ctrlUnderscore ∧ key ∈ unsavedKeys) :
      Gives (Reading.Goes e' (Turned key e'))
        (r.map fun e => .going { editor := e, mode := .editing }) :=
    gives_goes fun a ha => ⟨(hr a ha).1, by rw [if_neg hkey.1, if_pos hkey.2]; exact hr a ha⟩
  have hprint (hkey : key ≠ .named .ctrlUnderscore ∧ key ∉ unsavedKeys) :
      Gives (Reading.Goes e' (Turned key e')) ((isprint key.code).bind fun printable =>
        (if printable then insertChar e' key.toChar else .ok e').map fun e =>
          .going { editor := e, mode := .editing }) := by
    refine gives_after fun printable => hedit ?_ hkey
    split
    · exact insertChar_edits _
    · exact edits_ok
  have hmove (cursor : Nat) : Edits e' { e' with cursor := cursor } :=
    .inr ⟨⟨⟨rfl, rfl⟩, rfl⟩, rfl⟩
  cases key with
  | failed => exact absurd (by simp) hends
  | byte c => exact hprint ⟨nofun, by simp [unsavedKeys]⟩
  | named name =>
    cases name with
    | enter | ctrlC | ctrlD => exact absurd (by simp) hends
    | ctrlG | esc => exact hprint (by decide)
    | backspace => exact hedit (backspace_edits hcursor) (by decide)
    | delete => exact hedit delete_edits (by decide)
    | ctrlK => exact hedit killToEnd_edits (by decide)
    | ctrlU =>
      refine hedit ?_ (by decide)
      unfold killToStart
      split
      next hpos => exact killBack_edits hpos hcursor
      · exact edits_ok
    | ctrlW =>
      refine hedit ?_ (by decide)
      unfold killWord
      split
      next hpos => exact killBack_edits (wordBackward_lt _ hpos) hcursor
      · exact edits_ok
    | ctrlY => exact hedit yank_edits (by decide)
    | ctrlUnderscore => exact gives_goes undo_gives
    | tab => exact hkeep (handleCompletion_keeps _ _) (by decide)
    | up => exact hkeep (keeps_ite keeps_ok (historyUp_keeps _)) (by decide)
    | down => exact hkeep (keeps_ite keeps_ok (historyDown_keeps _)) (by decide)
    | left | right =>
      refine hedit (gives_ok ?_) (by decide)
      split
      · exact hmove _
      · exact hmove _
    | ctrlA | ctrlE | wordLeft | wordRight => exact hedit (gives_ok (hmove _)) (by decide)
    | resize => exact hedit edits_ok (by decide)
    | ctrlR => exact gives_ok ⟨_, rfl, ⟨⟨rfl, rfl⟩, hmove _⟩, .inr rfl⟩

/-- A turn of the search leaves the editor alone, or takes the match. -/
theorem searchStep_goes (hends : event.key ≠ .named .enter) (hsame : R e)
    (haccept : event.key.endsSearch = true → Gives R (acceptMatch e s)) :
    Gives (Reading.Goes e R) (searchStep history outSize e s event) := by
  obtain ⟨key, needsMore, candidates⟩ := event
  unfold searchStep
  have hsearch (r : Checked Search) : Gives (Reading.Goes e R)
      (r.map fun s => .going { editor := e, mode := .searching s }) :=
    gives_mapped fun _ => ⟨_, rfl, hsame, .inr rfl⟩
  have hback := gives_goes (e := e) (gives_ok hsame)
  have hprint (hkey : key ∉ searchKeys) :
      Gives (Reading.Goes e R) ((isprint key.code).bind fun printable =>
        if printable ∧ key.code < 128 then
          (typeQuery history s key.toChar).map fun s => .going { editor := e, mode := .searching s }
        else (acceptMatch e s).map fun e => .going { editor := e, mode := .editing }) := by
    intro r hr
    obtain ⟨printable, hprintable, hr⟩ := bind_ok.mp hr
    split at hr
    · exact hsearch _ r hr
    next hcode =>
      unfold isprint at hprintable
      split at hprintable
      · cases hprintable
        simp only [decide_eq_true_eq] at hcode
        have hends : key.endsSearch = true := by
          rw [Key.endsSearch, decide_eq_true hkey, decide_eq_false (by omega)]
          rfl
        exact gives_goes (haccept hends) r hr
      · cases hprintable
  cases key with
  | failed => exact hback
  | byte c => exact hprint (by simp [searchKeys])
  | named name =>
    cases name with
    | enter => exact absurd rfl hends
    | resize | ctrlR | backspace => exact hsearch _
    | ctrlG | esc | ctrlC => exact hback
    | _ => exact hprint (by decide)

theorem searchStep_keeps (hends : event.key ≠ .named .enter) :
    Gives (Reading.Goes e (KeepsUndo e)) (searchStep history outSize e s event) :=
  searchStep_goes hends ⟨⟨rfl, rfl⟩, rfl⟩ fun _ => acceptMatch_keeps s

end Turns

/-! ## 4. The input -/

theorem joinedLines_concat (lines : List Text) (line : Text) : joinedLines (lines ++ [line]) =
    joinedLines lines ++ ((if lines = [] then [] else ['\n']) ++ line) := by
  induction lines with
  | nil => exact intercalate_singleton
  | cons first rest ih =>
    rw [cons_append, if_neg (cons_ne_nil _ _), joinedLines, intercalate_cons_of_ne_nil (by simp)]
    by_cases hrest : rest = []
    · subst hrest
      simp [joinedLines]
    · rw [if_neg hrest, joinedLines] at ih
      rw [ih, joinedLines, joinedLines, intercalate_cons_of_ne_nil hrest]
      simp only [append_assoc]

structure Joined (m : Text) (lines : List Text) : Prop where
  short : m.length ≤ (joinedLines lines).length
  whole : (joinedLines lines).length < arkshMaxOutput → m = joinedLines lines

theorem Joined.concat {m : Text} {lines : List Text} (h : Joined m lines)
    (hempty : m = [] → lines = []) (line : Text) : Joined (appended m line) (lines ++ [line]) := by
  obtain ⟨hshort, hwhole⟩ := h
  by_cases hnil : lines = []
  · subst hnil
    obtain rfl : m = [] := length_eq_zero_iff.mp (Nat.le_zero.mp hshort)
    show Joined (fitted [] line) [line]
    constructor <;> rw [fitted, joinedLines, intercalate_singleton]
    · split <;> simp
    · exact fun hroom => if_pos (by simpa using hroom)
  · have hpos : 0 < m.length := length_pos_of_ne_nil fun hm => hnil (hempty hm)
    rw [appended, if_pos hpos]
    unfold fitted
    constructor <;> rw [joinedLines_concat, if_neg hnil]
    · split <;> split <;> simp only [length_append, length_singleton] at * <;> omega
    · intro hroom
      simp only [length_append, length_singleton] at hroom
      have hm := hwhole (by omega)
      rw [← hm] at hroom ⊢
      have hbreak : m.length + ['\n'].length < arkshMaxOutput := by
        simp only [length_singleton]; omega
      rw [if_pos hbreak, if_pos (by simp only [length_append, length_singleton]; omega),
        append_assoc]

structure Gathered (lines : List Text) (e : Editor) : Prop where
  input : ∃ m, Holds e.multi m ∧ e.multiLen = m.length ∧ Joined m lines
  empty : e.multiLen = 0 → lines = []

/-! ## 5. Runs -/

variable {history : List HistoryEntry} {outSize : Nat} {key : Key} {e : Editor}
  {lines : List Text} {session next : Session} {event : KeyEvent}

/-- The turn goes on with the lines as the input, or returns them as far as they fit. -/
def Reading.Continues (outSize : Nat) (key : Key) (lines : List Text) : Reading → Prop
  | .going next => Gathered lines next.editor
  | .returned status out =>
    status = .ok ∧ key ≠ .named .ctrlC →
      ∃ m, out = copyString outSize m ∧ m.length < arkshMaxOutput ∧ Joined m lines

theorem submit_joined (h : Gathered lines e) :
    Gives (Reading.Continues outSize key lines) (submit outSize e) := by
  obtain ⟨m, hm, -, hjoined⟩ := h.input
  unfold submit
  rw [hm.text (zero_le _)]
  exact gives_ok fun _ => ⟨m, rfl, hm.length_lt, hjoined⟩

theorem enterLine_joined (h : Gathered lines e) {line : Text} (hline : Holds e.line line)
    (hlen : e.length = line.length) (needsMore : Bool) :
    Gives (Reading.Continues outSize key (lines ++ [line]))
      (enterLine history outSize e needsMore) := by
  obtain ⟨⟨m, hm, hmulti, hjoined⟩, hempty⟩ := h
  have hlines : m = [] → lines = [] := fun h => hempty (by rw [hmulti, h]; rfl)
  obtain ⟨e', happend, b, hb, he'⟩ := appendLine_appended hm hmulti hline hlen
  unfold enterLine
  rw [happend]
  subst he'
  have hjoined' := hjoined.concat hlines line
  show Gives _ (if _ then _ else _)
  split
  next hgoes =>
    refine gives_after fun line => gives_mapped fun scratch => ?_
    exact ⟨⟨_, hb, rfl, hjoined'⟩, fun hzero => absurd hzero hgoes.1.ne'⟩
  · unfold submit
    dsimp only
    rw [hb.text (zero_le _)]
    exact gives_ok fun _ => ⟨_, rfl, hb.length_lt, hjoined'⟩

theorem EditorInv.text (h : EditorInv history.length e) :
    Holds e.line e.text ∧ e.length = e.text.length := by
  obtain ⟨t, ht, hlen⟩ := h.line
  have htext : e.text = t := by rw [Editor.text, ht.take_bytes hlen.le, hlen, take_length]
  rw [htext]
  exact ⟨ht, hlen⟩

theorem acceptMatch_line (h : EditorInv history.length e) (s : Search) :
    Yields (fun e' => SameInput e e' ∧ Holds e'.line (s.matchStr.elim e.text (·.1)) ∧
      e'.length = (s.matchStr.elim e.text (·.1)).length) (acceptMatch e s) := by
  unfold acceptMatch
  cases s.matchStr with
  | none => exact yields_ok ⟨⟨rfl, rfl⟩, h.text⟩
  | some entry =>
    refine (applyHistoryEntry_line entry.2.2).map ?_
    rintro _ ⟨line, t, hline, ht, rfl⟩
    rw [copyString_of_lt entry.2.1] at ht
    subst ht
    exact ⟨⟨rfl, rfl⟩, hline, rfl⟩

/-- **Every turn goes on with the lines that were ended, or returns them**, but for the one that
    `^D` ends. -/
theorem keyStep_joined (hinv : session.Inv history.length) (h : Gathered lines session.editor) :
    Gives (Reading.Continues outSize event.key (lines ++ if event.key = .named .ctrlD then [] else
      (endedLine session event.key).toList)) (keyStep history outSize event session) := by
  obtain ⟨e, mode⟩ := session
  obtain ⟨key, needsMore, candidates⟩ := event
  have hsame {e' : Editor} (h : Gathered lines e) (hinput : SameInput e e') :
      Gathered lines e' := by
    obtain ⟨hjoined, hempty⟩ := h
    rw [← hinput.1, ← hinput.2] at hjoined
    exact ⟨hjoined, by rwa [hinput.2]⟩
  dsimp only at h ⊢
  cases mode with
  | editing =>
    obtain ⟨htext, hlen⟩ := hinv.editor.text
    by_cases hends : key ∈ [.failed, .named .enter, .named .ctrlC, .named .ctrlD]
    · simp only [mem_cons, not_mem_nil, or_false] at hends
      rcases hends with rfl | rfl | rfl | rfl
      · exact gives_ok fun hok => by cases hok.1
      · rw [if_neg (by decide)]
        exact enterLine_joined (e := { e with lastTab := false }) (hsame h ⟨rfl, rfl⟩) htext hlen
          needsMore
      · exact gives_ok fun hok => absurd rfl hok.2
      · rw [if_pos rfl, append_nil]
        show Gives _ (if _ then _ else if _ then _ else _)
        split
        · exact gives_ok fun hok => by cases hok.1
        split
        · exact submit_joined (hsame h ⟨rfl, rfl⟩)
        · exact gives_ok (hsame h ⟨rfl, rfl⟩)
    · have hnone : endedLine ⟨e, .editing⟩ key = none := by
        unfold endedLine
        split <;> first | rfl | exact absurd (by simp) hends
      rw [hnone, toList_none, ite_self, append_nil]
      intro r hstep
      obtain ⟨next, rfl, hnext⟩ := editStep_turned hinv.editor.cursor (by exact hends) r hstep
      exact hsame h hnext.1.1
  | searching s =>
    by_cases hends : key = .named .enter
    · subst hends
      obtain ⟨e', haccept, hinput, hline, hlen⟩ := acceptMatch_line hinv.editor s
      show Gives _ ((acceptMatch e s).bind _)
      rw [haccept]
      exact enterLine_joined (hsame h hinput) hline hlen needsMore
    · have hnone : endedLine ⟨e, .searching s⟩ key = none := by
        unfold endedLine
        split <;> first | rfl | contradiction
      rw [hnone, toList_none, ite_self, append_nil]
      intro r hstep
      obtain ⟨next, rfl, hnext⟩ := searchStep_keeps (by exact hends) r hstep
      exact hsame h hnext.1.1

theorem keyStep_inv (hinv : session.Inv history.length)
    (hstep : keyStep history outSize event session = .ok (.going next)) :
    next.Inv history.length := by
  by_cases hhandles : session.mode.Handles event.key
  · obtain ⟨r, hr, hinv'⟩ := keyStep_yields outSize hinv hhandles
    cases hstep.symm.trans hr
    exact hinv'
  · obtain ⟨code, hfault⟩ := @keyStep_fault history outSize _ _ hhandles
    cases hstep.symm.trans hfault

theorem ctrlD_step (hkey : event.key = .named .ctrlD) {r : Reading}
    (hstep : keyStep history outSize event session = .ok r) :
    endedLine session event.key =
        (if 0 < session.editor.multiLen ∧ 0 < session.editor.length then some session.editor.text
        else none) ∧
      (∀ next, r = .going next → ¬ 0 < session.editor.multiLen) ∧
      ∀ out, r = .returned .ok out → 0 < session.editor.multiLen := by
  obtain ⟨e, mode⟩ := session
  obtain ⟨key, needsMore, candidates⟩ := event
  obtain rfl : key = .named .ctrlD := hkey
  cases mode with
  | searching s => cases hstep
  | editing =>
    refine ⟨rfl, ?_⟩
    unfold keyStep editStep at hstep
    dsimp only at hstep
    split at hstep
    · cases hstep; exact ⟨nofun, nofun⟩
    split at hstep
    · obtain ⟨t, -, rfl⟩ := map_ok.mp hstep; exact ⟨nofun, fun _ _ => by assumption⟩
    · cases hstep; exact ⟨fun _ _ => by assumption, nofun⟩

theorem readKeys_joined {keys : List KeyEvent} (hinv : session.Inv history.length)
    (h : Gathered lines session.editor)
    (hrun : readKeys history outSize keys session = .ok (.going next)) (rest : List KeyEvent) :
    next.Inv history.length ∧ ∃ ended, Gathered (lines ++ ended) next.editor ∧
      endedLines history outSize (keys ++ rest) session =
        ended ++ endedLines history outSize rest next := by
  induction keys generalizing session lines with
  | nil =>
    cases hrun
    exact ⟨hinv, [], by rwa [append_nil], rfl⟩
  | cons event keys ih =>
    unfold readKeys at hrun
    obtain ⟨r, hstep, hrun⟩ := bind_ok.mp hrun
    cases r with
    | returned status out => cases hrun
    | going middle =>
      have hended : (if event.key = .named .ctrlD then [] else
          (endedLine session event.key).toList) = (endedLine session event.key).toList := by
        split
        next hkey =>
          obtain ⟨hline, hnone, -⟩ := ctrlD_step hkey hstep
          rw [hline, if_neg fun hends => hnone _ rfl hends.1]
          rfl
        · rfl
      have hjoined := keyStep_joined hinv h _ hstep
      rw [hended] at hjoined
      obtain ⟨hinv'', ended, hcollected, hlines⟩ := ih (keyStep_inv hinv hstep) hjoined hrun
      refine ⟨hinv'', (endedLine session event.key).toList ++ ended, ?_, ?_⟩
      · rwa [← append_assoc]
      · rw [cons_append, endedLines, hstep]
        dsimp only
        rw [hlines, append_assoc]

theorem startReading_collected (frame : Editor)
    (killBuf : {b : Buffer arkshMaxLine // ∃ k, Holds b k}) :
    Gathered [] (startReading history frame killBuf).editor where
  input := ⟨[], terminated_holds _ (by decide), rfl, le_refl 0, fun _ => rfl⟩
  empty := fun _ => rfl

/-- **All lines are returned if and only if they fit, joined, and `^D` is pressed on an empty
    line.** -/
theorem submitLaw_iff (history : List HistoryEntry) (outSize : ℕ+) (keys : List KeyEvent)
    (event : KeyEvent) (frame : Editor) (killBuf : {b : Buffer arkshMaxLine // ∃ k, Holds b k}) :
    SubmitLaw history outSize keys event (startReading history frame killBuf) ↔
      SubmitFits history outSize keys event (startReading history frame killBuf) := by
  unfold SubmitLaw SubmitFits
  refine forall₂_congr fun next out => forall₃_congr fun hrun hstep hkey => ?_
  obtain ⟨hinv, ended, hcollected, hlines⟩ := readKeys_joined (startReading_inv frame killBuf)
    (startReading_collected frame killBuf) hrun [event]
  obtain ⟨m, rfl, hroom, hjoined⟩ := keyStep_joined hinv hcollected _ hstep ⟨rfl, hkey⟩
  rw [nil_append] at hjoined
  have hlast : endedLines history outSize [event] next = (endedLine next event.key).toList := by
    rw [endedLines, hstep]
    exact append_nil _
  rw [hlines, hlast, lt_min_iff]
  by_cases hend : event.key = .named .ctrlD ∧ 0 < next.editor.length
  · -- the line in the editor is left out
    obtain ⟨hkey, hlength⟩ := hend
    obtain ⟨hline, -, hinput⟩ := ctrlD_step hkey hstep
    refine iff_of_false (fun hout => ?_) fun hfits => hlength.ne' (hfits.2 hkey)
    rw [if_pos hkey, append_nil] at hjoined
    rw [hline, if_pos ⟨hinput _ rfl, hlength⟩, toList_some, joinedLines_concat] at hout
    have hle : (copyString outSize m).length ≤ m.length := length_take_le' _ _
    have hshort := hjoined.short
    rw [hinv.editor.text.2] at hlength
    rw [hout, length_append, length_append] at hle
    omega
  · have hended : (if event.key = .named .ctrlD then [] else (endedLine next event.key).toList) =
        (endedLine next event.key).toList := by
      split
      next hkey =>
        rw [(ctrlD_step hkey hstep).1, if_neg fun hends => hend ⟨hkey, hends.2⟩]
        rfl
      · rfl
    rw [hended] at hjoined
    constructor
    · intro hout
      have hcut := copyString_length_lt outSize.pos m
      have hle : (copyString outSize m).length ≤ m.length := length_take_le' _ _
      rw [hout] at hcut hle
      exact ⟨⟨hle.trans_lt hroom, hcut⟩, fun hkey => by_contra fun hne =>
        hend ⟨hkey, Nat.pos_of_ne_zero hne⟩⟩
    · intro ⟨⟨hmax, hsize⟩, _⟩
      rw [hjoined.whole hmax, copyString_of_lt hsize]

/-- **"a", ENTER in an open construct, "b" and `^D`: the second line is left out.** -/
theorem not_submitLaw : ¬ SubmitLaw [] arkshMaxOutput
    [{ key := .byte ⟨'a', by decide⟩ }, { key := .named .enter, needsMore := true },
      { key := .byte ⟨'b', by decide⟩ }] { key := .named .ctrlD }
    (startReading [] zeroFrame ⟨zeros arkshMaxLine, [], zeros_holds (by decide)⟩) := by
  unfold SubmitLaw
  generalize hkeys : [_, _, _] = keys
  generalize hsession : startReading [] zeroFrame _ = session
  intro hlaw
  have hout : (match readKeys [] arkshMaxOutput keys session with
      | .ok (.going next) =>
        match keyStep [] arkshMaxOutput { key := .named .ctrlD } next with
        | .ok (.returned .ok out) => decide (out = joinedLines
            (endedLines [] arkshMaxOutput (keys ++ [{ key := .named .ctrlD }]) session))
        | _ => true
      | _ => true) = false := by
    rw [← hkeys, ← hsession]
    decide +kernel
  split at hout
  next next hrun =>
    split at hout
    next out hstep => exact of_decide_eq_false hout (hlaw next out hrun hstep nofun)
    · cases hout
  · cases hout

end Arksh
