/-
  Subject: The bounds of the line editor, over every sequence of keys.

  Every handler keeps `EditorInv`: the buffers hold texts, and the counters are the lengths of
  these. Nothing can go wrong but `isprint`, which is asked about every key that no handler took:
  it gets the codes of `^G` and ESC in the editor, and in the search those of all keys that move
  or edit.
-/
import Arksh.Shell.LineEditor

namespace Arksh

open CText CBuffer List Option Nat

/-! ## 1. Steps that succeed -/

/-- The step succeeds, and its result has the property. -/
def Yields {ε α : Type} (P : α → Prop) (r : Except ε α) : Prop := ∃ a, r = .ok a ∧ P a

section Yields

variable {ε α β : Type} {P : α → Prop} {Q : β → Prop} {r : Except ε α}

theorem Yields.bind {f : α → Except ε β} (h : Yields P r) (hf : ∀ a, P a → Yields Q (f a)) :
    Yields Q (r.bind f) := by
  obtain ⟨a, rfl, ha⟩ := h
  exact hf a ha

theorem Yields.map {f : α → β} (h : Yields P r) (hf : ∀ a, P a → Q (f a)) : Yields Q (r.map f) := by
  obtain ⟨a, rfl, ha⟩ := h
  exact ⟨f a, rfl, hf a ha⟩

theorem Yields.mono {P' : α → Prop} (h : Yields P r) (hP : ∀ a, P a → P' a) : Yields P' r := by
  obtain ⟨a, rfl, ha⟩ := h
  exact ⟨a, rfl, hP a ha⟩

theorem yields_ok {a : α} (h : P a) : Yields P (Except.ok a : Except ε α) := ⟨a, rfl, h⟩

theorem yields_inBounds {x : Option α} (h : ∃ a, x = some a ∧ P a) : Yields P (inBounds x) := by
  obtain ⟨a, rfl, ha⟩ := h
  exact ⟨a, rfl, ha⟩

end Yields

/-! ## 2. The invariant -/

structure EditorInv (count : Nat) (e : Editor) : Prop where
  line : ∃ t, Holds e.line t ∧ e.length = t.length
  cursor : e.cursor ≤ e.length
  historyIndex : e.historyIndex ≤ count
  scratch : ∃ t, Holds e.historyScratch t
  multi : ∃ m, Holds e.multi m ∧ e.multiLen = m.length
  undoLine : e.undoValid = true → ∃ u, Holds e.undoLine u ∧ e.undoLength = u.length
  undoCursor : e.undoCursor ≤ e.undoLength
  undoLength : e.undoLength < arkshMaxLine
  killBuf : ∃ k, Holds e.killBuf k

structure SearchInv (count : Nat) (s : Search) : Prop where
  query : ∃ q, Holds s.query q ∧ s.queryLen = q.length
  searchFrom : s.searchFrom ≤ count
  matchIdx : s.matchIdx ≤ count

def Mode.Inv (count : Nat) : Mode → Prop
  | .editing => True
  | .searching s => SearchInv count s

structure Session.Inv (count : Nat) (session : Session) : Prop where
  editor : EditorInv count session.editor
  mode : session.mode.Inv count

variable {count : Nat} {e : Editor} {length cursor size : Nat} {entry : Text}

theorem EditorInv.withLine (h : EditorInv count e) {line : Buffer arkshMaxLine} {t : Text}
    (hline : Holds line t) (hlength : length = t.length) (hcursor : cursor ≤ length) :
    EditorInv count { e with line := line, length := length, cursor := cursor } :=
  { h with line := ⟨t, hline, hlength⟩, cursor := hcursor }

/-! ## 3. The snapshot -/

/-- Nothing but the snapshot has changed. -/
structure SameLine (e e' : Editor) : Prop where
  line : e'.line = e.line
  length : e'.length = e.length
  cursor : e'.cursor = e.cursor
  killBuf : e'.killBuf = e.killBuf

theorem saveUndo_yields (h : EditorInv count e) :
    Yields (fun e' => EditorInv count e' ∧ SameLine e e') (saveUndo e) := by
  obtain ⟨t, ht, hlen⟩ := h.line
  obtain ⟨undoLine, hcopy, hundo⟩ := holds_copy (b := e.undoLine) ht ht.length_lt
  have hbounds : Yields (Holds · t) (inBounds (e.undoLine.copy 0 e.line 0 (e.length + 1))) :=
    yields_inBounds ⟨undoLine, hlen ▸ hcopy, hundo⟩
  refine hbounds.map fun undoLine hundo => ⟨?_, ⟨rfl, rfl, rfl, rfl⟩⟩
  exact
    { h with
      undoLine := fun _ => ⟨t, hundo, hlen⟩
      undoCursor := h.cursor
      undoLength := hlen ▸ ht.length_lt }

theorem undo_yields (h : EditorInv count e) : Yields (EditorInv count) (undo e) := by
  unfold undo
  split
  next hvalid =>
    obtain ⟨u, hu, hlen⟩ := h.undoLine hvalid
    obtain ⟨line, hcopy, hline⟩ := holds_copy (b := e.line) hu hu.length_lt
    have hbounds : Yields (Holds · u) (inBounds (e.line.copy 0 e.undoLine 0 (e.undoLength + 1))) :=
      yields_inBounds ⟨line, hlen ▸ hcopy, hline⟩
    refine hbounds.map fun line hline => ?_
    have hkept := h.withLine hline hlen h.undoCursor
    exact { hkept with undoLine := fun hfalse => by simp at hfalse }
  · exact yields_ok h

/-! ## 4. Changes of the line -/

section

variable (h : EditorInv count e)
include h

theorem replaceRange_yields {start stop : Nat} {replacement : Text} (hplain : nul ∉ replacement)
    (hstart : start ≤ stop) (hstop : stop ≤ e.length) :
    Yields (EditorInv count) (replaceRange e start stop replacement) := by
  obtain ⟨t, ht, hlen⟩ := h.line
  unfold replaceRange
  rw [if_neg (not_lt.mpr hstart)]
  split
  · exact yields_ok h
  next hroom =>
    rw [hlen] at hstop hroom ⊢
    have hline := holds_replace ht hplain hstart hstop (not_le.mp hroom)
    refine (yields_inBounds hline).map fun line hline => h.withLine hline ?_ (by omega)
    simp only [length_append, length_take, length_drop]
    omega

theorem cut_yields {start stop : Nat} (hstart : start ≤ stop) (hstop : stop ≤ e.length)
    (hlength : length = start + (e.length - stop)) :
    Yields (fun line => EditorInv count { e with line := line, length := length, cursor := start })
      (inBounds (e.line.move start stop (e.length - stop + 1))) := by
  obtain ⟨t, ht, hlen⟩ := h.line
  rw [hlen] at hstop hlength ⊢
  have hroom := ht.length_lt
  obtain ⟨line, hmove, hline⟩ := holds_replace ht (s := []) not_mem_nil hstart hstop
    (by simp only [length_nil]; omega)
  have hwrite (b : Buffer arkshMaxLine) : b.write start [] = some b ∨ b.write start [] = none := by
    unfold Buffer.write
    split
    · exact Or.inl (by simp)
    · exact Or.inr rfl
  obtain ⟨moved, hmoved, hrest⟩ := bind_eq_some_iff.mp hmove
  obtain rfl : moved = line := by
    rcases hwrite moved with heq | heq
    · exact Option.some.inj (heq.symm.trans hrest)
    · rw [heq] at hrest; cases hrest
  refine yields_inBounds ⟨moved, hmoved, h.withLine hline ?_ (by omega)⟩
  simp only [append_nil, length_append, length_take, length_drop]
  omega

theorem insert_yields {s : Text} (hplain : nul ∉ s) (hroom : e.length + s.length < arkshMaxLine) :
    Yields
      (fun line => EditorInv count
        { e with line := line, length := e.length + s.length, cursor := e.cursor + s.length })
      (inBounds ((e.line.move (e.cursor + s.length) e.cursor (e.length - e.cursor + 1)).bind
        (·.write e.cursor s))) := by
  obtain ⟨t, ht, hlen⟩ := h.line
  have hcursor := h.cursor
  rw [hlen] at hroom hcursor ⊢
  have hline := holds_replace ht hplain (le_refl e.cursor) hcursor (by omega)
  refine yields_inBounds (hline.imp fun line hline => ⟨hline.1, h.withLine hline.2 ?_ (by omega)⟩)
  simp only [length_append, length_take, length_drop]
  omega

theorem EditorInv.withKill {killBuf : Buffer arkshMaxLine} {k : Text} (hkill : Holds killBuf k) :
    EditorInv count { e with killBuf := killBuf } :=
  { h with killBuf := ⟨k, hkill⟩ }

theorem killToEnd_yields : Yields (EditorInv count) (killToEnd e) := by
  unfold killToEnd
  split
  next hcursor =>
    refine (saveUndo_yields h).bind fun e ⟨h, _⟩ => ?_
    obtain ⟨t, ht, hlen⟩ := h.line
    have hcursor : e.cursor ≤ t.length := hlen ▸ h.cursor
    have hplain : nul ∉ t.drop e.cursor := fun hc => ht.plain (mem_of_mem_drop hc)
    have hkill : ∃ b, (e.line.text e.cursor).bind e.killBuf.copyString = some b ∧ ∃ k, Holds b k := by
      rw [ht.text hcursor, bind_some]
      obtain ⟨b, hb, hk⟩ := holds_copyString (b := e.killBuf) (by decide) hplain
      exact ⟨b, hb, _, hk⟩
    refine (yields_inBounds hkill).bind fun killBuf ⟨k, hk⟩ => ?_
    refine (yields_inBounds (holds_cut ht hcursor)).map fun line hline => ?_
    exact (h.withKill hk).withLine hline (by simp; omega) (le_refl _)
  · exact yields_ok h

end

theorem scanBack_le (p : Char → Bool) (bytes : List Char) (pos : Nat) :
    scanBack p bytes pos ≤ pos := by
  induction pos with
  | zero => exact le_refl 0
  | succ pos ih =>
    unfold scanBack
    split <;> omega

theorem scanForward_le (p : Char → Bool) (bytes : List Char) (left pos : Nat) :
    pos ≤ scanForward p bytes left pos ∧ scanForward p bytes left pos ≤ pos + left := by
  induction left generalizing pos with
  | zero => exact ⟨le_refl pos, le_refl pos⟩
  | succ left ih =>
    unfold scanForward
    split
    · obtain ⟨hle, hlt⟩ := ih (pos + 1); omega
    · omega

theorem wordBackward_le (bytes : List Char) (cursor : Nat) : wordBackward bytes cursor ≤ cursor :=
  (scanBack_le _ _ _).trans (scanBack_le _ _ _)

theorem wordForward_le (bytes : List Char) (h : cursor ≤ length) :
    wordForward bytes length cursor ≤ length := by
  obtain ⟨_, hword⟩ := scanForward_le (fun c => !isspace c) bytes (length - cursor) cursor
  obtain ⟨_, hspace⟩ := scanForward_le isspace bytes
    (length - scanForward (fun c => !isspace c) bytes (length - cursor) cursor)
    (scanForward (fun c => !isspace c) bytes (length - cursor) cursor)
  unfold wordForward
  dsimp only
  omega

section

variable (h : EditorInv count e)
include h

variable {newPos : Nat}

theorem killed_holds (hpos : newPos ≤ e.cursor) {t : Text} (ht : Holds e.line t)
    (hlen : e.length = t.length) :
    ∃ b, (if e.cursor - newPos < arkshMaxLine then
        (e.killBuf.copy 0 e.line newPos (e.cursor - newPos)).bind
          (·.write (e.cursor - newPos) [nul])
      else some e.killBuf) = some b ∧ Holds b ((t.drop newPos).take (e.cursor - newPos)) := by
  have hcursor := h.cursor
  have hroom := ht.length_lt
  rw [if_pos (by omega)]
  have hread : e.line.read newPos (e.cursor - newPos) = some _ := ht.read (by omega)
  have hcut : ((t ++ [nul]).drop newPos).take (e.cursor - newPos) =
      (t.drop newPos).take (e.cursor - newPos) := by
    rw [drop_append_of_le_length (by omega), take_append_of_le_length]
    rw [length_drop]
    omega
  have hcount : ((t.drop newPos).take (e.cursor - newPos)).length = e.cursor - newPos := by
    rw [length_take, length_drop]
    omega
  obtain ⟨b, hwrite, htake⟩ :
      ∃ b, e.killBuf.write 0 ((t.drop newPos).take (e.cursor - newPos)) = some b ∧ _ :=
    take_write (by omega)
  rw [hcount, zero_add, take_zero, nil_append] at htake
  unfold Buffer.copy
  rw [hread, bind_some, hcut, hwrite, bind_some]
  exact holds_write (b := b) (u := [nul])
    (fun hc => ht.plain (mem_of_mem_drop (mem_of_mem_take hc)))
    (congrArg (· ++ [nul]) htake) (by rw [length_singleton]; omega)

theorem killBack_yields (hpos : newPos ≤ e.cursor) :
    Yields (EditorInv count) (killBack e newPos) := by
  refine (saveUndo_yields h).bind fun e' ⟨h', same⟩ => ?_
  rw [← same.cursor] at hpos ⊢
  obtain ⟨t, ht, hlen⟩ := h'.line
  have hcursor := h'.cursor
  refine (yields_inBounds (killed_holds h' hpos ht hlen)).bind fun killBuf hk => ?_
  exact (cut_yields (h'.withKill hk) hpos hcursor (by dsimp only; omega)).map fun line hline => hline

theorem killToStart_yields : Yields (EditorInv count) (killToStart e) := by
  unfold killToStart
  split
  · exact killBack_yields h (zero_le _)
  · exact yields_ok h

theorem killWord_yields : Yields (EditorInv count) (killWord e) := by
  unfold killWord
  split
  · exact killBack_yields h (wordBackward_le _ _)
  · exact yields_ok h

theorem yank_yields : Yields (EditorInv count) (yank e) := by
  obtain ⟨k, hk⟩ := h.killBuf
  have htext : Yields (· = k) (inBounds (e.killBuf.text 0)) :=
    yields_inBounds ⟨k, hk.text (zero_le _), rfl⟩
  refine htext.bind fun killed hkilled => ?_
  subst hkilled
  split
  next hroom =>
    refine (saveUndo_yields h).bind fun e' ⟨h', same⟩ => ?_
    rw [← same.length] at hroom
    exact (insert_yields h' hk.plain hroom.2).map fun line hline => hline
  · exact yields_ok h

theorem backspace_yields : Yields (EditorInv count) (backspace e) := by
  unfold backspace
  split
  next hcursor =>
    refine (saveUndo_yields h).bind fun e' ⟨h', same⟩ => ?_
    rw [← same.cursor] at hcursor
    have hle := h'.cursor
    exact (cut_yields h' (sub_le _ 1) hle (by omega)).map fun line hline => hline
  · exact yields_ok h

theorem delete_yields : Yields (EditorInv count) (delete e) := by
  unfold delete
  split
  next hcursor =>
    refine (saveUndo_yields h).bind fun e' ⟨h', same⟩ => ?_
    rw [← same.cursor, ← same.length] at hcursor
    have hcount : e'.length - e'.cursor = e'.length - (e'.cursor + 1) + 1 := by omega
    rw [hcount]
    exact (cut_yields h' (le_succ _) hcursor (by omega)).map fun line hline => hline
  · exact yields_ok h

theorem insertChar_yields {c : Char} (hc : c ≠ nul) :
    Yields (EditorInv count) (insertChar e c) := by
  unfold insertChar
  split
  · exact yields_ok h
  next hroom =>
    refine (saveUndo_yields h).bind fun e' ⟨h', same⟩ => ?_
    rw [← same.length] at hroom
    exact (insert_yields (s := [c]) h' (by simpa using hc.symm) (not_le.mp hroom)).map
      fun line hline => hline

end

/-! ## 5. History and completion -/

theorem applyHistoryEntry_line (hplain : nul ∉ entry) :
    Yields (fun e' => ∃ line t, Holds line t ∧ t = CText.copyString arkshMaxLine entry ∧
      e' = { e with line := line, length := t.length, cursor := t.length })
      (applyHistoryEntry e entry) := by
  have hline := holds_copyString (b := e.line) (by decide) hplain
  refine (yields_inBounds hline).bind fun line hline => ?_
  have htext : Yields (· = CText.copyString arkshMaxLine entry) (inBounds (line.text 0)) :=
    yields_inBounds ⟨_, hline.text (zero_le _), rfl⟩
  refine htext.map fun t ht => ⟨line, t, ?_, ht, rfl⟩
  rwa [ht]

theorem applyHistoryEntry_yields (h : EditorInv count e) (hplain : nul ∉ entry) :
    Yields (EditorInv count) (applyHistoryEntry e entry) := by
  refine (applyHistoryEntry_line hplain).mono ?_
  rintro _ ⟨line, t, hline, -, rfl⟩
  exact h.withLine hline rfl (le_refl _)

section History

variable {history : List HistoryEntry}

theorem historyUp_yields (h : EditorInv history.length e) :
    Yields (EditorInv history.length) (historyUp history e) := by
  unfold historyUp
  split
  · exact yields_ok h
  next hsome =>
    have hsaved : Yields
        (fun e' => EditorInv history.length e' ∧ e'.historyIndex = e.historyIndex)
        (if e.historyIndex = history.length then
          (inBounds ((e.line.text 0).bind e.historyScratch.copyString)).map fun scratch =>
            { e with historyScratch := scratch }
        else .ok e) := by
      split
      · obtain ⟨t, ht, _⟩ := h.line
        obtain ⟨b, hb, hscratch⟩ := holds_copyString (b := e.historyScratch) (by decide) ht.plain
        have hcopy : ∃ b, (e.line.text 0).bind e.historyScratch.copyString = some b ∧
            ∃ s, Holds b s := by
          rw [ht.text (zero_le _), bind_some, drop_zero]
          exact ⟨b, hb, _, hscratch⟩
        refine (yields_inBounds hcopy).map fun scratch hscratch => ⟨?_, rfl⟩
        exact { h with scratch := hscratch }
      · exact yields_ok ⟨h, rfl⟩
    refine hsaved.bind fun e' ⟨h', hsame⟩ => ?_
    have hle := h'.historyIndex
    have hentry : ∃ entry, history[e'.historyIndex - 1]? = some entry ∧ True :=
      ⟨_, getElem?_eq_getElem (by omega), trivial⟩
    refine (yields_inBounds hentry).bind fun entry _ => ?_
    have hprevious : EditorInv history.length { e' with historyIndex := e'.historyIndex - 1 } :=
      { h' with historyIndex := (sub_le _ 1).trans hle }
    exact applyHistoryEntry_yields hprevious entry.2.2

theorem historyDown_yields (h : EditorInv history.length e) :
    Yields (EditorInv history.length) (historyDown history e) := by
  unfold historyDown
  split
  · exact yields_ok h
  next hsome =>
    have hnext : EditorInv history.length { e with historyIndex := e.historyIndex + 1 } :=
      { h with historyIndex := by dsimp only; omega }
    dsimp only
    split
    · obtain ⟨s, hs⟩ := h.scratch
      have htext : Yields (· = s) (inBounds (e.historyScratch.text 0)) :=
        yields_inBounds ⟨s, hs.text (zero_le _), rfl⟩
      refine htext.bind fun s' hs' => ?_
      subst hs'
      exact applyHistoryEntry_yields hnext hs.plain
    next hne =>
      have hentry : ∃ entry, history[e.historyIndex + 1]? = some entry ∧ True :=
        ⟨_, getElem?_eq_getElem (by omega), trivial⟩
      exact (yields_inBounds hentry).bind fun entry _ => applyHistoryEntry_yields hnext entry.2.2

end History

theorem findTokenStart_le (bytes : List Char) (cursor : Nat) : findTokenStart bytes cursor ≤ cursor :=
  scanBack_le _ _ _

theorem findObjectMemberContext_le {bytes : List Char} {receiverStart receiverEnd : Nat}
    {memberStart : Nat}
    (h : findObjectMemberContext bytes cursor = some (receiverStart, receiverEnd, memberStart)) :
    receiverStart ≤ receiverEnd ∧ receiverEnd ≤ cursor ∧ memberStart ≤ cursor := by
  unfold findObjectMemberContext at h
  dsimp only at h
  have hmember := scanBack_le isMemberChar bytes cursor
  generalize scanBack isMemberChar bytes cursor = member at h hmember
  have hscan := scanBack_le isspace bytes member
  generalize scanBack isspace bytes member = scan at h hscan
  have hend := scanBack_le isspace bytes (scan - 2)
  generalize scanBack isspace bytes (scan - 2) = stop at h hend
  split at h
  · cases h
  · split at h
    · cases h
    · split at h
      · cases h
      · simp only [Option.some.injEq, Prod.mk.injEq] at h; omega

theorem completionStart_le (bytes : List Char) (cursor : Nat) :
    completionStart bytes cursor (findObjectMemberContext bytes cursor) ≤ cursor := by
  unfold completionStart
  split
  next hcontext => exact (findObjectMemberContext_le hcontext).2.2
  · exact findTokenStart_le _ _

theorem collected_yields (h : EditorInv count e) (candidates : List Candidate) :
    Yields (fun _ => True)
      (collected e (findObjectMemberContext e.line.bytes e.cursor) candidates) := by
  obtain ⟨t, ht, hlen⟩ := h.line
  have hcursor := h.cursor
  unfold collected
  split
  next receiverStart receiverEnd memberStart hcontext =>
    obtain ⟨hstart, hend, _⟩ := findObjectMemberContext_le hcontext
    dsimp only
    split
    · exact yields_ok trivial
    · have hread : e.line.read receiverStart (receiverEnd - receiverStart) = some _ :=
        ht.read (by omega)
      exact (yields_inBounds (P := fun _ => True) ⟨_, hread, trivial⟩).map fun _ _ => trivial
  · exact yields_ok trivial

theorem onlyReplacement_plain (member : Bool) (candidate : Candidate) :
    nul ∉ onlyReplacement member candidate.1 := by
  have hcopy : nul ∉ CText.copyString arkshMaxPath candidate.1 := fun hc =>
    candidate.2.2 (mem_of_mem_take hc)
  unfold onlyReplacement
  dsimp only
  split
  · exact hcopy
  · split
    · split
      · rw [mem_append, not_or]; exact ⟨hcopy, by decide⟩
      · exact hcopy
    · exact hcopy

theorem handleCompletion_yields (h : EditorInv count e) (forceList : Bool)
    (candidates : List Candidate) :
    Yields (EditorInv count) (handleCompletion e forceList candidates) := by
  obtain ⟨t, ht, hlen⟩ := h.line
  have hcursor := h.cursor
  have hcandidates := collected_yields h candidates
  have hstart := completionStart_le e.line.bytes e.cursor
  unfold handleCompletion
  dsimp only
  generalize findObjectMemberContext e.line.bytes e.cursor = context at hcandidates hstart ⊢
  generalize completionStart e.line.bytes e.cursor context = start at hstart ⊢
  have hreplace {s : Text} (hs : nul ∉ s) :
      Yields (EditorInv count) (replaceRange e start e.cursor s) :=
    replaceRange_yields h hs hstart hcursor
  split
  · exact yields_ok h
  · have hread : e.line.read start (e.cursor - start) = some _ := ht.read (by omega)
    refine (yields_inBounds (P := fun _ => True) ⟨_, hread, trivial⟩).bind fun _ _ => ?_
    refine hcandidates.bind fun candidates _ => ?_
    rcases candidates with - | ⟨first, - | ⟨second, rest⟩⟩
    · exact yields_ok h
    · exact hreplace (onlyReplacement_plain _ first)
    · have hshared (n : Nat) : nul ∉ first.1.take n := fun hc =>
        first.2.2 (mem_of_mem_take hc)
      dsimp only
      split
      · split
        · exact hreplace (hshared _)
        · exact yields_ok h
      · split
        · split
          · exact yields_ok h
          · exact hreplace (hshared _)
        · exact yields_ok h

/-! ## 6. Lines -/

def fitted (m s : Text) : Text := if m.length + s.length < arkshMaxOutput then m ++ s else m

/-- The input behind ENTER. -/
def appended (m line : Text) : Text :=
  fitted (if 0 < m.length then fitted m ['\n'] else m) line

theorem fitted_plain {m s : Text} (hm : nul ∉ m ∧ m.length < arkshMaxOutput) (hs : nul ∉ s) :
    nul ∉ fitted m s ∧ (fitted m s).length < arkshMaxOutput := by
  unfold fitted
  split
  · rw [mem_append, not_or, length_append]; exact ⟨⟨hm.1, hs⟩, by assumption⟩
  · exact hm

def WithInput (e : Editor) (m : Text) (e' : Editor) : Prop :=
  ∃ b, b.bytes.take m.length = m ∧ e' = { e with multi := b, multiLen := m.length }

theorem withInput_fitted {m s : Text} {b : Buffer arkshMaxOutput} (h : b.bytes.take m.length = m)
    (hroom : m.length + s.length < arkshMaxOutput) :
    Yields (fun b => WithInput e (fitted m s) { e with multi := b, multiLen := m.length + s.length })
      (inBounds (b.write m.length s)) := by
  obtain ⟨b', hb', htake⟩ : ∃ b', b.write m.length s = some b' ∧ _ := take_write hroom.le
  refine yields_inBounds ⟨b', hb', b', ?_, ?_⟩ <;> rw [fitted, if_pos hroom, length_append]
  rw [htake, h]

/-- **ENTER puts the line behind the input, if it fits.** -/
theorem appendLine_appended {m line : Text} (hm : Holds e.multi m) (hmulti : e.multiLen = m.length)
    (hline : Holds e.line line) (hlen : e.length = line.length) :
    Yields (fun e' => ∃ b, Holds b (appended m line) ∧
      e' = { e with multi := b, multiLen := (appended m line).length }) (appendLine e) := by
  have hfront : e.multi.bytes.take m.length = m := by rw [hm.take_bytes (le_refl _), take_length]
  have hplain : nul ∉ (if 0 < m.length then fitted m ['\n'] else m) ∧
      (if 0 < m.length then fitted m ['\n'] else m).length < arkshMaxOutput := by
    split
    · exact fitted_plain ⟨hm.plain, hm.length_lt⟩ (by decide)
    · exact ⟨hm.plain, hm.length_lt⟩
  have hnewline : Yields (fun r => WithInput e (if 0 < m.length then fitted m ['\n'] else m) r.1 ∧
          r.2 = arkshMaxOutput - r.1.multiLen - 1)
      (if 0 < e.multiLen ∧ 0 < arkshMaxOutput - e.multiLen - 1 then
        (inBounds (e.multi.write e.multiLen ['\n'])).map fun multi =>
          ({ e with multi := multi, multiLen := e.multiLen + 1 },
            arkshMaxOutput - e.multiLen - 1 - 1)
      else .ok (e, arkshMaxOutput - e.multiLen - 1)) := by
    rw [hmulti]
    by_cases hroom : 0 < m.length ∧ 0 < arkshMaxOutput - m.length - 1
    · rw [if_pos hroom, if_pos hroom.1]
      exact (withInput_fitted hfront (by simp; omega)).map fun b hb => ⟨hb, by dsimp only; omega⟩
    · have hsame : (if 0 < m.length then fitted m ['\n'] else m) = m := by
        split
        · exact if_neg (by simp; omega)
        · rfl
      rw [if_neg hroom, hsame]
      exact yields_ok ⟨⟨e.multi, hfront, by rw [← hmulti]⟩, by rw [hmulti]⟩
  refine hnewline.bind fun (e', space) ⟨⟨b, hb, he'⟩, hspace⟩ => ?_
  dsimp only at he' hspace ⊢
  subst he' hspace
  unfold appended
  generalize (if 0 < m.length then fitted m ['\n'] else m) = u at *
  have hcopy : Yields (WithInput e (fitted u line))
      (if 0 < e.length ∧ e.length ≤ arkshMaxOutput - u.length - 1 then
        (inBounds (b.copy u.length e.line 0 e.length)).map fun multi =>
          { e with multi := multi, multiLen := u.length + e.length }
      else .ok { e with multi := b, multiLen := u.length }) := by
    split
    next hroom =>
      have hread : e.line.read 0 e.length = some line := by
        rw [hline.read (by omega), drop_zero, hlen, take_left]
      rw [Buffer.copy, hread, bind_some]
      exact (withInput_fitted (e := e) hb (by omega)).map fun b hb => by rwa [← hlen] at hb
    next hroom =>
      have hsame : fitted u line = u := by
        unfold fitted
        split
        · rw [length_eq_zero_iff.mp (by omega : line.length = 0), append_nil]
        · rfl
      rw [hsame]
      exact yields_ok ⟨b, hb, rfl⟩
  refine hcopy.bind fun e' ⟨b, hb, he'⟩ => ?_
  subst he'
  obtain ⟨hnul, hroom⟩ := fitted_plain hplain hline.plain
  have hwrite : ∃ b', b.write (fitted u line).length [nul] = some b' ∧ Holds b' (fitted u line) :=
    holds_write hnul (by rw [hb]) hroom
  exact (yields_inBounds hwrite).map fun multi hmulti => ⟨multi, hmulti, rfl⟩

theorem appendLine_yields (h : EditorInv count e) : Yields (EditorInv count) (appendLine e) := by
  obtain ⟨t, ht, hlen⟩ := h.line
  obtain ⟨m, hm, hmulti⟩ := h.multi
  refine (appendLine_appended hm hmulti ht hlen).mono ?_
  rintro _ ⟨b, hb, rfl⟩
  exact { h with multi := ⟨_, hb, rfl⟩ }

/-- What a turn leaves, if it goes on. -/
def Reading.Inv (count : Nat) : Reading → Prop
  | .going session => session.Inv count
  | .returned _ _ => True

section Reading

variable {history : List HistoryEntry} (outSize : Nat) {session : Session} {events : List KeyEvent}

theorem submit_yields (h : EditorInv count e) : Yields (Reading.Inv count) (submit outSize e) := by
  obtain ⟨m, hm, _⟩ := h.multi
  have htext : Yields (fun _ => True) (inBounds (e.multi.text 0)) :=
    yields_inBounds ⟨m, hm.text (zero_le _), trivial⟩
  exact htext.map fun _ _ => trivial

theorem enterLine_yields (h : EditorInv history.length e) (needsMore : Bool) :
    Yields (Reading.Inv history.length) (enterLine history outSize e needsMore) := by
  refine (appendLine_yields h).bind fun e h => ?_
  split
  · obtain ⟨t, ht, _⟩ := h.line
    obtain ⟨s, hs⟩ := h.scratch
    refine (yields_inBounds (holds_cut ht (zero_le _))).bind fun line hline => ?_
    refine (yields_inBounds (holds_cut hs (zero_le _))).map fun scratch hscratch => ?_
    refine ⟨?_, trivial⟩
    exact
      { h with
        line := ⟨_, hline, by simp⟩
        cursor := le_refl 0
        historyIndex := le_refl _
        scratch := ⟨_, hscratch⟩ }
  · exact submit_yields outSize h

/-! ## 7. The search -/

variable {s : Search}

theorem findHistoryMatch_lt {query : Text} {start found : Nat}
    (h : findHistoryMatch history query start = some found) : found < start := by
  induction start with
  | zero => cases h
  | succ i ih =>
    unfold findHistoryMatch at h
    split at h
    · split at h
      · exact Option.some.inj h ▸ lt_succ_self i
      · exact (ih h).trans (lt_succ_self i)
    · cases h

theorem findMatch_yields (h : SearchInv history.length s) :
    Yields (SearchInv history.length) (findMatch history s) := by
  obtain ⟨q, hq, _⟩ := h.query
  have htext : Yields (fun _ => True) (inBounds (s.query.text 0)) :=
    yields_inBounds ⟨q, hq.text (zero_le _), trivial⟩
  refine htext.map fun query _ => ?_
  split
  next found hfound =>
    have hle : found ≤ history.length := (findHistoryMatch_lt hfound).le.trans h.searchFrom
    exact { h with searchFrom := hle, matchIdx := hle }
  · exact h

theorem SearchInv.restart (h : SearchInv history.length s) :
    SearchInv history.length (s.restart history) :=
  { h with searchFrom := le_refl _, matchIdx := le_refl _ }

theorem startSearch_inv : SearchInv history.length (startSearch history) where
  query := ⟨[], ⟨not_mem_nil, ⟨List.replicate (arkshMaxLine - 1) nul, rfl⟩⟩, rfl⟩
  searchFrom := le_refl _
  matchIdx := le_refl _

theorem acceptMatch_yields (h : EditorInv history.length e) (hs : SearchInv history.length s) :
    Yields (EditorInv history.length) (acceptMatch e s) := by
  unfold acceptMatch
  split
  next entry _ =>
    refine (applyHistoryEntry_yields h entry.2.2).map fun e h => ?_
    exact { h with historyIndex := hs.matchIdx }
  · exact yields_ok h

section

variable (h : SearchInv history.length s)
include h

theorem typeQuery_yields {c : Char} (hc : c ≠ nul) :
    Yields (SearchInv history.length) (typeQuery history s c) := by
  unfold typeQuery
  split
  next hroom =>
    obtain ⟨q, hq, hlen⟩ := h.query
    have hplain : nul ∉ [c] := by simpa using hc.symm
    have hwrite : ∃ b, s.query.write s.queryLen [c, nul] = some b ∧ Holds b (q ++ [c]) := by
      rw [hlen] at hroom ⊢
      exact holds_append hq hplain hroom
    refine (yields_inBounds hwrite).bind fun query hquery => findMatch_yields (SearchInv.restart ?_)
    exact { h with query := ⟨_, hquery, by simp [hlen]⟩ }
  · exact yields_ok h

theorem shortenQuery_yields : Yields (SearchInv history.length) (shortenQuery history s) := by
  unfold shortenQuery
  split
  next hpos =>
    obtain ⟨q, hq, hlen⟩ := h.query
    have hwrite : ∃ b, s.query.write (s.queryLen - 1) [nul] = some b ∧ _ := holds_cut hq (by omega)
    refine (yields_inBounds hwrite).bind fun query hquery => ?_
    have hkept : SearchInv history.length
        { s with query := query, queryLen := s.queryLen - 1 } :=
      { h with query := ⟨_, hquery, by simp; omega⟩ }
    dsimp only
    split
    · exact findMatch_yields hkept.restart
    · exact yields_ok hkept.restart
  · exact yields_ok h

theorem searchOlder_yields : Yields (SearchInv history.length) (searchOlder history s) := by
  unfold searchOlder
  split
  · refine findMatch_yields ?_
    split
    · exact { h with searchFrom := h.matchIdx }
    · exact h
  · exact yields_ok h

end

/-! ## 8. Turns -/

/-- The keys that are not given to `isprint` with a code of their own. -/
def Mode.Handles : Mode → Key → Prop
  | .editing, key => key ≠ .named .ctrlG ∧ key ≠ .named .esc
  | .searching _, .named name =>
    name ∈ [.resize, .ctrlG, .esc, .ctrlC, .enter, .ctrlR, .backspace]
  | .searching _, _ => True

theorem isprint_byte (c : {c : Char // c.toNat < 256}) :
    ∃ b : Bool, isprint (Key.byte c).code = .ok b ∧ (b = true → (Key.byte c).toChar ≠ nul) := by
  refine ⟨decide (32 ≤ (Key.byte c).code ∧ (Key.byte c).code < 127), ?_, ?_⟩
  · unfold isprint; rw [if_pos (by simp only [Key.code]; omega)]
  · intro hprint heq
    have hcode : 32 ≤ ((Key.byte c).toChar.toNat : Int) := (of_decide_eq_true hprint).1
    rw [heq] at hcode
    exact absurd hcode (by decide)

theorem editStep_yields (h : EditorInv history.length e) (event : KeyEvent)
    (hkey : Mode.Handles .editing event.key) :
    Yields (Reading.Inv history.length) (editStep history outSize e event) := by
  obtain ⟨key, needsMore, candidates⟩ := event
  have hkept : EditorInv history.length { e with lastTab := key = Key.named .tab } := { h with }
  have hgo {r : Checked Editor} (hr : Yields (EditorInv history.length) r) :
      Yields (Reading.Inv history.length)
        (r.map fun e => .going { editor := e, mode := .editing }) :=
    hr.map fun e h => ⟨h, trivial⟩
  unfold editStep
  generalize { e with lastTab := key = Key.named .tab } = e' at hkept ⊢
  have hcursor := hkept.cursor
  cases key with
  | failed => exact yields_ok trivial
  | byte c =>
    obtain ⟨printable, hprint, hplain⟩ := isprint_byte c
    have hcode : Yields (· = printable) (isprint (Key.byte c).code) := ⟨printable, hprint, rfl⟩
    refine hcode.bind fun b hb => hgo ?_
    subst hb
    split
    next hb => exact insertChar_yields hkept (hplain hb)
    · exact yields_ok hkept
  | named name =>
    cases name with
    | backspace => exact hgo (backspace_yields hkept)
    | delete => exact hgo (delete_yields hkept)
    | left =>
      refine hgo (yields_ok ?_)
      split
      · exact { hkept with cursor := (sub_le _ 1).trans hcursor }
      · exact hkept
    | right =>
      refine hgo (yields_ok ?_)
      split
      next hlt => exact { hkept with cursor := hlt }
      · exact hkept
    | up =>
      refine hgo ?_
      split
      · exact yields_ok hkept
      · exact historyUp_yields hkept
    | down =>
      refine hgo ?_
      split
      · exact yields_ok hkept
      · exact historyDown_yields hkept
    | tab => exact hgo (handleCompletion_yields hkept _ _)
    | enter => exact enterLine_yields outSize hkept _
    | ctrlA => exact hgo (yields_ok { hkept with cursor := zero_le _ })
    | ctrlC => exact yields_ok trivial
    | ctrlD =>
      dsimp only
      split
      · exact yields_ok trivial
      · split
        · exact submit_yields outSize hkept
        · exact hgo (yields_ok hkept)
    | ctrlE => exact hgo (yields_ok { hkept with cursor := le_refl _ })
    | ctrlG => exact absurd rfl hkey.1
    | ctrlR =>
      refine yields_ok ⟨hkept, ?_⟩
      split
      · trivial
      · exact startSearch_inv
    | esc => exact absurd rfl hkey.2
    | wordLeft =>
      exact hgo (yields_ok { hkept with cursor := (wordBackward_le _ _).trans hcursor })
    | wordRight => exact hgo (yields_ok { hkept with cursor := wordForward_le _ hcursor })
    | ctrlK => exact hgo (killToEnd_yields hkept)
    | ctrlU => exact hgo (killToStart_yields hkept)
    | ctrlW => exact hgo (killWord_yields hkept)
    | ctrlY => exact hgo (yank_yields hkept)
    | ctrlUnderscore => exact hgo (undo_yields hkept)
    | resize => exact hgo (yields_ok hkept)

theorem searchStep_yields (h : EditorInv history.length e) (hs : SearchInv history.length s)
    (event : KeyEvent) (hkey : Mode.Handles (.searching s) event.key) :
    Yields (Reading.Inv history.length) (searchStep history outSize e s event) := by
  obtain ⟨key, needsMore, candidates⟩ := event
  have hback {r : Checked Editor} (hr : Yields (EditorInv history.length) r) :
      Yields (Reading.Inv history.length)
        (r.map fun e => .going { editor := e, mode := .editing }) :=
    hr.map fun e h => ⟨h, trivial⟩
  have hsearch {r : Checked Search} (hr : Yields (SearchInv history.length) r) :
      Yields (Reading.Inv history.length)
        (r.map fun s => .going { editor := e, mode := .searching s }) :=
    hr.map fun s hs => ⟨h, hs⟩
  unfold searchStep
  cases key with
  | failed => exact hback (yields_ok h)
  | byte c =>
    obtain ⟨printable, hprint, hplain⟩ := isprint_byte c
    have hcode : Yields (· = printable) (isprint (Key.byte c).code) := ⟨printable, hprint, rfl⟩
    refine hcode.bind fun b hb => ?_
    subst hb
    split
    next hb => exact hsearch (typeQuery_yields hs (hplain hb.1))
    · exact hback (acceptMatch_yields h hs)
  | named name =>
    cases name with
    | resize => exact hsearch (yields_ok hs)
    | ctrlG | esc | ctrlC => exact hback (yields_ok h)
    | enter => exact (acceptMatch_yields h hs).bind fun e h => enterLine_yields outSize h _
    | ctrlR => exact hsearch (searchOlder_yields hs)
    | backspace => exact hsearch (shortenQuery_yields hs)
    | _ => exact absurd hkey (by simp [Mode.Handles])

theorem keyStep_yields (h : session.Inv history.length) {event : KeyEvent}
    (hkey : session.mode.Handles event.key) :
    Yields (Reading.Inv history.length) (keyStep history outSize event session) := by
  obtain ⟨e, mode⟩ := session
  cases mode with
  | editing => exact editStep_yields outSize h.editor event hkey
  | searching s => exact searchStep_yields outSize h.editor h.mode event hkey

theorem keyStep_fault {session : Session} {event : KeyEvent}
    (hkey : ¬ session.mode.Handles event.key) :
    ∃ code, keyStep history outSize event session = .error (.charClass code) := by
  obtain ⟨e, mode⟩ := session
  obtain ⟨key, needsMore, candidates⟩ := event
  cases mode with
  | editing =>
    obtain ⟨name, rfl, hname⟩ : ∃ name, key = .named name ∧ (name = .ctrlG ∨ name = .esc) := by
      rcases not_and_or.mp hkey with hg | he
      · exact ⟨_, not_not.mp hg, Or.inl rfl⟩
      · exact ⟨_, not_not.mp he, Or.inr rfl⟩
    rcases hname with rfl | rfl <;> exact ⟨_, rfl⟩
  | searching s =>
    cases key with
    | failed | byte c => exact absurd trivial hkey
    | named name =>
      have hname : name ∉ [.resize, .ctrlG, .esc, .ctrlC, .enter, .ctrlR, .backspace] := hkey
      refine ⟨name.code, ?_⟩
      cases name <;> first | rfl | exact absurd hname (by decide)

/-! ## 9. Runs -/

structure InBounds (e : Editor) : Prop where
  cursor : e.cursor ≤ e.length
  length : e.length < arkshMaxLine
  firstNul : FirstNul e.line e.length
  multiLen : e.multiLen < arkshMaxOutput
  undoCursor : e.undoCursor ≤ e.undoLength
  undoLength : e.undoLength < arkshMaxLine
  undoNul : e.undoValid = true → FirstNul e.undoLine e.undoLength

/-- At every point of the run nothing has gone wrong, and the bounds hold. -/
def EditorLaw (history : List HistoryEntry) (events : List KeyEvent) (session : Session) : Prop :=
  ∀ keys, keys <+: events →
    Yields (fun r => ∀ s, r = .going s → InBounds s.editor) (readKeys history outSize keys session)

/-- No key of the run is given to `isprint` with a code of its own. -/
def KeysHandled (history : List HistoryEntry) : List KeyEvent → Session → Prop
  | [], _ => True
  | event :: events, session =>
    session.mode.Handles event.key ∧
      ∀ next, keyStep history outSize event session = .ok (.going next) →
        KeysHandled history events next

theorem EditorInv.inBounds (h : EditorInv count e) : InBounds e := by
  obtain ⟨t, ht, hlen⟩ := h.line
  obtain ⟨m, hm, hmulti⟩ := h.multi
  exact
    { cursor := h.cursor
      length := hlen ▸ ht.length_lt
      firstNul := hlen ▸ ht.firstNul
      multiLen := hmulti ▸ hm.length_lt
      undoCursor := h.undoCursor
      undoLength := h.undoLength
      undoNul := fun hvalid => by
        obtain ⟨u, hu, hundo⟩ := h.undoLine hvalid
        exact hundo ▸ hu.firstNul }

/-- **Whatever the keys, the bounds hold up to the first one that reaches `isprint`.** -/
theorem readKeys_yields (h : session.Inv history.length)
    (hkeys : KeysHandled outSize history events session) :
    Yields (Reading.Inv history.length) (readKeys history outSize events session) := by
  induction events generalizing session with
  | nil => exact yields_ok h
  | cons event events ih =>
    obtain ⟨r, hstep, hr⟩ := keyStep_yields outSize h hkeys.1
    unfold readKeys
    rw [hstep]
    cases r with
    | going next => exact ih hr (hkeys.2 next hstep)
    | returned status out => exact yields_ok trivial

theorem keysHandled_take {keys rest : List KeyEvent}
    (h : KeysHandled outSize history (keys ++ rest) session) :
    KeysHandled outSize history keys session := by
  induction keys generalizing session with
  | nil => trivial
  | cons event keys ih => exact ⟨h.1, fun next hnext => ih (h.2 next hnext)⟩

theorem keysHandled_of_yields (h : Yields (fun _ => True) (readKeys history outSize events session)) :
    KeysHandled outSize history events session := by
  induction events generalizing session with
  | nil => trivial
  | cons event events ih =>
    obtain ⟨r, hrun, _⟩ := h
    unfold readKeys at hrun
    refine ⟨?_, fun next hnext => ?_⟩
    · by_contra hkey
      obtain ⟨code, hfault⟩ := @keyStep_fault history outSize _ _ hkey
      rw [hfault] at hrun
      cases hrun
    · rw [hnext] at hrun; exact ih ⟨r, hrun, trivial⟩

theorem editorLaw_iff_of_inv (h : session.Inv history.length) :
    EditorLaw outSize history events session ↔ KeysHandled outSize history events session := by
  constructor
  · intro hlaw
    exact keysHandled_of_yields outSize ((hlaw events (prefix_refl _)).mono fun _ _ => trivial)
  · rintro hkeys keys ⟨rest, rfl⟩
    refine (readKeys_yields outSize h (keysHandled_take outSize hkeys)).mono ?_
    rintro r hr next rfl
    exact hr.editor.inBounds

theorem terminated_holds (b : Buffer size) (hsize : 0 < size) : Holds (terminated b) [] := by
  obtain ⟨b', hb', hholds⟩ := holds_write (b := b) (s := []) (u := [nul]) not_mem_nil rfl hsize
  unfold terminated
  rw [hb', getD_some]
  exact hholds

theorem startReading_inv (frame : Editor)
    (killBuf : {b : Buffer arkshMaxLine // ∃ k, Holds b k}) :
    (startReading history frame killBuf).Inv history.length where
  editor :=
    { line := ⟨[], terminated_holds _ (by decide), rfl⟩
      cursor := le_refl 0
      historyIndex := le_refl _
      scratch := ⟨[], terminated_holds _ (by decide)⟩
      multi := ⟨[], terminated_holds _ (by decide), rfl⟩
      undoLine := fun hvalid => by cases hvalid
      undoCursor := le_refl 0
      undoLength := by simp only [startReading]; decide
      killBuf := killBuf.2 }
  mode := trivial

/-- **The bounds hold all along a run iff `^G` and ESC are pressed in the search only, and there no
    other named key than those of the search.** -/
theorem editorLaw_iff (history : List HistoryEntry) (events : List KeyEvent) (frame : Editor)
    (killBuf : {b : Buffer arkshMaxLine // ∃ k, Holds b k}) :
    EditorLaw outSize history events (startReading history frame killBuf) ↔
      KeysHandled outSize history events (startReading history frame killBuf) :=
  editorLaw_iff_of_inv outSize (startReading_inv frame killBuf)

end Reading

def zeros (size : Nat) : Buffer size := ⟨List.replicate size nul, List.length_replicate⟩

theorem zeros_holds (hsize : 0 < size) : Holds (zeros size) [] := by
  obtain ⟨n, rfl⟩ := exists_eq_succ_of_ne_zero hsize.ne'
  exact ⟨not_mem_nil, ⟨List.replicate n nul, rfl⟩⟩

def zeroFrame : Editor where
  line := zeros arkshMaxLine
  length := 0
  cursor := 0
  historyIndex := 0
  historyScratch := zeros arkshMaxLine
  multi := zeros arkshMaxOutput
  multiLen := 0
  inContinuation := false
  undoLine := zeros arkshMaxLine
  undoLength := 0
  undoCursor := 0
  undoValid := false
  lastTab := false
  killBuf := zeros arkshMaxLine

/-- **`^G` at the prompt: `isprint` is called with 1012.** -/
theorem not_editorLaw_ctrlG : ¬ EditorLaw arkshMaxOutput [] [{ key := .named .ctrlG }]
        (startReading [] zeroFrame ⟨zeros arkshMaxLine, [], zeros_holds (by decide)⟩) := by
  intro hlaw
  obtain ⟨r, hrun, _⟩ := hlaw _ (prefix_refl _)
  cases hrun

end Arksh
