/-
  Subject: The history of the shell, `src/shell.c`: what becomes of a line that is added to it, and
           the file that it is kept in.
-/
import Arksh.Lib.BoundedLog
import Arksh.Shell.FileLines

namespace Arksh

open CText List Bool

/-! ## 1. The code -/

def arkshMaxHistory : Nat := 256

def isLineBreak (c : Char) : Bool := c = '\n' || c = '\r'

def blankBehind (normalized : Text) : Text :=
  if normalized ≠ [] ∧ normalized.getLast? ≠ some ' ' then normalized ++ [' '] else normalized

/-- The loop of `normalize_history_entry`: what is written to a buffer of 2048 bytes. -/
def normalizeLoop (normalized : Text) : Text → Text
  | [] => normalized
  | c :: text =>
    if normalized.length + 1 < arkshMaxLine then
      if isLineBreak c then
        if (blankBehind normalized).length + 2 ≥ arkshMaxLine then blankBehind normalized
        else normalizeLoop (blankBehind normalized ++ [';', ' ']) (text.dropWhile isLineBreak)
      else normalizeLoop (normalized ++ [c]) text
    else normalized
termination_by text => text.length
decreasing_by
  · have hlength := (List.dropWhile_suffix isLineBreak (l := text)).length_le
    rw [List.length_cons]
    omega
  · simp

def normalizeHistoryEntry (text : Text) : Text := trimCopy arkshMaxLine (normalizeLoop [] text)

/-- What `arksh_shell_history_add` makes of a line. -/
def historyEntry (line : Text) : Text :=
  normalizeHistoryEntry (trimTrailingNewlines (copyString arkshMaxLine line))

structure History where
  entries : List Text
  dirty : Bool
  deriving DecidableEq

def History.empty : History := ⟨[], false⟩

/-- `arksh_shell_history_add`; that there is no memory left is not modelled. -/
def historyAdd (history : History) (line : Text) : History :=
  let entry := historyEntry line
  if isBlankOrCommentLine entry then history
  else if history.entries.getLast? = some entry then history
  else
    ⟨(if history.entries.length ≥ arkshMaxHistory then history.entries.tail else history.entries) ++
      [entry], true⟩

def saveHistory (history : History) (file : Option Text) : Option Text :=
  if history.dirty then some (history.entries.flatMap (· ++ ['\n'])) else file

def loadHistory (file : Option Text) (history : History) : History :=
  match file with
  | none => history
  | some text =>
    let loaded := (fileLines arkshMaxLine [] text).foldl
      (fun history line => historyAdd history (trimTrailingNewlines line.text)) history
    { loaded with dirty := false }

/-! ## 2. Normal form -/

def NoBreaks (text : Text) : Prop := ∀ c ∈ text, isLineBreak c = false

/-- A text that is its own normal form: it fits, has no line break, and nothing is trimmed off
    it. -/
structure IsNormal (text : Text) : Prop where
  fits : text.length < arkshMaxLine
  line : NoBreaks text
  trimmed : trimText text = text

section Normal

variable {normalized text : Text} {c : Char}

theorem NoBreaks.append (hfront : NoBreaks normalized) (hback : NoBreaks text) :
    NoBreaks (normalized ++ text) := by
  intro c hc
  exact (mem_append.mp hc).elim (hfront c) (hback c)

theorem NoBreaks.singleton (h : isLineBreak c = false) : NoBreaks [c] := by
  intro d hd
  rwa [mem_singleton.mp hd]

theorem NoBreaks.blankBehind (h : NoBreaks normalized) : NoBreaks (blankBehind normalized) := by
  unfold Arksh.blankBehind
  split
  · exact h.append (.singleton rfl)
  · exact h

theorem normalizeLoop_written (hfits : normalized.length < arkshMaxLine)
    (hline : NoBreaks normalized) : (normalizeLoop normalized text).length < arkshMaxLine ∧
      NoBreaks (normalizeLoop normalized text) := by
  induction normalized, text using normalizeLoop.induct with
  | case1 normalized => rw [normalizeLoop]; exact ⟨hfits, hline⟩
  | case2 normalized c text hroom hbreak hfull =>
    rw [normalizeLoop, if_pos hroom, if_pos hbreak, if_pos hfull]
    refine ⟨?_, hline.blankBehind⟩
    unfold blankBehind
    split
    · simpa using hroom
    · exact hfits
  | case3 normalized c text hroom hbreak hfull ih =>
    rw [normalizeLoop, if_pos hroom, if_pos hbreak, if_neg hfull]
    refine ih (by simpa using hfull) ?_
    exact hline.blankBehind.append ((NoBreaks.singleton (c := ';') rfl).append (.singleton rfl))
  | case4 normalized c text hroom hbreak ih =>
    rw [normalizeLoop, if_pos hroom, if_neg hbreak]
    exact ih (by simpa using hroom) (hline.append (.singleton (eq_false_iff.mpr hbreak)))
  | case5 normalized c text hroom => rw [normalizeLoop, if_neg hroom]; exact ⟨hfits, hline⟩

theorem normalizeLoop_plain (hfits : normalized.length + text.length < arkshMaxLine)
    (hline : NoBreaks text) : normalizeLoop normalized text = normalized ++ text := by
  induction text generalizing normalized with
  | nil => rw [normalizeLoop, append_nil]
  | cons c text ih =>
    rw [length_cons] at hfits
    have hbreak : ¬ isLineBreak c = true := by rw [hline c mem_cons_self]; exact false_ne_true
    rw [normalizeLoop, if_pos (by omega), if_neg hbreak,
      ih (by simp; omega) fun d hd => hline d (mem_cons_of_mem _ hd), append_assoc]
    rfl

theorem mem_of_mem_trimText (h : c ∈ trimText text) : c ∈ text := by
  have hfront : c ∈ text.dropWhile isspace := (List.rdropWhile_prefix isspace _).subset h
  exact (dropWhile_suffix isspace).subset hfront

theorem normalizeHistoryEntry_normal (text : Text) : IsNormal (normalizeHistoryEntry text) := by
  obtain ⟨hfits, hline⟩ := @normalizeLoop_written [] text (by decide) fun _ hc =>
    absurd hc not_mem_nil
  have htrim : normalizeHistoryEntry text = trimText (normalizeLoop [] text) :=
    copyString_of_lt (Nat.lt_of_le_of_lt (trimText_length_le _) hfits)
  rw [htrim]
  exact ⟨Nat.lt_of_le_of_lt (trimText_length_le _) hfits, fun c hc => hline c (mem_of_mem_trimText hc),
    trimText_trimText _⟩

theorem IsNormal.normalize (h : IsNormal text) : normalizeHistoryEntry text = text := by
  rw [normalizeHistoryEntry, normalizeLoop_plain (by simpa using h.fits) h.line, nil_append,
    trimCopy, h.trimmed, copyString_of_lt h.fits]

theorem IsNormal.trailing (h : IsNormal text) : trimTrailingNewlines text = text := by
  rcases eq_nil_or_concat text with rfl | ⟨front, last, rfl⟩
  · rfl
  · rw [concat_eq_append] at h ⊢
    refine rdropWhile_concat_neg _ _ _ ?_
    have hlast := h.line last (by simp)
    rw [← isLineBreak, hlast]
    exact false_ne_true

theorem IsNormal.entry (h : IsNormal text) : historyEntry text = text := by
  rw [historyEntry, copyString_of_lt h.fits, h.trailing, h.normalize]

theorem isNormal_nil : IsNormal [] := ⟨by decide, fun _ hc => absurd hc not_mem_nil, rfl⟩

end Normal

/-! ## 3. Lines in one line -/

/-- A line behind others: it is set off by a semicolon, with a blank in front if there is none. -/
def withLine (shown line : Text) : Text :=
  (if shown = [] ∨ shown.getLast? = some ' ' then shown else shown ++ [' ']) ++ [';', ' '] ++ line

def shownFrom (shown : Text) : List Text → Text
  | [] => shown
  | first :: lines => (lines.filter (· ≠ [])).foldl withLine (shown ++ first)

/-- The lines of a text in one line. -/
def shownText (text : Text) : Text := shownFrom [] (text.splitOnP isLineBreak)

section Shown

variable {shown text : Text} {c : Char}

theorem blankBehind_line (shown line : Text) :
    blankBehind shown ++ [';', ' '] ++ line = withLine shown line := by
  rw [blankBehind, withLine]
  by_cases h : shown = [] ∨ shown.getLast? = some ' '
  · rw [if_pos h, if_neg (by tauto)]
  · rw [if_neg h, if_pos (by tauto)]

theorem length_le_withLine (lines : List Text) (shown : Text) :
    shown.length ≤ (lines.foldl withLine shown).length := by
  induction lines generalizing shown with
  | nil => exact Nat.le_refl _
  | cons line lines ih =>
    refine Nat.le_trans ?_ (ih _)
    unfold withLine
    split_ifs <;> simp

theorem shownFrom_char (hbreak : isLineBreak c = false) :
    shownFrom shown ((c :: text).splitOnP isLineBreak) =
      shownFrom (shown ++ [c]) (text.splitOnP isLineBreak) := by
  obtain ⟨first, lines, hlines⟩ := exists_cons_of_ne_nil (splitOnP_ne_nil isLineBreak text)
  rw [splitOnP_cons_eq_if_modifyHead, if_neg (by rw [hbreak]; decide), hlines, modifyHead_cons,
    shownFrom, shownFrom, append_assoc]
  rfl

theorem filter_splitOnP_dropWhile (text : Text) :
    (text.splitOnP isLineBreak).filter (· ≠ []) =
      ((text.dropWhile isLineBreak).splitOnP isLineBreak).filter (· ≠ []) := by
  induction text with
  | nil => rfl
  | cons c text ih =>
    cases hbreak : isLineBreak c with
    | true =>
      rw [dropWhile_cons_of_pos hbreak, ← ih, splitOnP_cons_eq_if_modifyHead, if_pos hbreak]
      rfl
    | false => rw [dropWhile_cons_of_neg (by rw [hbreak]; decide)]

/-- A run of line breaks with a line behind it. -/
theorem shownFrom_break (hbreak : isLineBreak c = true) (hrest : text.dropWhile isLineBreak ≠ []) :
    shownFrom shown ((c :: text).splitOnP isLineBreak) =
      shownFrom (blankBehind shown ++ [';', ' '])
        ((text.dropWhile isLineBreak).splitOnP isLineBreak) := by
  rw [splitOnP_cons_eq_if_modifyHead, if_pos hbreak, shownFrom, append_nil, filter_splitOnP_dropWhile]
  have hnext := head_dropWhile_not isLineBreak hrest
  generalize text.dropWhile isLineBreak = rest at *
  obtain ⟨d, rest, rfl⟩ := exists_cons_of_ne_nil hrest
  obtain ⟨first, lines, hlines⟩ := exists_cons_of_ne_nil (splitOnP_ne_nil isLineBreak rest)
  have hchar : ¬ isLineBreak d = true := eq_false_iff.mp hnext
  rw [splitOnP_cons_eq_if_modifyHead, if_neg hchar, hlines, modifyHead_cons,
    shownFrom, filter_cons_of_pos (by simp), foldl_cons, blankBehind_line]

theorem length_le_shownFrom (shown : Text) (lines : List Text) :
    shown.length ≤ (shownFrom shown lines).length := by
  cases lines with
  | nil => exact Nat.le_refl _
  | cons first lines => exact Nat.le_trans (by simp) (length_le_withLine _ (shown ++ first))

theorem length_blankBehind (shown : Text) : shown.length ≤ (blankBehind shown).length := by
  unfold blankBehind
  split <;> simp

theorem normalizeLoop_shown (hlast : ∀ c ∈ text.getLast?, isLineBreak c = false)
    (hfits : (shownFrom shown (text.splitOnP isLineBreak)).length < arkshMaxLine) :
    normalizeLoop shown text = shownFrom shown (text.splitOnP isLineBreak) := by
  have hrest : ∀ c text, isLineBreak c = true →
      (∀ d ∈ (c :: text).getLast?, isLineBreak d = false) → text.dropWhile isLineBreak ≠ [] := by
    intro c text hbreak hlast hnil
    have hmem := getLast_mem (cons_ne_nil c text)
    have hend := hlast _ (getLast?_eq_some_getLast (cons_ne_nil c text))
    have hall := dropWhile_eq_nil_iff.mp hnil
    rcases mem_cons.mp hmem with heq | hmem
    · rw [heq, hbreak] at hend; cases hend
    · rw [hall _ hmem] at hend; cases hend
  induction shown, text using normalizeLoop.induct with
  | case1 shown => rw [normalizeLoop, splitOnP_nil, shownFrom, append_nil]; rfl
  | case2 shown c text hroom hbreak hfull =>
    rw [shownFrom_break hbreak (hrest c text hbreak hlast)] at hfits
    have hle := length_le_shownFrom (blankBehind shown ++ [';', ' '])
      ((text.dropWhile isLineBreak).splitOnP isLineBreak)
    rw [length_append] at hle
    exact absurd hfits (Nat.not_lt.mpr (Nat.le_trans hfull hle))
  | case3 shown c text hroom hbreak hfull ih =>
    have hne := hrest c text hbreak hlast
    rw [shownFrom_break hbreak hne] at hfits ⊢
    rw [normalizeLoop, if_pos hroom, if_pos hbreak, if_neg hfull]
    refine ih (fun d hd => hlast d ?_) hfits
    have hsuffix : text.dropWhile isLineBreak <:+ c :: text :=
      (dropWhile_suffix isLineBreak).trans (suffix_cons c text)
    obtain ⟨front, heq⟩ := hsuffix
    rw [← heq, getLast?_append_of_ne_nil _ hne]
    exact hd
  | case4 shown c text hroom hbreak ih =>
    have hchar := eq_false_iff.mpr hbreak
    rw [shownFrom_char hchar] at hfits ⊢
    rw [normalizeLoop, if_pos hroom, if_neg hbreak]
    refine ih (fun d hd => hlast d ?_) hfits
    cases text with
    | nil => cases hd
    | cons e text => rwa [getLast?_cons_cons]
  | case5 shown c text hroom =>
    cases hbreak : isLineBreak c with
    | true =>
      rw [shownFrom_break hbreak (hrest c text hbreak hlast)] at hfits
      have hle := length_le_shownFrom (blankBehind shown ++ [';', ' '])
        ((text.dropWhile isLineBreak).splitOnP isLineBreak)
      have hblank := length_blankBehind shown
      rw [length_append, length_cons] at hle
      omega
    | false =>
      rw [shownFrom_char hbreak] at hfits
      have hle := length_le_shownFrom (shown ++ [c]) (text.splitOnP isLineBreak)
      rw [length_append, length_singleton] at hle
      omega

theorem shownText_trailing (text : Text) : shownText (trimTrailingNewlines text) = shownText text := by
  induction text using reverseRecOn with
  | nil => rfl
  | append_singleton text c ih =>
    cases hbreak : isLineBreak c with
    | true =>
      have hsplit : (text ++ [c]).splitOnP isLineBreak = text.splitOnP isLineBreak ++ [[]] := by
        rw [splitOnP_append_cons text [] hbreak, splitOnP_nil]
      have htrim : trimTrailingNewlines (text ++ [c]) = trimTrailingNewlines text :=
        rdropWhile_concat_pos _ _ _ hbreak
      obtain ⟨first, lines, hlines⟩ := exists_cons_of_ne_nil (splitOnP_ne_nil isLineBreak text)
      rw [htrim, ih, shownText, shownText, hsplit, hlines, cons_append, shownFrom, shownFrom,
        filter_append]
      simp
    | false =>
      have htrim : trimTrailingNewlines (text ++ [c]) = text ++ [c] :=
        rdropWhile_concat_neg _ _ _ (by rw [← isLineBreak, hbreak]; decide)
      rw [htrim]

/-- **What is kept of a line**: all of it, in one line and trimmed. -/
theorem historyEntry_shown {line : Text} (hline : line.length < arkshMaxLine)
    (hfits : (shownText line).length < arkshMaxLine) : historyEntry line = trimText (shownText line) := by
  have hlast : ∀ c ∈ (trimTrailingNewlines line).getLast?, isLineBreak c = false := by
    intro c hc
    have hne : trimTrailingNewlines line ≠ [] := by rintro hnil; rw [hnil] at hc; cases hc
    rw [Option.mem_def, getLast?_eq_some_getLast hne] at hc
    cases hc
    exact eq_false_iff.mpr (rdropWhile_last_not _ line hne)
  rw [← shownText_trailing] at hfits ⊢
  rw [historyEntry, copyString_of_lt hline, normalizeHistoryEntry, normalizeLoop_shown hlast hfits]
  exact copyString_of_lt (Nat.lt_of_le_of_lt (trimText_length_le _) hfits)

/-- What is trimmed starts with no blank. -/
theorem isBlankOrCommentLine_trimmed (h : trimText text = text) :
    isBlankOrCommentLine text = true ↔ text = [] ∨ text.head? = some '#' := by
  have hdrop : text.dropWhile isspace = text := by
    cases text with
    | nil => rfl
    | cons c text =>
      have hfirst := dropWhile_head? (@trimText_head? (c :: text) c (by rw [h]; rfl))
      exact dropWhile_cons_of_neg (by rw [hfirst]; decide)
  rw [isBlankOrCommentLine, hdrop]
  cases text with
  | nil => exact iff_of_true rfl (.inl rfl)
  | cons c text => simp

end Shown

/-! ## 4. What the history holds -/

def historyLines (lines : List Text) : List Text :=
  (lines.map historyEntry).filter fun entry => !isBlankOrCommentLine entry

/-- The history after a sequence of additions. -/
def recorded (lines : List Text) : History := lines.foldl historyAdd History.empty

section Recorded

variable {history : History} {line entry : Text} {lines : List Text}

theorem historyAdd_blank (h : isBlankOrCommentLine (historyEntry line) = true) :
    historyAdd history line = history := if_pos h

theorem historyAdd_push (h : isBlankOrCommentLine (historyEntry line) = false) :
    (historyAdd history line).entries =
        BoundedLog.push arkshMaxHistory history.entries (historyEntry line) ∧
      (historyAdd history line = history ∨ (historyAdd history line).dirty = true) := by
  have hkept : ¬ isBlankOrCommentLine (historyEntry line) = true := eq_false_iff.mp h
  unfold historyAdd BoundedLog.push
  rw [if_neg hkept]
  split
  · exact ⟨rfl, .inl rfl⟩
  · exact ⟨rfl, .inr rfl⟩

def History.Marked (history : History) : Prop := history.entries ≠ [] → history.dirty = true

theorem History.Marked.add (h : history.Marked) (line : Text) : (historyAdd history line).Marked := by
  cases hblank : isBlankOrCommentLine (historyEntry line) with
  | true => rwa [historyAdd_blank hblank]
  | false =>
    rcases (historyAdd_push hblank).2 with hsame | hdirty
    · rwa [hsame]
    · exact fun _ => hdirty

section

variable (lines : List Text)

theorem foldl_historyAdd_entries (history : History) :
    (lines.foldl historyAdd history).entries =
      (historyLines lines).foldl (BoundedLog.push arkshMaxHistory) history.entries := by
  induction lines generalizing history with
  | nil => rfl
  | cons line lines ih =>
    rw [foldl_cons, ih, historyLines, historyLines, map_cons]
    cases hblank : isBlankOrCommentLine (historyEntry line) with
    | true => rw [historyAdd_blank hblank, filter_cons_of_neg (by rw [hblank]; decide)]
    | false =>
      rw [(historyAdd_push hblank).1, filter_cons_of_pos (by rw [hblank]; decide),
        foldl_cons]

/-- **The entries are the last ones, without repetitions.** -/
theorem recorded_entries :
    (recorded lines).entries = BoundedLog.kept arkshMaxHistory (historyLines lines) :=
  (foldl_historyAdd_entries lines History.empty).trans (BoundedLog.push_foldl (by decide) _)

theorem recorded_marked : (recorded lines).Marked := by
  have hfrom : ∀ history : History, history.Marked → (lines.foldl historyAdd history).Marked := by
    induction lines with
    | nil => exact fun _ h => h
    | cons line lines ih => exact fun history h => ih _ (h.add line)
  exact hfrom _ fun hne => absurd rfl hne

end

structure IsEntry (entry : Text) : Prop where
  normal : IsNormal entry
  shown : isBlankOrCommentLine entry = false

theorem historyLines_isEntry (h : entry ∈ historyLines lines) : IsEntry entry := by
  obtain ⟨hmem, hshown⟩ := mem_filter.mp h
  obtain ⟨line, -, rfl⟩ := mem_map.mp hmem
  exact ⟨normalizeHistoryEntry_normal _, by simpa using hshown⟩

theorem recorded_isEntry (h : entry ∈ (recorded lines).entries) : IsEntry entry := by
  rw [recorded_entries] at h
  have hsub : (BoundedLog.kept arkshMaxHistory (historyLines lines)).Sublist (historyLines lines) :=
    (drop_sublist _ _).trans (destutter_sublist _ _)
  exact historyLines_isEntry (hsub.subset h)

end Recorded

/-! ## 5. The file -/

section File

variable {entry : Text} {entries : List Text} {history : History}

theorem IsNormal.newline (h : IsNormal entry) : '\n' ∉ entry := by
  intro hmem
  exact false_ne_true ((h.line '\n' hmem).symm.trans rfl)

/-- The line of an entry is added as the entry. One that fills the buffer comes without its
    newline, which is read as a blank line. -/
theorem IsEntry.load (h : IsEntry entry) (history : History) :
    (fileLines arkshMaxLine [] (entry ++ ['\n'])).foldl
        (fun history line => historyAdd history (trimTrailingNewlines line.text)) history =
      historyAdd history entry := by
  have htrim : trimTrailingNewlines (entry ++ ['\n']) = entry :=
    (rdropWhile_concat_pos _ _ _ rfl).trans h.normal.trailing
  by_cases hroom : entry.length + 1 < arkshMaxLine
  · rw [(fileLines_fits (by simpa using hroom) h.normal.newline).1, foldl_cons, foldl_nil]
    show historyAdd history (trimTrailingNewlines (entry ++ ['\n'])) = _
    rw [htrim]
  · have hfits := h.normal.fits
    have hne : entry ≠ [] := by rintro rfl; exact hroom (by decide)
    have hblank : fileLines arkshMaxLine [] ['\n'] = [⟨['\n'], false⟩] := by decide
    rw [fileLines_full (by simp; omega) hne h.normal.newline, hblank, foldl_cons,
      foldl_cons, foldl_nil]
    show historyAdd (historyAdd history (trimTrailingNewlines entry)) (trimTrailingNewlines ['\n']) = _
    have hnil : historyEntry (trimTrailingNewlines ['\n']) = [] := isNormal_nil.entry
    rw [h.normal.trailing]
    exact historyAdd_blank (by rw [hnil]; rfl)

theorem load_entries (h : ∀ entry ∈ entries, IsEntry entry) (history : History) :
    (fileLines arkshMaxLine [] (entries.flatMap (· ++ ['\n']))).foldl
        (fun history line => historyAdd history (trimTrailingNewlines line.text)) history =
      entries.foldl historyAdd history := by
  induction entries generalizing history with
  | nil => rfl
  | cons entry entries ih =>
    have hentry := h entry mem_cons_self
    rw [flatMap_cons, append_assoc, singleton_append,
      fileLines_newline hentry.normal.newline, foldl_append, hentry.load,
      ih fun e he => h e (mem_cons_of_mem _ he), foldl_cons]

theorem historyLines_self (h : ∀ entry ∈ entries, IsEntry entry) :
    historyLines entries = entries := by
  have hmap : entries.map historyEntry = entries := by
    conv_rhs => rw [← map_id entries]
    exact map_congr_left fun entry hentry => (h entry hentry).normal.entry
  rw [historyLines, hmap]
  exact filter_eq_self.mpr fun entry hentry => by rw [(h entry hentry).shown]; rfl

/-- **The history comes back from its file.** -/
theorem load_recorded (lines : List Text) :
    (loadHistory (some ((recorded lines).entries.flatMap (· ++ ['\n']))) History.empty).entries =
      (recorded lines).entries := by
  have hentries : ∀ entry ∈ (recorded lines).entries, IsEntry entry := fun _ h => recorded_isEntry h
  show (List.foldl _ History.empty (fileLines arkshMaxLine [] _)).entries = _
  rw [load_entries hentries, foldl_historyAdd_entries, historyLines_self hentries, recorded_entries]
  exact BoundedLog.push_foldl_self (by decide) _

end File

/-! ## 6. The store -/

structure HistoryLaw (lines : List Text) : Prop where
  /-- It holds the last 256 of the entries that are not repetitions. -/
  holds : (recorded lines).entries = ((historyLines lines).destutter (· ≠ ·)).rtake 256
  /-- A line that fits is kept as one line, with the blanks around it trimmed. -/
  kept : ∀ line, line.length < arkshMaxLine → (shownText line).length < arkshMaxLine →
    historyEntry line = trimText (shownText line)
  /-- What is dropped is empty or a comment. -/
  dropped : ∀ line, isBlankOrCommentLine (historyEntry line) = true ↔
    historyEntry line = [] ∨ (historyEntry line).head? = some '#'
  /-- An entry is the normal form of itself. -/
  normal : ∀ text, normalizeHistoryEntry (normalizeHistoryEntry text) = normalizeHistoryEntry text
  /-- A normal form is one line. -/
  oneLine : ∀ text, '\n' ∉ normalizeHistoryEntry text ∧ '\r' ∉ normalizeHistoryEntry text
  /-- What is saved where no file was is loaded as it was. -/
  fresh : (loadHistory (saveHistory (recorded lines) none) History.empty).entries =
    (recorded lines).entries
  /-- So it is where there was a file, if there is an entry to save. -/
  existing : ∀ file, (recorded lines).entries ≠ [] →
    (loadHistory (saveHistory (recorded lines) file) History.empty).entries =
      (recorded lines).entries

/-- **The store keeps its promises for every sequence.** -/
theorem historyStore (lines : List Text) : HistoryLaw lines := by
  have hdirty : ∀ file, (recorded lines).entries ≠ [] →
      (loadHistory (saveHistory (recorded lines) file) History.empty).entries =
        (recorded lines).entries := by
    intro file hne
    rw [saveHistory, if_pos (recorded_marked lines hne)]
    exact load_recorded lines
  have hbreak : ∀ c, isLineBreak c = true → ∀ text, c ∉ normalizeHistoryEntry text := by
    intro c hc text hmem
    exact false_ne_true (((normalizeHistoryEntry_normal text).line c hmem).symm.trans hc)
  refine ⟨recorded_entries lines, fun line => historyEntry_shown,
    fun line => isBlankOrCommentLine_trimmed (normalizeHistoryEntry_normal _).trimmed,
    fun text => (normalizeHistoryEntry_normal text).normalize,
    fun text => ⟨hbreak _ rfl text, hbreak _ rfl text⟩, ?_, hdirty⟩
  by_cases hempty : (recorded lines).entries = []
  · rw [hempty, saveHistory]
    split
    · rw [hempty]; rfl
    · rfl
  · exact hdirty none hempty

theorem historyStore_twoLines :
    (recorded ["# x".toList, "ls \r\n cd\n".toList]).entries = ["ls ;  cd".toList] := by
  have hlaw := historyStore ["# x".toList, "ls \r\n cd\n".toList]
  have hcomment := hlaw.kept "# x".toList (by decide) (by decide)
  have hlines := hlaw.kept "ls \r\n cd\n".toList (by decide) (by decide)
  have hentries : historyLines ["# x".toList, "ls \r\n cd\n".toList] = ["ls ;  cd".toList] := by
    rw [historyLines, map_cons, map_singleton, hcomment, hlines]
    decide
  rw [hlaw.holds, hentries]
  rfl

end Arksh
