/-
  Subject: `arksh_shell_source_file` on a file that is a sequence of complete commands.

  As long as a command can be read, the buffer holds its text without the lines that may be left
  out. Where a line of a here-document is left out, what is handed over goes on with a line that
  is neither blank nor a comment, where the blank line should stand.
-/
import Arksh.Shell.Script

namespace Arksh

open CText Cuts List

/-! ## 1. Steps of the reader -/

section Steps

variable {σ : Type} {host : SourceHost σ} {size : Nat} {s : SourceState σ} {line : FileLine}
  {handed : List Text} {buffer : Text}

def SourceStops (x : Except (SourceStop × SourceState σ) (SourceState σ)) (byCommand : Bool)
    (handed : List Text) : Prop :=
  ∃ stop s', x = .error (stop, s') ∧ stop.byCommand = byCommand ∧ s'.handed = handed

def SourceGoesOn (x : Except (SourceStop × SourceState σ) (SourceState σ)) (buffer : Text)
    (pending : Bool) (handed : List Text) : Prop :=
  ∃ s', x = .ok s' ∧ s'.commandBuffer = buffer ∧ s'.pendingHeredoc = pending ∧ s'.handed = handed

def CommandGrows (host : SourceHost σ) (s : SourceState σ)
    (x : Except (SourceStop × SourceState σ) (SourceState σ)) (command : Text) : Prop :=
  match commandRequiresMoreInput command with
  | .more message => SourceGoesOn x command (parseErrorIsUnterminatedHeredoc message) s.handed
  | .refused _ => SourceStops x false s.handed
  | .complete =>
    SourceStops x true (s.handed ++ [command]) ∧
        (∃ shell, (host.execute command shell).1 ≠ (0, [])) ∨
      SourceGoesOn x [] false (s.handed ++ [command])

theorem sourceCommand_cases (s : SourceState σ) :
    SourceStops (sourceCommand host size s) true (s.handed ++ [s.commandBuffer]) ∧
        (∃ shell, (host.execute s.commandBuffer shell).1 ≠ (0, [])) ∨
      SourceGoesOn (sourceCommand host size s) [] s.pendingHeredoc
        (s.handed ++ [s.commandBuffer]) := by
  unfold sourceCommand
  generalize hrun : host.execute s.commandBuffer (host.enterLine s.commandStartLine s.shell) = run
  obtain ⟨⟨status, output⟩, shell⟩ := run
  dsimp only
  split
  next hstatus =>
    refine .inl ⟨⟨_, _, rfl, rfl, rfl⟩, host.enterLine s.commandStartLine s.shell, ?_⟩
    rw [hrun]
    exact fun heq => hstatus (congrArg Prod.fst heq)
  · split
    next hout =>
      refine .inl ⟨⟨_, _, rfl, rfl, rfl⟩, host.enterLine s.commandStartLine s.shell, ?_⟩
      rw [hrun]
      intro heq
      have hnil : output = [] := congrArg Prod.snd heq
      rw [hnil] at hout
      cases hout
    · exact .inr ⟨_, rfl, rfl, rfl, rfl⟩

variable (host size) in
theorem sourceFragment_grows {command : Text}
    (h : appendCommandFragment s.commandBuffer line.text = some command) :
    CommandGrows host s (sourceFragment host size s line) command := by
  unfold CommandGrows sourceFragment
  rw [h]
  dsimp only
  cases hinput : commandRequiresMoreInput command with
  | more message => exact ⟨_, rfl, rfl, rfl, rfl⟩
  | refused message => exact ⟨_, _, rfl, rfl, rfl⟩
  | complete => exact sourceCommand_cases _

theorem sourceFragment_tooLarge (h : appendCommandFragment s.commandBuffer line.text = none) :
    SourceStops (sourceFragment host size s line) false s.handed := by
  unfold sourceFragment
  rw [h]
  exact ⟨_, _, rfl, rfl, rfl⟩

theorem sourceStep_cut (h : ¬ line.Whole) :
    SourceStops (sourceStep host size s line) false s.handed := by
  rw [FileLine.whole_iff, not_not] at h
  rw [sourceStep, if_pos h]
  exact ⟨_, _, rfl, rfl, rfl⟩

variable (host size) in
theorem sourceStep_blank (hwhole : line.Whole) (hblank : line.isBlank = true)
    (h : s.commandBuffer = [] ∨ s.pendingHeredoc = false) :
    SourceGoesOn (sourceStep host size s line) s.commandBuffer s.pendingHeredoc s.handed := by
  unfold FileLine.isBlank at hblank
  unfold sourceStep
  rw [if_neg (FileLine.whole_iff.mp hwhole)]
  dsimp only
  by_cases hbuffer : s.commandBuffer = []
  · rw [if_pos ⟨hbuffer, hblank⟩]; exact ⟨_, rfl, rfl, rfl, rfl⟩
  · rw [if_neg fun hand => hbuffer hand.1, if_pos ⟨by simp [h.resolve_left hbuffer], hblank⟩]
    exact ⟨_, rfl, rfl, rfl, rfl⟩

variable (host size) in
/-- Any other line, and a blank or comment line behind the message of an unterminated document, is
    of a command. -/
theorem sourceStep_fragment (hwhole : line.Whole)
    (h : line.isBlank = true → s.commandBuffer ≠ [] ∧ s.pendingHeredoc = true) :
    ∃ s₁ : SourceState σ, s₁.commandBuffer = s.commandBuffer ∧ s₁.handed = s.handed ∧
      sourceStep host size s line = sourceFragment host size s₁ line := by
  let start := if s.commandBuffer = [] then s.lineNumber + 1 else s.commandStartLine
  refine ⟨{ s with lineNumber := s.lineNumber + 1, commandStartLine := start }, rfl, rfl, ?_⟩
  unfold sourceStep
  rw [if_neg (FileLine.whole_iff.mp hwhole)]
  dsimp only
  rw [if_neg fun hand => (h hand.2).1 hand.1, if_neg fun hand => hand.1 (h hand.2).2]

theorem sourceLoop_stops (lines : List FileLine) {byCommand : Bool}
    (h : SourceStops (sourceStep host size s line) byCommand handed) :
    ∃ stop s', sourceLoop host size s (line :: lines) = (some stop, s') ∧
      stop.byCommand = byCommand ∧ s'.handed = handed := by
  obtain ⟨stop, s', hstep, hstop, hhanded⟩ := h
  refine ⟨stop, s', ?_, hstop, hhanded⟩
  rw [sourceLoop, foldlM_cons, hstep]
  rfl

theorem sourceLoop_goesOn (lines : List FileLine) {pending : Bool}
    (h : SourceGoesOn (sourceStep host size s line) buffer pending handed) :
    ∃ s', sourceLoop host size s (line :: lines) = sourceLoop host size s' lines ∧
      s'.commandBuffer = buffer ∧ s'.pendingHeredoc = pending ∧ s'.handed = handed := by
  obtain ⟨s', hstep, hbuffer, hpending, hhanded⟩ := h
  refine ⟨s', ?_, hbuffer, hpending, hhanded⟩
  rw [sourceLoop, foldlM_cons, hstep]
  rfl

theorem sourceLoop_nil (s : SourceState σ) : (sourceLoop host size s []).2 = s ∧
      (sourceLoop host size s []).1.any SourceStop.byCommand = false := by
  show (sourceEnd s).2 = s ∧ (sourceEnd s).1.any SourceStop.byCommand = false
  unfold sourceEnd
  split <;> exact ⟨rfl, rfl⟩

theorem appendCommandFragment_eq (hline : line.text.length < arkshMaxLine) :
    appendCommandFragment buffer line.text = if buffer = [] then some line.content else
        if buffer.length + 1 + line.content.length < arkshMaxOutput then
          some (buffer ++ '\n' :: line.content) else none := by
  have hcontent : line.content.length ≤ line.text.length := (List.rdropWhile_prefix _ _).length_le
  have hlt : line.content.length < arkshMaxOutput := hcontent.trans_lt (hline.trans (by decide))
  unfold appendCommandFragment
  rw [copyString_of_lt hline]
  show (if buffer = [] then some buffer else appendText arkshMaxOutput buffer ['\n']).bind
    (appendText arkshMaxOutput · line.content) = _
  split
  next hnil => rw [hnil]; exact appendText_eq_some.mpr ⟨by simpa using hlt, rfl⟩
  · split
    next hfits =>
      rw [appendText_eq_some.mpr ⟨by simp; omega, rfl⟩]
      refine appendText_eq_some.mpr ⟨by simp; omega, ?_⟩
      rw [append_assoc]
      rfl
    next hfull =>
      cases hnewline : appendText arkshMaxOutput buffer ['\n'] with
      | none => rfl
      | some longer =>
        obtain ⟨-, rfl⟩ := appendText_eq_some.mp hnewline
        cases hall : appendText arkshMaxOutput (buffer ++ ['\n']) line.content with
        | none => exact hall
        | some all =>
          obtain ⟨hlen, -⟩ := appendText_eq_some.mp hall
          simp at hlen
          omega

theorem sourceStep_cases (s : SourceState σ) (line : FileLine) :
    SourceStops (sourceStep host size s line) false s.handed ∨
      (s.commandBuffer = [] ∨ s.pendingHeredoc = false) ∧
        SourceGoesOn (sourceStep host size s line) s.commandBuffer s.pendingHeredoc s.handed ∨
      ∃ command, (line.isBlank = true → s.commandBuffer ≠ [] ∧ s.pendingHeredoc = true) ∧
        appendCommandFragment s.commandBuffer line.text = some command ∧
        CommandGrows host s (sourceStep host size s line) command := by
  by_cases hwhole : line.Whole
  · by_cases hskip : line.isBlank = true ∧ (s.commandBuffer = [] ∨ s.pendingHeredoc = false)
    · exact .inr (.inl ⟨hskip.2, sourceStep_blank host size hwhole hskip.1 hskip.2⟩)
    · have hread : line.isBlank = true → s.commandBuffer ≠ [] ∧ s.pendingHeredoc = true := by
        intro hblank
        have h := not_and.mp hskip hblank
        rw [not_or, Bool.not_eq_false] at h
        exact h
      obtain ⟨s₁, hbuffer, hhanded, heq⟩ := sourceStep_fragment host size hwhole hread
      rw [heq, ← hhanded]
      cases happend : appendCommandFragment s₁.commandBuffer line.text with
      | none => exact .inl (sourceFragment_tooLarge happend)
      | some command =>
        refine .inr (.inr ⟨command, hread, hbuffer ▸ happend, ?_⟩)
        have hgrows := sourceFragment_grows host size happend
        unfold CommandGrows at hgrows ⊢
        rwa [hhanded] at hgrows
  · exact .inl (sourceStep_cut hwhole)

/-- What a line does to the texts handed over: they stay, and the loop stops by a command only where
    one fails. -/
theorem sourceStep_outcome (s : SourceState σ) (line : FileLine) :
    (∃ byCommand handed, s.handed <+: handed ∧
        SourceStops (sourceStep host size s line) byCommand handed ∧
        (byCommand = true → ∃ command shell, (host.execute command shell).1 ≠ (0, []))) ∨
      ∃ buffer pending handed, s.handed <+: handed ∧
        SourceGoesOn (sourceStep host size s line) buffer pending handed := by
  rcases sourceStep_cases s line with hstep | ⟨-, hstep⟩ | ⟨command, -, -, hstep⟩
  · exact .inl ⟨_, _, prefix_refl _, hstep, fun h => by cases h⟩
  · exact .inr ⟨_, _, _, prefix_refl _, hstep⟩
  · unfold CommandGrows at hstep
    split at hstep
    · exact .inr ⟨_, _, _, prefix_refl _, hstep⟩
    · exact .inl ⟨_, _, prefix_refl _, hstep, fun h => by cases h⟩
    · rcases hstep with ⟨hstep, shell, hfails⟩ | hstep
      · exact .inl ⟨_, _, prefix_append _ _, hstep, fun _ => ⟨command, shell, hfails⟩⟩
      · exact .inr ⟨_, _, _, prefix_append _ _, hstep⟩

variable (host size) in
theorem sourceLoop_handed (s : SourceState σ) (lines : List FileLine) :
    s.handed <+: (sourceLoop host size s lines).2.handed := by
  induction lines generalizing s with
  | nil =>
    rw [(sourceLoop_nil s).1]
  | cons line lines ih =>
    rcases sourceStep_outcome s line with ⟨_, _, hle, hstep, -⟩ | ⟨_, _, _, hle, hstep⟩
    · obtain ⟨stop, s', hloop, -, hhanded⟩ := sourceLoop_stops lines hstep
      rw [hloop, hhanded]
      exact hle
    · obtain ⟨s', hloop, -, -, hhanded⟩ := sourceLoop_goesOn lines hstep
      rw [hloop]
      exact hle.trans (hhanded ▸ ih s')

theorem joinTexts_append_ne {texts : List Text} (h : joinTexts texts ≠ []) (others : List Text) :
    joinTexts (texts ++ others) ≠ [] := by
  have hne : texts ≠ [] := by rintro rfl; exact h rfl
  induction others using List.reverseRecOn with
  | nil => rwa [append_nil]
  | append_singleton others t _ => rw [← append_assoc, joinTexts_concat (by simp [hne])]; simp

variable (host size) in
theorem sourceLoop_diverged {base : List Text} (extra : List Text) {lines : List FileLine}
    (hlines : ∀ line ∈ lines, line.Plain ∧ line.text.length < arkshMaxLine)
    (hbase : joinTexts base ≠ []) (hbuffer : s.commandBuffer = joinTexts (base ++ extra))
    (hextra : extra = [] ∧ s.pendingHeredoc = false ∨
      ∃ x others, extra = x :: others ∧ isBlankOrCommentLine x = false)
    (hfree : ∀ t ∈ extra, '\n' ∉ t) : (sourceLoop host size s lines).2.handed = s.handed ∨
      ∃ x others more, isBlankOrCommentLine x = false ∧ (∀ t ∈ x :: others, '\n' ∉ t) ∧
        (sourceLoop host size s lines).2.handed =
          s.handed ++ joinTexts (base ++ x :: others) :: more := by
  induction lines generalizing s extra with
  | nil => exact .inl (by rw [(sourceLoop_nil s).1])
  | cons line lines ih =>
    have hrest : ∀ line ∈ lines, line.Plain ∧ line.text.length < arkshMaxLine :=
      fun l hl => hlines l (List.mem_cons_of_mem _ hl)
    have hline := hlines line List.mem_cons_self
    rcases sourceStep_cases s line with hstep | ⟨-, hstep⟩ | ⟨command, hread, happend, hstep⟩
    · obtain ⟨stop, s', hloop, -, hhanded⟩ := sourceLoop_stops lines hstep
      exact .inl (by rw [hloop]; exact hhanded)
    · obtain ⟨s', hloop, hbuffer', hpending', hhanded⟩ := sourceLoop_goesOn lines hstep
      rw [hloop, ← hhanded]
      exact ih extra hrest (hbuffer'.trans hbuffer) (by rwa [hpending']) hfree
    · have hne : s.commandBuffer ≠ [] := by rw [hbuffer]; exact joinTexts_append_ne hbase _
      have hcommand : command = joinTexts (base ++ (extra ++ [line.content])) := by
        rw [appendCommandFragment_eq hline.2, if_neg hne] at happend
        split at happend
        · cases happend
          rw [hbuffer, ← List.append_assoc, joinTexts_concat]
          intro hnil
          rw [hbuffer, hnil] at hne
          exact hne rfl
        · cases happend
      have hgrown : ∃ x others, extra ++ [line.content] = x :: others ∧
          isBlankOrCommentLine x = false := by
        rcases hextra with ⟨rfl, hpending⟩ | ⟨x, others, rfl, hx⟩
        · refine ⟨line.content, [], rfl, ?_⟩
          rw [FileLine.content, isBlankOrCommentLine_trim]
          by_contra hblank
          rw [Bool.not_eq_false] at hblank
          exact absurd (hpending.symm.trans (hread hblank).2) Bool.false_ne_true
        · exact ⟨x, others ++ [line.content], rfl, hx⟩
      have hfree' : ∀ t ∈ extra ++ [line.content], '\n' ∉ t := by
        intro t ht
        rcases List.mem_append.mp ht with ht | ht
        · exact hfree t ht
        · rw [List.mem_singleton] at ht
          rw [ht]
          exact hline.1.content
      have hdone : ∀ more, (sourceLoop host size s (line :: lines)).2.handed =
          s.handed ++ command :: more →
          ∃ x others more, isBlankOrCommentLine x = false ∧ (∀ t ∈ x :: others, '\n' ∉ t) ∧
            (sourceLoop host size s (line :: lines)).2.handed =
              s.handed ++ joinTexts (base ++ x :: others) :: more := by
        intro more hhanded
        obtain ⟨x, others, heq, hx⟩ := hgrown
        rw [heq] at hcommand hfree'
        exact ⟨x, others, more, hx, hfree', by rw [hhanded, hcommand]⟩
      unfold CommandGrows at hstep
      split at hstep
      · obtain ⟨s', hloop, hbuffer', -, hhanded⟩ := sourceLoop_goesOn lines hstep
        rw [hloop, ← hhanded]
        exact ih _ hrest (hbuffer'.trans hcommand) (.inr hgrown) hfree'
      · obtain ⟨stop, s', hloop, -, hhanded⟩ := sourceLoop_stops lines hstep
        exact .inl (by rw [hloop]; exact hhanded)
      · rcases hstep with ⟨hstep, -⟩ | hstep
        · obtain ⟨stop, s', hloop, -, hhanded⟩ := sourceLoop_stops lines hstep
          exact .inr (hdone [] (by rw [hloop]; exact hhanded))
        · obtain ⟨s', hloop, -, -, hhanded⟩ := sourceLoop_goesOn lines hstep
          obtain ⟨more, hmore⟩ := sourceLoop_handed host size s' lines
          refine .inr (hdone more ?_)
          rw [hloop, ← hmore, hhanded, List.append_assoc]
          rfl

end Steps

/-! ## 2. A command -/

theorem scanned_concat (lines : List FileLine) (line : FileLine) :
    scanned (lines ++ [line]) = (scanned lines).next line := documentScan.run_concat _ _ _

variable {line : FileLine}

theorem free_false_of_not_blank {s : DocumentScan} (h : line.isBlank = false) :
    documentScan.free s line = false := by
  show (line.isBlank && s.openDocument.isNone && !s.reported) = false
  rw [h]
  rfl

def Starts (lines : List FileLine) : Prop := ∃ line, lines.head? = some line ∧ line.isBlank = false

variable {lines : List FileLine}

theorem Starts.front {front : List FileLine} (h : Starts lines) (hfront : front <+: lines)
    (hne : front ≠ []) : Starts front := by
  obtain ⟨line, hhead, hline⟩ := h
  cases front with
  | nil => exact absurd rfl hne
  | cons first front => obtain ⟨behind, rfl⟩ := hfront; exact ⟨line, hhead, hline⟩

theorem leastText_ne_nil (h : Starts lines) :
    documentScan.least .start lines ≠ [] ∧ leastText lines ≠ [] := by
  obtain ⟨line, hhead, hline⟩ := h
  cases lines with
  | nil => cases hhead
  | cons first lines =>
    cases hhead
    have hcontent : line.content ≠ [] := by
      intro hnil
      have hblank := isBlankOrCommentLine_trim line.text
      rw [show trimTrailingNewlines line.text = [] from hnil] at hblank
      exact absurd (hline.symm.trans hblank.symm) Bool.false_ne_true
    rw [leastText, Scan.least, if_neg (by simp [free_false_of_not_blank hline])]
    refine ⟨cons_ne_nil _ _, ?_⟩
    exact @joinTexts_append_ne [line.content] (by simpa [joinTexts] using hcontent) _

theorem joinTexts_length_le (texts others : List Text) :
    (joinTexts texts).length ≤ (joinTexts (texts ++ others)).length := by
  induction others using List.reverseRecOn with
  | nil => rw [append_nil]
  | append_singleton others t ih =>
    by_cases hnil : texts ++ others = []
    · rw [append_eq_nil_iff] at hnil
      rw [hnil.1]
      exact Nat.zero_le _
    · rw [← append_assoc, joinTexts_concat hnil, length_append]; omega

theorem leastText_length_le {front : List FileLine} (h : front <+: lines) :
    (leastText front).length ≤ (leastText lines).length := by
  obtain ⟨behind, rfl⟩ := h
  rw [leastText, leastText, Scan.least_append, linesText, linesText, map_append]
  exact joinTexts_length_le _ _

theorem appendCommandFragment_least {front : List FileLine} (hstart : front = [] ∨ Starts front)
    (hkept : documentScan.free (scanned front) line = false)
    (hline : line.text.length < arkshMaxLine) : appendCommandFragment (leastText front) line.text =
      if (leastText (front ++ [line])).length < arkshMaxOutput then
        some (leastText (front ++ [line])) else none := by
  rw [appendCommandFragment_eq hline, leastText_concat, hkept, if_neg Bool.false_ne_true, linesText,
    map_append]
  rcases hstart with rfl | hstart
  · have hlt : line.content.length < arkshMaxOutput :=
      ((List.rdropWhile_prefix _ _).length_le.trans_lt hline).trans (by decide)
    have hone : joinTexts ([line].map FileLine.content) = line.content := by simp [joinTexts]
    show _ = if (joinTexts ([line].map FileLine.content)).length < _ then some _ else none
    rw [hone, if_pos hlt]
    exact (congrArg some hone).symm
  · obtain ⟨hleast, hne⟩ := leastText_ne_nil hstart
    rw [if_neg hne, map_singleton, joinTexts_concat (by simpa using hleast)]
    simp only [length_append, length_cons, leastText, linesText, Nat.add_assoc, Nat.add_comm 1]

theorem ScriptCommand.ReadableTo.mono {c : ScriptCommand} {front : List FileLine}
    (h : c.ReadableTo lines) (hfront : front <+: lines) : c.ReadableTo front where
  fit line hline := h.fit line (hfront.subset hline)
  textFits := (leastText_length_le hfront).trans_lt h.textFits
  asks _ hpre := h.asks _ (hpre.trans hfront)
  keeps _ _ hpre := h.keeps _ _ (hpre.trans hfront)

section Command

variable {σ : Type} {host : SourceHost σ} {size : Nat} {s : SourceState σ}

structure ReadingCommand (s : SourceState σ) (front : List FileLine) : Prop where
  buffer : s.commandBuffer = leastText front
  pending : s.pendingHeredoc = (scanned front).reported

theorem ReadingCommand.of_eq {s s' : SourceState σ} {front : List FileLine}
    (h : ReadingCommand s front) (hbuffer : s'.commandBuffer = s.commandBuffer)
    (hpending : s'.pendingHeredoc = s.pendingHeredoc) :
    ReadingCommand s' front := ⟨hbuffer.trans h.buffer, hpending.trans h.pending⟩

/-- The command is handed over as its text; then the reader goes on, or stops because of it. -/
def ScriptCommand.HandedOver (c : ScriptCommand) (host : SourceHost σ) (size : Nat)
    (handed : List Text) (loop : Option SourceStop × SourceState σ) (more : List FileLine) : Prop :=
  (∃ s', loop = sourceLoop host size s' more ∧ ReadingCommand s' [] ∧
      s'.handed = handed ++ [leastText c.lines]) ∨
    (∃ stop s', loop = (some stop, s') ∧ stop.byCommand = true ∧
      s'.handed = handed ++ [leastText c.lines]) ∧
      ∃ shell, (host.execute (leastText c.lines) shell).1 ≠ (0, [])

def ScriptCommand.Spoilt (c : ScriptCommand) (handed handed' : List Text) : Prop :=
  ∃ new, handed' = handed ++ new ∧ ∀ t ∈ new.head?, ¬ c.IsText t

def ScriptCommand.Settled (c : ScriptCommand) (host : SourceHost σ) (size : Nat)
    (handed : List Text) (loop : Option SourceStop × SourceState σ) (more : List FileLine) : Prop :=
  c.ReadableTo c.lines ∧ c.HandedOver host size handed loop more ∨
    ¬ c.ReadableTo c.lines ∧ c.Spoilt handed loop.2.handed

variable {c : ScriptCommand}

theorem ScriptCommand.spoilt_nil {handed handed' : List Text} (h : handed' = handed) :
    c.Spoilt handed handed' :=
  ⟨[], by rw [h, append_nil], fun _ ht => nomatch ht⟩

theorem scanned_nil : (scanned []).openDocument = none ∧ (scanned []).reported = false := by
  decide

variable {line : FileLine}

theorem ScriptCommand.read_lost (hstarts : Starts c.lines) (hlines : ∀ line ∈ c.lines, line.InFile)
    {front behind more : List FileLine} (hsplit : c.lines = front ++ line :: behind)
    (hread : ReadingCommand s front) (hfront : front ≠ []) (hblank : line.isBlank = true)
    (hopen : (scanned front).openDocument.isSome = true)
    (hreported : (scanned front).reported = false)
    (hmore : ∀ piece ∈ more, piece.Plain ∧ piece.text.length < arkshMaxLine) :
    c.Spoilt s.handed (sourceLoop host size s more).2.handed := by
  have hstart : Starts front := hstarts.front ⟨line :: behind, hsplit.symm⟩ hfront
  have hfree : documentScan.free (documentScan.run .start front) line = false := by
    show (line.isBlank && (scanned front).openDocument.isNone && _) = false
    rw [Option.isNone_eq_false_iff.mpr hopen, Bool.and_false, Bool.false_and]
  have hbuffer : s.commandBuffer =
      joinTexts ((documentScan.least .start front).map FileLine.content ++ []) := by
    rw [append_nil]
    exact hread.buffer
  have hne := (leastText_ne_nil hstart).2
  rcases sourceLoop_diverged host size [] hmore hne hbuffer
      (.inl ⟨rfl, hread.pending.trans hreported⟩) (fun _ ht => nomatch ht) with
    hnone | ⟨x, others, rest, hx, hothers, hhanded⟩
  · exact spoilt_nil hnone
  · refine ⟨_, hhanded, fun t ht => ?_⟩
    cases ht
    intro ⟨kept, hcut, heq⟩
    have hplain : ∀ part : List FileLine, part.Sublist c.lines →
        ∀ t ∈ part.map FileLine.content, '\n' ∉ t := by
      intro part hpart t ht
      obtain ⟨l, hl, rfl⟩ := mem_map.mp ht
      exact (hlines l (hpart.subset hl)).plain.content
    have hleast : (documentScan.least .start front).Sublist c.lines :=
      (documentScan.least_cut .start front).sublist.trans
        (hsplit ▸ sublist_append_left front (line :: behind))
    have hbase : ∀ t ∈ (documentScan.least .start front).map FileLine.content ++ x :: others,
        '\n' ∉ t := by
      intro t ht
      rcases mem_append.mp ht with ht | ht
      · exact hplain _ hleast t ht
      · exact hothers t ht
    have hsome : kept.map FileLine.content ≠ [] := by
      intro hnil
      rw [linesText, hnil] at heq
      exact joinTexts_append_ne hne _ heq
    have hsame := joinTexts_inj (hplain kept hcut.sublist) hbase hsome (by simp) heq.symm
    have hcontent : ∀ l : FileLine, l.isBlank = true →
        (fun t => !isBlankOrCommentLine t) l.content = false := by
      intro l hl
      show (!isBlankOrCommentLine (trimTrailingNewlines l.text)) = false
      rw [isBlankOrCommentLine_trim, show isBlankOrCommentLine l.text = true from hl]
      rfl
    rw [hsplit] at hcut
    refine hcut.diverges (p := fun t => !isBlankOrCommentLine t) (g := FileLine.content)
      (fun s a hl => hcontent a ?_) hfree (hcontent line hblank) ?_ others hsame
    · have hl : (a.isBlank && s.openDocument.isNone && !s.reported) = true := hl
      rw [Bool.and_assoc, Bool.and_eq_true] at hl
      exact hl.1
    · show (!isBlankOrCommentLine x) = true
      rw [hx]
      rfl

variable (host size) in
theorem ReadingCommand.grows {front : List FileLine} {line : FileLine} (h : ReadingCommand s front)
    (hstart : front = [] ∨ Starts front) (hwhole : line.Whole)
    (hshort : line.text.length < arkshMaxLine)
    (hkept : line.isBlank = true → front ≠ [] ∧ (scanned front).reported = true) :
    if (leastText (front ++ [line])).length < arkshMaxOutput then ∃ s₁, s₁.handed = s.handed ∧
        CommandGrows host s₁ (sourceStep host size s line) (leastText (front ++ [line]))
    else SourceStops (sourceStep host size s line) false s.handed := by
  have hfree : documentScan.free (scanned front) line = false := by
    cases hblank : line.isBlank with
    | false => exact free_false_of_not_blank hblank
    | true =>
      show (line.isBlank && (scanned front).openDocument.isNone &&
        !(scanned front).reported) = false
      rw [(hkept hblank).2, Bool.not_true, Bool.and_false]
  have hfragment : line.isBlank = true → s.commandBuffer ≠ [] ∧ s.pendingHeredoc = true := by
    intro hblank
    obtain ⟨hne, hreported⟩ := hkept hblank
    rw [h.buffer, h.pending]
    exact ⟨(leastText_ne_nil (hstart.resolve_left hne)).2, hreported⟩
  obtain ⟨s₁, hbuffer, hhanded, heq⟩ := sourceStep_fragment host size hwhole hfragment
  have happend := appendCommandFragment_least hstart hfree hshort
  rw [← h.buffer, ← hbuffer] at happend
  rw [heq]
  split at happend
  next hfits => rw [if_pos hfits]; exact ⟨s₁, hhanded, sourceFragment_grows host size happend⟩
  next hfull => rw [if_neg hfull, ← hhanded]; exact sourceFragment_tooLarge happend

theorem ScriptCommand.ReadableTo.concat {front : List FileLine} (h : c.ReadableTo front)
    (hfit : line.Fits) (htext : (leastText (front ++ [line])).length < arkshMaxOutput)
    (hasks : front ++ [line] ≠ c.lines →
      ∃ message, commandRequiresMoreInput (leastText (front ++ [line])) = .more message)
    (hkeeps : line.isBlank = true → (scanned front).openDocument.isSome = true →
      (scanned front).reported = true) : c.ReadableTo (front ++ [line]) where
  fit l hl := by
    rcases mem_append.mp hl with hl | hl
    · exact h.fit l hl
    · rw [mem_singleton] at hl
      rw [hl]
      exact hfit
  textFits := htext
  asks pre hpre hne hproper := by
    rcases prefix_concat_iff.mp hpre with rfl | hpre
    · exact hasks hproper
    · exact h.asks pre hpre hne hproper
  keeps pre l hpre := by
    rcases prefix_concat_iff.mp hpre with heq | hpre
    · obtain ⟨rfl, hline⟩ := append_inj' heq rfl
      cases hline
      exact hkeeps
    · exact h.keeps pre l hpre

theorem scanned_skip {front : List FileLine} (hblank : line.isBlank = true)
    (hopen : (scanned front).openDocument = none) (hreported : (scanned front).reported = false) :
    scanned (front ++ [line]) = scanned front ∧ leastText (front ++ [line]) = leastText front := by
  constructor
  · rw [scanned_concat, DocumentScan.next, hopen]
    rw [if_pos hblank, hreported]
    rfl
  · have hfree : documentScan.free (scanned front) line = true := by
      show (line.isBlank && (scanned front).openDocument.isNone && !(scanned front).reported) = true
      rw [hblank, hopen, hreported]
      rfl
    rw [leastText_concat, if_pos hfree]

theorem pieces_plain (lines more : List FileLine)
    (hmore : ∀ piece ∈ more, piece.Plain ∧ piece.text.length < arkshMaxLine) :
    ∀ piece ∈ lines.flatMap FileLine.pieces ++ more,
      piece.Plain ∧ piece.text.length < arkshMaxLine := by
  intro piece hpiece
  rcases mem_append.mp hpiece with hpiece | hpiece
  · obtain ⟨line, -, hpiece⟩ := mem_flatMap.mp hpiece
    have hroom : ([] : Text).length + 1 < arkshMaxLine := by decide
    exact fileLines_plain hroom not_mem_nil piece hpiece
  · exact hmore piece hpiece

theorem ScriptCommand.settled_stops (tail : List FileLine) {more : List FileLine}
    (hread : ¬ c.ReadableTo c.lines)
    (hstep : SourceStops (sourceStep host size s line) false s.handed) :
    c.Settled host size s.handed (sourceLoop host size s (line :: tail)) more := by
  obtain ⟨stop, s', hloop, -, hhanded⟩ := sourceLoop_stops tail hstep
  refine .inr ⟨hread, spoilt_nil ?_⟩
  rw [hloop]
  exact hhanded

theorem ScriptCommand.settled_kept {front tail more : List FileLine}
    (hnext : front ++ [line] <+: c.lines) (hto : c.ReadableTo front)
    (hread : ReadingCommand s front) (hwhole : line.Whole) (hfits : line.Fits)
    (hkept : line.isBlank = true → front ≠ [] ∧ (scanned front).reported = true)
    (hlast : front ++ [line] = c.lines → tail = more)
    (hrest : ∀ s' : SourceState σ, s'.handed = s.handed → ReadingCommand s' (front ++ [line]) →
      c.ReadableTo (front ++ [line]) →
      commandRequiresMoreInput (leastText (front ++ [line])) ≠ .complete →
      c.Settled host size s'.handed (sourceLoop host size s' tail) more) :
    c.Settled host size s.handed (sourceLoop host size s (line :: tail)) more := by
  have hstart : front = [] ∨ Starts front := by
    by_cases hnil : front = []
    · exact .inl hnil
    · exact .inr (Starts.front c.starts ((prefix_append _ _).trans hnext) hnil)
  have hshort : line.text.length < arkshMaxLine := (Nat.le_add_right _ _).trans_lt hfits
  have hgrows := hread.grows host size hstart hwhole hshort hkept
  have hkeeps : line.isBlank = true → (scanned front).openDocument.isSome = true →
      (scanned front).reported = true := fun hblank _ => (hkept hblank).2
  split at hgrows
  next htext =>
    obtain ⟨s₁, hhanded₁, hgrows⟩ := hgrows
    unfold CommandGrows at hgrows
    rw [hhanded₁] at hgrows
    split at hgrows
    next message hinput =>
      obtain ⟨s', hloop, hbuffer, hpending, hhanded⟩ := sourceLoop_goesOn tail hgrows
      rw [hloop, ← hhanded]
      refine hrest s' hhanded ⟨hbuffer, ?_⟩ ?_ (by rw [hinput]; exact InputStatus.noConfusion)
      · rw [hpending, scanned_reported, reportsDocument, hinput]
      · exact hto.concat hfits htext (fun _ => ⟨message, hinput⟩) hkeeps
    next message hinput =>
      refine settled_stops tail (fun h => ?_) hgrows
      by_cases hall : front ++ [line] = c.lines
      · have hcomplete := c.complete
        rw [← hall, hinput] at hcomplete
        cases hcomplete
      · obtain ⟨message', hmore⟩ := h.asks _ hnext (by simp) hall; cases hinput.symm.trans hmore
    next hinput =>
      have hall : front ++ [line] = c.lines := by
        by_contra hproper
        exact c.shortest _ hnext (by simp) hproper hinput
      rw [hlast hall]
      refine .inl ⟨?_, ?_⟩
      · rw [← hall]; exact hto.concat hfits htext (fun hproper => absurd hall hproper) hkeeps
      · rw [ScriptCommand.HandedOver, ← hall]
        rcases hgrows with ⟨hstop, hexecute⟩ | hgoes
        · obtain ⟨stop, s', hloop, hby, hhanded⟩ := sourceLoop_stops more hstop
          exact .inr ⟨⟨stop, s', hloop, hby, hhanded⟩, hexecute⟩
        · obtain ⟨s', hloop, hbuffer, hpending, hhanded⟩ := sourceLoop_goesOn more hgoes
          exact .inl ⟨s', hloop, ⟨hbuffer, hpending.trans scanned_nil.2.symm⟩, hhanded⟩
  next htext =>
    exact settled_stops tail (fun h => htext ((h.mono hnext).textFits)) hgrows

theorem ScriptCommand.settled_skipped (hlines : ∀ line ∈ c.lines, line.InFile)
    {front behind tail more : List FileLine} (hsplit : c.lines = front ++ line :: behind)
    (hto : c.ReadableTo front) (hread : ReadingCommand s front) (hfront : front ≠ [])
    (hfits : line.Fits) (hblank : line.isBlank = true)
    (hreported : (scanned front).reported = false)
    (htail : ∀ piece ∈ tail, piece.Plain ∧ piece.text.length < arkshMaxLine)
    (hopen : commandRequiresMoreInput (leastText front) ≠ .complete)
    (hrest : ∀ s' : SourceState σ, s'.handed = s.handed → ReadingCommand s' (front ++ [line]) →
      c.ReadableTo (front ++ [line]) →
      commandRequiresMoreInput (leastText (front ++ [line])) ≠ .complete →
      c.Settled host size s'.handed (sourceLoop host size s' tail) more) :
    c.Settled host size s.handed (sourceLoop host size s (line :: tail)) more := by
  have hnext : front ++ [line] <+: c.lines := ⟨behind, by rw [hsplit, append_assoc]; rfl⟩
  have hwhole : line.Whole := (hlines line (hnext.subset (by simp))).whole
  have hpending : s.pendingHeredoc = false := hread.pending.trans hreported
  obtain ⟨s', hloop, hbuffer', hpending', hhanded⟩ :=
    sourceLoop_goesOn tail (sourceStep_blank host size hwhole hblank (.inr hpending))
  have hread' : ReadingCommand s' front := hread.of_eq hbuffer' hpending'
  rw [hloop, ← hhanded]
  cases hdocument : (scanned front).openDocument with
  | some mark =>
    refine .inr ⟨fun h => ?_, ?_⟩
    · have hmust := h.keeps front line hnext hblank (by rw [hdocument]; rfl)
      exact absurd (hreported.symm.trans hmust) Bool.false_ne_true
    · exact read_lost c.starts hlines hsplit hread' hfront hblank (by rw [hdocument]; rfl) hreported
        htail
  | none =>
    obtain ⟨hscan, htext⟩ := scanned_skip hblank hdocument hreported
    refine hrest s' hhanded ⟨?_, ?_⟩ ?_ (by rwa [htext])
    · rw [htext]; exact hread'.buffer
    · rw [hscan]; exact hread'.pending
    · refine hto.concat hfits (by rw [htext]; exact hto.textFits) (fun _ => ?_) ?_
      · rw [htext]
        refine hto.asks front (prefix_refl _) hfront fun heq => ?_
        have hlen := congrArg List.length (heq.trans hsplit)
        simp at hlen
      · intro _ hsome
        rw [hdocument] at hsome
        cases hsome

/-- **A command is handed over as its text where it can be read to its end, and nowhere else.** -/
theorem ScriptCommand.settled (hlines : ∀ line ∈ c.lines, line.InFile) {more : List FileLine}
    (hmore : ∀ piece ∈ more, piece.Plain ∧ piece.text.length < arkshMaxLine)
    {front rest : List FileLine} (hsplit : c.lines = front ++ rest) (hto : c.ReadableTo front)
    (hread : ReadingCommand s front)
    (hopen : front = [] ∨ commandRequiresMoreInput (leastText front) ≠ .complete) :
    c.Settled host size s.handed (sourceLoop host size s (rest.flatMap FileLine.pieces ++ more))
      more := by
  induction rest generalizing s front with
  | nil =>
    rw [append_nil] at hsplit
    rcases hopen with hnil | hopen
    · obtain ⟨line, hhead, -⟩ := c.starts
      rw [hsplit, hnil] at hhead
      cases hhead
    · rw [← hsplit] at hopen; exact absurd c.complete hopen
  | cons line behind ih =>
    have hsplit' : c.lines = (front ++ [line]) ++ behind := by rw [hsplit, append_assoc]; rfl
    have hnext : front ++ [line] <+: c.lines := ⟨behind, hsplit'.symm⟩
    have hmem : line ∈ c.lines := hnext.subset (by simp)
    have hinFile : line.InFile := hlines line hmem
    rw [flatMap_cons, append_assoc]
    by_cases hfits : line.Fits
    · rw [hinFile.pieces_fits hfits, singleton_append]
      have hrest := fun (s' : SourceState σ) (_ : s'.handed = s.handed) hread' hto' hopen' =>
        ih hsplit' hto' (hread' : ReadingCommand s' _) (.inr hopen')
      by_cases hskip : line.isBlank = true ∧ (scanned front).reported = false
      · have hfront : front ≠ [] := by
          rintro rfl
          obtain ⟨first, hhead, hfirst⟩ := c.starts
          rw [hsplit] at hhead
          cases hhead
          exact absurd (hfirst.symm.trans hskip.1) Bool.false_ne_true
        exact settled_skipped hlines hsplit hto hread hfront hfits hskip.1 hskip.2
          (pieces_plain behind more hmore) (hopen.resolve_left hfront) hrest
      · refine settled_kept hnext hto hread hinFile.whole hfits (fun hblank => ?_) (fun hall => ?_)
          hrest
        · have hreported := not_and.mp hskip hblank
          rw [Bool.not_eq_false] at hreported
          refine ⟨?_, hreported⟩
          rintro rfl
          exact absurd (scanned_nil.2.symm.trans hreported) Bool.false_ne_true
        · rw [hall] at hsplit'
          rw [self_eq_append_right.mp hsplit']
          rfl
    · obtain ⟨piece, pieces, hpieces, hcut⟩ := hinFile.pieces_cut hfits
      rw [hpieces, cons_append]
      exact settled_stops _ (fun h => hfits (h.fit line hmem)) (sourceStep_cut hcut)

variable (host size) in
theorem blanks_skipped {lines : List FileLine} (more : List FileLine)
    (hblank : ∀ line ∈ lines, line.isBlank = true) (hlines : ∀ line ∈ lines, line.InFile)
    (hread : ReadingCommand s []) : (∀ line ∈ lines, line.Fits) ∧
        (∃ s', sourceLoop host size s (lines.flatMap FileLine.pieces ++ more) =
          sourceLoop host size s' more ∧ ReadingCommand s' [] ∧ s'.handed = s.handed) ∨
      (¬ ∀ line ∈ lines, line.Fits) ∧
        ∃ stop s', sourceLoop host size s (lines.flatMap FileLine.pieces ++ more) =
          (some stop, s') ∧ stop.byCommand = false ∧ s'.handed = s.handed := by
  induction lines generalizing s with
  | nil => exact .inl ⟨fun _ hline => (nomatch hline), s, rfl, hread, rfl⟩
  | cons line lines ih =>
    have hinFile := hlines line List.mem_cons_self
    rw [List.flatMap_cons, List.append_assoc]
    by_cases hfits : line.Fits
    · have hbuffer : s.commandBuffer = [] := hread.buffer
      obtain ⟨s', hloop, hbuffer', hpending', hhanded⟩ :=
        sourceLoop_goesOn (lines.flatMap FileLine.pieces ++ more)
          (sourceStep_blank host size hinFile.whole (hblank line List.mem_cons_self) (.inl hbuffer))
      rw [hinFile.pieces_fits hfits, List.singleton_append, hloop, ← hhanded]
      rcases ih (fun l hl => hblank l (List.mem_cons_of_mem _ hl))
        (fun l hl => hlines l (List.mem_cons_of_mem _ hl)) (hread.of_eq hbuffer' hpending') with
        ⟨hall, hrest⟩ | ⟨hnot, hrest⟩
      · exact .inl ⟨List.forall_mem_cons.mpr ⟨hfits, hall⟩, hrest⟩
      · exact .inr ⟨fun hall => hnot (List.forall_mem_cons.mp hall).2, hrest⟩
    · obtain ⟨piece, pieces, hpieces, hcut⟩ := hinFile.pieces_cut hfits
      rw [hpieces, List.cons_append]
      refine .inr ⟨fun hall => hfits (List.forall_mem_cons.mp hall).1, ?_⟩
      exact sourceLoop_stops _ (sourceStep_cut hcut)

theorem ScriptCommand.readableTo_nil (c : ScriptCommand) : c.ReadableTo [] where
  fit _ hline := nomatch hline
  textFits := by decide
  asks _ hfront hne := absurd (prefix_nil.mp hfront) hne
  keeps _ _ hfront := absurd (prefix_nil.mp hfront) (by simp)

variable (host size) in
theorem ScriptCommand.handed {c : ScriptCommand} (hlines : ∀ line ∈ c.above ++ c.lines, line.InFile)
    {more : List FileLine} (hmore : ∀ piece ∈ more, piece.Plain ∧ piece.text.length < arkshMaxLine)
    (hread : ReadingCommand s []) :
    let loop := sourceLoop host size s ((c.above ++ c.lines).flatMap FileLine.pieces ++ more)
    c.Readable ∧ c.HandedOver host size s.handed loop more ∨
      ¬ c.Readable ∧ c.Spoilt s.handed loop.2.handed := by
  dsimp only
  rw [List.flatMap_append, List.append_assoc]
  rcases blanks_skipped host size (c.lines.flatMap FileLine.pieces ++ more) c.above_blank
    (fun l hl => hlines l (List.mem_append_left _ hl)) hread with
    ⟨habove, s', hloop, hread', hhanded⟩ | ⟨habove, stop, s', hloop, -, hhanded⟩
  · rw [hloop, ← hhanded]
    have hsplit : c.lines = [] ++ c.lines := rfl
    rcases c.settled (fun l hl => hlines l (List.mem_append_right _ hl)) hmore hsplit
      c.readableTo_nil hread' (.inl rfl) with ⟨hto, hover⟩ | ⟨hto, hspoilt⟩
    · exact .inl ⟨⟨habove, hto⟩, hover⟩
    · exact .inr ⟨fun h => hto h.2, hspoilt⟩
  · rw [hloop]; exact .inr ⟨fun h => habove h.1, spoilt_nil hhanded⟩

theorem ScriptCommand.isText_least (c : ScriptCommand) : c.IsText (leastText c.lines) :=
  ⟨_, documentScan.least_cut _ _, rfl⟩

end Command

/-! ## 3. A script -/

section Scripts

variable {σ : Type} {host : SourceHost σ} {size : Nat} {s : SourceState σ}

def scriptPieces (commands : List ScriptCommand) (below : List FileLine) : List FileLine :=
  ((commands.flatMap fun c => c.above ++ c.lines) ++ below).flatMap FileLine.pieces

theorem scriptPieces_cons (c : ScriptCommand) (commands : List ScriptCommand)
    (below : List FileLine) : scriptPieces (c :: commands) below =
      (c.above ++ c.lines).flatMap FileLine.pieces ++ scriptPieces commands below := by
  rw [scriptPieces, flatMap_cons, append_assoc, flatMap_append]
  rfl

theorem scriptPieces_plain (commands : List ScriptCommand) (below : List FileLine) :
    ∀ piece ∈ scriptPieces commands below, piece.Plain ∧ piece.text.length < arkshMaxLine := by
  intro piece hpiece
  rw [scriptPieces, ← append_nil (List.flatMap _ _)] at hpiece
  exact pieces_plain _ [] (fun _ h => nomatch h) piece hpiece

def InFile (commands : List ScriptCommand) (below : List FileLine) : Prop :=
  (∀ c ∈ commands, ∀ line ∈ c.above ++ c.lines, line.InFile) ∧
    ∀ line ∈ below, line.isBlank = true ∧ line.InFile

variable (host size) in
theorem handed_of_readable {commands : List ScriptCommand} {below : List FileLine}
    (hlines : InFile commands below) (hreadable : ∀ c ∈ commands, c.Readable)
    (hread : ReadingCommand s []) :
    let loop := sourceLoop host size s (scriptPieces commands below)
    ∃ new, loop.2.handed = s.handed ++ new ∧
      List.Forall₂ ScriptCommand.IsText (commands.take new.length) new ∧
      (loop.1.any SourceStop.byCommand = false → new.length = commands.length) := by
  induction commands generalizing s with
  | nil =>
    have hbelow := blanks_skipped host size []
      (fun l hl => (hlines.2 l hl).1) (fun l hl => (hlines.2 l hl).2) hread
    rw [List.append_nil] at hbelow
    refine ⟨[], ?_, .nil, fun _ => rfl⟩
    rw [List.append_nil]
    rcases hbelow with ⟨-, s', hloop, -, hhanded⟩ | ⟨-, stop, s', hloop, -, hhanded⟩
    · show (sourceLoop host size s (below.flatMap FileLine.pieces)).2.handed = s.handed
      rw [hloop, (sourceLoop_nil s').1, hhanded]
    · show (sourceLoop host size s (below.flatMap FileLine.pieces)).2.handed = s.handed
      rw [hloop, hhanded]
  | cons c commands ih =>
    have hrest : InFile commands below :=
      ⟨fun d hd => hlines.1 d (List.mem_cons_of_mem _ hd), hlines.2⟩
    rw [scriptPieces_cons]
    rcases c.handed host size (hlines.1 c List.mem_cons_self)
      (scriptPieces_plain commands below) hread with ⟨-, hover⟩ | ⟨hnot, -⟩
    · rcases hover with ⟨s', hloop, hread', hhanded⟩ | ⟨⟨stop, s', hloop, hby, hhanded⟩, -⟩
      · obtain ⟨new, hnew, htexts, hall⟩ :=
          ih hrest (fun d hd => hreadable d (List.mem_cons_of_mem _ hd)) hread'
        rw [hloop]
        refine ⟨leastText c.lines :: new, ?_, .cons c.isText_least htexts, fun hstop => ?_⟩
        · rw [hnew, hhanded, List.append_assoc]; rfl
        · rw [List.length_cons, List.length_cons, hall hstop]
      · rw [hloop]
        refine ⟨[leastText c.lines], hhanded, .cons c.isText_least .nil, fun hstop => ?_⟩
        exact absurd (hstop.symm.trans hby) Bool.false_ne_true
    · exact absurd (hreadable c List.mem_cons_self) hnot

/-- No command fails, and none has output. -/
def Quiet (host : SourceHost σ) : Prop := ∀ text shell, (host.execute text shell).1 = (0, [])

variable (size) in
theorem not_handed {commands : List ScriptCommand} {below : List FileLine}
    (hquiet : Quiet host) (hlines : InFile commands below)
    (hreadable : ¬ ∀ c ∈ commands, c.Readable) (hread : ReadingCommand s []) :
    ∃ new, (sourceLoop host size s (scriptPieces commands below)).2.handed = s.handed ++ new ∧
      ¬ List.Forall₂ ScriptCommand.IsText commands new := by
  induction commands generalizing s with
  | nil => exact absurd (fun _ h => nomatch h) hreadable
  | cons c commands ih =>
    have hrest : InFile commands below :=
      ⟨fun d hd => hlines.1 d (List.mem_cons_of_mem _ hd), hlines.2⟩
    rw [scriptPieces_cons]
    rcases c.handed host size (hlines.1 c List.mem_cons_self)
      (scriptPieces_plain commands below) hread with ⟨hc, hover⟩ | ⟨-, new, hnew, hhead⟩
    · rcases hover with ⟨s', hloop, hread', hhanded⟩ | ⟨-, shell, hfails⟩
      · obtain ⟨new, hnew, hnot⟩ :=
          ih hrest (fun hall => hreadable (List.forall_mem_cons.mpr ⟨hc, hall⟩)) hread'
        rw [hloop]
        refine ⟨leastText c.lines :: new, ?_, fun h => ?_⟩
        · rw [hnew, hhanded, List.append_assoc]; rfl
        · cases h with
          | cons _ h => exact hnot h
      · exact absurd (hquiet _ shell) hfails
    · refine ⟨new, hnew, fun h => ?_⟩
      cases h with
      | cons htext _ => exact hhead _ rfl htext

theorem sourceLoop_quiet (hquiet : Quiet host) (s : SourceState σ) (lines : List FileLine) :
    (sourceLoop host size s lines).1.any SourceStop.byCommand = false := by
  induction lines generalizing s with
  | nil => exact (sourceLoop_nil s).2
  | cons line lines ih =>
    rcases sourceStep_outcome s line with ⟨_, _, -, hstep, hfails⟩ | ⟨_, _, _, -, hstep⟩
    · obtain ⟨stop, s', hloop, hby, -⟩ := sourceLoop_stops lines hstep
      rw [hloop, ← Bool.not_eq_true]
      intro htrue
      obtain ⟨command, shell, hne⟩ := hfails (hby.symm.trans htrue)
      exact hne (hquiet command shell)
    · obtain ⟨s', hloop, -, -, -⟩ := sourceLoop_goesOn lines hstep
      rw [hloop]
      exact ih s'

theorem arkshShellSourceFile_loop {file path : Text} {args : List Text} {shell : σ} (size : Nat)
    (h : host.Opens path args shell file) :
    ∃ entered,
      let loop := sourceLoop host size (sourceStart entered) (fileLines arkshMaxLine [] file)
      (arkshShellSourceFile host size path args shell).handed = loop.2.handed ∧
        (arkshShellSourceFile host size path args shell).stop = loop.1 := by
  obtain ⟨resolved, hresolved, hfile, henter⟩ := h
  obtain ⟨entered, hentered⟩ := Option.isSome_iff_exists.mp henter
  refine ⟨entered, ?_⟩
  unfold arkshShellSourceFile
  simp only [hresolved, hfile, hentered]
  split <;> exact ⟨rfl, rfl⟩

theorem reading_start (shell : σ) : ReadingCommand (sourceStart shell) [] :=
  ⟨rfl, scanned_nil.2.symm⟩

end Scripts

namespace Script

variable {file : Text}

section

variable (script : Script file)

theorem fileLines_eq :
    fileLines arkshMaxLine [] file = scriptPieces script.commands script.below := by
  rw [fileLines_pieces, script.lines_eq]
  rfl

theorem inFile : InFile script.commands script.below := by
  have hlines := textLines_inFile file
  rw [script.lines_eq] at hlines
  refine ⟨fun c hc line hline => hlines line ?_, fun line hline => ?_⟩
  · exact mem_append_left _ (mem_flatMap.mpr ⟨c, hc, hline⟩)
  · exact ⟨script.below_blank line hline, hlines line (mem_append_right _ hline)⟩

theorem law_of_readable (h : ∀ c ∈ script.commands, c.Readable) : script.SourceLaw := by
  intro σ host size path args shell hopens
  obtain ⟨entered, hhanded, hstop⟩ := arkshShellSourceFile_loop size hopens
  obtain ⟨new, hnew, htexts, hall⟩ :=
    handed_of_readable host size script.inFile h (reading_start entered)
  rw [script.fileLines_eq] at hhanded hstop
  dsimp only
  rw [hstop, hhanded, hnew]
  exact ⟨htexts, hall⟩

end

def quietHost (file : Text) : SourceHost Unit where
  resolvePath _ path := some path
  openFile _ _ := some file
  enter _ _ _ := some ()
  leave _ _ := (true, ())
  enterLine _ _ := ()
  execute _ _ := ((0, []), ())

theorem readable_of_law (script : Script file) (h : script.SourceLaw) :
    ∀ c ∈ script.commands, c.Readable := by
  by_contra hreadable
  have hopens : (quietHost file).Opens [] [] () file := ⟨[], rfl, rfl, rfl⟩
  have hquiet : Quiet (quietHost file) := fun _ _ => rfl
  obtain ⟨htexts, hall⟩ := h Unit (quietHost file) 0 [] [] () hopens
  obtain ⟨entered, hhanded, hstop⟩ := arkshShellSourceFile_loop 0 hopens
  rw [script.fileLines_eq] at hhanded hstop
  obtain ⟨new, hnew, hnot⟩ := not_handed 0 hquiet script.inFile hreadable (reading_start entered)
  have hlength := hall (sourceLoop_quiet hquiet _ _)
  rw [hlength, take_length, hhanded, hnew] at htexts
  exact hnot htexts

/-- **A file that is a sequence of complete commands is handed over command by command iff these are
    readable.** -/
theorem sourceLaw_iff (script : Script file) :
    script.SourceLaw ↔ ∀ c ∈ script.commands, c.Readable :=
  ⟨readable_of_law script, law_of_readable script⟩

def groupLines : List FileLine :=
  ["\x7b cat <<E\n", "\n", "E\n", "\x7d\n"].map fun line => ⟨line.toList, false⟩

def groupText : Text := groupLines.flatMap FileLine.text

def groupCommand : ScriptCommand where
  above := []
  lines := groupLines
  above_blank _ hline := nomatch hline
  starts := ⟨⟨"\x7b cat <<E\n".toList, false⟩, rfl, by decide⟩
  complete := by decide +kernel
  shortest front hfront := by
    have hall : ∀ front ∈ groupLines.inits, front ≠ [] → front ≠ groupLines →
        commandRequiresMoreInput (leastText front) ≠ .complete := by decide +kernel
    exact hall front ((List.mem_inits _ _).mpr hfront)

def groupScript : Script groupText where
  commands := [groupCommand]
  below := []
  below_blank _ hline := nomatch hline
  lines_eq := by decide

/-- **The blank line of the here-document is not handed over.** -/
theorem not_sourceLaw_group : ¬ ∀ (file : Text) (script : Script file), script.SourceLaw := by
  intro h
  have hreadable := readable_of_law groupScript (h _ groupScript) groupCommand mem_cons_self
  have hkeeps : (scanned (groupLines.take 1)).reported = true :=
    hreadable.2.keeps (groupLines.take 1) ⟨['\n'], false⟩ (List.take_prefix 2 groupLines) rfl
      (by decide)
  have hlost : (scanned (groupLines.take 1)).reported = false := by decide +kernel
  exact absurd (hlost.symm.trans hkeeps) Bool.false_ne_true

end Script

end Arksh
