/-
  Subject: Alias expansion as POSIX has it, and as `expand_aliases` does it.

  `expand_aliases` lexes the whole text in rounds, up to eight. A round replaces every plain word
  that is an alias and stands first or behind a `|`. Nothing keeps the names that are being
  expanded, and nothing tells the text of a here-document, the body of a block or a `case` pattern
  from commands.

  Here every character carries the names of the aliases whose text it came with. So it can be said
  which words may be replaced, and what becomes of a text.
-/
import Arksh.Lib.Splice
import Arksh.Shell.Line

namespace Arksh

open CText Scan Splices List Nat

/-! ## 1. Here-documents -/

def isValueToken (kind : ArkshTokenKind) : Bool :=
  kind = .word || kind = .string || kind = .procSubstIn || kind = .procSubstOut

def hereDelimiters : List ArkshToken → List (Text × Bool)
  | op :: word :: tokens =>
    if (op.kind = .heredoc ∨ op.kind = .heredocStrip) ∧ isValueToken word.kind = true then
      (word.text.1, decide (op.kind = .heredocStrip)) :: hereDelimiters (word :: tokens)
    else hereDelimiters (word :: tokens)
  | _ => []

def lineDelimiters (line : Text) : List (Text × Bool) :=
  match arkshLexLine line with
  | .ok stream => hereDelimiters stream.tokens
  | .error _ => []

def isDelimiterLine (delimiter : Text) (stripTabs : Bool) (line : Text) : Bool :=
  let line := if stripTabs then line.dropWhile (· = '\t') else line
  line = delimiter || line = delimiter ++ ['\r']

/-- Which lines belong to here-documents, where `pending` are still to come or to end. -/
def heredocLines : List (Text × Bool) → List Text → List Bool
  | _, [] => []
  | [], line :: lines => false :: heredocLines (lineDelimiters line) lines
  | (delimiter, stripTabs) :: pending, line :: lines =>
    true ::
      if isDelimiterLine delimiter stripTabs line then heredocLines pending lines
      else heredocLines ((delimiter, stripTabs) :: pending) lines

def inHeredoc (text : Text) (position : Nat) : Bool :=
  (heredocLines [] (text.splitOn '\n'))[(text.take position).count '\n']? = some true

/-! ## 2. Blocks and patterns -/

/-- The brackets that a text leaves open outside of quotes, innermost first; whether each begins a
    block. -/
def openBrackets : Quote → List Bool → Text → List Bool
  | _, brackets, [] => brackets
  | .single, brackets, c :: text =>
    openBrackets (if c = '\'' then .unquoted else .single) brackets text
  | .double, brackets, '\\' :: _ :: text => openBrackets .double brackets text
  | .double, brackets, c :: text =>
    openBrackets (if c = '"' then .unquoted else .double) brackets text
  | .unquoted, brackets, '\\' :: _ :: text => openBrackets .unquoted brackets text
  | .unquoted, brackets, c :: text =>
    if c = '\'' then openBrackets .single brackets text
    else if c = '"' then openBrackets .double brackets text
    else if c = '[' then openBrackets .unquoted (decide (text.head? = some ':') :: brackets) text
    else if c = ']' then openBrackets .unquoted brackets.tail text
    else openBrackets .unquoted brackets text

def inBlock (text : Text) (position : Nat) : Bool :=
  (openBrackets .unquoted [] (text.take position)).contains true

/-- Where one is in a `case` command: in front of `in`, where a branch or `esac` is due, in the
    patterns of a branch below open parentheses, or in its commands. -/
inductive CasePlace where
  | subject
  | branch
  | pattern (depth : Nat)
  | body

def commandOpeners : List Text :=
  ["if", "then", "elif", "else", "do", "while", "until", "\x7b", "!"].map String.toList

def startsCommand (text : Text) (previous : Option ArkshToken) (token : ArkshToken) : Bool :=
  match previous with
  | none => true
  | some before =>
    let stop := before.position + before.raw.1.length
    before.kind = .shellPipe || before.kind = .andIf || before.kind = .orIf ||
      before.kind = .sequence || before.kind = .background || before.kind = .lparen ||
      before.kind = .rparen || (tokenIsPlainWord before && commandOpeners.contains before.text.1) ||
      ((text.drop stop).take (token.position - stop)).contains '\n'

/-- The `case` commands around what follows a token, the innermost one first. -/
def caseStep (starts : Bool) (previous : Option ArkshTokenKind) (token : ArkshToken) :
    List CasePlace → List CasePlace
  | .subject :: outer =>
    if tokenIsPlainWord token ∧ token.text.1 = "in".toList then .branch :: outer
    else if token.kind = .sequence ∨ token.text.1 = "then".toList then outer
    else .subject :: outer
  | .branch :: outer =>
    if token.kind = .sequence then .branch :: outer
    else if tokenIsPlainWord token ∧ token.text.1 = "esac".toList then outer
    else .pattern 0 :: outer
  | .pattern depth :: outer =>
    if token.kind = .lparen then .pattern (depth + 1) :: outer
    else if token.kind = .rparen then
      if depth = 0 then .body :: outer else .pattern (depth - 1) :: outer
    else .pattern depth :: outer
  | places =>
    if starts ∧ tokenIsPlainWord token ∧ token.text.1 = "case".toList then .subject :: places
    else
      match places with
      | .body :: outer =>
        if starts ∧ tokenIsPlainWord token ∧ token.text.1 = "esac".toList then outer
        else if token.kind = .sequence ∧ previous = some .sequence then .branch :: outer
        else places
      | places => places

def patternPositions (text : Text) :
    List CasePlace → Option ArkshToken → List ArkshToken → List Nat
  | _, _, [] => []
  | places, previous, token :: tokens =>
    let positions := patternPositions text
      (caseStep (startsCommand text previous token) (previous.map ArkshToken.kind) token places)
      (some token) tokens
    match places with
    | .pattern _ :: _ => token.position :: positions
    | _ => positions

/-- The first word of the line starts with `#`. -/
def inComment (text : Text) (tokens : List ArkshToken) (position : Nat) : Bool :=
  tokens.any fun token =>
    token.raw.1.head? = some '#' && token.position ≤ position &&
      ((text.take token.position).rtakeWhile (· ≠ '\n')).all isspace &&
      !((text.drop token.position).take (position - token.position)).contains '\n'

def isShielded (text : Text) (tokens : List ArkshToken) (position : Nat) : Bool :=
  inHeredoc text position || inBlock text position || inComment text tokens position

/-- A word that stands first or behind a `|` is that of a command: in no here-document, block or
    comment, and no pattern. -/
def isCommandWord (text : Text) (tokens : List ArkshToken) (position : Nat) : Bool :=
  !isShielded text tokens position &&
    !(patternPositions text [] none
      (tokens.filter fun token => !isShielded text tokens token.position)).contains position

/-! ## 3. The words of a round -/

structure AliasWord where
  token : ArkshToken
  value : Text

/-- The words that `expand_aliases_once` replaces: plain words that are aliases, first or behind a
    `|`, and not in front of an arrow. -/
def aliasWords (aliases : Text → Option Text) :
    Option ArkshTokenKind → List ArkshToken → List AliasWord
  | _, [] => []
  | previous, token :: tokens =>
    if token.kind = .eof then []
    else if ¬ isCommandPosition previous ∨ ¬ tokenIsPlainWord token ∨
        tokens.head?.map ArkshToken.kind = some .arrow then
      aliasWords aliases (some token.kind) tokens
    else
      match aliases token.text.1 with
      | none => aliasWords aliases (some token.kind) tokens
      | some value => ⟨token, value⟩ :: aliasWords aliases (some token.kind) tokens

def AliasWord.stop (w : AliasWord) : Nat := w.token.position + w.token.raw.1.length

def AliasWord.edit (w : AliasWord) : Edit Char := ⟨w.token.position, w.stop, w.value⟩

def replaceWords (text : Text) (words : List AliasWord) : Text :=
  splice text 0 (words.map AliasWord.edit)

/-! ## 4. The expansion -/

abbrev AliasText := List (Char × List Text)

namespace AliasText

def text (m : AliasText) : Text := m.map Prod.fst

def ofLine (line : Text) : AliasText := line.map fun c => (c, [])

/-- The names that are being expanded at a position. -/
def activeAt (m : AliasText) (position : Nat) : List Text := ((m)[position]?.map Prod.snd).getD []

def edit (m : AliasText) (w : AliasWord) : Edit (Char × List Text) :=
  ⟨w.token.position, w.stop,
    w.value.map fun c => (c, w.token.text.1 :: m.activeAt w.token.position)⟩

def replace (m : AliasText) (words : List AliasWord) : AliasText := splice m 0 (words.map m.edit)

end AliasText

def Replaceable (m : AliasText) (tokens : List ArkshToken) (w : AliasWord) : Prop :=
  w.token.text.1 ∉ m.activeAt w.token.position ∧
    isCommandWord m.text tokens w.token.position = true

instance (m : AliasText) (tokens : List ArkshToken) (w : AliasWord) :
    Decidable (Replaceable m tokens w) :=
  inferInstanceAs (Decidable (_ ∧ _))

def posixWords (aliases : Text → Option Text) (m : AliasText) (tokens : List ArkshToken) :
    List AliasWord :=
  (aliasWords aliases none tokens).filter fun w => decide (Replaceable m tokens w)

/-- **Alias expansion**: at each level the words that may be replaced are; nothing else changes. -/
inductive PosixExpansion (aliases : Text → Option Text) :
    AliasText → List (List AliasWord) → Text → Prop where
  | done {m : AliasText} {stream : ArkshTokenStream} (lexes : arkshLexLine m.text = .ok stream)
      (none_left : posixWords aliases m stream.tokens = []) : PosixExpansion aliases m [] m.text
  | level {m : AliasText} {stream : ArkshTokenStream} {words : List AliasWord}
      {levels : List (List AliasWord)} {out : Text} (lexes : arkshLexLine m.text = .ok stream)
      (words_eq : posixWords aliases m stream.tokens = words) (some_left : words ≠ [])
      (rest : PosixExpansion aliases (m.replace words) levels out) :
      PosixExpansion aliases m (words :: levels) out

def replacedRounds (aliases : Text → Option Text) : Nat → Text → List (List AliasWord)
  | 0, _ => []
  | rounds + 1, current =>
    match arkshLexLine current with
    | .error _ => []
    | .ok stream =>
      let words := aliasWords aliases none stream.tokens
      if words.isEmpty then []
      else words :: replacedRounds aliases rounds (replaceWords current words)

def replacedWords (aliases : Text → Option Text) (line : Text) : List (List AliasWord) :=
  replacedRounds aliases 8 (copyString arkshMaxLine line)

/-- **The law**: `expand_aliases` ends without an error and replaces the words that are to be
    replaced. -/
def AliasLaw (aliases : Text → Option Text) (line : Text) : Prop :=
  ∃ levels out, expandAliases aliases line = .ok out ∧
    PosixExpansion aliases (.ofLine line) levels out ∧ replacedWords aliases line = levels

/-- At most `rounds` texts have to be looked at: each lexes, all aliases looked at may be replaced,
    and the next text fits. -/
def Settles (aliases : Text → Option Text) : Nat → AliasText → Prop
  | 0, _ => False
  | rounds + 1, m =>
    ∃ stream, arkshLexLine m.text = .ok stream ∧
      (∀ w ∈ aliasWords aliases none stream.tokens, Replaceable m stream.tokens w) ∧
      (aliasWords aliases none stream.tokens ≠ [] →
        (m.replace (posixWords aliases m stream.tokens)).text.length < arkshMaxLine ∧
          Settles aliases rounds (m.replace (posixWords aliases m stream.tokens)))

/-! ## 5. A round of the source -/

variable {aliases : Text → Option Text} {s : AliasState} {tokens : List ArkshToken}

theorem aliasWords_sublist (aliases : Text → Option Text) (previous : Option ArkshTokenKind)
    (tokens : List ArkshToken) :
    List.Sublist ((aliasWords aliases previous tokens).map AliasWord.token)
      (tokens.takeWhile fun token => token.kind ≠ .eof) := by
  induction tokens generalizing previous with
  | nil => exact List.Sublist.refl []
  | cons token tokens ih =>
    unfold aliasWords
    by_cases heof : token.kind = .eof
    · rw [if_pos heof]; exact nil_sublist _
    · have htake : (token :: tokens).takeWhile (fun token => token.kind ≠ .eof) =
          token :: tokens.takeWhile fun token => token.kind ≠ .eof :=
        takeWhile_cons_of_pos (decide_eq_true heof)
      rw [if_neg heof, htake]
      by_cases hskip : ¬ isCommandPosition previous ∨ ¬ tokenIsPlainWord token ∨
          tokens.head?.map ArkshToken.kind = some .arrow
      · rw [if_pos hskip]; exact (ih (some token.kind)).cons token
      · rw [if_neg hskip]
        cases aliases token.text.1 with
        | none => exact (ih (some token.kind)).cons token
        | some value => exact (ih (some token.kind)).cons_cons token

variable {stream : ArkshTokenStream} {line current out expanded : Text}

theorem aliasWords_ordered (aliases : Text → Option Text) (h : arkshLexLine line = .ok stream) :
    Ordered line.length 0 ((aliasWords aliases none stream.tokens).map AliasWord.edit) := by
  obtain ⟨⟨s, t⟩, hrun, hstream⟩ := map_ok.mp h
  obtain rfl : s.stream = stream := hstream
  obtain ⟨tokens, htokens, htiles, hkinds⟩ := lexScanner_tiles hrun (Nat.le_refl _)
  rw [show (LexState.mk line.length _ _).len - line.length = 0 from Nat.sub_self _] at htiles
  have htake : s.stream.tokens.takeWhile (fun token => token.kind ≠ .eof) = tokens := by
    have hall : ∀ token ∈ tokens, decide (token.kind ≠ .eof) = true :=
      fun token htoken => decide_eq_true (hkinds token htoken)
    rw [htokens]
    show (tokens ++ _).takeWhile _ = tokens
    rw [takeWhile_append_of_pos hall, takeWhile_cons_of_neg (by simp), append_nil]
  have hsub := aliasWords_sublist aliases none s.stream.tokens
  rw [htake] at hsub
  refine .of_pairwise AliasWord.edit (zero_le _) (fun w hw => ?_) ?_
  · have hmem : w.token ∈ tokens := hsub.subset (mem_map_of_mem hw)
    have hbounds := htiles.bounds w.token hmem
    have hend : w.stop ≤ line.length := by unfold AliasWord.stop; omega
    exact ⟨zero_le _, le_add_right _ _, hend⟩
  · exact pairwise_map.mp (htiles.pairwise.sublist hsub)

def aliasEnd (size : Nat) (line : Text) (s : AliasState) : Except String (Text × Bool) :=
  match appendSlice size s.expanded line s.lastPosition line.length with
  | none => .error aliasTooLong
  | some expanded => .ok (expanded, s.replaced)

variable {size : Nat}

/-- What is in the buffer stays, and what comes behind does not fit if its beginning does not. -/
theorem appendSlice_bind {dest value : Text} {start stop : Nat} (hstart : start ≤ stop)
    (hstop : stop ≤ line.length) :
    (appendSlice size dest line start stop).bind (appendText size · value) =
      if (dest ++ (line.drop start).take (stop - start) ++ value).length < size then
        some (dest ++ (line.drop start).take (stop - start) ++ value) else none := by
  have hslice : ((line.drop start).take (stop - start)).length = stop - start := by
    rw [length_take, length_drop]
    omega
  unfold appendSlice appendText
  rw [if_neg (not_lt.mpr hstart)]
  simp only [length_append, hslice]
  by_cases hroom : dest.length + (stop - start) + value.length < size
  · rw [if_neg (by omega), if_pos hroom]
    show (if _ then none else _) = _
    rw [length_append, hslice, if_neg (by omega)]
  · rw [if_neg hroom]
    by_cases hfirst : dest.length + (stop - start) ≥ size
    · rw [if_pos hfirst]; rfl
    · rw [if_neg hfirst]
      show (if _ then none else _) = _
      rw [length_append, hslice, if_pos (by omega)]

theorem aliasEnd_eq (h : s.lastPosition ≤ line.length) :
    aliasEnd size line s = if (s.expanded ++ line.drop s.lastPosition).length < size then
        .ok (s.expanded ++ line.drop s.lastPosition, s.replaced) else .error aliasTooLong := by
  have hall : (line.drop s.lastPosition).take (line.length - s.lastPosition) =
      line.drop s.lastPosition := take_of_length_le (by rw [length_drop])
  unfold aliasEnd appendSlice
  rw [if_neg (not_lt.mpr h), hall, length_append, length_drop]
  by_cases hroom : s.expanded.length + (line.length - s.lastPosition) < size
  · rw [if_neg (by omega), if_pos hroom]
  · rw [if_pos (by omega), if_neg hroom]

theorem aliasLoop_splice {previous : Option ArkshTokenKind} (h : Ordered line.length s.lastPosition
      ((aliasWords aliases previous tokens).map AliasWord.edit)) :
    (aliasLoop aliases size line previous s tokens).bind (aliasEnd size line) =
      let words := aliasWords aliases previous tokens
      let next := s.expanded ++ splice line s.lastPosition (words.map AliasWord.edit)
      if next.length < size then .ok (next, s.replaced || !words.isEmpty)
      else .error aliasTooLong := by
  induction tokens generalizing previous s with
  | nil =>
    unfold aliasLoop aliasWords
    show aliasEnd size line s = _
    rw [aliasEnd_eq h.le]
    simp [splice]
  | cons token tokens ih =>
    unfold aliasLoop
    unfold aliasWords at h ⊢
    by_cases heof : token.kind = .eof
    · rw [if_pos heof] at h ⊢
      rw [if_pos heof]
      show aliasEnd size line s = _
      rw [aliasEnd_eq h.le]
      simp [splice]
    rw [if_neg heof] at h ⊢
    rw [if_neg heof]
    by_cases hskip : ¬ isCommandPosition previous ∨ ¬ tokenIsPlainWord token ∨
        tokens.head?.map ArkshToken.kind = some .arrow
    · rw [if_pos hskip] at h ⊢
      rw [if_pos hskip]
      exact ih h
    rw [if_neg hskip] at h ⊢
    rw [if_neg hskip]
    cases hvalue : aliases token.text.1 with
    | none => rw [hvalue] at h; exact ih h
    | some value =>
      rw [hvalue] at h
      obtain ⟨hstart, hstop, hrest⟩ := h
      have hbehind : s.lastPosition ≤ token.position := hstart
      have hend : token.position ≤ line.length := le_trans hstop hrest.le
      dsimp only
      rw [appendSlice_bind hbehind hend]
      -- what does not fit before the end does not fit at the end either
      by_cases hroom : (s.expanded ++ (line.drop s.lastPosition).take
          (token.position - s.lastPosition) ++ value).length < size
      · rw [if_pos hroom]
        rw [ih hrest]
        simp only [map_cons, splice, AliasWord.edit, append_assoc, AliasWord.stop,
          isEmpty_cons, Bool.true_or, Bool.not_false, Bool.or_true]
      · rw [if_neg hroom, if_neg]
        · rfl
        · simp only [map_cons, splice, AliasWord.edit, length_append] at hroom ⊢; omega

/-- **A round of the source**: the words of the line are replaced, if the new line fits. -/
theorem expandAliasesOnce_eq (h : arkshLexLine line = .ok stream) :
    expandAliasesOnce aliases size line =
      let words := aliasWords aliases none stream.tokens
      if (replaceWords line words).length < size then
        .ok (replaceWords line words, !words.isEmpty)
      else .error aliasTooLong := by
  unfold expandAliasesOnce
  rw [h]
  have hordered : Ordered line.length (AliasState.mk [] 0 false).lastPosition
      ((aliasWords aliases none stream.tokens).map AliasWord.edit) := aliasWords_ordered aliases h
  exact aliasLoop_splice hordered

variable {rounds : Nat}

theorem aliasRounds_succ (hlex : arkshLexLine current = .ok stream)
    (hfits : current.length < arkshMaxLine) :
    aliasRounds aliases (rounds + 1) current =
      let words := aliasWords aliases none stream.tokens
      if words = [] then .ok current
      else if (replaceWords current words).length < arkshMaxLine then
        aliasRounds aliases rounds (replaceWords current words)
      else .error aliasTooLong := by
  rw [aliasRounds, expandAliasesOnce_eq hlex]
  dsimp only
  cases hwords : aliasWords aliases none stream.tokens with
  | nil =>
    have hsame : replaceWords current [] = current := rfl
    rw [hsame, if_pos hfits, if_pos rfl]
    exact congrArg Except.ok (copyString_of_lt hfits)
  | cons w words =>
    by_cases hnext : (replaceWords current (w :: words)).length < arkshMaxLine
    · rw [if_pos hnext, if_pos hnext]
      exact congrArg (aliasRounds aliases rounds) (copyString_of_lt hnext)
    · rw [if_neg hnext, if_neg hnext]; rfl

theorem aliasRounds_lexes (h : aliasRounds aliases rounds current = .ok out) :
    ∃ before stream, rounds = before + 1 ∧ arkshLexLine current = .ok stream := by
  cases rounds with
  | zero => cases h
  | succ rounds =>
    cases hlex : arkshLexLine current with
    | ok stream => exact ⟨rounds, stream, rfl, rfl⟩
    | error message => rw [aliasRounds, expandAliasesOnce, hlex] at h; cases h

theorem replacedRounds_succ (hlex : arkshLexLine current = .ok stream) :
    replacedRounds aliases (rounds + 1) current =
      let words := aliasWords aliases none stream.tokens
      if words = [] then []
      else words :: replacedRounds aliases rounds (replaceWords current words) := by
  rw [replacedRounds, hlex]
  dsimp only
  cases aliasWords aliases none stream.tokens with
  | nil | cons w words => rfl

/-! ## 6. The expansion and the rounds -/

theorem AliasText.text_ofLine (line : Text) : (AliasText.ofLine line).text = line := by
  unfold AliasText.ofLine AliasText.text
  rw [map_map]
  exact map_id line

theorem AliasText.text_replace (m : AliasText) (words : List AliasWord) :
    (m.replace words).text = replaceWords m.text words := by
  have hedit : ∀ w : AliasWord, (m.edit w).map Prod.fst = w.edit := by
    intro w
    have hnew : (w.value.map fun c => (c, w.token.text.1 :: m.activeAt w.token.position)).map
        Prod.fst = w.value := by
      rw [map_map]
      exact map_id w.value
    unfold AliasText.edit Edit.map AliasWord.edit
    rw [hnew]
  unfold AliasText.replace AliasText.text replaceWords
  rw [splice_map, map_map]
  exact congrArg _ (map_congr_left fun w _ => hedit w)

variable {m : AliasText}

theorem posixWords_eq_iff :
    posixWords aliases m tokens = aliasWords aliases none tokens ↔
      ∀ w ∈ aliasWords aliases none tokens, Replaceable m tokens w := by
  unfold posixWords
  rw [filter_eq_self]
  exact forall₂_congr fun w _ => decide_eq_true_iff

variable {levels : List (List AliasWord)}

/-- **What stands behind the part of the line that was copied is lost**: where the source replaces
    the same words, all of the rest is missing in the end. -/
theorem PosixExpansion.tail (h : PosixExpansion aliases m levels out) {tail : Text}
    (htext : m.text = current ++ tail) (hfits : current.length < arkshMaxLine)
    (hlevels : replacedRounds aliases rounds current = levels)
    (hrun : aliasRounds aliases rounds current = .ok expanded) : out = expanded ++ tail := by
  induction h generalizing rounds current with
  | @done m stream lexes none_left =>
    obtain ⟨rounds, stream, rfl, hlex⟩ := aliasRounds_lexes hrun
    rw [replacedRounds_succ hlex] at hlevels
    rw [aliasRounds_succ hlex hfits] at hrun
    by_cases hwords : aliasWords aliases none stream.tokens = []
    · rw [if_pos hwords] at hrun
      cases hrun
      exact htext
    · rw [if_neg hwords] at hlevels; cases hlevels
  | @level m stream words levels out lexes words_eq some_left rest ih =>
    obtain ⟨rounds, stream, rfl, hlex⟩ := aliasRounds_lexes hrun
    have hordered := aliasWords_ordered aliases hlex
    rw [replacedRounds_succ hlex] at hlevels
    rw [aliasRounds_succ hlex hfits] at hrun
    by_cases hwords : aliasWords aliases none stream.tokens = []
    · rw [if_pos hwords] at hlevels; cases hlevels
    · rw [if_neg hwords] at hlevels hrun
      obtain ⟨hsame, hlevels⟩ := cons.inj hlevels
      rw [hsame] at hlevels hrun hordered
      by_cases hnext : (replaceWords current words).length < arkshMaxLine
      · rw [if_pos hnext] at hrun
        refine ih ?_ hnext hlevels hrun
        rw [AliasText.text_replace, htext]
        exact splice_append current tail hordered
      · rw [if_neg hnext] at hrun; cases hrun

theorem PosixExpansion.settles (h : PosixExpansion aliases m levels out)
    (hfits : m.text.length < arkshMaxLine) (hlevels : replacedRounds aliases rounds m.text = levels)
    (hrun : aliasRounds aliases rounds m.text = .ok expanded) : Settles aliases rounds m := by
  induction h generalizing rounds with
  | @done m stream lexes none_left =>
    obtain ⟨rounds, _, rfl, _⟩ := aliasRounds_lexes hrun
    rw [replacedRounds_succ lexes] at hlevels
    have hwords : aliasWords aliases none stream.tokens = [] := by
      by_contra hsome
      rw [if_neg hsome] at hlevels
      cases hlevels
    refine ⟨stream, lexes, fun w hw => ?_, fun hsome => absurd hwords hsome⟩
    rw [hwords] at hw
    cases hw
  | @level m stream words levels out lexes words_eq some_left rest ih =>
    obtain ⟨rounds, _, rfl, _⟩ := aliasRounds_lexes hrun
    rw [replacedRounds_succ lexes] at hlevels
    rw [aliasRounds_succ lexes hfits] at hrun
    by_cases hwords : aliasWords aliases none stream.tokens = []
    · rw [if_pos hwords] at hlevels; cases hlevels
    · rw [if_neg hwords] at hlevels hrun
      obtain ⟨hsame, hlevels⟩ := cons.inj hlevels
      rw [hsame] at hlevels hrun
      by_cases hnext : (replaceWords m.text words).length < arkshMaxLine
      · rw [if_pos hnext] at hrun
        rw [← AliasText.text_replace] at hlevels hrun hnext
        refine ⟨stream, lexes, posixWords_eq_iff.mp (words_eq.trans hsame.symm), fun _ => ?_⟩
        rw [words_eq]
        exact ⟨hnext, ih hnext hlevels hrun⟩
      · rw [if_neg hnext] at hrun; cases hrun

theorem Settles.expands (h : Settles aliases rounds m) (hfits : m.text.length < arkshMaxLine) :
    ∃ levels out, aliasRounds aliases rounds m.text = .ok out ∧
      PosixExpansion aliases m levels out ∧ replacedRounds aliases rounds m.text = levels := by
  induction rounds generalizing m with
  | zero => cases h
  | succ rounds ih =>
    obtain ⟨stream, hlex, hall, hnext⟩ := h
    have hposix := posixWords_eq_iff.mpr hall
    rw [aliasRounds_succ hlex hfits, replacedRounds_succ hlex]
    by_cases hwords : aliasWords aliases none stream.tokens = []
    · rw [if_pos hwords, if_pos hwords]
      exact ⟨[], m.text, rfl, .done hlex (hposix.trans hwords), rfl⟩
    · obtain ⟨hlength, hsettles⟩ := hnext hwords
      obtain ⟨levels, out, hrun, hexpansion, hlevels⟩ := ih hsettles hlength
      rw [hposix, AliasText.text_replace] at hlength hrun hlevels
      rw [hposix] at hexpansion
      rw [if_neg hwords, if_neg hwords, if_pos hlength]
      exact ⟨_ :: levels, out, hrun, .level hlex hposix hwords hexpansion,
        congrArg _ hlevels⟩

/-! ## 7. The law -/

/-- **Aliases are expanded as they should be iff the line fits and settles within eight rounds.** -/
theorem aliasLaw_iff (aliases : Text → Option Text) (line : Text) : AliasLaw aliases line ↔
      line.length < arkshMaxLine ∧ Settles aliases 8 (.ofLine line) := by
  unfold AliasLaw expandAliases replacedWords
  constructor
  · intro ⟨levels, out, hrun, hexpansion, hlevels⟩
    have hcopied := copyString_length_lt_maxLine line
    have htail : (AliasText.ofLine line).text =
        copyString arkshMaxLine line ++ line.drop (arkshMaxLine - 1) := by
      rw [AliasText.text_ofLine]
      exact (take_append_drop _ _).symm
    have hout := hexpansion.tail htail hcopied hlevels hrun
    have hnil : line.drop (arkshMaxLine - 1) = [] := self_eq_append_right.mp hout
    have hlength : line.length < arkshMaxLine := by have hle := drop_eq_nil_iff.mp hnil; omega
    refine ⟨hlength, ?_⟩
    rw [copyString_of_lt hlength] at hlevels hrun
    rw [← AliasText.text_ofLine line] at hlength hlevels hrun
    exact hexpansion.settles hlength hlevels hrun
  · intro ⟨hlength, hsettles⟩
    rw [copyString_of_lt hlength]
    rw [← AliasText.text_ofLine line] at hlength
    have hexpands := hsettles.expands hlength
    rw [AliasText.text_ofLine] at hexpands
    exact hexpands

def colourAlias (name : Text) : Option Text :=
  if name = "ls".toList then some "ls --color".toList else none

/-- **`ls` is expanded until the rounds are used up.** -/
theorem not_aliasLaw_self : ¬ ∀ aliases line, AliasLaw aliases line := by
  intro h
  obtain ⟨levels, out, hrun, _⟩ := h colourAlias "ls".toList
  have hfails : (expandAliases colourAlias "ls".toList).isOk = false := by decide
  rw [hrun] at hfails
  cases hfails

/-- The `ls` in the text of the alias is to stay. -/
example : (arkshLexLine "ls --color".toList).toOption.map (fun stream =>
    (posixWords colourAlias ("ls --color".toList.map fun c => (c, ["ls".toList]))
      stream.tokens).length) = some 0 := by decide

/-- So is the one in a here-document. -/
example : (arkshLexLine "cat <<E\nx | ls\nE".toList).toOption.map (fun stream =>
    (posixWords colourAlias (.ofLine "cat <<E\nx | ls\nE".toList) stream.tokens).length) =
      some 0 := by decide

end Arksh
