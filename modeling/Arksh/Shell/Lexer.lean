/-
  Subject: `src/lexer.c`: the scanners of words, expansions and process substitutions.

  Every scanner is a loop over what is left of the line. It fills two buffers of 256 bytes, `raw`
  (the characters as they stand in the line) and `cooked` (what they mean), and gives up where an
  append does not fit. A line is the list of its characters before the NUL; `line[*index]` is the
  head of what is left of it, and a test of `*index + k < len` is a match on what is left.
-/
import Arksh.Lib.Scan
import Arksh.Object.Value

namespace Arksh

open CText Scan List

/-! ## 1. Buffers -/

variable {c : Char} {text : Text} {mode : Bool} {start : Nat}

abbrev TokenText := {text : Text // text.length < arkshMaxToken}

instance : Inhabited TokenText := ⟨⟨[], by decide⟩⟩

/-- `append_char`, for a buffer of 256 bytes. -/
def appendTokenChar (label : String) (buf : TokenText) (c : Char) : Except String TokenText :=
  if h : buf.1.length + 1 < arkshMaxToken then .ok ⟨buf.1 ++ [c], by simpa using h⟩
  else .error (label ++ " too long")

/-- A row of `append_char` calls. -/
def appendTokenText (label : String) : TokenText → Text → Except String TokenText
  | buf, [] => .ok buf
  | buf, c :: cs => (appendTokenChar label buf c).bind fun buf => appendTokenText label buf cs

variable {label : String}

theorem appendTokenChar_ok {buf buf' : TokenText} (h : appendTokenChar label buf c = .ok buf') :
    buf'.1 = buf.1 ++ [c] := by
  unfold appendTokenChar at h
  split at h
  · cases h; rfl
  · cases h

variable {cs t' t : Text}

theorem appendTokenText_ok :
    ∀ {buf buf' : TokenText}, appendTokenText label buf cs = .ok buf' → buf'.1 = buf.1 ++ cs := by
  induction cs with
  | nil =>
    intro buf buf' h
    cases h
    exact (append_nil _).symm
  | cons c cs ih =>
    intro buf buf' h
    obtain ⟨b, hb, h⟩ := bind_ok.mp h
    rw [ih h, appendTokenChar_ok hb, append_assoc]
    rfl

structure Buffers where
  cooked : TokenText
  raw : TokenText
  deriving Inhabited

variable {b b' bufs bufs' : Buffers}

namespace Buffers

/-- What has been read so far. -/
def seen (b : Buffers) : Text := b.raw.1

def pushRaw (b : Buffers) (cs : Text) : Except String Buffers :=
  (appendTokenText "raw token" b.raw cs).bind fun raw => .ok { b with raw }

def pushCooked (b : Buffers) (label : String) (cs : Text) : Except String Buffers :=
  (appendTokenText label b.cooked cs).bind fun cooked => .ok { b with cooked }

def push (b : Buffers) (cs : Text) : Except String Buffers :=
  (b.pushRaw cs).bind fun b => b.pushCooked "word token" cs

theorem pushRaw_seen (h : b.pushRaw cs = .ok b') : b'.seen = b.seen ++ cs := by
  obtain ⟨raw, hraw, h⟩ := bind_ok.mp h
  cases h
  exact appendTokenText_ok hraw

theorem pushCooked_seen (h : b.pushCooked label cs = .ok b') : b'.seen = b.seen := by
  obtain ⟨cooked, -, h⟩ := bind_ok.mp h
  cases h
  rfl

theorem push_seen (h : b.push cs = .ok b') : b'.seen = b.seen ++ cs := by
  obtain ⟨b₁, h₁, h⟩ := bind_ok.mp h
  rw [pushCooked_seen h, pushRaw_seen h₁]

end Buffers

/-- The variable `quote` of the scanners: `'\0'`, `'\''` or `'"'`. -/
inductive Quote where
  | unquoted | single | double
  deriving DecidableEq

/-! ## 2. Arithmetic expansions -/

variable {rest : Text}

structure ArithState where
  depth : Nat
  quote : Quote
  bufs : Buffers

/-- Append to both buffers and go on. -/
def ArithState.take (s : ArithState) (cs : Text) (quote : Quote) (depth : Nat) (rest : Text) :
    Except String (Turn ArithState) :=
  (s.bufs.push cs).bind fun bufs => .ok (.more ⟨depth, quote, bufs⟩ rest)

/-- A backslash and the character behind it, both kept. -/
def ArithState.escape (s : ArithState) (rest : Text) : Except String (Turn ArithState) :=
  (s.bufs.push ['\\']).bind fun bufs =>
    match rest with
    | [] => .error "dangling escape in arithmetic expansion"
    | e :: rest => (bufs.push [e]).bind fun bufs => .ok (.more { s with bufs } rest)

/-- The body of the loop of `scan_arithmetic_expansion`. -/
def arithStep (s : ArithState) (c : Char) (rest : Text) : Except String (Turn ArithState) :=
  match s.quote with
  | .unquoted =>
    if c = '\'' then s.take [c] .single s.depth rest
    else if c = '"' then s.take [c] .double s.depth rest
    else if c = '\\' then s.escape rest
    else
      match c, rest with
      | '$', '(' :: '(' :: rest => s.take ['$', '(', '('] .unquoted (s.depth + 1) rest
      | ')', ')' :: rest =>
        (s.bufs.push [')', ')']).bind fun bufs =>
          if s.depth - 1 = 0 then .ok (.stop { s with depth := 0, bufs } rest)
          else .ok (.more { s with depth := s.depth - 1, bufs } rest)
      | c, rest => s.take [c] .unquoted s.depth rest
  | .single => s.take [c] (if c = '\'' then .unquoted else .single) s.depth rest
  | .double =>
    if c = '\\' then s.escape rest
    else s.take [c] (if c = '"' then .unquoted else .double) s.depth rest

/-- What a state of the loop has read. -/
def ArithState.seen (s : ArithState) : Text := s.bufs.seen

variable {quote : Quote} {depth : Nat}

theorem ArithState.take_reads {s : ArithState} {seg rest : Text} {turn : Turn ArithState}
    (h : s.take (c :: seg) quote depth rest = .ok turn) : turn.Reads seen s c (seg ++ rest) := by
  obtain ⟨bufs, hb, h⟩ := bind_ok.mp h
  cases h
  exact ⟨seg, rfl, Buffers.push_seen hb⟩

theorem ArithState.escape_reads {s : ArithState} {turn : Turn ArithState}
    (h : s.escape rest = .ok turn) : turn.Reads seen s '\\' rest := by
  obtain ⟨bufs, hb, h⟩ := bind_ok.mp h
  cases rest with
  | nil => cases h
  | cons e rest =>
    obtain ⟨bufs', hb', h⟩ := bind_ok.mp h
    cases h
    refine ⟨[e], rfl, ?_⟩
    show bufs'.seen = s.bufs.seen ++ ['\\', e]
    rw [Buffers.push_seen hb', Buffers.push_seen hb, append_assoc]
    rfl

theorem arithStep_reads {s : ArithState} {turn : Turn ArithState}
    (h : arithStep s c rest = .ok turn) : turn.Reads ArithState.seen s c rest := by
  unfold arithStep at h
  split at h
  · -- outside quotes
    split at h
    · exact s.take_reads h
    split at h
    · exact s.take_reads h
    split at h
    · rename_i hc
      rw [hc]
      exact s.escape_reads h
    split at h
    · exact s.take_reads h
    · obtain ⟨bufs, hb, h⟩ := bind_ok.mp h
      have hseen := Buffers.push_seen hb
      split at h
      · cases h; exact ⟨[')', ')'], rfl, hseen⟩
      · cases h; exact ⟨[')'], rfl, hseen⟩
    · exact s.take_reads h
  · exact s.take_reads h
  · split at h
    · rename_i hc
      rw [hc]
      exact s.escape_reads h
    · exact s.take_reads h

def arithScanner : Scanner ArithState String where
  step := arithStep
  atEnd _ := .error "unterminated arithmetic expansion"
  shortens h := (arithStep_reads h).shortens

def scanArithmeticExpansion (bufs : Buffers) (text : Text) : Except String (Buffers × Text) :=
  match text with
  | '$' :: '(' :: '(' :: rest =>
    (bufs.push ['$', '(', '(']).bind fun bufs =>
      (arithScanner.run ⟨1, .unquoted, bufs⟩ rest).map fun (s, rest) => (s.bufs, rest)
  | _ => .error "invalid arithmetic expansion start"

theorem scanArithmeticExpansion_took {rest : Text}
    (h : scanArithmeticExpansion bufs text = .ok (bufs', rest)) :
    ∃ c seg, text = c :: (seg ++ rest) ∧ bufs'.seen = bufs.seen ++ c :: seg := by
  unfold scanArithmeticExpansion at h
  split at h
  · rename_i text
    obtain ⟨b, hb, h⟩ := bind_ok.mp h
    obtain ⟨⟨s, t⟩, hrun, h⟩ := map_ok.mp h
    cases h
    obtain ⟨seg, rfl, hseg⟩ := arithScanner.run_took (fun hend => by cases hend) arithStep_reads hrun
    refine ⟨'$', '(' :: '(' :: seg, rfl, ?_⟩
    rw [show s.bufs.seen = b.seen ++ seg from hseg, Buffers.push_seen hb, append_assoc]
    rfl
  · cases h

/-! ## 3. Command substitutions -/

structure CommandState where
  depth : Nat
  quote : Quote
  bufs : Buffers

def CommandState.seen (s : CommandState) : Text := s.bufs.seen

/-- The end of the loop body: append to both buffers, and leave where the depth is 0. -/
def CommandState.take (s : CommandState) (c : Char) (quote : Quote) (depth : Nat) (rest : Text) :
    Except String (Turn CommandState) :=
  (s.bufs.push [c]).bind fun bufs =>
    if quote = .unquoted ∧ depth = 0 then .ok (.stop ⟨depth, quote, bufs⟩ rest)
    else .ok (.more ⟨depth, quote, bufs⟩ rest)

/-- A backslash goes to `raw` only; the character behind it goes to both. -/
def CommandState.escape (s : CommandState) (rest : Text) : Except String (Turn CommandState) :=
  (s.bufs.pushRaw ['\\']).bind fun bufs =>
    match rest with
    | [] => .error "dangling escape in command substitution"
    | e :: rest => CommandState.take { s with bufs } e s.quote s.depth rest

/-- The body of the loop over a command substitution in `scan_word_token`. -/
def commandStep (s : CommandState) (c : Char) (rest : Text) : Except String (Turn CommandState) :=
  match s.quote with
  | .unquoted =>
    if c = '\'' then s.take c .single s.depth rest
    else if c = '"' then s.take c .double s.depth rest
    else if c = '\\' then s.escape rest
    else if c = '$' ∧ rest.head? = some '(' then s.take c .unquoted (s.depth + 1) rest
    else if c = ')' then s.take c .unquoted (s.depth - 1) rest
    else s.take c .unquoted s.depth rest
  | .single => s.take c (if c = '\'' then .unquoted else .single) s.depth rest
  | .double =>
    if c = '\\' then s.escape rest
    else s.take c (if c = '"' then .unquoted else .double) s.depth rest

variable {turn : Turn CommandState} {s : CommandState}

theorem CommandState.take_reads (h : s.take c quote depth rest = .ok turn) :
    turn.Reads seen s c rest := by
  obtain ⟨bufs, hb, h⟩ := bind_ok.mp h
  have hseen := Buffers.push_seen hb
  split at h
  · cases h; exact ⟨[c], rfl, hseen⟩
  · cases h; exact ⟨[], rfl, hseen⟩

theorem CommandState.escape_reads (h : s.escape rest = .ok turn) : turn.Reads seen s '\\' rest := by
  obtain ⟨bufs, hb, h⟩ := bind_ok.mp h
  cases rest with
  | nil => cases h
  | cons e rest => exact Turn.Reads.after (CommandState.take_reads h) (Buffers.pushRaw_seen hb)

theorem commandStep_reads (h : commandStep s c rest = .ok turn) :
    turn.Reads CommandState.seen s c rest := by
  unfold commandStep at h
  split at h
  · split at h
    · exact s.take_reads h
    split at h
    · exact s.take_reads h
    split at h
    · rename_i hc
      rw [hc]
      exact s.escape_reads h
    split at h
    · exact s.take_reads h
    split at h <;> exact s.take_reads h
  · exact s.take_reads h
  · split at h
    · rename_i hc
      rw [hc]
      exact s.escape_reads h
    · exact s.take_reads h

def commandScanner : Scanner CommandState String where
  step := commandStep
  atEnd s := if s.depth ≠ 0 then .error "unterminated command substitution" else .ok s
  shortens h := (commandStep_reads h).shortens

/-- The branch of `scan_word_token` behind `$(`. -/
def scanCommandSubstitution (bufs : Buffers) (rest : Text) : Except String (Buffers × Text) :=
  (bufs.push ['$', '(']).bind fun bufs =>
    (commandScanner.run ⟨1, .unquoted, bufs⟩ rest).map fun (s, rest) => (s.bufs, rest)

theorem scanCommandSubstitution_took {rest : Text}
    (h : scanCommandSubstitution bufs text = .ok (bufs', rest)) :
    ∃ seg, text = seg ++ rest ∧ bufs'.seen = bufs.seen ++ '$' :: '(' :: seg := by
  obtain ⟨b, hb, h⟩ := bind_ok.mp h
  obtain ⟨⟨s, t⟩, hrun, h⟩ := map_ok.mp h
  cases h
  have htook : Took CommandState.seen ⟨1, .unquoted, b⟩ text s rest := by
    refine commandScanner.run_took ?_ commandStep_reads hrun
    intro s s' hend
    change (if s.depth ≠ 0 then _ else _) = _ at hend
    split at hend
    · cases hend
    · cases hend; rfl
  obtain ⟨seg, rfl, hseg⟩ := htook
  refine ⟨seg, rfl, ?_⟩
  rw [show s.bufs.seen = b.seen ++ seg from hseg, Buffers.push_seen hb, append_assoc]
  rfl

/-! ## 4. Quoted parts of a word -/

/-- The body of the loop behind an opening quote, with its end at the closing one. -/
def quoteStep (quote : Char) (bufs : Buffers) (c : Char) (rest : Text) :
    Except String (Turn Buffers) :=
  if c = quote then (bufs.pushRaw [c]).bind fun bufs => .ok (.stop bufs rest)
  else if quote = '"' ∧ c = '\\' then
    (bufs.pushRaw [c]).bind fun bufs =>
      match rest with
      | [] => .error "dangling escape inside double quotes"
      | e :: rest => (bufs.pushRaw [e]).bind fun bufs =>
          (bufs.pushCooked "string token" [e]).bind fun bufs => .ok (.more bufs rest)
  else (bufs.pushRaw [c]).bind fun bufs =>
    (bufs.pushCooked "string token" [c]).bind fun bufs => .ok (.more bufs rest)

theorem quoteStep_reads {quote : Char} {turn : Turn Buffers}
    (h : quoteStep quote bufs c rest = .ok turn) : turn.Reads Buffers.seen bufs c rest := by
  unfold quoteStep at h
  split at h
  · obtain ⟨b, hb, h⟩ := bind_ok.mp h
    cases h
    exact ⟨[c], rfl, Buffers.pushRaw_seen hb⟩
  split at h
  · obtain ⟨b, hb, h⟩ := bind_ok.mp h
    cases rest with
    | nil => cases h
    | cons e rest =>
      obtain ⟨b₁, hb₁, h⟩ := bind_ok.mp h
      obtain ⟨b₂, hb₂, h⟩ := bind_ok.mp h
      cases h
      refine ⟨[e], rfl, ?_⟩
      rw [Buffers.pushCooked_seen hb₂, Buffers.pushRaw_seen hb₁, Buffers.pushRaw_seen hb,
        append_assoc]
      rfl
  · obtain ⟨b₁, hb₁, h⟩ := bind_ok.mp h
    obtain ⟨b₂, hb₂, h⟩ := bind_ok.mp h
    cases h
    refine Turn.Reads.one ?_
    rw [Buffers.pushCooked_seen hb₂, Buffers.pushRaw_seen hb₁]

def quoteScanner (quote : Char) : Scanner Buffers String where
  step := quoteStep quote
  atEnd _ := .error "unterminated string"
  shortens h := (quoteStep_reads h).shortens

/-- The branch of `scan_word_token` at an opening quote. -/
def scanQuoted (bufs : Buffers) (quote : Char) (rest : Text) : Except String (Buffers × Text) :=
  (bufs.pushRaw [quote]).bind fun bufs => (quoteScanner quote).run bufs rest

theorem scanQuoted_took {quote : Char} {rest : Text}
    (h : scanQuoted bufs quote text = .ok (bufs', rest)) :
    ∃ seg, text = seg ++ rest ∧ bufs'.seen = bufs.seen ++ quote :: seg := by
  obtain ⟨b, hb, h⟩ := bind_ok.mp h
  obtain ⟨seg, rfl, hseg⟩ :=
    (quoteScanner quote).run_took (fun hend => by cases hend) quoteStep_reads h
  refine ⟨seg, rfl, ?_⟩
  rw [hseg, Buffers.pushRaw_seen hb, append_assoc]
  rfl

/-! ## 5. Words -/

inductive ArkshTokenKind where
  | eof | word | string | arrow | objectPipe | shellPipe
  | redirectIn | redirectOut | redirectAppend
  | procSubstIn | procSubstOut
  | hereString | heredoc | heredocStrip
  | redirectError | redirectErrorAppend | redirectErrorToOutput
  | redirectFdIn | redirectFdOut | redirectFdAppend | redirectDupIn | redirectDupOut
  | andIf | orIf | sequence | background
  | lparen | rparen | comma
  deriving DecidableEq

structure ArkshToken where
  kind : ArkshTokenKind
  text : TokenText
  raw : TokenText
  position : Nat

def matchFdRedirectionToken (text : Text) : Option (ArkshTokenKind × Nat) :=
  match text with
  | [] => none
  | d :: _ =>
    if isdigit d then
      let digits := (text.takeWhile isdigit).length
      match text.dropWhile isdigit with
      | '>' :: '&' :: _ => some (.redirectDupOut, digits + 2)
      | '<' :: '&' :: _ => some (.redirectDupIn, digits + 2)
      | '>' :: '>' :: _ => some (.redirectFdAppend, digits + 2)
      | '>' :: _ => some (.redirectFdOut, digits + 1)
      | '<' :: _ => some (.redirectFdIn, digits + 1)
      | _ => none
    else none

def isSpecialTokenStart (text : Text) : Bool :=
  (matchFdRedirectionToken text).isSome ||
    match text with
    | '<' :: '(' :: _ => true
    | '>' :: '(' :: _ => true
    | '|' :: '>' :: _ => true
    | '|' :: '|' :: _ => true
    | '-' :: '>' :: _ => true
    | '&' :: '&' :: _ => true
    | '2' :: '>' :: '&' :: '1' :: _ => true
    | '2' :: '>' :: '>' :: _ => true
    | '2' :: '>' :: _ => true
    | '<' :: '<' :: '-' :: _ => true
    | '<' :: '<' :: _ => true
    | c :: _ => c = '|' || c = '&' || c = ';' || c = '<' || c = '>' || c = '(' || c = ')' || c = ','
    | [] => false

/-- What ends a word between `[[` and `]]`. -/
def isConditionalTokenStart (text : Text) : Bool :=
  match text with
  | ']' :: ']' :: _ => true
  | '&' :: '&' :: _ => true
  | '|' :: '|' :: _ => true
  | c :: _ => c = '!' || c = '(' || c = ')'
  | [] => false

def endsWord (conditionalMode : Bool) (text : Text) : Bool :=
  if conditionalMode then isConditionalTokenStart text else isSpecialTokenStart text

structure WordState where
  sawAny : Bool
  bufs : Buffers

def WordState.seen (s : WordState) : Text := s.bufs.seen

/-- The body of the loop of `scan_word_token`. -/
def wordStep (conditionalMode : Bool) (s : WordState) (c : Char) (rest : Text) :
    Except String (Turn WordState) :=
  match c, rest with
  | '$', '(' :: '(' :: rest =>
    (scanArithmeticExpansion s.bufs ('$' :: '(' :: '(' :: rest)).map fun (bufs, rest) =>
      .more ⟨true, bufs⟩ rest
  | '$', '(' :: rest =>
    (scanCommandSubstitution s.bufs rest).map fun (bufs, rest) => .more ⟨true, bufs⟩ rest
  | c, rest =>
    if isspace c then .ok (.stop s (c :: rest))
    else if endsWord conditionalMode (c :: rest) then .ok (.stop s (c :: rest))
    else if c = '\\' then
      (s.bufs.pushRaw [c]).bind fun bufs =>
        match rest with
        | [] => .error "dangling escape at end of line"
        | e :: rest => (bufs.push [e]).bind fun bufs => .ok (.more ⟨true, bufs⟩ rest)
    else if c = '\'' ∨ c = '"' then
      (scanQuoted s.bufs c rest).map fun (bufs, rest) => .more ⟨true, bufs⟩ rest
    else (s.bufs.push [c]).bind fun bufs => .ok (.more ⟨true, bufs⟩ rest)

variable {s s' : WordState} {token : ArkshToken}

theorem wordStep_reads {turn : Turn WordState} (h : wordStep mode s c rest = .ok turn) :
    turn.Reads WordState.seen s c rest := by
  unfold wordStep at h
  split at h
  · obtain ⟨⟨bufs, t⟩, hscan, h⟩ := map_ok.mp h
    cases h
    obtain ⟨c, seg, htext, hseg⟩ := scanArithmeticExpansion_took hscan
    obtain ⟨rfl, htail⟩ := cons.inj htext
    exact ⟨seg, htail, hseg⟩
  · obtain ⟨⟨bufs, t⟩, hscan, h⟩ := map_ok.mp h
    cases h
    obtain ⟨seg, rfl, hseg⟩ := scanCommandSubstitution_took hscan
    exact ⟨'(' :: seg, rfl, hseg⟩
  split at h
  · cases h; exact Took.of_eq rfl
  split at h
  · cases h; exact Took.of_eq rfl
  split at h
  · obtain ⟨b, hb, h⟩ := bind_ok.mp h
    cases rest with
    | nil => cases h
    | cons e rest =>
      obtain ⟨b', hb', h⟩ := bind_ok.mp h
      cases h
      have hone : (Turn.more (⟨true, b'⟩ : WordState) rest).Reads WordState.seen ⟨true, b⟩ e rest :=
        Turn.Reads.one (Buffers.push_seen hb')
      exact hone.after (Buffers.pushRaw_seen hb)
  split at h
  · obtain ⟨⟨bufs, t⟩, hscan, h⟩ := map_ok.mp h
    cases h
    obtain ⟨seg, rfl, hseg⟩ := scanQuoted_took hscan
    exact ⟨seg, rfl, hseg⟩
  · obtain ⟨b, hb, h⟩ := bind_ok.mp h
    cases h
    exact Turn.Reads.one (Buffers.push_seen hb)

def wordScanner (conditionalMode : Bool) : Scanner WordState String where
  step := wordStep conditionalMode
  atEnd s := .ok s
  shortens h := (wordStep_reads h).shortens

def scanWordToken (conditionalMode : Bool) (text : Text) (start : Nat) :
    Except String (ArkshToken × Text) :=
  ((wordScanner conditionalMode).run ⟨false, default⟩ text).bind fun (s, rest) =>
    if s.sawAny then .ok (⟨.word, s.bufs.cooked, s.bufs.raw, start⟩, rest)
    else .error ("invalid token at position " ++ toString start)

theorem wordStep_stop {rest : Text} (h : wordStep mode s c rest = .ok (.stop s' t')) :
    s' = s ∧ t' = c :: rest := by
  unfold wordStep at h
  split at h
  · obtain ⟨_, _, h⟩ := map_ok.mp h; cases h
  · obtain ⟨_, _, h⟩ := map_ok.mp h; cases h
  split at h
  · cases h; exact ⟨rfl, rfl⟩
  split at h
  · cases h; exact ⟨rfl, rfl⟩
  split at h
  · obtain ⟨_, _, h⟩ := bind_ok.mp h
    split at h
    · cases h
    · obtain ⟨_, _, h⟩ := bind_ok.mp h; cases h
  split at h
  · obtain ⟨_, _, h⟩ := map_ok.mp h; cases h
  · obtain ⟨_, _, h⟩ := bind_ok.mp h; cases h

theorem wordScanner_took (h : (wordScanner mode).run s t = .ok (s', t')) :
    Took WordState.seen s t s' t' := by
  refine (wordScanner mode).run_took ?_ wordStep_reads h
  intro s s' hend
  cases hend
  rfl

theorem wordScanner_sawAny (h : (wordScanner mode).run s t = .ok (s', t')) (hs : s'.sawAny = true) :
    s.sawAny = true ∨ t'.length < t.length := by
  refine (wordScanner mode).run_flag ?_ ?_ h hs
  · intro s s' hend
    cases hend
    rfl
  · intro s c t s' t' hstep
    obtain ⟨rfl, rfl⟩ := wordStep_stop hstep
    exact ⟨rfl, Nat.le_refl _⟩

/-- What a scanner does to the line: the token has its kind, stands at `start`, and its `raw` is
    what was read. -/
structure TokenRead (kind : ArkshTokenKind) (text : Text) (start : Nat) (token : ArkshToken)
    (rest : Text) : Prop where
  kind_eq : token.kind = kind
  position_eq : token.position = start
  text_eq : text = token.raw.1 ++ rest
  raw_ne : token.raw.1 ≠ []

theorem scanWordToken_took {rest : Text} (h : scanWordToken mode text start = .ok (token, rest)) :
    TokenRead .word text start token rest := by
  obtain ⟨⟨s, t⟩, hrun, h⟩ := bind_ok.mp h
  dsimp only at h
  split at h
  · rename_i hsaw
    cases h
    obtain ⟨seg, rfl, hseg⟩ := wordScanner_took hrun
    have hraw : s.bufs.raw.1 = seg := hseg
    refine ⟨rfl, rfl, by rw [hraw], ?_⟩
    rcases wordScanner_sawAny hrun hsaw with hfalse | hlt
    · cases hfalse
    · intro hnil
      rw [← hraw, hnil] at hlt
      exact absurd hlt (Nat.lt_irrefl _)
  · cases h

/-! ## 6. Process substitutions -/

structure ProcessState where
  depth : Nat
  quote : Quote
  bufs : Buffers

def ProcessState.seen (s : ProcessState) : Text := s.bufs.seen

/-- The end of the loop body. The parenthesis that closes the substitution goes to `raw` only. -/
def ProcessState.take (s : ProcessState) (c : Char) (quote : Quote) (depth : Nat) (rest : Text) :
    Except String (Turn ProcessState) :=
  (s.bufs.pushRaw [c]).bind fun bufs =>
    if depth = 0 then .ok (.stop ⟨depth, quote, bufs⟩ rest)
    else (bufs.pushCooked "word token" [c]).bind fun bufs =>
      .ok (.more ⟨depth, quote, bufs⟩ rest)

def ProcessState.escape (s : ProcessState) (rest : Text) : Except String (Turn ProcessState) :=
  (s.bufs.push ['\\']).bind fun bufs =>
    match rest with
    | [] => .error "dangling escape in process substitution"
    | e :: rest => ProcessState.take { s with bufs } e s.quote s.depth rest

/-- The body of the loop of `scan_process_substitution_token`. -/
def processStep (s : ProcessState) (c : Char) (rest : Text) : Except String (Turn ProcessState) :=
  match s.quote with
  | .unquoted =>
    if c = '\'' then s.take c .single s.depth rest
    else if c = '"' then s.take c .double s.depth rest
    else if c = '\\' then s.escape rest
    else if c = '(' then s.take c .unquoted (s.depth + 1) rest
    else if c = ')' then s.take c .unquoted (s.depth - 1) rest
    else s.take c .unquoted s.depth rest
  | .single => s.take c (if c = '\'' then .unquoted else .single) s.depth rest
  | .double =>
    if c = '\\' then s.escape rest
    else s.take c (if c = '"' then .unquoted else .double) s.depth rest

variable {turn : Turn ProcessState}

theorem ProcessState.take_reads {s : ProcessState} (h : s.take c quote depth rest = .ok turn) :
    turn.Reads seen s c rest := by
  obtain ⟨bufs, hb, h⟩ := bind_ok.mp h
  have hseen := Buffers.pushRaw_seen hb
  split at h
  · cases h; exact ⟨[c], rfl, hseen⟩
  · obtain ⟨bufs', hb', h⟩ := bind_ok.mp h
    cases h
    exact ⟨[], rfl, (Buffers.pushCooked_seen hb').trans hseen⟩

theorem ProcessState.escape_reads {s : ProcessState} (h : s.escape rest = .ok turn) :
    turn.Reads seen s '\\' rest := by
  obtain ⟨bufs, hb, h⟩ := bind_ok.mp h
  cases rest with
  | nil => cases h
  | cons e rest => exact Turn.Reads.after (ProcessState.take_reads h) (Buffers.push_seen hb)

theorem processStep_reads {s : ProcessState} (h : processStep s c rest = .ok turn) :
    turn.Reads ProcessState.seen s c rest := by
  unfold processStep at h
  split at h
  · split at h
    · exact s.take_reads h
    split at h
    · exact s.take_reads h
    split at h
    · rename_i hc
      rw [hc]
      exact s.escape_reads h
    split at h
    · exact s.take_reads h
    split at h <;> exact s.take_reads h
  · exact s.take_reads h
  · split at h
    · rename_i hc
      rw [hc]
      exact s.escape_reads h
    · exact s.take_reads h

def processScanner : Scanner ProcessState String where
  step := processStep
  atEnd _ := .error "unterminated process substitution"
  shortens h := (processStep_reads h).shortens

def scanProcessSubstitutionToken (kind : ArkshTokenKind) (text : Text) (start : Nat) :
    Except String (ArkshToken × Text) :=
  match text with
  | c :: '(' :: rest =>
    ((default : Buffers).pushRaw [c, '(']).bind fun bufs =>
      (processScanner.run ⟨1, .unquoted, bufs⟩ rest).map fun (s, rest) =>
        (⟨kind, s.bufs.raw, s.bufs.raw, start⟩, rest)
  | _ => .error "invalid process substitution start"

theorem scanProcessSubstitutionToken_took {kind : ArkshTokenKind} {rest : Text}
    (h : scanProcessSubstitutionToken kind text start = .ok (token, rest)) :
    TokenRead kind text start token rest := by
  unfold scanProcessSubstitutionToken at h
  split at h
  · rename_i c text
    obtain ⟨b, hb, h⟩ := bind_ok.mp h
    obtain ⟨⟨s, t⟩, hrun, h⟩ := map_ok.mp h
    cases h
    obtain ⟨seg, rfl, hseg⟩ :=
      processScanner.run_took (fun hend => by cases hend) processStep_reads hrun
    have hraw : s.bufs.raw.1 = c :: '(' :: seg := by
      rw [show s.bufs.raw.1 = b.seen ++ seg from hseg, Buffers.pushRaw_seen hb]
      rfl
    refine ⟨rfl, rfl, by rw [hraw]; rfl, ?_⟩
    rw [hraw]
    exact cons_ne_nil _ _
  · cases h

end Arksh
