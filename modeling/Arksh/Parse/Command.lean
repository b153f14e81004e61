/-
  Subject: Commands of words and redirections, pipelines of them, groups and subshells, as
           `src/parser.c` reads them from tokens.

  A stage and the tail of a group read redirections alike, with other messages; a tail has no
  words. The here-documents that were collected go to the `<<` of a command in their order.
-/
import Arksh.Parse.Value

namespace Arksh

open CText Scan TextLines List

/-! ## 1. Nodes -/

def arkshMaxPipelineStages : Nat := 8

/-- `ArkshRedirectionNode`, with what the parser alone puts there. -/
structure ParsedRedirection extends ArkshRedirectionNode where
  target : Text
  heredocDelimiter : Text
  heredocStripTabs : Bool

structure CommandWord where
  text : Text
  raw : Text
  deriving DecidableEq

def wordOf (token : ArkshToken) : CommandWord := ⟨token.text.1, token.raw.1⟩

/-- `ArkshCommandStageNode` -/
structure ParsedStage where
  words : List CommandWord
  redirections : List ParsedRedirection

/-! ## 2. Redirections -/

def isRedirectToken (kind : ArkshTokenKind) : Bool :=
  kind = .redirectIn || kind = .redirectOut || kind = .redirectAppend || kind = .hereString ||
    kind = .heredoc || kind = .heredocStrip || kind = .redirectError ||
    kind = .redirectErrorAppend || kind = .redirectErrorToOutput || kind = .redirectFdIn ||
    kind = .redirectFdOut || kind = .redirectFdAppend || kind = .redirectDupIn ||
    kind = .redirectDupOut

def parseFdTokenValue (text : Text) : Option Nat :=
  let digits := text.takeWhile isdigit
  let value := digits.foldl (fun v d => 10 * v + (d.toNat - '0'.toNat)) 0
  if digits ≠ [] ∧ value ≤ 1024 then some value else none

/-- The messages in which a stage and a tail differ, for an operator without its operand. -/
structure RedirectMessages where
  delimiter : ArkshTokenKind → String
  hereString : ArkshTokenKind → String
  duplication : Text → String
  sourceFd : ArkshTokenKind → String
  target : ArkshTokenKind → String

def operand (next : Option ArkshToken) (message : String) : Except String ArkshToken :=
  match next with
  | some token => if isValueToken token.kind then .ok token else .error message
  | none => .error message

def errorToOutput : ParsedRedirection :=
  { kind := .errorToOutput, fd := 2, targetFd := some 1, rawTarget := [], heredocBody := []
    hasTarget := rfl, target := [], heredocDelimiter := [], heredocStripTabs := false }

def fileRedirection (kind : ArkshRedirectionKind) (h : kind.isDup = false) (fd : Nat)
    (token : ArkshToken) : ParsedRedirection :=
  { kind := kind, fd := fd, targetFd := none, rawTarget := token.raw.1, heredocBody := []
    hasTarget := by rw [h]; rfl
    target := token.text.1, heredocDelimiter := [], heredocStripTabs := false }

/-- `n>&m` and `n<&m`, where `m` may be `-`. -/
def readDuplication (messages : RedirectMessages) (kind : ArkshRedirectionKind)
    (h : kind.isDup = true) (token : ArkshToken) (next : Option ArkshToken) :
    Except String ParsedRedirection :=
  match parseFdTokenValue token.text.1 with
  | none => .error (messages.duplication token.text.1)
  | some fd =>
    (operand next (messages.sourceFd token.kind)).bind fun source =>
      if source.text.1 = ['-'] then
        .ok
          { kind := .fdClose, fd := fd, targetFd := none, rawTarget := [], heredocBody := []
            hasTarget := rfl, target := [], heredocDelimiter := [], heredocStripTabs := false }
      else
        match parseFdTokenValue source.text.1 with
        | none => .error ("invalid source fd: " ++ String.ofList source.text.1)
        | some sourceFd =>
          .ok
            { kind := kind, fd := fd, targetFd := some sourceFd, rawTarget := [], heredocBody := []
              hasTarget := by rw [h]; rfl
              target := [], heredocDelimiter := [], heredocStripTabs := false }

/-- `n>`, `n>>` and `n<` -/
def readFdRedirection (messages : RedirectMessages) (kind : ArkshRedirectionKind)
    (h : kind.isDup = false) (token : ArkshToken) (next : Option ArkshToken) :
    Except String ParsedRedirection :=
  match parseFdTokenValue token.text.1 with
  | none => .error ("invalid fd redirection: " ++ String.ofList token.text.1)
  | some fd => (operand next (messages.target token.kind)).map (fileRedirection kind h fd)

/-- `<<` and `<<-`, whose document is the next one of those collected. -/
def readHeredoc (messages : RedirectMessages) (pending : List ArkshParsedHeredoc)
    (token : ArkshToken) (next : Option ArkshToken) : Except String ParsedRedirection :=
  (operand next (messages.delimiter token.kind)).bind fun word =>
    match pending with
    | [] =>
      .error ("unterminated heredoc: missing delimiter " ++ String.ofList word.text.1)
    | heredoc :: _ =>
      if heredoc.delimiter ≠ word.text.1 then
        .error ("heredoc delimiter mismatch: expected " ++ String.ofList word.text.1)
      else
        .ok
          { kind := .heredoc, fd := 0, targetFd := none, rawTarget := []
            heredocBody := heredoc.body, hasTarget := rfl, target := []
            heredocDelimiter := heredoc.delimiter
            heredocStripTabs := token.kind = .heredocStrip }

def readRedirection (messages : RedirectMessages) (pending : List ArkshParsedHeredoc)
    (token : ArkshToken) (next : Option ArkshToken) : Except String ParsedRedirection :=
  let file (kind : ArkshRedirectionKind) (h : kind.isDup = false) (fd : Nat) :=
    (operand next (messages.target token.kind)).map (fileRedirection kind h fd)
  match token.kind with
  | .heredoc | .heredocStrip => readHeredoc messages pending token next
  | .hereString =>
    (operand next (messages.hereString token.kind)).map (fileRedirection .hereString rfl 0)
  | .redirectIn => file .input rfl 0
  | .redirectOut => file .outputTruncate rfl 1
  | .redirectAppend => file .outputAppend rfl 1
  | .redirectError => file .errorTruncate rfl 2
  | .redirectErrorAppend => file .errorAppend rfl 2
  | .redirectFdIn => readFdRedirection messages .fdInput rfl token next
  | .redirectFdOut => readFdRedirection messages .fdOutputTruncate rfl token next
  | .redirectFdAppend => readFdRedirection messages .fdOutputAppend rfl token next
  | .redirectDupIn => readDuplication messages .fdDupInput rfl token next
  | .redirectDupOut => readDuplication messages .fdDupOutput rfl token next
  | kind => .error ("unsupported redirection token: " ++ arkshTokenKindName kind)

/-! ## 3. Stages -/

/-- The variables of `parse_command_stage_tokens`, with the documents that are left. -/
structure StageState where
  stage : ParsedStage
  pending : List ArkshParsedHeredoc

/-- `append_redirection`, and the document that it takes. -/
def StageState.redirect (s : StageState) (redirection : ParsedRedirection) :
    Except String StageState :=
  if s.stage.redirections.length ≥ arkshMaxRedirections then .error "too many redirections"
  else
    .ok
      { stage := { s.stage with redirections := s.stage.redirections ++ [redirection] }
        pending := if redirection.kind = .heredoc then s.pending.tail else s.pending }

abbrev OnWord := StageState → ArkshToken → Except String StageState

def stageLoop (messages : RedirectMessages) (onWord : OnWord) :
    StageState → List ArkshToken → Except String StageState
  | s, [] => .ok s
  | s, [token] =>
    if token.kind = .redirectErrorToOutput then s.redirect errorToOutput
    else if isRedirectToken token.kind = true then
      (readRedirection messages s.pending token none).bind s.redirect
    else onWord s token
  | s, token :: next :: rest =>
    if token.kind = .redirectErrorToOutput then
      (s.redirect errorToOutput).bind fun s => stageLoop messages onWord s (next :: rest)
    else if isRedirectToken token.kind = true then
      ((readRedirection messages s.pending token (some next)).bind s.redirect).bind fun s =>
        stageLoop messages onWord s rest
    else (onWord s token).bind fun s => stageLoop messages onWord s (next :: rest)

def stageMessages : RedirectMessages where
  delimiter kind := "redirection " ++ arkshTokenKindName kind ++ " expects a delimiter"
  hereString kind := "redirection " ++ arkshTokenKindName kind ++ " expects a string value"
  duplication text := "invalid fd duplication: " ++ String.ofList text
  sourceFd kind := "redirection " ++ arkshTokenKindName kind ++ " expects a source fd"
  target kind := "redirection " ++ arkshTokenKindName kind ++ " expects a target path"

def pushWord (s : StageState) (token : ArkshToken) : Except String StageState :=
  if isValueToken token.kind = false then
    .error ("unexpected token in command stage: " ++ arkshTokenKindName token.kind)
  else if s.stage.words.length ≥ arkshMaxArgs then .error "too many command arguments"
  else .ok { s with stage := { s.stage with words := s.stage.words ++ [wordOf token] } }

def parseCommandStageTokens (tokens : List ArkshToken) (pending : List ArkshParsedHeredoc) :
    Except String StageState :=
  (stageLoop stageMessages pushWord ⟨⟨[], []⟩, pending⟩ tokens).bind fun s =>
    if s.stage.words = [] then .error "each shell pipeline stage requires a command" else .ok s

def stageTokens : List ArkshToken → List ArkshToken → List (List ArkshToken)
  | own, [] => [own]
  | own, token :: rest =>
    if token.kind = .eof then [own]
    else if token.kind = .shellPipe then own :: stageTokens [] rest
    else stageTokens (own ++ [token]) rest

def pipelineLoop : List ParsedStage → List ArkshParsedHeredoc → List (List ArkshToken) →
    Except String (List ParsedStage)
  | stages, _, [] => .ok stages
  | stages, pending, tokens :: rest =>
    if stages.length ≥ arkshMaxPipelineStages then .error "too many shell pipeline stages"
    else
      (parseCommandStageTokens tokens pending).bind fun s =>
        pipelineLoop (stages ++ [s.stage]) s.pending rest

def parseCommandPipelineTokens (stream : ArkshTokenStream) (heredocs : List ArkshParsedHeredoc) :
    Except String (List ParsedStage) :=
  pipelineLoop [] heredocs (stageTokens [] stream.tokens)

def simpleCommandLoop : List CommandWord → List ArkshToken → Except String (List CommandWord)
  | words, [] => .ok words
  | words, token :: rest =>
    if token.kind = .eof then .ok words
    else if isValueToken token.kind = false then
      .error ("unexpected token in command: " ++ arkshTokenKindName token.kind)
    else if words.length ≥ arkshMaxArgs then .error "too many command arguments"
    else simpleCommandLoop (words ++ [wordOf token]) rest

def parseSimpleCommandTokens (stream : ArkshTokenStream) : Except String (List CommandWord) :=
  simpleCommandLoop [] stream.tokens

/-! ## 4. Groups and subshells -/

def matchingDelimiter (opening closing : Char) : Quote → Nat → Nat → Text → Option Nat
  | _, _, _, [] => none
  | .single, depth, i, c :: text =>
    matchingDelimiter opening closing (if c = '\'' then .unquoted else .single) depth (i + 1) text
  | .double, depth, i, c :: text =>
    if c = '"' then matchingDelimiter opening closing .unquoted depth (i + 1) text
    else
      match c, text with
      | '\\', _ :: text => matchingDelimiter opening closing .double depth (i + 2) text
      | _, text => matchingDelimiter opening closing .double depth (i + 1) text
  | .unquoted, depth, i, c :: text =>
    if c = '"' then matchingDelimiter opening closing .double depth (i + 1) text
    else if c = '\'' then matchingDelimiter opening closing .single depth (i + 1) text
    else
      match c, text with
      | '\\', _ :: text => matchingDelimiter opening closing .unquoted depth (i + 2) text
      | c, text =>
        if c = opening then matchingDelimiter opening closing .unquoted (depth + 1) (i + 1) text
        else if c = closing then
          if depth = 0 then some i
          else matchingDelimiter opening closing .unquoted (depth - 1) (i + 1) text
        else matchingDelimiter opening closing .unquoted depth (i + 1) text

def findMatchingDelimiter (opening closing : Char) (text : Text) : Option Nat :=
  match text with
  | c :: text => if c = opening then matchingDelimiter opening closing .unquoted 0 1 text else none
  | [] => none

/-- `trim_compound_segment`: without white space around it, and without `;` at its end. -/
def trimCompoundSegment (line : Text) (start stop : Nat) : Text :=
  ((copyTrimmedSlice line start stop).reverse.dropWhile fun c => c = ';' || isspace c).reverse

def tailMessages (closingToken : String) : RedirectMessages :=
  let message := "unexpected token after " ++ closingToken
  { delimiter := fun _ => message, hereString := fun _ => message
    duplication := fun _ => message, sourceFd := fun _ => message, target := fun _ => message }

def parseCompoundRedirectionTail (tail : Text) (closingToken : String)
    (heredocs : List ArkshParsedHeredoc) : Except String (List ParsedRedirection) :=
  let trimmed := trimCopy arkshMaxLine tail
  if trimmed = [] then .ok []
  else
    (arkshLexLine trimmed).bind fun stream =>
      (stageLoop (tailMessages closingToken)
        (fun _ _ => .error ("unexpected token after " ++ closingToken)) ⟨⟨[], []⟩, heredocs⟩
        (stream.tokens.takeWhile fun token => token.kind ≠ .eof)).map fun s =>
          s.stage.redirections

/-- The redirections behind a group or a subshell, which may announce here-documents. -/
def parseCompoundTail (line : Text) (close : Nat) (closingToken : String) :
    Except String (List ParsedRedirection) :=
  let tail := copyTrimmedSlice line (close + 1) line.length
  (collectLeadingHeredocs tail).bind fun
    | some (header, heredocs) => parseCompoundRedirectionTail header closingToken heredocs
    | none => parseCompoundRedirectionTail tail closingToken []

structure ArkshCompoundCommandNode where
  body : Text
  redirections : List ParsedRedirection

def parseGroupCommandText (line : Text) : Except (Option String) ArkshCompoundCommandNode :=
  if line.head? ≠ some '{' then .error none
  else
    match findMatchingDelimiter '{' '}' line with
    | none => .error (some "unterminated group command: missing \x7d")
    | some close =>
      let front := (line.take close).reverse.dropWhile fun c => c = ' ' || c = '\t' || c = '\r'
      if front.head? ≠ some ';' ∧ front.head? ≠ some '\n' then
        .error (some "group command requires ';' or newline before \x7d")
      else
        let body := trimCompoundSegment line 1 close
        if body = [] then .error (some "group command requires a body")
        else
          match parseCompoundTail line close "\x7d" with
          | .error message => .error (some message)
          | .ok redirections => .ok ⟨body, redirections⟩

def parseSubshellCommandText (line : Text) : Except (Option String) ArkshCompoundCommandNode :=
  if line.head? ≠ some '(' then .error none
  else
    match findMatchingDelimiter '(' ')' line with
    | none => .error (some "unterminated subshell command: missing ')'")
    | some close =>
      let body := trimCompoundSegment line 1 close
      if body = [] then .error (some "subshell command requires a body")
      else
        match parseCompoundTail line close ")" with
        | .error message => .error (some message)
        | .ok redirections => .ok ⟨body, redirections⟩

/-! ## 5. The documents of a command -/

variable {s s' : StageState} {token : ArkshToken} {marks : List HeredocMark}
  {next : Option ArkshToken} {tokens : List ArkshToken}

def documentsOf (redirections : List ParsedRedirection) : List (Text × Text) :=
  (redirections.filter (·.kind = .heredoc)).map fun redirection =>
    (redirection.heredocDelimiter, redirection.heredocBody)

def documentOf (heredoc : ArkshParsedHeredoc) : Text × Text := (heredoc.delimiter, heredoc.body)

/-- How many documents tokens announce. -/
def heredocCount (tokens : List ArkshToken) : Nat := tokens.countP (isHeredocToken ·.kind)

structure TakesDocuments (s s' : StageState) (count : Nat) : Prop where
  taken : ∃ taken, s.pending = taken ++ s'.pending ∧ taken.length = count ∧
    documentsOf s'.stage.redirections =
      documentsOf s.stage.redirections ++ taken.map documentOf

theorem TakesDocuments.refl (s : StageState) : TakesDocuments s s 0 := ⟨[], rfl, rfl, by simp⟩

theorem TakesDocuments.trans {s s₁ s₂ : StageState} {m n : Nat} (h : TakesDocuments s s₁ m)
    (h' : TakesDocuments s₁ s₂ n) : TakesDocuments s s₂ (m + n) := by
  obtain ⟨taken, hpending, hlen, hdocs⟩ := h.taken
  obtain ⟨taken', hpending', hlen', hdocs'⟩ := h'.taken
  refine ⟨taken ++ taken', ?_, ?_, ?_⟩
  · rw [hpending, hpending', append_assoc]
  · simp [hlen, hlen']
  · rw [hdocs', hdocs, map_append, append_assoc]

variable {redirection : ParsedRedirection}

theorem redirect_plain (hkind : redirection.kind ≠ .heredoc) (h : s.redirect redirection = .ok s') :
    TakesDocuments s s' 0 := by
  unfold StageState.redirect at h
  split at h
  · cases h
  · cases h
    refine ⟨[], rfl, rfl, ?_⟩
    simp [documentsOf, filter_append, hkind]

theorem redirect_heredoc {heredoc : ArkshParsedHeredoc} {rest : List ArkshParsedHeredoc}
    (hkind : redirection.kind = .heredoc) (hpending : s.pending = heredoc :: rest)
    (hdoc : (redirection.heredocDelimiter, redirection.heredocBody) = documentOf heredoc)
    (h : s.redirect redirection = .ok s') : TakesDocuments s s' 1 := by
  unfold StageState.redirect at h
  split at h
  · cases h
  · cases h
    refine ⟨[heredoc], by simp [hpending], rfl, ?_⟩
    simp [documentsOf, filter_append, hkind, ← hdoc]

theorem operand_ok {message : String} (h : operand next message = .ok token) :
    next = some token ∧ isHeredocToken token.kind = false := by
  unfold operand at h
  split at h
  · split at h
    next hvalue =>
      cases h
      refine ⟨rfl, ?_⟩
      revert hvalue
      cases token.kind <;> decide
    · cases h
  · cases h

variable {messages : RedirectMessages} {pending heredocs : List ArkshParsedHeredoc}

theorem readRedirection_ok (h : readRedirection messages pending token next = .ok redirection) :
    (∃ word, next = some word ∧ isHeredocToken word.kind = false) ∧
      if isHeredocToken token.kind = true then
        redirection.kind = .heredoc ∧ ∃ heredoc rest, pending = heredoc :: rest ∧
          (redirection.heredocDelimiter, redirection.heredocBody) = documentOf heredoc
      else redirection.kind ≠ .heredoc := by
  have hfile {message : String} {kind : ArkshRedirectionKind} {hk : kind.isDup = false} {fd : Nat}
      (hne : kind ≠ .heredoc)
      (h : (operand next message).map (fileRedirection kind hk fd) = .ok redirection) :
      (∃ word, next = some word ∧ isHeredocToken word.kind = false) ∧
        redirection.kind ≠ .heredoc := by
    obtain ⟨word, hword, rfl⟩ := map_ok.mp h
    exact ⟨⟨word, operand_ok hword⟩, hne⟩
  have hfd {kind : ArkshRedirectionKind} {hk : kind.isDup = false} (hne : kind ≠ .heredoc)
      (h : readFdRedirection messages kind hk token next = .ok redirection) :
      (∃ word, next = some word ∧ isHeredocToken word.kind = false) ∧
        redirection.kind ≠ .heredoc := by
    unfold readFdRedirection at h
    split at h
    · cases h
    · exact hfile hne h
  have hdup {kind : ArkshRedirectionKind} {hk : kind.isDup = true} (hne : kind ≠ .heredoc)
      (h : readDuplication messages kind hk token next = .ok redirection) :
      (∃ word, next = some word ∧ isHeredocToken word.kind = false) ∧
        redirection.kind ≠ .heredoc := by
    unfold readDuplication at h
    split at h
    · cases h
    · obtain ⟨word, hword, h⟩ := bind_ok.mp h
      refine ⟨⟨word, operand_ok hword⟩, ?_⟩
      split at h
      · cases h; simp
      · split at h
        · cases h
        · cases h; exact hne
  have hdoc (h : readHeredoc messages pending token next = .ok redirection) :
      (∃ word, next = some word ∧ isHeredocToken word.kind = false) ∧
        redirection.kind = .heredoc ∧ ∃ heredoc rest, pending = heredoc :: rest ∧
          (redirection.heredocDelimiter, redirection.heredocBody) = documentOf heredoc := by
    obtain ⟨word, hword, h⟩ := bind_ok.mp h
    refine ⟨⟨word, operand_ok hword⟩, ?_⟩
    split at h
    · cases h
    · split at h
      · cases h
      · cases h; exact ⟨rfl, _, _, rfl, rfl⟩
  unfold readRedirection at h
  split at h
  iterate 2 next hkind => simpa [isHeredocToken, hkind] using hdoc h
  iterate 6 next hkind => simpa [isHeredocToken, hkind] using hfile (by decide) h
  iterate 3 next hkind => simpa [isHeredocToken, hkind] using hfd (by decide) h
  iterate 2 next hkind => simpa [isHeredocToken, hkind] using hdup (by decide) h
  · cases h

def KeepsDocuments (onWord : OnWord) : Prop :=
  ∀ s token s', onWord s token = .ok s' →
    TakesDocuments s s' 0 ∧ isHeredocToken token.kind = false

theorem heredocCount_append (front rest : List ArkshToken) :
    heredocCount (front ++ rest) = heredocCount front + heredocCount rest :=
  countP_append

theorem heredocCount_cons (token : ArkshToken) (rest : List ArkshToken) :
    heredocCount (token :: rest) = heredocCount [token] + heredocCount rest :=
  heredocCount_append [token] rest

theorem errorToOutput_heredocs (hkind : token.kind = .redirectErrorToOutput)
    (h : s.redirect errorToOutput = .ok s') : TakesDocuments s s' (heredocCount [token]) := by
  have hcount : heredocCount [token] = 0 := by simp [heredocCount, isHeredocToken, hkind]
  rw [hcount]
  exact redirect_plain (by decide) h

theorem redirection_heredocs
    (h : (readRedirection messages s.pending token next).bind s.redirect = .ok s') :
    ∃ word, next = some word ∧ TakesDocuments s s' (heredocCount [token, word]) := by
  obtain ⟨redirection, hread, hpush⟩ := bind_ok.mp h
  obtain ⟨⟨word, hnext, hplain⟩, hdoc⟩ := readRedirection_ok hread
  refine ⟨word, hnext, ?_⟩
  split at hdoc
  next hheredoc =>
    obtain ⟨hkind, heredoc, others, hpending, hdoc⟩ := hdoc
    have hcount : heredocCount [token, word] = 1 := by simp [heredocCount, hheredoc, hplain]
    rw [hcount]
    exact redirect_heredoc hkind hpending hdoc hpush
  next hheredoc =>
    have hcount : heredocCount [token, word] = 0 := by simp [heredocCount, hheredoc, hplain]
    rw [hcount]
    exact redirect_plain hdoc hpush

theorem KeepsDocuments.step {onWord : OnWord} (hword : KeepsDocuments onWord)
    (h : onWord s token = .ok s') : TakesDocuments s s' (heredocCount [token]) := by
  obtain ⟨hkeeps, hplain⟩ := hword s token s' h
  have hcount : heredocCount [token] = 0 := by simp [heredocCount, hplain]
  rw [hcount]
  exact hkeeps

theorem stageLoop_heredocs {onWord : OnWord} (hword : KeepsDocuments onWord)
    (h : stageLoop messages onWord s tokens = .ok s') :
    TakesDocuments s s' (heredocCount tokens) := by
  induction s, tokens using stageLoop.induct with
  | case1 s => cases h; exact .refl _
  | case2 s token hkind => rw [stageLoop, if_pos hkind] at h; exact errorToOutput_heredocs hkind h
  | case3 s token hkind hredirect =>
    rw [stageLoop, if_neg hkind, if_pos hredirect] at h
    obtain ⟨word, hnone, _⟩ := redirection_heredocs h
    cases hnone
  | case4 s token hkind hredirect =>
    rw [stageLoop, if_neg hkind, if_neg hredirect] at h
    exact hword.step h
  | case5 s token next rest hkind ih =>
    rw [stageLoop, if_pos hkind] at h
    obtain ⟨s₁, hstep, hrest⟩ := bind_ok.mp h
    rw [heredocCount_cons]
    exact (errorToOutput_heredocs hkind hstep).trans (ih s₁ hrest)
  | case6 s token next rest hkind hredirect ih =>
    rw [stageLoop, if_neg hkind, if_pos hredirect] at h
    obtain ⟨s₁, hstep, hrest⟩ := bind_ok.mp h
    obtain ⟨word, hnext, htakes⟩ := redirection_heredocs hstep
    obtain rfl := Option.some.inj hnext
    have hcount : heredocCount (token :: next :: rest) = _ := heredocCount_append [token, next] rest
    rw [hcount]
    exact htakes.trans (ih s₁ hrest)
  | case7 s token next rest hkind hredirect ih =>
    rw [stageLoop, if_neg hkind, if_neg hredirect] at h
    obtain ⟨s₁, hstep, hrest⟩ := bind_ok.mp h
    rw [heredocCount_cons]
    exact (hword.step hstep).trans (ih s₁ hrest)

theorem pushWord_keeps : KeepsDocuments pushWord := by
  intro s token s' h
  unfold pushWord at h
  split at h
  · cases h
  next hvalue =>
    split at h
    · cases h
    · cases h
      refine ⟨⟨[], rfl, rfl, by simp⟩, ?_⟩
      revert hvalue
      cases token.kind <;> decide

theorem refuse_keeps (message : String) : KeepsDocuments fun _ _ => .error message := by
  intro s token s' h
  cases h

def pipelineRedirections (stages : List ParsedStage) : List ParsedRedirection :=
  stages.flatMap ParsedStage.redirections

theorem documentsOf_append (rs rs' : List ParsedRedirection) :
    documentsOf (rs ++ rs') = documentsOf rs ++ documentsOf rs' := by
  simp [documentsOf, filter_append]

theorem pipelineLoop_heredocs {stages stages' : List ParsedStage} {parts : List (List ArkshToken)}
    (h : pipelineLoop stages pending parts = .ok stages') :
    ∃ taken rest, pending = taken ++ rest ∧ taken.length = (parts.map heredocCount).sum ∧
      documentsOf (pipelineRedirections stages') =
        documentsOf (pipelineRedirections stages) ++ taken.map documentOf := by
  induction parts generalizing stages pending with
  | nil => cases h; exact ⟨[], pending, rfl, rfl, by simp⟩
  | cons tokens parts ih =>
    unfold pipelineLoop at h
    split at h
    · cases h
    · obtain ⟨s, hstage, hrest⟩ := bind_ok.mp h
      obtain ⟨s₁, hloop, hs⟩ := bind_ok.mp hstage
      split at hs
      · cases hs
      · cases hs
        obtain ⟨taken, hpending, hlen, hdocs⟩ := (stageLoop_heredocs pushWord_keeps hloop).taken
        obtain ⟨taken', rest, hpending', hlen', hdocs'⟩ := ih hrest
        dsimp only at hpending
        refine ⟨taken ++ taken', rest, ?_, by simp [hlen, hlen'], ?_⟩
        · rw [hpending, hpending', append_assoc]
        · have hown : documentsOf s.stage.redirections = taken.map documentOf := hdocs.trans (nil_append _)
          rw [hdocs']
          simp [pipelineRedirections, documentsOf_append, hown]

theorem stageTokens_count (own tokens : List ArkshToken) :
    ((stageTokens own tokens).map heredocCount).sum =
      heredocCount own + heredocCount (tokens.takeWhile fun token => token.kind ≠ .eof) := by
  induction tokens generalizing own with
  | nil => simp [stageTokens, heredocCount]
  | cons token tokens ih =>
    unfold stageTokens
    split
    next heof => simp [heof, heredocCount]
    next heof =>
      rw [takeWhile_cons_of_pos (by simpa using heof), heredocCount_cons]
      split
      next hpipe =>
        have hcount : heredocCount [token] = 0 := by simp [heredocCount, isHeredocToken, hpipe]
        rw [map_cons, sum_cons, ih, hcount]
        simp [heredocCount]
      · rw [ih, heredocCount_append, Nat.add_assoc]

theorem heredocMarks_length {count : Nat} (h : heredocMarks count tokens = .ok marks) :
    marks.length = heredocCount tokens := by
  induction count, tokens using heredocMarks.induct generalizing marks with
  | case1 count => cases h; rfl
  | case2 count token hkind => rw [heredocMarks, if_pos hkind] at h; cases h
  | case3 count token hkind =>
    rw [heredocMarks, if_neg hkind] at h
    cases h
    simp [heredocCount, hkind]
  | case4 count token word tokens hkind hvalue =>
    rw [heredocMarks, if_pos hkind, if_pos hvalue] at h
    cases h
  | case5 count token word tokens hkind hvalue hcount =>
    rw [heredocMarks, if_pos hkind, if_neg hvalue, if_pos hcount] at h
    cases h
  | case6 count token word tokens hkind hvalue hcount ih =>
    rw [heredocMarks, if_pos hkind, if_neg hvalue, if_neg hcount] at h
    obtain ⟨marks, hmarks, rfl⟩ := map_ok.mp h
    have hplain : isHeredocToken word.kind = false := by revert hvalue; cases word.kind <;> decide
    rw [length_cons, ih hmarks]
    simp [heredocCount, hkind, hplain]
  | case7 count token word tokens hkind ih =>
    rw [heredocMarks, if_neg hkind] at h
    rw [ih h, heredocCount_cons token]
    simp [heredocCount, hkind]

theorem collectBodies_length {ls rest : List TextLine}
    (h : collectBodies marks ls = .ok (heredocs, rest)) : heredocs.length = marks.length := by
  induction marks generalizing ls heredocs with
  | nil => cases h; rfl
  | cons mark marks ih =>
    obtain ⟨⟨body, ls₁⟩, _, h⟩ := bind_ok.mp h
    obtain ⟨⟨others, rest₁⟩, hothers, heq⟩ := map_ok.mp h
    cases heq
    exact congrArg (· + 1) (ih hothers)

theorem heredocCount_marks (hlex : arkshLexLine line = .ok stream)
    (hmarks : heredocMarks 0 stream.tokens = .ok marks) :
    heredocCount (stream.tokens.takeWhile fun token => token.kind ≠ .eof) = marks.length := by
  obtain ⟨tokens, hlossless⟩ := lexLine_lossless hlex
  obtain ⟨eof, htokens, heof, _⟩ := hlossless.eof
  have hall : ∀ token ∈ tokens, (fun token : ArkshToken => decide (token.kind ≠ .eof)) token =
      true := fun token htoken => decide_eq_true (hlossless.before token htoken)
  rw [heredocMarks_length hmarks, htokens, takeWhile_append_of_pos hall]
  simp [heredocCount, isHeredocToken, heof]

/-- **A pipeline takes all documents that its line announces, in their order.** -/
theorem parseCommandPipelineTokens_heredocs {line : Text} {stream : ArkshTokenStream}
    {stages : List ParsedStage} (hlex : arkshLexLine line = .ok stream)
    (hmarks : heredocMarks 0 stream.tokens = .ok marks) (hlength : heredocs.length = marks.length)
    (h : parseCommandPipelineTokens stream heredocs = .ok stages) :
    documentsOf (pipelineRedirections stages) = heredocs.map documentOf := by
  obtain ⟨taken, rest, htaken, hlen, hdocs⟩ := pipelineLoop_heredocs h
  have hcount : taken.length = heredocs.length := by
    rw [hlen, stageTokens_count, heredocCount_marks hlex hmarks, hlength]
    exact Nat.zero_add _
  have hrest : rest = [] := by
    have htotal := congrArg List.length htaken
    rw [length_append] at htotal
    exact eq_nil_of_length_eq_zero (by omega)
  rw [hdocs, htaken, hrest, append_nil]
  simp [pipelineRedirections, documentsOf]

end Arksh
