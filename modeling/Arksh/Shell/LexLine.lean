/-
  Subject: `arksh_lex_line`, and that its tokens are a lossless partition of the line.

  The loop of `arksh_lex_line` takes one blank or one token at a time. Its branches differ in
  the scanner they call, in the operator they recognise and in the flags they set, so they are
  written as a table of operators (in the order of the source) and one function that appends a
  token.
-/
import Arksh.Lib.Tiling
import Arksh.Shell.Lexer

namespace Arksh

open CText Scan List Nat

/-! ## 1. The token stream and the flags -/

def arkshMaxLexerTokens : Nat := 128

structure ArkshTokenStream where
  tokens : List ArkshToken
  count_le : tokens.length ≤ arkshMaxLexerTokens

/-- The three flags of `arksh_lex_line`. -/
structure LexFlags where
  inDoubleBracket : Bool
  commandWordAllowed : Bool
  pendingRedirectTarget : Bool

namespace LexFlags

def command (f : LexFlags) : LexFlags :=
  { f with commandWordAllowed := true, pendingRedirectTarget := false }

def noCommand (f : LexFlags) : LexFlags :=
  { f with commandWordAllowed := false, pendingRedirectTarget := false }

def target (f : LexFlags) : LexFlags := { f with pendingRedirectTarget := true }

def noTarget (f : LexFlags) : LexFlags := { f with pendingRedirectTarget := false }

def word (f : LexFlags) : LexFlags :=
  if f.pendingRedirectTarget then f.noTarget else { f with commandWordAllowed := false }

end LexFlags

/-- The state of the loop; `len` is `strlen(line)`. -/
structure LexState where
  len : Nat
  flags : LexFlags
  stream : ArkshTokenStream

/-- `push_token` -/
def ArkshTokenStream.push (stream : ArkshTokenStream) (token : ArkshToken) :
    Except String ArkshTokenStream :=
  if h : stream.tokens.length < arkshMaxLexerTokens then
    .ok ⟨stream.tokens ++ [token], by rw [List.length_append]; exact h⟩
  else .error "too many tokens"

theorem ArkshTokenStream.push_tokens {stream stream' : ArkshTokenStream} {token : ArkshToken}
    (h : stream.push token = .ok stream') : stream'.tokens = stream.tokens ++ [token] := by
  unfold push at h
  split at h
  · cases h; rfl
  · cases h

/-- Append the token that a scanner reads, where there is room for one, and go on. -/
def LexState.token (s : LexState) (scanned : Except String (ArkshToken × Text))
    (flags : LexFlags) : Except String (Turn LexState) :=
  if s.stream.tokens.length < arkshMaxLexerTokens then
    scanned.bind fun (token, rest) =>
      (s.stream.push token).map fun stream => .more { s with flags, stream } rest
  else .error "too many tokens"

/-! ## 2. Operators -/

structure Operator where
  lexeme : Text
  kind : ArkshTokenKind
  effect : LexFlags → LexFlags
  short : lexeme.length < arkshMaxToken := by decide
  nonempty : lexeme ≠ [] := by decide
  notEof : kind ≠ .eof := by decide

/-- The operators between `[[` and `]]`. -/
def bracketOperators : List Operator :=
  [ { lexeme := [']', ']'], kind := .word,
      effect := fun f => { f.noCommand with inDoubleBracket := false } },
    { lexeme := ['&', '&'], kind := .word, effect := id },
    { lexeme := ['|', '|'], kind := .word, effect := id },
    { lexeme := ['!'], kind := .word, effect := id },
    { lexeme := ['('], kind := .word, effect := id },
    { lexeme := [')'], kind := .word, effect := id } ]

def openBracket : Operator :=
  { lexeme := ['[', '['], kind := .word,
    effect := fun f => { f with inDoubleBracket := true, commandWordAllowed := false } }

/-- The other operators, in the order in which `arksh_lex_line` tries them. -/
def operators : List Operator :=
  [ { lexeme := ['|', '>'], kind := .objectPipe, effect := .command },
    { lexeme := ['|', '|'], kind := .orIf, effect := .command },
    { lexeme := ['-', '>'], kind := .arrow, effect := id },
    { lexeme := ['|'], kind := .shellPipe, effect := .command },
    { lexeme := ['&', '&'], kind := .andIf, effect := .command },
    { lexeme := ['&'], kind := .background, effect := .command },
    { lexeme := [';'], kind := .sequence, effect := .command },
    { lexeme := ['2', '>', '&', '1'], kind := .redirectErrorToOutput, effect := .noTarget },
    { lexeme := ['2', '>', '>'], kind := .redirectErrorAppend, effect := .target },
    { lexeme := ['2', '>'], kind := .redirectError, effect := .target },
    { lexeme := ['<', '<', '<'], kind := .hereString, effect := .target },
    { lexeme := ['<', '<', '-'], kind := .heredocStrip, effect := .target },
    { lexeme := ['<', '<'], kind := .heredoc, effect := .target },
    { lexeme := ['>', '>'], kind := .redirectAppend, effect := .target },
    { lexeme := ['>'], kind := .redirectOut, effect := .target },
    { lexeme := ['<'], kind := .redirectIn, effect := .target },
    { lexeme := ['('], kind := .lparen, effect := .command },
    { lexeme := [')'], kind := .rparen, effect := .noCommand },
    { lexeme := [','], kind := .comma, effect := id } ]

def findOperator (table : List Operator) (text : Text) : Option Operator :=
  table.find? fun op => op.lexeme.isPrefixOf text

def LexState.operator (s : LexState) (op : Operator) (text : Text) (i : Nat) :
    Except String (Turn LexState) :=
  s.token (.ok (⟨op.kind, ⟨op.lexeme, op.short⟩, ⟨op.lexeme, op.short⟩, i⟩,
    text.drop op.lexeme.length)) (op.effect s.flags)

/-! ## 3. The loop -/

def startsProcessSubstitution (text : Text) : Bool :=
  match text with
  | '<' :: '(' :: _ => true
  | '>' :: '(' :: _ => true
  | _ => false

/-- `[[` at the end of the line, or in front of white space, `!` or `(` -/
def opensDoubleBracket (text : Text) : Bool :=
  match text with
  | '[' :: '[' :: [] => true
  | '[' :: '[' :: c :: _ => isspace c || c = '!' || c = '('
  | _ => false

def LexState.processSubstitution (s : LexState) (text : Text) (i : Nat) (flags : LexFlags) :
    Except String (Turn LexState) :=
  s.token (scanProcessSubstitutionToken
    (if text.head? = some '<' then .procSubstIn else .procSubstOut) text i) flags

/-- The branch for a redirection with a descriptor number in front. -/
def LexState.fdRedirection (s : LexState) (kind : ArkshTokenKind) (length : Nat) (text : Text)
    (i : Nat) : Except String (Turn LexState) :=
  if h : length < arkshMaxToken then
    let fdText : TokenText := ⟨text.take length, by rw [List.length_take]; omega⟩
    s.token (.ok (⟨kind, fdText, fdText, i⟩, text.drop length)) s.flags.target
  else .error "fd redirection token too long"

/-- The body of the loop of `arksh_lex_line`; what is left of the line stands at `i`. -/
def lexStep (s : LexState) (c : Char) (rest : Text) : Except String (Turn LexState) :=
  let text := c :: rest
  let i := s.len - text.length
  if isspace c then .ok (.more s rest)
  else if s.flags.inDoubleBracket then
    if startsProcessSubstitution text then s.processSubstitution text i s.flags
    else
      match findOperator bracketOperators text with
      | some op => s.operator op text i
      | none => s.token (scanWordToken true text i) s.flags
  else if s.flags.commandWordAllowed && !s.flags.pendingRedirectTarget
      && opensDoubleBracket text then s.operator openBracket text i
  else
    match matchFdRedirectionToken text with
    | some (kind, length) => s.fdRedirection kind length text i
    | none =>
      if startsProcessSubstitution text then s.processSubstitution text i s.flags.noCommand
      else
        match findOperator operators text with
        | some op => s.operator op text i
        | none => s.token (scanWordToken false text i) s.flags.word

/-! ## 4. What a turn does -/

variable {s : LexState} {turn : Turn LexState} {text : Text}
  {scanned : Except String (ArkshToken × Text)} {kind : ArkshTokenKind}

def Appends (s : LexState) (text : Text) (turn : Turn LexState) : Prop :=
  ∃ kind flags stream token rest, kind ≠ .eof ∧ turn = .more { s with flags, stream } rest ∧
    TokenRead kind text (s.len - text.length) token rest ∧
    stream.tokens = s.stream.tokens ++ [token]

variable {flags : LexFlags}

theorem LexState.token_appends (h : s.token scanned flags = .ok turn) (hkind : kind ≠ .eof)
    (hread : ∀ token rest, scanned = .ok (token, rest) →
      TokenRead kind text (s.len - text.length) token rest) : Appends s text turn := by
  unfold LexState.token at h
  split at h
  · obtain ⟨⟨token, rest⟩, hscan, h⟩ := bind_ok.mp h
    obtain ⟨stream, hpush, h⟩ := map_ok.mp h
    exact ⟨kind, flags, stream, token, rest, hkind, h.symm, hread token rest hscan,
      ArkshTokenStream.push_tokens hpush⟩
  · cases h

variable {op : Operator}

theorem LexState.operator_appends (h : s.operator op text (s.len - text.length) = .ok turn)
    (hop : op.lexeme <+: text) : Appends s text turn := by
  refine s.token_appends h op.notEof ?_
  intro token rest hscan
  obtain ⟨tail, rfl⟩ := hop
  cases hscan
  refine ⟨rfl, rfl, ?_, op.nonempty⟩
  rw [drop_left]

variable {table : List Operator}

theorem findOperator_lexeme (h : findOperator table text = some op) : op.lexeme <+: text := by
  have hp := find?_some h
  exact List.isPrefixOf_iff_prefix.mp hp

theorem openBracket_lexeme (h : opensDoubleBracket text = true) : openBracket.lexeme <+: text := by
  unfold opensDoubleBracket at h
  split at h
  · exact ⟨[], rfl⟩
  · exact ⟨_, rfl⟩
  · cases h

theorem LexState.processSubstitution_appends
    (h : s.processSubstitution text (s.len - text.length) flags = .ok turn) :
    Appends s text turn := by
  refine s.token_appends h ?_ fun _ _ hscan => scanProcessSubstitutionToken_took hscan
  split <;> decide

theorem LexState.word_appends {mode : Bool}
    (h : s.token (scanWordToken mode text (s.len - text.length)) flags = .ok turn) :
    Appends s text turn := by
  refine s.token_appends h ?_ fun _ _ hscan => scanWordToken_took hscan
  decide

variable {length i : Nat}

theorem matchFdRedirectionToken_some (h : matchFdRedirectionToken text = some (kind, length)) :
    kind ≠ .eof ∧ 0 < length ∧ text ≠ [] := by
  unfold matchFdRedirectionToken at h
  split at h
  · cases h
  split at h
  · dsimp only at h
    split at h <;> cases h <;> exact ⟨by decide, succ_pos _, cons_ne_nil _ _⟩
  · cases h

theorem LexState.fdRedirection_appends
    (h : s.fdRedirection kind length text (s.len - text.length) = .ok turn)
    (hm : matchFdRedirectionToken text = some (kind, length)) : Appends s text turn := by
  obtain ⟨hkind, hpos, hne⟩ := matchFdRedirectionToken_some hm
  unfold LexState.fdRedirection at h
  split at h
  · refine s.token_appends h hkind ?_
    intro token rest hscan
    cases hscan
    refine ⟨rfl, rfl, (take_append_drop length text).symm, ?_⟩
    intro hnil
    have hlen := congrArg List.length hnil
    rw [length_take, length_nil] at hlen
    have htext := length_pos_iff.mpr hne
    omega
  · cases h

/-- **A turn of the loop skips a blank or appends a token that it has read.** -/
theorem lexStep_cases {c : Char} {rest : Text} (h : lexStep s c rest = .ok turn) :
    (isspace c = true ∧ turn = .more s rest) ∨ Appends s (c :: rest) turn := by
  unfold lexStep at h
  dsimp only at h
  split at h
  · rename_i hspace; exact Or.inl ⟨hspace, (Except.ok.inj h).symm⟩
  refine Or.inr ?_
  split at h
  · -- between `[[` and `]]`
    split at h
    · exact s.processSubstitution_appends h
    split at h
    · rename_i hop; exact s.operator_appends h (findOperator_lexeme hop)
    · exact s.word_appends h
  split at h
  · rename_i hopen
    simp only [Bool.and_eq_true] at hopen
    exact s.operator_appends h (openBracket_lexeme hopen.2)
  split at h
  · rename_i hm; exact s.fdRedirection_appends h hm
  split at h
  · exact s.processSubstitution_appends h
  split at h
  · rename_i hop; exact s.operator_appends h (findOperator_lexeme hop)
  · exact s.word_appends h

def lexScanner : Scanner LexState String where
  step := lexStep
  atEnd s :=
    if s.flags.inDoubleBracket then .error "unterminated [[ conditional"
    else (s.stream.push ⟨.eof, default, default, s.len⟩).map fun stream => { s with stream }
  shortens h := by
    rcases lexStep_cases h with ⟨-, hturn⟩ | ⟨_, _, _, token, _, -, hturn, hread, -⟩
    · cases hturn; exact Nat.le_refl _
    · cases hturn
      have hlen := congrArg List.length hread.text_eq
      have hpos := List.length_pos_iff.mpr hread.raw_ne
      rw [List.length_cons, List.length_append] at hlen
      omega

def arkshLexLine (line : Text) : Except String ArkshTokenStream :=
  (lexScanner.run ⟨line.length, ⟨false, true, false⟩, ⟨[], Nat.zero_le _⟩⟩ line).map
    fun (s, _) => s.stream

/-! ## 5. The tokens of a line -/

/-- The line is made of the tokens and of white space. -/
abbrev TokenTiles : Nat → Text → List ArkshToken → Prop :=
  Tiling.Tiles ArkshToken.position (fun token => token.raw.1) (fun c => isspace c = true)

theorem lexScanner_tiles {s s' : LexState} {t t' : Text}
    (h : lexScanner.run s t = .ok (s', t')) (hlen : t.length ≤ s.len) :
    ∃ tokens, s'.stream.tokens = s.stream.tokens ++ tokens ++ [⟨.eof, default, default, s.len⟩] ∧
      TokenTiles (s.len - t.length) t tokens ∧ ∀ token ∈ tokens, token.kind ≠ .eof := by
  refine lexScanner.run_ok
    (motive := fun s t => t.length ≤ s.len → ∃ tokens,
      s'.stream.tokens = s.stream.tokens ++ tokens ++ [⟨.eof, default, default, s.len⟩] ∧
      TokenTiles (s.len - t.length) t tokens ∧ ∀ token ∈ tokens, token.kind ≠ .eof)
    ?_ ?_ ?_ h hlen
  · intro _ s hend _
    change (if s.flags.inDoubleBracket then _ else _) = _ at hend
    split at hend
    · cases hend
    obtain ⟨stream, hpush, hend⟩ := map_ok.mp hend
    cases hend
    refine ⟨[], ?_, .done _, fun token htoken => nomatch htoken⟩
    rw [append_nil]
    exact ArkshTokenStream.push_tokens hpush
  · -- no turn leaves the loop
    intro s c t hstep
    rcases lexStep_cases hstep with ⟨-, hturn⟩ | ⟨_, _, _, _, _, -, hturn, -⟩ <;> cases hturn
  · intro s c t s₁ t₁ hstep _ ih hlen
    rcases lexStep_cases hstep with
      ⟨hspace, hturn⟩ | ⟨kind, flags, stream, token, rest, hkind, hturn, hread, htokens⟩
    · cases hturn
      rw [length_cons] at hlen
      obtain ⟨tokens, hstream, htiles, hkinds⟩ := ih (by omega)
      refine ⟨tokens, hstream, .gap hspace ?_, hkinds⟩
      have hpos : s.len - (c :: t).length + 1 = s.len - t.length := by rw [length_cons]; omega
      rw [hpos]
      exact htiles
    · cases hturn
      have hlength := congrArg List.length hread.text_eq
      rw [length_append] at hlength
      obtain ⟨tokens, hstream, htiles, hkinds⟩ := ih (show t₁.length ≤ s.len by omega)
      refine ⟨token :: tokens, ?_, ?_, ?_⟩
      · rw [hstream]
        show stream.tokens ++ tokens ++ _ = _
        rw [htokens, append_assoc s.stream.tokens]
        rfl
      · have hpos : token.position + token.raw.1.length = s.len - t₁.length := by
          rw [hread.position_eq]
          omega
        have hrest : TokenTiles (token.position + token.raw.1.length) t₁ tokens := by
          rw [hpos]
          exact htiles
        have hpiece : TokenTiles token.position (token.raw.1 ++ t₁) (token :: tokens) :=
          .piece hread.raw_ne hrest
        rw [← hread.text_eq, hread.position_eq] at hpiece
        exact hpiece
      · intro u hu
        rcases mem_cons.mp hu with rfl | hu
        · rw [hread.kind_eq]; exact hkind
        · exact hkinds u hu

structure Lossless (line : Text) (stream : List ArkshToken) (tokens : List ArkshToken) : Prop where
  /-- The last token is EOF at the end of the line, and the only one of its kind. -/
  eof : ∃ eof, stream = tokens ++ [eof] ∧ eof.kind = .eof ∧ eof.position = line.length
  before : ∀ token ∈ tokens, token.kind ≠ .eof
  /-- `raw` is the substring at `position`. -/
  raw : ∀ token ∈ tokens,
    token.raw.1 = (line.drop token.position).take token.raw.1.length
  /-- The tokens stand in strictly increasing order and do not overlap. -/
  ordered : tokens.Pairwise fun a b =>
    a.position < b.position ∧ a.position + a.raw.1.length ≤ b.position
  /-- Only white space stands outside of them. -/
  gaps : ∀ i c, (line)[i]? = some c →
    (∀ token ∈ tokens, i < token.position ∨ token.position + token.raw.1.length ≤ i) →
    isspace c = true

/-- **The tokens of a line that is accepted are a lossless partition of it.** -/
theorem lexLine_lossless {line : Text} {stream : ArkshTokenStream}
    (h : arkshLexLine line = .ok stream) : ∃ tokens, Lossless line stream.tokens tokens := by
  obtain ⟨⟨s, t⟩, hrun, h⟩ := map_ok.mp h
  obtain rfl : s.stream = stream := h
  obtain ⟨tokens, hstream, htiles, hkinds⟩ := lexScanner_tiles hrun (Nat.le_refl _)
  rw [show (LexState.mk line.length _ _).len - line.length = 0 from Nat.sub_self _] at htiles
  refine ⟨tokens, ⟨⟨.eof, default, default, line.length⟩, ?_, rfl, rfl⟩, hkinds, ?_, ?_, ?_⟩
  · exact hstream
  · intro token htoken
    have hraw := htiles.segment_eq token htoken
    exact hraw
  · have hne := htiles.seg_ne_nil
    refine htiles.pairwise.imp_of_mem ?_
    intro a b ha _ hle
    have hpos := length_pos_iff.mpr (hne a ha)
    exact ⟨by omega, hle⟩
  · intro i c hi hout
    refine htiles.uncovered i c hi ?_
    intro token htoken
    rw [zero_add]
    exact hout token htoken

/-- `x 'a b' |y` -/
theorem lexLine_lossless_pipe : ∃ stream,
    arkshLexLine "x 'a b' |y".toList = .ok stream ∧
      ∃ tokens, Lossless "x 'a b' |y".toList stream.tokens tokens := by
  have hok : (arkshLexLine "x 'a b' |y".toList).isOk = true := by decide
  cases h : arkshLexLine "x 'a b' |y".toList with
  | error e => rw [h] at hok; cases hok
  | ok stream => exact ⟨stream, rfl, lexLine_lossless h⟩

/-! ## 6. What holds of every token -/

def AppendsToken (Q : ArkshToken → Prop) (s : LexState) (turn : Turn LexState) : Prop :=
  ∃ s' rest token, turn = .more s' rest ∧ s'.stream.tokens = s.stream.tokens ++ [token] ∧ Q token

theorem LexState.token_appendsToken {Q : ArkshToken → Prop} (h : s.token scanned flags = .ok turn)
    (hQ : ∀ token rest, scanned = .ok (token, rest) → Q token) : AppendsToken Q s turn := by
  unfold LexState.token at h
  split at h
  · obtain ⟨⟨token, rest⟩, hscan, h⟩ := bind_ok.mp h
    obtain ⟨stream, hpush, h⟩ := map_ok.mp h
    exact ⟨_, rest, token, h.symm, ArkshTokenStream.push_tokens hpush, hQ token rest hscan⟩
  · cases h

def Operator.token (op : Operator) (i : Nat) : ArkshToken :=
  ⟨op.kind, ⟨op.lexeme, op.short⟩, ⟨op.lexeme, op.short⟩, i⟩

structure ScansTokens (Q : ArkshToken → Prop) : Prop where
  eof : ∀ i, Q ⟨.eof, default, default, i⟩
  word : ∀ {mode text start token rest},
    scanWordToken mode text start = .ok (token, rest) → Q token
  process : ∀ {kind text start token rest}, kind = .procSubstIn ∨ kind = .procSubstOut →
    startsProcessSubstitution text = true →
    scanProcessSubstitutionToken kind text start = .ok (token, rest) → Q token
  operator : ∀ op ∈ openBracket :: (bracketOperators ++ operators), ∀ i, Q (op.token i)
  descriptor : ∀ {kind length text} {fdText : TokenText} (i : Nat),
    matchFdRedirectionToken text = some (kind, length) → fdText.1 = text.take length →
    Q ⟨kind, fdText, fdText, i⟩

namespace ScansTokens

variable {Q : ArkshToken → Prop} {s : LexState} {turn : Turn LexState}

theorem findOperator_token (h : ScansTokens Q) {text : Text}
    (htable : ∀ op ∈ table, op ∈ openBracket :: (bracketOperators ++ operators))
    (hop : findOperator table text = some op) (hturn : s.operator op text i = .ok turn) :
    AppendsToken Q s turn := by
  refine s.token_appendsToken hturn fun token rest hscan => ?_
  cases hscan
  exact h.operator op (htable op (mem_of_find?_eq_some hop)) i

theorem processSubstitution_token (h : ScansTokens Q) {text : Text}
    (hstart : startsProcessSubstitution text = true)
    (hturn : s.processSubstitution text i flags = .ok turn) : AppendsToken Q s turn := by
  refine s.token_appendsToken hturn fun _ _ => h.process ?_ hstart
  split
  · exact Or.inl rfl
  · exact Or.inr rfl

theorem lexStep_cases (h : ScansTokens Q) {c : Char} {rest : Text}
    (hturn : lexStep s c rest = .ok turn) : turn = .more s rest ∨ AppendsToken Q s turn := by
  unfold lexStep at hturn
  dsimp only at hturn
  split at hturn
  · exact Or.inl (Except.ok.inj hturn).symm
  refine Or.inr ?_
  split at hturn
  · split at hturn
    · rename_i hstart; exact h.processSubstitution_token hstart hturn
    split at hturn
    · rename_i hop
      refine h.findOperator_token (fun op hmem => ?_) hop hturn
      exact mem_cons_of_mem _ (mem_append_left _ hmem)
    · exact s.token_appendsToken hturn fun _ _ => h.word
  split at hturn
  · refine s.token_appendsToken hturn fun token rest hscan => ?_
    cases hscan
    exact h.operator openBracket mem_cons_self _
  split at hturn
  · rename_i hm
    unfold LexState.fdRedirection at hturn
    split at hturn
    · refine s.token_appendsToken hturn fun token rest hscan => ?_
      cases hscan
      exact h.descriptor _ hm rfl
    · cases hturn
  split at hturn
  · rename_i hstart; exact h.processSubstitution_token hstart hturn
  split at hturn
  · rename_i hop
    refine h.findOperator_token (fun op hmem => ?_) hop hturn
    exact mem_cons_of_mem _ (mem_append_right _ hmem)
  · exact s.token_appendsToken hturn fun _ _ => h.word

theorem run (h : ScansTokens Q) {s' : LexState} {t t' : Text}
    (hrun : lexScanner.run s t = .ok (s', t')) (hs : ∀ token ∈ s.stream.tokens, Q token) :
    ∀ token ∈ s'.stream.tokens, Q token := by
  refine lexScanner.run_ok
    (motive := fun s _ => (∀ token ∈ s.stream.tokens, Q token) →
      ∀ token ∈ s'.stream.tokens, Q token) ?_ ?_ ?_ hrun hs
  · intro _ s hend hs
    change (if s.flags.inDoubleBracket then _ else _) = _ at hend
    split at hend
    · cases hend
    obtain ⟨stream, hpush, hend⟩ := map_ok.mp hend
    cases hend
    intro token htoken
    rw [show ({ s with stream } : LexState).stream.tokens = _ from
      ArkshTokenStream.push_tokens hpush] at htoken
    rcases mem_append.mp htoken with htoken | htoken
    · exact hs token htoken
    · cases mem_singleton.mp htoken; exact h.eof _
  · intro s c t hstep; rcases h.lexStep_cases hstep with hturn | ⟨_, _, _, hturn, -⟩ <;> cases hturn
  · intro s c t s₁ t₁ hstep _ ih hs
    rcases h.lexStep_cases hstep with hturn | ⟨_, _, token, hturn, htokens, htoken⟩
    · cases hturn; exact ih hs
    · cases hturn
      refine ih fun u hu => ?_
      rw [htokens] at hu
      rcases mem_append.mp hu with hu | hu
      · exact hs u hu
      · cases mem_singleton.mp hu; exact htoken

/-- **What holds of the tokens of every scanner holds of all tokens of a line.** -/
theorem lexLine (h : ScansTokens Q) {line : Text} {stream : ArkshTokenStream}
    (hline : arkshLexLine line = .ok stream) : ∀ token ∈ stream.tokens, Q token := by
  obtain ⟨⟨s, t⟩, hrun, hline⟩ := map_ok.mp hline
  obtain rfl : s.stream = stream := hline
  exact h.run hrun fun token htoken => nomatch htoken

end ScansTokens

end Arksh
