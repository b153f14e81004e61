/-
  Subject: sh mode: which lines are refused, and that what is refused is run nowhere.

  The gate of sh mode stands in `arksh_shell_execute_line`. It looks at the line itself, at its
  tokens and at the kind of its tree, not at the lines that the tree holds as texts; those come to
  the same gate when they are run.
-/
import Arksh.Exec.Executor

namespace Arksh

open CText Scan Traces Traces.Trace List Bool

/-! ## 1. The forms -/

def ShModeError (message : String) : Prop :=
  ∃ form, message = "sh: " ++ form ++ " not supported in sh mode"

def isDisabledOperator (kind : ArkshTokenKind) : Bool :=
  kind = .arrow || kind = .objectPipe || kind = .hereString || kind = .procSubstIn ||
    kind = .procSubstOut

/-- How the disabled operators begin. -/
def disabledLexemes : List Text := [['-', '>'], ['|', '>'], ['<', '<', '<'], ['<', '('], ['>', '(']]

def OperatorToken (token : ArkshToken) : Prop :=
  isDisabledOperator token.kind = true → ∃ lexeme ∈ disabledLexemes, lexeme <+: token.raw.1

def disabledFirstWords : List String := ["[[", "class", "switch", "extend"]

def Quote.toggle (quote : Quote) (c : Char) : Quote :=
  match quote with
  | .unquoted => if c = '\'' then .single else if c = '"' then .double else .unquoted
  | .single => if c = '\'' then .unquoted else .single
  | .double => if c = '"' then .unquoted else .double

def quotesBehind (quote : Quote) (text : Text) : Quote := text.foldl Quote.toggle quote

variable {Ast : Type} {kind : ArkshTokenKind} {text rest : Text} {start i : Nat} {message : String}

/-- The forms that sh mode disables. A block literal opens outside of quotes, and no bracket of a
    pattern stands in front of it. -/
inductive DisabledLine (P : ParserBody Ast) (expandedLine : Text) : Prop where
  | letLine (h : isKeywordLine "let".toList (trimCopy arkshMaxLine expandedLine) = true)
  | extendLine (h : isKeywordLine "extend".toList (trimCopy arkshMaxLine expandedLine) = true)
  | operator (stream : ArkshTokenStream) (token : ArkshToken)
      (hlex : arkshLexLine (trimCopy arkshMaxLine expandedLine) = .ok stream)
      (hmem : token ∈ stream.tokens) (h : isDisabledOperator token.kind = true)
      (hraw : OperatorToken token)
  | firstWord (stream : ArkshTokenStream) (token : ArkshToken) (word : String)
      (hlex : arkshLexLine (trimCopy arkshMaxLine expandedLine) = .ok stream)
      (hmem : stream.tokens.head? = some token) (hkind : token.kind = .word)
      (hword : word ∈ disabledFirstWords) (h : token.text.1 = word.toList)
      (hraw : token.raw.1 = token.text.1)
  | blockLiteral (front rest : Text)
      (htext : trimCopy arkshMaxLine expandedLine = front ++ '[' :: ':' :: rest)
      (hbackslash : '\\' ∉ front) (hbracket : front.getLast? ≠ some '[')
      (h : quotesBehind .unquoted front = .unquoted)
  | tree (ast : Ast)
      (hhandler : @lineHandler Ast true (trimCopy arkshMaxLine expandedLine) = none)
      (hparse : arkshParseLine P expandedLine = .ok ast)
      (h : (shModeCheckAst (P.kind ast)).isSome = true)

/-- What the gate may take for a disabled form: a word that reads `[[`, a first word that reads so
    without quotes, or `[:` outside of quotes. -/
inductive ResemblingLine (expandedLine : Text) : Prop where
  | word (stream : ArkshTokenStream) (token : ArkshToken)
      (hlex : arkshLexLine (trimCopy arkshMaxLine expandedLine) = .ok stream)
      (hmem : token ∈ stream.tokens) (hkind : token.kind = .word)
      (h : token.text.1 = "[[".toList)
  | quoted (stream : ArkshTokenStream) (token : ArkshToken) (word : String)
      (hlex : arkshLexLine (trimCopy arkshMaxLine expandedLine) = .ok stream)
      (hmem : stream.tokens.head? = some token) (hword : word ∈ disabledFirstWords)
      (h : token.text.1 = word.toList) (hraw : token.raw.1 ≠ token.text.1)
  | bracket (front rest : Text)
      (htext : trimCopy arkshMaxLine expandedLine = front ++ '[' :: ':' :: rest)
      (h : quotesBehind .unquoted front = .unquoted)

/-! ## 2. Operators as tokens -/

variable {token : ArkshToken}

theorem scanProcessSubstitutionToken_operator (hstart : startsProcessSubstitution text = true)
    (h : scanProcessSubstitutionToken kind text start = .ok (token, rest)) :
    OperatorToken token := by
  intro _
  unfold scanProcessSubstitutionToken at h
  split at h
  · rename_i c text
    obtain ⟨b, hb, h⟩ := bind_ok.mp h
    obtain ⟨⟨s, t⟩, hrun, h⟩ := map_ok.mp h
    cases h
    obtain ⟨seg, rfl, hseg⟩ :=
      processScanner.run_took (fun hend => by cases hend) processStep_reads hrun
    have hraw : s.bufs.raw.1 = [c, '('] ++ seg := by
      rw [show s.bufs.raw.1 = b.seen ++ seg from hseg, Buffers.pushRaw_seen hb]
      rfl
    refine ⟨[c, '('], ?_, seg, hraw.symm⟩
    unfold startsProcessSubstitution at hstart
    split at hstart
    · rename_i heq
      cases heq
      decide
    · rename_i heq
      cases heq
      decide
    · cases hstart
  · cases h

theorem operatorToken_of_not (h : isDisabledOperator token.kind = false) : OperatorToken token := by
  intro hkind
  rw [h] at hkind
  cases hkind

theorem scanWordToken_operatorToken {mode : Bool}
    (h : scanWordToken mode text start = .ok (token, rest)) : OperatorToken token := by
  refine operatorToken_of_not ?_
  rw [(scanWordToken_took h).kind_eq]
  rfl

theorem matchFdRedirectionToken_operator {length : Nat}
    (h : matchFdRedirectionToken text = some (kind, length)) : isDisabledOperator kind = false := by
  unfold matchFdRedirectionToken at h
  split at h
  · cases h
  split at h
  · dsimp only at h
    split at h <;> cases h <;> rfl
  · cases h

theorem operator_operatorToken : ∀ op ∈ openBracket :: (bracketOperators ++ operators),
    isDisabledOperator op.kind = true → op.lexeme ∈ disabledLexemes := by decide

theorem scansTokens_operatorToken : ScansTokens OperatorToken where
  eof _ := operatorToken_of_not rfl
  word h := scanWordToken_operatorToken h
  process _ hstart h := scanProcessSubstitutionToken_operator hstart h
  operator op hop _ hkind := ⟨op.lexeme, operator_operatorToken op hop hkind, prefix_refl _⟩
  descriptor _ hm _ := operatorToken_of_not (matchFdRedirectionToken_operator hm)

variable {line expandedLine trimmed : Text} {stream : ArkshTokenStream}

/-- **A disabled operator is a token of its own: the token begins with it.** Text between quotes is
    part of a word. -/
theorem lexLine_operatorToken (h : arkshLexLine line = .ok stream) :
    ∀ token ∈ stream.tokens, OperatorToken token :=
  scansTokens_operatorToken.lexLine h

/-! ## 3. The gate at a line -/

/-- A step of the scan for `[:`. -/
theorem hasBlockLiteral_cons (quote : Quote) (c : Char) (text : Text) :
    hasBlockLiteral (quote = .single) (quote = .double) (c :: text) =
      (decide (quote = .unquoted ∧ c = '[' ∧ text.head? = some ':') ||
        hasBlockLiteral (quote.toggle c = .single) (quote.toggle c = .double) text) := by
  rw [hasBlockLiteral]
  unfold Quote.toggle
  by_cases hsingle : c = '\''
  · subst hsingle; cases quote <;> rfl
  by_cases hdouble : c = '"'
  · subst hdouble; cases quote <;> rfl
  rw [if_neg fun h => hsingle h.1, if_neg fun h => hdouble h.1]
  cases quote with
  | unquoted =>
    rw [if_neg hsingle, if_neg hdouble]
    by_cases hopen : c = '[' ∧ text.head? = some ':'
    · have hyes : decide (Quote.unquoted = .unquoted ∧ c = '[' ∧ text.head? = some ':') = true :=
        decide_eq_true ⟨rfl, hopen⟩
      rw [if_pos ⟨by decide, by decide, hopen⟩, hyes, Bool.true_or]
    · have hno : decide (Quote.unquoted = .unquoted ∧ c = '[' ∧ text.head? = some ':') = false :=
        decide_eq_false fun h => hopen h.2
      rw [if_neg fun h => hopen h.2.2, hno, Bool.false_or]
  | single =>
    dsimp only
    rw [if_neg hsingle]
    rfl
  | double =>
    dsimp only
    rw [if_neg hdouble]
    rfl

theorem hasBlockLiteral_iff (quote : Quote) (text : Text) :
    hasBlockLiteral (quote = .single) (quote = .double) text = true ↔
      ∃ front rest, text = front ++ '[' :: ':' :: rest ∧ quotesBehind quote front = .unquoted := by
  induction text generalizing quote with
  | nil =>
    constructor
    · intro h; cases h
    · intro ⟨front, rest, h, _⟩; cases front <;> cases h
  | cons c text ih =>
    rw [hasBlockLiteral_cons, or_eq_true_iff, ih, decide_eq_true_iff]
    constructor
    · intro h
      rcases h with ⟨hquote, rfl, hhead⟩ | ⟨front, rest, rfl, hfront⟩
      · obtain ⟨rest, rfl⟩ := head?_eq_some_iff.mp hhead; exact ⟨[], rest, rfl, hquote⟩
      · exact ⟨c :: front, rest, rfl, hfront⟩
    · intro ⟨front, rest, htext, hfront⟩
      cases front with
      | nil => cases htext; exact Or.inl ⟨hfront, rfl, rfl⟩
      | cons d front => cases htext; exact Or.inr ⟨front, rest, rfl, hfront⟩

theorem shModeCheckToken_some (h : shModeCheckToken i token = some message) :
    ShModeError message ∧ (isDisabledOperator token.kind = true ∨
      token.kind = .word ∧ (token.text.1 = "[[".toList ∨
        i = 0 ∧ ∃ word ∈ disabledFirstWords, token.text.1 = word.toList)) := by
  unfold shModeCheckToken at h
  split at h
  · rename_i hkind
    cases h
    exact ⟨⟨"->", rfl⟩, Or.inl (by rw [hkind]; rfl)⟩
  · rename_i hkind
    cases h
    exact ⟨⟨"|>", rfl⟩, Or.inl (by rw [hkind]; rfl)⟩
  · rename_i hkind
    cases h
    exact ⟨⟨"<<<", rfl⟩, Or.inl (by rw [hkind]; rfl)⟩
  · rename_i hkind
    cases h
    exact ⟨⟨"<(...)", rfl⟩, Or.inl (by rw [hkind]; rfl)⟩
  · rename_i hkind
    cases h
    exact ⟨⟨">(...)", rfl⟩, Or.inl (by rw [hkind]; rfl)⟩
  · rename_i hkind
    split at h
    · cases h; exact ⟨⟨"[[", rfl⟩, Or.inr ⟨hkind, Or.inl ‹_›⟩⟩
    split at h
    · rename_i hclass
      cases h
      exact ⟨⟨"class", rfl⟩, Or.inr ⟨hkind, Or.inr ⟨hclass.1, "class", by decide, hclass.2⟩⟩⟩
    split at h
    · rename_i hswitch
      cases h
      exact ⟨⟨"switch", rfl⟩, Or.inr ⟨hkind, Or.inr ⟨hswitch.1, "switch", by decide, hswitch.2⟩⟩⟩
    split at h
    · rename_i hextend
      cases h
      exact ⟨⟨"extend", rfl⟩, Or.inr ⟨hkind, Or.inr ⟨hextend.1, "extend", by decide, hextend.2⟩⟩⟩
    · cases h
  · cases h

theorem shModeCheckToken_operator (h : isDisabledOperator token.kind = true) (i : Nat) :
    (shModeCheckToken i token).isSome = true := by
  unfold shModeCheckToken
  cases hkind : token.kind with
  | arrow | objectPipe | hereString | procSubstIn | procSubstOut => rfl
  | _ => rw [hkind] at h; cases h

theorem shModeCheckToken_firstWord {word : String} (hkind : token.kind = .word)
    (hword : word ∈ disabledFirstWords) (h : token.text.1 = word.toList) :
    (shModeCheckToken 0 token).isSome = true := by
  unfold shModeCheckToken
  rw [hkind, h]
  rcases mem_cons.mp hword with rfl | hword
  · rfl
  rcases mem_cons.mp hword with rfl | hword
  · rfl
  rcases mem_cons.mp hword with rfl | hword
  · rfl
  cases mem_singleton.mp hword
  rfl

variable {P : ParserBody Ast}

theorem shModeRefusal_reason (h : shModeRefusal (trimCopy arkshMaxLine expandedLine) = some message) :
    ShModeError message ∧ (DisabledLine P expandedLine ∨ ResemblingLine expandedLine) := by
  unfold shModeRefusal at h
  split at h
  · cases h; exact ⟨⟨"let", rfl⟩, Or.inl (.letLine ‹_›)⟩
  split at h
  · cases h; exact ⟨⟨"extend", rfl⟩, Or.inl (.extendLine ‹_›)⟩
  unfold shModeCheckLine at h
  split at h
  · rename_i hscan
    cases h
    obtain ⟨front, rest, htext, hfront⟩ := (hasBlockLiteral_iff .unquoted _).mp hscan
    exact ⟨⟨"block literal", rfl⟩, Or.inr (.bracket front rest htext hfront)⟩
  split at h
  · cases h
  rename_i stream hlex
  obtain ⟨⟨token, i⟩, hmem, htoken⟩ := exists_of_findSome?_eq_some h
  obtain ⟨herror, hreason⟩ := shModeCheckToken_some htoken
  have hget := mem_zipIdx_iff_getElem?.mp hmem
  refine ⟨herror, ?_⟩
  rcases hreason with hoperator | ⟨hkind, hword | ⟨hzero, word, hword, htext⟩⟩
  · have htoken := mem_of_getElem? hget
    exact Or.inl
      (.operator stream token hlex htoken hoperator (lexLine_operatorToken hlex token htoken))
  · exact Or.inr (.word stream token hlex (mem_of_getElem? hget) hkind hword)
  · have hfirst : stream.tokens.head? = some token := by
      rw [head?_eq_getElem?, ← hget]
      exact congrArg _ hzero.symm
    by_cases hraw : token.raw.1 = token.text.1
    · exact Or.inl (.firstWord stream token word hlex hfirst hkind hword htext hraw)
    · exact Or.inr (.quoted stream token word hlex hfirst hword htext hraw)

theorem shModeCheckLine_token (hlex : arkshLexLine trimmed = .ok stream)
    (hget : stream.tokens[i]? = some token) (htoken : (shModeCheckToken i token).isSome = true) :
    (shModeCheckLine trimmed).isSome = true := by
  unfold shModeCheckLine
  split
  · rfl
  rw [hlex]
  have hmem : (token, i) ∈ stream.tokens.zipIdx := mem_zipIdx_iff_getElem?.mpr hget
  exact findSome?_isSome_iff.mpr ⟨(token, i), hmem, htoken⟩

theorem shModeRefusal_of_disabled (h : DisabledLine P expandedLine) :
    (shModeRefusal (trimCopy arkshMaxLine expandedLine)).isSome = true ∨
      ∃ ast, @lineHandler Ast true (trimCopy arkshMaxLine expandedLine) = none ∧
        arkshParseLine P expandedLine = .ok ast ∧ (shModeCheckAst (P.kind ast)).isSome = true := by
  unfold shModeRefusal
  split
  · exact Or.inl rfl
  split
  · exact Or.inl rfl
  rename_i hlet hextend
  cases h with
  | letLine h => exact absurd h hlet
  | extendLine h => exact absurd h hextend
  | operator stream token hlex hmem h hraw =>
    obtain ⟨i, hget⟩ := mem_iff_getElem?.mp hmem
    exact Or.inl (shModeCheckLine_token hlex hget (shModeCheckToken_operator h i))
  | firstWord stream token word hlex hmem hkind hword h _ =>
    rw [head?_eq_getElem?] at hmem
    exact Or.inl (shModeCheckLine_token hlex hmem (shModeCheckToken_firstWord hkind hword h))
  | blockLiteral front rest htext hbackslash hbracket h =>
    have hscan : hasBlockLiteral false false (trimCopy arkshMaxLine expandedLine) = true :=
      (hasBlockLiteral_iff .unquoted _).mpr ⟨front, rest, htext, h⟩
    refine Or.inl ?_
    unfold shModeCheckLine
    rw [if_pos hscan]
    rfl
  | tree ast hhandler hparse h => exact Or.inr ⟨ast, hhandler, hparse, h⟩

theorem shModeCheckAst_error {kind : ArkshAstKind} (h : shModeCheckAst kind = some message) :
    ShModeError message := by
  cases kind with
  | objectExpression => cases h; exact ⟨"object expression", rfl⟩
  | objectPipeline => cases h; exact ⟨"|> pipeline", rfl⟩
  | switchCommand => cases h; exact ⟨"switch", rfl⟩
  | classCommand => cases h; exact ⟨"class", rfl⟩
  | _ => cases h

variable {sh : LineShell}

theorem executeExpanded_shMode (P : ParserBody Ast) (expandedLine : Text) (hmode : sh.shMode = true) :
    executeExpanded sh P expandedLine =
      match shModeRefusal (trimCopy arkshMaxLine expandedLine) with
      | some message => .refused message
      | none =>
        match lineHandler true (trimCopy arkshMaxLine expandedLine) with
        | some action => .runs action
        | none =>
          match arkshParseLine P expandedLine with
          | .error message => .refused (if message = "" then "parse error" else message)
          | .ok ast =>
            match shModeCheckAst (P.kind ast) with
            | some message => .refused message
            | none => .runs (.program ast) := by
  unfold executeExpanded
  rw [hmode]
  rfl

theorem executeExpanded_disabled (hmode : sh.shMode = true) (h : DisabledLine P expandedLine) :
    ∃ message, executeExpanded sh P expandedLine = .refused message ∧ ShModeError message := by
  rw [executeExpanded_shMode P expandedLine hmode]
  cases hrefusal : shModeRefusal (trimCopy arkshMaxLine expandedLine) with
  | some message => exact ⟨message, rfl, (shModeRefusal_reason (P := P) hrefusal).1⟩
  | none =>
    rcases shModeRefusal_of_disabled h with hsome | ⟨ast, hhandler, hparse, hkind⟩
    · rw [hrefusal] at hsome; cases hsome
    · obtain ⟨message, hmessage⟩ := Option.isSome_iff_exists.mp hkind
      refine ⟨message, ?_, shModeCheckAst_error hmessage⟩
      rw [hhandler, hparse]
      dsimp only
      rw [hmessage]

theorem executeExpanded_transparent (hmode : sh.shMode = true)
    (hdisabled : ¬ DisabledLine P expandedLine) (hresembling : ¬ ResemblingLine expandedLine) :
    executeExpanded sh P expandedLine = executeExpanded ⟨sh.aliases, false⟩ P expandedLine := by
  have hrefusal : shModeRefusal (trimCopy arkshMaxLine expandedLine) = none := by
    cases h : shModeRefusal (trimCopy arkshMaxLine expandedLine) with
    | none => rfl
    | some message =>
      rcases (shModeRefusal_reason (P := P) h).2 with h | h
      · exact absurd h hdisabled
      · exact absurd h hresembling
  have hlet : ¬ isKeywordLine "let".toList (trimCopy arkshMaxLine expandedLine) = true :=
    fun h => hdisabled (.letLine h)
  have hextend : ¬ isKeywordLine "extend".toList (trimCopy arkshMaxLine expandedLine) = true :=
    fun h => hdisabled (.extendLine h)
  have hhandler : @lineHandler Ast false (trimCopy arkshMaxLine expandedLine) =
      lineHandler true (trimCopy arkshMaxLine expandedLine) := by
    unfold lineHandler
    rw [eq_false_of_not_eq_true hlet, eq_false_of_not_eq_true hextend]
    rfl
  rw [executeExpanded_shMode P expandedLine hmode, hrefusal]
  unfold executeExpanded
  dsimp only
  rw [if_neg Bool.false_ne_true, hhandler]
  cases haction : @lineHandler Ast true (trimCopy arkshMaxLine expandedLine) with
  | some action => rfl
  | none =>
    cases hparse : arkshParseLine P expandedLine with
    | error message => rfl
    | ok ast =>
      have hkind : shModeCheckAst (P.kind ast) = none := by
        cases h : shModeCheckAst (P.kind ast) with
        | none => rfl
        | some message =>
          exact absurd (.tree ast haction hparse (Option.isSome_of_eq_some h)) hdisabled
      dsimp only
      rw [hkind]
      rfl

/-! ## 4. The gate in a run -/

variable {σ N I : Type}

def World.withForms (W : World σ N I) (parse : Text → Except String (ArkshAst N))
    (perform : ArkshAstKind → N → σ → Task σ (Int × Text))
    (letLine extendLine : Text → σ → Task σ (Int × Text))
    (selectBranch : ArkshAstKind → N → σ → Task σ (Except Text (Option Text))) : World σ N I :=
  { W with parse, perform, letLine, extendLine, selectBranch }

/-- The two differ in the disabled forms only: in `let` and `extend`, in a refused text, and in what
    a disabled tree does. -/
structure SameForms (W : World σ N I) (parse : Text → Except String (ArkshAst N))
    (perform : ArkshAstKind → N → σ → Task σ (Int × Text))
    (selectBranch : ArkshAstKind → N → σ → Task σ (Except Text (Option Text))) : Prop where
  parse : ∀ text, shModeRefusal text = none → parse text = W.parse text
  perform : ∀ kind, shModeCheckAst kind = none → perform kind = W.perform kind
  selectBranch : ∀ kind, shModeCheckAst kind = none → selectBranch kind = W.selectBranch kind

section Forms

variable {W : World σ N I} {parse : Text → Except String (ArkshAst N)}
  {perform : ArkshAstKind → N → σ → Task σ (Int × Text)}
  {letLine extendLine : Text → σ → Task σ (Int × Text)}
  {selectBranch : ArkshAstKind → N → σ → Task σ (Except Text (Option Text))}
  (exec : Text → Exec σ (Int × Text)) {action : Action (ArkshAst N)}

theorem executeCommandList_forms (entries : List ArkshCommandListEntry) (status : Int)
    (out : Text) :
    executeCommandList (W.withForms parse perform letLine extendLine selectBranch) exec entries
      status out = executeCommandList W exec entries status out := by
  induction entries generalizing status out with
  | nil => rfl
  | cons entry rest ih =>
    rw [executeCommandList, executeCommandList]
    simp only [ih]
    rfl

theorem executeLoop_forms (stopsOn : Bool) (condition body : Text) (turns : Nat) (status : Int)
    (out : Text) :
    executeLoop (W.withForms parse perform letLine extendLine selectBranch) exec stopsOn condition
      body turns status out = executeLoop W exec stopsOn condition body turns status out := by
  induction turns generalizing status out with
  | zero => rfl
  | succ turns ih =>
    rw [executeLoop, executeLoop]
    simp only [ih]
    rfl

theorem executeForItems_forms (name body : Text) (items : List I) (status : Int) (out : Text) :
    executeForItems (W.withForms parse perform letLine extendLine selectBranch) exec name body
      items status out = executeForItems W exec name body items status out := by
  induction items generalizing status out with
  | nil => rfl
  | cons item items ih =>
    rw [executeForItems, executeForItems]
    simp only [ih]
    rfl

theorem firePendingTraps_forms (kinds : List ArkshTrapKind) :
    firePendingTraps (W.withForms parse perform letLine extendLine selectBranch) exec kinds =
      firePendingTraps W exec kinds := by
  induction kinds with
  | nil => rfl
  | cons kind kinds ih => rw [firePendingTraps, firePendingTraps, ih]; rfl

variable (h : SameForms W parse perform selectBranch)

include h

theorem arkshExecuteAst_forms (turns : Nat) {ast : ArkshAst N}
    (hkind : shModeCheckAst ast.kind = none) :
    arkshExecuteAst (W.withForms parse perform letLine extendLine selectBranch) exec turns ast =
      arkshExecuteAst W exec turns ast := by
  cases ast with
  | plain kind node =>
    unfold arkshExecuteAst
    show (Trace.getState >>= fun sh => runTask exec (perform kind node sh.rest)) = _
    rw [h.perform kind hkind]
  | commandList entries => exact executeCommandList_forms exec entries 0 []
  | whileCommand condition body =>
    refine congrArg (enterLoop >>= ·) (funext fun _ => ?_)
    exact executeLoop_forms exec false condition body turns 0 []
  | untilCommand condition body =>
    refine congrArg (enterLoop >>= ·) (funext fun _ => ?_)
    exact executeLoop_forms exec true condition body turns 0 []
  | forCommand name source body =>
    have hiterable : executeForIterable (W.withForms parse perform letLine extendLine selectBranch)
        exec name body = executeForIterable W exec name body := by
      funext iterable
      cases iterable with
      | list items => exact executeForItems_forms exec name body items 0 []
      | single item | empty => rfl
    unfold arkshExecuteAst executeForCommand
    dsimp only
    rw [hiterable]
    rfl
  | caseCommand node =>
    unfold arkshExecuteAst executeSelected
    show (Trace.getState >>= fun sh =>
      runTask exec (selectBranch .caseCommand node sh.rest) >>= _) = _
    rw [h.selectBranch .caseCommand rfl]
  | switchCommand node => cases hkind
  | empty | groupCommand node body | ifCommand condition thenBranch elseBranch
  | withSudoCommand body => rfl

def PassesGate : Action (ArkshAst N) → Prop
  | .letLine _ | .extendLine _ => False
  | .program ast => shModeCheckAst ast.kind = none
  | _ => True

theorem runAction_forms (turns : Nat) (haction : PassesGate action) :
    runAction (W.withForms parse perform letLine extendLine selectBranch) exec turns action =
      runAction W exec turns action := by
  refine congrArg (Trace.getState >>= ·) (funext fun sh => ?_)
  cases action with
  | letLine line | extendLine line => exact haction.elim
  | breakLine line | continueLine line | returnLine line => rfl
  | program ast =>
    dsimp only
    rw [arkshExecuteAst_forms exec h turns haction]
    unfold finishLine
    rw [firePendingTraps_forms]

omit h in
theorem lineHandler_passes (haction : lineHandler true trimmed = some action) :
    PassesGate action := by
  unfold lineHandler at haction
  rw [Bool.not_true, Bool.false_and, Bool.false_and] at haction
  split at haction
  · cases haction
  rw [if_neg Bool.false_ne_true, if_neg Bool.false_ne_true] at haction
  split at haction
  · cases haction; trivial
  split at haction
  · cases haction; trivial
  split at haction
  · cases haction; trivial
  · cases haction

theorem arkshShellExecuteLine_forms (hmode : sh.shMode = true) (line : Text) :
    arkshShellExecuteLine sh
      (W.withForms parse perform letLine extendLine selectBranch).parserBody line =
        arkshShellExecuteLine sh W.parserBody line := by
  unfold arkshShellExecuteLine executeAliased
  split
  · rfl
  split
  · rfl
  rename_i expandedLine _
  rw [executeExpanded_shMode _ _ hmode, executeExpanded_shMode _ _ hmode]
  split
  · rfl
  rename_i hrefusal
  have hparse : arkshParseLine
      (W.withForms parse perform letLine extendLine selectBranch).parserBody expandedLine =
        arkshParseLine W.parserBody expandedLine := by
    unfold arkshParseLine
    dsimp only
    split
    · rfl
    · exact h.parse _ hrefusal
  rw [hparse]
  rfl

omit h in
theorem arkshShellExecuteLine_passes (hmode : sh.shMode = true)
    (hruns : arkshShellExecuteLine sh W.parserBody line = .runs action) : PassesGate action := by
  unfold arkshShellExecuteLine executeAliased at hruns
  split at hruns
  · cases hruns
  split at hruns
  · cases hruns
  rw [executeExpanded_shMode _ _ hmode] at hruns
  split at hruns
  · cases hruns
  split at hruns
  · rename_i hhandler
    cases hruns
    exact lineHandler_passes hhandler
  split at hruns
  · cases hruns
  split at hruns
  · cases hruns
  · rename_i hkind
    cases hruns
    exact hkind

theorem executeLineStep_forms (hmode : ∀ rest, (W.lineShell rest).shMode = true) (turns : Nat)
    (line : Text) :
    executeLineStep (W.withForms parse perform letLine extendLine selectBranch) exec turns line =
      executeLineStep W exec turns line := by
  refine congrArg (Trace.getState >>= ·) (funext fun sh => ?_)
  have hsame : arkshShellExecuteLine
      ((W.withForms parse perform letLine extendLine selectBranch).lineShell sh.rest)
      (W.withForms parse perform letLine extendLine selectBranch).parserBody line =
        arkshShellExecuteLine (W.lineShell sh.rest) W.parserBody line :=
    arkshShellExecuteLine_forms h (hmode sh.rest) line
  rw [hsame]
  cases hruns : arkshShellExecuteLine (W.lineShell sh.rest) W.parserBody line with
  | blank | refused message => rfl
  | runs action =>
    dsimp only
    rw [runAction_forms exec h turns (arkshShellExecuteLine_passes (hmode sh.rest) hruns)]

/-- **A run in sh mode does not depend on what the disabled forms do.** -/
theorem executeLine_forms (hmode : ∀ rest, (W.lineShell rest).shMode = true) (n : Nat) :
    executeLine (W.withForms parse perform letLine extendLine selectBranch) n =
      executeLine W n := by
  induction n with
  | zero => rfl
  | succ n ih =>
    funext line
    rw [executeLine, ih, executeLineStep_forms _ h hmode]
    rfl

end Forms

/-! ## 5. The gate -/

/-- **In sh mode a line with a disabled form is refused, a line that does not even resemble one is
    taken as it is out of sh mode, and no run depends on what the disabled forms do.** -/
theorem shMode_gate (W : World σ N I) (hmode : ∀ rest, (W.lineShell rest).shMode = true) :
    (∀ rest line expandedLine, isBlankOrCommentLine line = false →
      expandAliases (W.lineShell rest).aliases line = .ok expandedLine →
      (DisabledLine W.parserBody expandedLine → ∃ message,
        arkshShellExecuteLine (W.lineShell rest) W.parserBody line = .refused message ∧
          ShModeError message) ∧
      (¬ DisabledLine W.parserBody expandedLine → ¬ ResemblingLine expandedLine →
        arkshShellExecuteLine (W.lineShell rest) W.parserBody line =
          arkshShellExecuteLine ⟨(W.lineShell rest).aliases, false⟩ W.parserBody line)) ∧
    ∀ parse perform letLine extendLine selectBranch, SameForms W parse perform selectBranch →
      ∀ n, executeLine (W.withForms parse perform letLine extendLine selectBranch) n =
        executeLine W n := by
  refine ⟨?_, ?_⟩
  · intro rest line expandedLine hblank halias
    unfold arkshShellExecuteLine executeAliased
    rw [hblank, halias]
    constructor
    · intro h; exact executeExpanded_disabled (hmode rest) h
    · intro hdisabled hresembling
      exact executeExpanded_transparent (hmode rest) hdisabled hresembling
  · intro parse perform letLine extendLine selectBranch h n; exact executeLine_forms h hmode n

def HasArrow (text : Text) : Prop :=
  ∃ stream, arkshLexLine text = .ok stream ∧ ∃ token ∈ stream.tokens, token.kind = .arrow

instance (text : Text) : Decidable (HasArrow text) :=
  match h : arkshLexLine text with
  | .error _ => isFalse fun ⟨_, hlex, _⟩ => by
      rw [h] at hlex
      cases hlex
  | .ok stream => decidable_of_iff (∃ token ∈ stream.tokens, token.kind = .arrow) (by
      rw [HasArrow, h]
      exact ⟨fun hmem => ⟨stream, rfl, hmem⟩, fun ⟨_, hlex, hmem⟩ => by cases hlex; exact hmem⟩)

def shWorld (trees : List (String × ArkshAst String)) : World Unit String Unit :=
  { tableWorld trees [] with lineShell := fun _ => ⟨fun _ => none, true⟩ }

theorem disabledLine_arrow (P : ParserBody Ast) : DisabledLine P "a -> b".toList := by
  have harrow : HasArrow (trimCopy arkshMaxLine "a -> b".toList) := by decide
  obtain ⟨stream, hlex, token, hmem, hkind⟩ := harrow
  exact .operator stream token hlex hmem (by rw [hkind]; rfl)
    (lexLine_operatorToken hlex token hmem)

/-- `a -> b` is refused; `echo '->'` is taken as it is out of sh mode. -/
theorem shMode_gate_arrow :
    (∃ message, arkshShellExecuteLine ((shWorld []).lineShell ()) (shWorld []).parserBody
      "a -> b".toList = .refused message ∧ ShModeError message) ∧
    arkshShellExecuteLine ((shWorld []).lineShell ()) (shWorld []).parserBody "echo '->'".toList =
      arkshShellExecuteLine ⟨((shWorld []).lineShell ()).aliases, false⟩ (shWorld []).parserBody
        "echo '->'".toList := by
  have hgate := (shMode_gate (shWorld []) fun _ => rfl).1 ()
  refine ⟨(hgate _ _ (by decide) (by decide)).1 (disabledLine_arrow _), ?_⟩
  refine (hgate _ "echo '->'".toList (by decide) (by decide)).2 ?_ ?_
  · intro h
    rcases shModeRefusal_of_disabled h with hsome | ⟨ast, _, hparse, _⟩
    · exact absurd hsome (by decide)
    · cases hparse
  · intro h
    have hwords : (arkshLexLine (trimCopy arkshMaxLine "echo '->'".toList)).toOption.all
        (fun stream => stream.tokens.all fun token =>
          disabledFirstWords.all fun word => token.text.1 ≠ word.toList) = true := by decide
    cases h with
    | word stream token hlex hmem hkind h =>
      rw [hlex] at hwords
      have hword := all_eq_true.mp (all_eq_true.mp hwords token hmem) "[[" (by decide)
      exact of_decide_eq_true hword h
    | quoted stream token word hlex hmem hword h =>
      rw [hlex] at hwords
      have hno := all_eq_true.mp (all_eq_true.mp hwords token (mem_of_mem_head? hmem)) word hword
      exact of_decide_eq_true hno h
    | bracket front rest htext h =>
      have hscan := (hasBlockLiteral_iff .unquoted _).mpr ⟨front, rest, htext, h⟩
      exact absurd hscan (by decide)

inductive Contains (P : ParserBody Ast) (parts : Ast → List Text) (form : Text → Prop) :
    Text → Prop where
  | here {text : Text} (h : form text) : Contains P parts form text
  | part {text part : Text} {ast : Ast} (hparse : P.parse text = .ok ast)
      (hpart : part ∈ parts ast) (h : Contains P parts form part) : Contains P parts form text

/-- `echo $(a -> b)` is not refused; `a -> b` is, when it is run. -/
theorem not_shMode_nested :
    ¬ ∀ (sh : LineShell) (P : ParserBody (ArkshAst String)) parts line, sh.shMode = true →
      Contains P parts HasArrow line →
      ∃ message, arkshShellExecuteLine sh P line = .refused message ∧ ShModeError message := by
  intro h
  let W := shWorld [("echo $(a -> b)", .plain .simpleCommand "echo $(a -> b)")]
  have hcontains : Contains W.parserBody (fun _ => ["a -> b".toList]) HasArrow
      "echo $(a -> b)".toList :=
    .part rfl (mem_singleton_self _) (.here (by decide))
  obtain ⟨message, hrefused, -⟩ :=
    h (W.lineShell ()) W.parserBody _ "echo $(a -> b)".toList rfl hcontains
  have hruns : arkshShellExecuteLine (W.lineShell ()) W.parserBody "echo $(a -> b)".toList =
      .runs (.program (.plain .simpleCommand "echo $(a -> b)")) := by
    rfl
  cases hrefused

end Arksh
