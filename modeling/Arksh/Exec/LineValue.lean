/-
  Subject: `evaluate_line_value_heap` of `src/executor.c`, as far as numbers and binary
           expressions go: from the text of a line to its value.

  What the shell has defined, and the sources of other kinds, are parameters (`ValueShell`). A
  binary expression evaluates its operands as lines of their own; `turns` bounds how deep.
-/
import Arksh.Exec.Binary
import Arksh.Exec.Imaginary
import Arksh.Expand.Word
import Arksh.Lib.DecimalLiteral
import Arksh.Parse.TopLevel

namespace Arksh

open CText Scan Binary64 List Nat

/-! ## 1. The evaluator -/

structure ValueShell (σ : Type) where
  view : ShellView σ
  shell : σ
  /-- `arksh_shell_get_binding` -/
  getBinding : Text → Option ArkshValue
  /-- `arksh_shell_find_class`: the value that stands for a class. -/
  findClass : Text → Option ArkshValue
  /-- What is set passes `is_valid_identifier`. -/
  bindingNames : ∀ name, (getBinding name).isSome = true → isIdentifierText name = true
  classNames : ∀ name, (findClass name).isSome = true → isIdentifierText name = true
  /-- `evaluate_value_source` on sources of other kinds. -/
  evaluateSource : ArkshValueSourceNode → Except String ArkshValue
  /-- Object pipelines. -/
  evaluatePipeline : Text → Except String ArkshValue
  /-- `invoke_extension_method_value` -/
  invokeExtension : ArkshValue → Text → ArkshValue → Except String ArkshValue
  /-- The message of an error of the expander. -/
  expandMessage : ExpandError → String

variable {σ : Type} {text rest : Text}

/-- `expand_single_word`, for the modes that neither glob nor split. -/
def expandSingleWord (S : ValueShell σ) (mode : ArkshExpandMode) (raw : Text) :
    Except String Text :=
  if startsProcessSubstitution raw then
    .error "process substitution is not valid in object expressions"
  else
    match expandRawToken S.view S.shell mode raw with
    | .error e => .error (S.expandMessage e)
    | .ok s => .ok (copyString arkshMaxToken s.expanded)

def parseNumberText (text : Text) : Option Binary64 :=
  match strtod text with
  | some (number, []) => some number
  | _ => none

def evaluateNumberLiteral (S : ValueShell σ) (raw : Text) : Except String ArkshValue :=
  match expandSingleWord S .objectArgument raw with
  | .error message => .error message
  | .ok expanded =>
    match parseNumberText expanded with
    | none => .error ("invalid numeric source: " ++ String.ofList expanded)
    | some number => .ok (arkshValueSetNumber number)

/-- `evaluate_line_value_heap` -/
def evaluateLineValue (S : ValueShell σ) : Nat → Text → Except String ArkshValue
  | 0, _ => .error ""
  | turns + 1, line =>
    let trimmed := trimText (copyString arkshMaxLine line)
    if trimmed = [] then .ok arkshValueInit
    else
      match S.getBinding trimmed, S.findClass trimmed with
      | some value, _ => .ok value
      | none, some value => .ok value
      | none, none =>
        match parseValueSourceTextEx trimmed true "" with
        | .value source =>
          match source.kind with
          | .numberLiteral => evaluateNumberLiteral S source.rawText
          | .binaryOp =>
            evaluateBinaryExprIterative (evaluateLineValue S turns)
              (applyBinaryOp S.invokeExtension) source.text
          | _ => S.evaluateSource source
        | .invalid message => .error (if message = "" then "parse error" else message)
        | .noValue message =>
          match arkshLexLine trimmed with
          | .error message => .error message
          | .ok stream =>
            if stream.tokens.any (·.kind = .objectPipe) then S.evaluatePipeline trimmed
            else .error (if message = "" then "expression does not produce a value" else message)

/-! ## 2. The characters of a number -/

variable {c d : Char}

theorem isIdentifierText_of_isdigit (h : isdigit c = true) :
    isIdentifierText (c :: text) = false := by
  have hunder : c ≠ '_' := by rintro rfl; exact absurd h (by decide)
  rw [isIdentifierText, isalpha_of_isdigit h, decide_eq_false hunder]
  rfl

/-- Digits, the point and the letters of an exponent. -/
def isNumeralWordChar (c : Char) : Bool := isdigit c || c = '.' || c = 'e' || c = 'E'

theorem ne_of_isNumeralWordChar (hc : isNumeralWordChar c = true) (hd : isNumeralWordChar d = false) :
    c ≠ d := by
  rintro rfl
  rw [hc] at hd
  cases hd

theorem isspace_of_isNumeralWordChar (hc : isNumeralWordChar c = true) : isspace c = false := by
  simp only [isNumeralWordChar, Bool.or_eq_true, decide_eq_true_eq] at hc
  rcases hc with ((hc | rfl) | rfl) | rfl
  · exact isspace_of_isdigit hc
  · decide
  · decide
  · decide

def IsNumeralWord (text : Text) : Prop := ∀ c ∈ text, isNumeralWordChar c = true

section

variable (h : IsNumeralWord text)
include h

theorem IsNumeralWord.not_mem (hd : isNumeralWordChar d = false) : d ∉ text :=
  fun hmem => ne_of_isNumeralWordChar (h d hmem) hd rfl

theorem matchFdRedirectionToken_numeral : matchFdRedirectionToken text = none := by
  cases text with
  | nil => rfl
  | cons c text =>
    rw [matchFdRedirectionToken]
    split
    · dsimp only
      have hmem : ∀ d rest, (c :: text).dropWhile isdigit = d :: rest → isNumeralWordChar d = true := by
        intro d rest hdrop
        refine h d ((dropWhile_sublist isdigit).mem ?_)
        rw [hdrop]
        exact mem_cons_self
      split
      · rename_i hdrop; exact absurd (hmem _ _ hdrop) (by decide)
      · rename_i hdrop; exact absurd (hmem _ _ hdrop) (by decide)
      · rename_i hdrop; exact absurd (hmem _ _ hdrop) (by decide)
      · rename_i hdrop; exact absurd (hmem _ _ hdrop) (by decide)
      · rename_i hdrop; exact absurd (hmem _ _ hdrop) (by decide)
      · rfl
    · rfl

theorem isSpecialTokenStart_numeral : isSpecialTokenStart text = false := by
  rw [isSpecialTokenStart.eq_def, matchFdRedirectionToken_numeral h, Option.isSome_none, Bool.false_or]
  have hhead : ∀ c rest, text = c :: rest → isNumeralWordChar c = true := by
    rintro c rest rfl
    exact h c mem_cons_self
  have hsecond : ∀ c d rest, text = c :: d :: rest → isNumeralWordChar d = true := by
    rintro c d rest rfl
    exact h d (mem_cons_of_mem _ mem_cons_self)
  split
  · exact absurd (hhead _ _ rfl) (by decide)
  · exact absurd (hhead _ _ rfl) (by decide)
  · exact absurd (hhead _ _ rfl) (by decide)
  · exact absurd (hhead _ _ rfl) (by decide)
  · exact absurd (hhead _ _ rfl) (by decide)
  · exact absurd (hhead _ _ rfl) (by decide)
  · exact absurd (hsecond _ _ _ rfl) (by decide)
  · exact absurd (hsecond _ _ _ rfl) (by decide)
  · exact absurd (hsecond _ _ _ rfl) (by decide)
  · exact absurd (hhead _ _ rfl) (by decide)
  · exact absurd (hhead _ _ rfl) (by decide)
  · rename_i c rest _ _ _ _ _ _ _ _ _ _ _
    have hc := hhead c rest rfl
    have hne : ∀ d, isNumeralWordChar d = false → c ≠ d := fun d hd => ne_of_isNumeralWordChar hc hd
    simp [hne '|' (by decide), hne '&' (by decide), hne ';' (by decide), hne '<' (by decide),
      hne '>' (by decide), hne '(' (by decide), hne ')' (by decide), hne ',' (by decide)]
  · rfl

end

/-! ## 3. The lexer -/

theorem wordStep_numeral {s : WordState} (h : IsNumeralWord (c :: rest)) :
    wordStep false s c rest = (s.bufs.push [c]).bind fun bufs => .ok (.more ⟨true, bufs⟩ rest) := by
  have hc := h c mem_cons_self
  have hne : ∀ d, isNumeralWordChar d = false → c ≠ d := fun d hd => ne_of_isNumeralWordChar hc hd
  have hends : endsWord false (c :: rest) = false := isSpecialTokenStart_numeral h
  unfold wordStep
  split
  · exact absurd rfl (hne '$' (by decide))
  · exact absurd rfl (hne '$' (by decide))
  · rw [if_neg (by rw [isspace_of_isNumeralWordChar hc]; exact Bool.false_ne_true),
      if_neg (by rw [hends]; exact Bool.false_ne_true), if_neg (hne '\\' (by decide)),
      if_neg (not_or.mpr ⟨hne '\'' (by decide), hne '"' (by decide)⟩)]

def Buffers.both (text : TokenText) : Buffers := ⟨text, text⟩

theorem appendTokenText_one (label : String) (buf : TokenText) (c : Char) :
    appendTokenText label buf [c] = appendTokenChar label buf c := by
  rw [appendTokenText]
  cases appendTokenChar label buf c <;> rfl

theorem push_both (text : TokenText) (c : Char) : (Buffers.both text).push [c] =
    if h : text.1.length + 1 < arkshMaxToken then .ok (.both ⟨text.1 ++ [c], by simpa using h⟩)
    else .error "raw token too long" := by
  unfold Buffers.push Buffers.pushRaw Buffers.pushCooked Buffers.both
  simp only [appendTokenText_one, appendTokenChar]
  by_cases hroom : text.1.length + 1 < arkshMaxToken
  · rw [dif_pos hroom, dif_pos hroom]
    show (if h : text.1.length + 1 < arkshMaxToken then _ else _ : Except String TokenText).bind _ = _
    rw [dif_pos hroom]
    rfl
  · rw [dif_neg hroom, dif_neg hroom]; rfl

theorem wordScanner_numeral (sawAny : Bool) (text : TokenText) (h : IsNumeralWord rest)
    (hsaw : sawAny = true ∨ rest ≠ []) :
    (wordScanner false).run ⟨sawAny, .both text⟩ rest =
      if hfits : text.1.length + rest.length < arkshMaxToken then
        .ok (⟨true, .both ⟨text.1 ++ rest, by rw [List.length_append]; exact hfits⟩⟩, [])
      else .error "raw token too long" := by
  induction rest generalizing sawAny text with
  | nil =>
    obtain rfl : sawAny = true := hsaw.resolve_right fun hne => hne rfl
    rw [dif_pos (by simpa using text.2), Scanner.run_nil]
    simp only [append_nil]
    rfl
  | cons c rest ih =>
    have hrest : IsNumeralWord rest := fun d hd => h d (mem_cons_of_mem _ hd)
    have hstep : (wordScanner false).step ⟨sawAny, .both text⟩ c rest =
        ((Buffers.both text).push [c]).bind fun bufs => .ok (.more ⟨true, bufs⟩ rest) :=
      wordStep_numeral h
    rw [Scanner.run_cons, hstep, push_both]
    by_cases hroom : text.1.length + 1 < arkshMaxToken
    · rw [dif_pos hroom]
      show (wordScanner false).run ⟨true, .both _⟩ rest = _
      rw [ih true _ hrest (.inl rfl)]
      simp only [length_append, length_cons, length_nil, append_assoc,
        singleton_append, zero_add, add_assoc, add_comm 1]
    · rw [dif_neg hroom, dif_neg]
      · rfl
      · rw [length_cons]; omega

theorem findOperator_numeral (h : IsNumeralWord text) : findOperator operators text = none := by
  have hall : operators.all (fun op => op.lexeme.any fun d => !isNumeralWordChar d) = true := rfl
  rw [findOperator, find?_eq_none]
  intro op hop hprefix
  obtain ⟨d, hd, hother⟩ := any_eq_true.mp (all_eq_true.mp hall op hop)
  have hmem : d ∈ text := (List.isPrefixOf_iff_prefix.mp hprefix).subset hd
  rw [h d hmem] at hother
  cases hother

def numeralToken (text : TokenText) : ArkshToken := ⟨.word, text, text, 0⟩

def numeralTokens (text : TokenText) : ArkshTokenStream :=
  ⟨[numeralToken text, ⟨.eof, default, default, text.1.length⟩], Nat.le_of_ble_eq_true rfl⟩

/-- **A number is one word, if it fits.** -/
theorem arkshLexLine_numeral (h : IsNumeralWord text) (hne : text ≠ []) :
    arkshLexLine text =
      if hfits : text.length < arkshMaxToken then .ok (numeralTokens ⟨text, hfits⟩)
      else .error "raw token too long" := by
  obtain ⟨c, rest, rfl⟩ := exists_cons_of_ne_nil hne
  have hc := h c mem_cons_self
  have hbracket : opensDoubleBracket (c :: rest) = false := by
    unfold opensDoubleBracket
    split
    · rename_i heq; exact absurd (cons.inj heq).1 (ne_of_isNumeralWordChar hc (by decide))
    · rename_i heq; exact absurd (cons.inj heq).1 (ne_of_isNumeralWordChar hc (by decide))
    · rfl
  have hprocess : startsProcessSubstitution (c :: rest) = false := by
    unfold startsProcessSubstitution
    split
    · rename_i heq; exact absurd (cons.inj heq).1 (ne_of_isNumeralWordChar hc (by decide))
    · rename_i heq; exact absurd (cons.inj heq).1 (ne_of_isNumeralWordChar hc (by decide))
    · rfl
  have hscan := wordScanner_numeral false default h (.inr hne)
  rw [show (default : TokenText).1 = [] from rfl] at hscan
  simp only [length_nil, zero_add, nil_append] at hscan
  have hstep : lexScanner.step ⟨(c :: rest).length, ⟨false, true, false⟩, ⟨[], zero_le _⟩⟩ c rest =
      LexState.token ⟨(c :: rest).length, ⟨false, true, false⟩, ⟨[], zero_le _⟩⟩
        (scanWordToken false (c :: rest) ((c :: rest).length - (c :: rest).length))
        ⟨false, false, false⟩ := by
    show lexStep _ c rest = _
    unfold lexStep
    rw [if_neg (by rw [isspace_of_isNumeralWordChar hc]; exact Bool.false_ne_true),
      if_neg Bool.false_ne_true, hbracket, if_neg (by decide : ¬ (true && !false && false) = true),
      matchFdRedirectionToken_numeral h]
    rw [hprocess, if_neg Bool.false_ne_true, findOperator_numeral h]
    rfl
  have hroom : (0 : Nat) < arkshMaxLexerTokens := by decide
  rw [arkshLexLine, Scanner.run_cons, hstep, LexState.token]
  dsimp only [length_nil]
  rw [if_pos hroom, scanWordToken, show (default : Buffers) = Buffers.both default from rfl, hscan]
  by_cases hfits : (c :: rest).length < arkshMaxToken
  · rw [dif_pos hfits, dif_pos hfits, Nat.sub_self]; rfl
  · rw [dif_neg hfits, dif_neg hfits]; rfl

/-! ## 4. The parser -/

theorem trimText_numeral (h : IsNumeralWord text) : trimText text = text := by
  have hfront : text.dropWhile isspace = text := by
    cases text with
    | nil => rfl
    | cons c text =>
      refine dropWhile_cons_of_neg ?_
      rw [isspace_of_isNumeralWordChar (h c mem_cons_self)]
      exact Bool.false_ne_true
  have hback : text.reverse.dropWhile isspace = text.reverse := by
    cases hrev : text.reverse with
    | nil => rfl
    | cons c rest =>
      refine dropWhile_cons_of_neg ?_
      have hmem : c ∈ text := by rw [← mem_reverse, hrev]; exact mem_cons_self
      rw [isspace_of_isNumeralWordChar (h c hmem)]
      exact Bool.false_ne_true
  rw [trimText, hfront, hback, reverse_reverse]

theorem findIdx?_marked_numeral (h : IsNumeralWord text) (hd : isNumeralWordChar d = false) :
    (markedChars ⟨false, false⟩ text).findIdx? (· = (d, true)) = none := by
  rw [findIdx?_eq_none_iff]
  intro x hx
  refine decide_eq_false ?_
  rintro rfl
  exact h.not_mem hd (of_mem_zip hx).1

section

variable {marked : List (Char × Bool)} (h : ∀ x ∈ marked, isNumeralWordChar x.1 = true) (i : Nat)
  (found : Option (Nat × Char))
include h i found

theorem lastAdditiveOp_numeral : lastAdditiveOp i found marked = found := by
  induction marked generalizing i with
  | nil => rfl
  | cons x rest ih =>
    obtain ⟨c, top⟩ := x
    have hc : isNumeralWordChar c = true := h _ mem_cons_self
    rw [lastAdditiveOp.eq_def]
    dsimp only
    rw [if_neg (ne_of_isNumeralWordChar hc (by decide)), if_neg (ne_of_isNumeralWordChar hc (by decide)),
      ite_self, ih fun y hy => h y (mem_cons_of_mem _ hy)]

theorem lastMultiplicativeOp_numeral : lastMultiplicativeOp i found marked = found := by
  induction marked generalizing i with
  | nil => rfl
  | cons x rest ih =>
    obtain ⟨c, top⟩ := x
    have hc : isNumeralWordChar c = true := h _ mem_cons_self
    rw [lastMultiplicativeOp, if_neg, ih fun y hy => h y (mem_cons_of_mem _ hy)]
    rintro ⟨-, hop | hop⟩
    · exact ne_of_isNumeralWordChar hc (by decide) hop
    · exact ne_of_isNumeralWordChar hc (by decide) hop

end

theorem findTopLevelBinaryOp_numeral (h : IsNumeralWord text) :
    findTopLevelBinaryOp text = none := by
  have hall : ∀ x ∈ markedChars ⟨false, false⟩ text, isNumeralWordChar x.1 = true :=
    fun x hx => h x.1 (of_mem_zip hx).1
  rw [findTopLevelBinaryOp, lastAdditiveOp_numeral hall, lastMultiplicativeOp_numeral hall]

theorem findNextTopLevelArrow_numeral (h : IsNumeralWord text) :
    findNextTopLevelArrow text 0 = none := by
  rw [findNextTopLevelArrow]
  have hall : ∀ x ∈ markedChars ⟨true, true⟩ (text.drop 0), isNumeralWordChar x.1 = true :=
    fun x hx => h x.1 (of_mem_zip hx).1
  generalize markedChars ⟨true, true⟩ (text.drop 0) = marked at hall
  generalize 0 = i
  induction marked generalizing i with
  | nil => rfl
  | cons x rest ih =>
    cases rest with
    | nil => rfl
    | cons y rest =>
      rw [arrowIn, if_neg]
      · exact ih (fun z hz => hall z (mem_cons_of_mem _ hz)) (i + 1)
      · exact fun harrow => ne_of_isNumeralWordChar (hall x mem_cons_self) (by decide) harrow.2.1

def numeralSource (text : Text) : ArkshValueSourceNode :=
  { kind := .numberLiteral, text := text, rawText := text }

variable {n : DecimalLiteral}

/-- **The parser on a number literal without a sign.** -/
theorem parseValueSourceTextEx_literal (h : IsNumeralWord n.text)
    (hfits : n.text.length < arkshMaxLine) (message : String) :
    parseValueSourceTextEx n.text true message =
      if n.text.length < arkshMaxToken then .value (numeralSource n.text)
      else .invalid "raw token too long" := by
  obtain ⟨d, t, htext, hd⟩ := n.exists_digit
  have hstrtod := n.strtod_literal
  have hne := n.text_ne_nil
  generalize n.text = text at h hfits htext hstrtod hne ⊢
  have hhead : ∀ c rest, text = c :: rest → isdigit c = true := by
    intro c rest hcons
    rw [htext] at hcons
    rwa [← (cons.inj hcons).1]
  have htrim : trimCopy arkshMaxLine text = text := by
    rw [trimCopy, trimText_numeral h]
    exact copyString_of_lt hfits
  have hblock : parseBlockLiteralText text = .error none := by
    rw [parseBlockLiteralText, htrim]
    rw [if_pos]
    refine .inr (.inl fun hbracket => ?_)
    rw [htext] at hbracket
    rw [Option.some.inj hbracket] at hd
    exact absurd hd (by decide)
  have hbool : ¬ (text = "true".toList ∨ text = "false".toList) := by
    rintro (heq | heq)
    · exact absurd (hhead 't' _ heq) (by decide)
    · exact absurd (hhead 'f' _ heq) (by decide)
  have hidentifier : isIdentifierText text = false := by
    rw [htext]
    exact isIdentifierText_of_isdigit hd
  have hternary : findTopLevelTernaryOperator text = none := by
    rw [findTopLevelTernaryOperator, findIdx?_marked_numeral h (by decide)]
    rfl
  have hbinary : binaryExpression text = none := by
    rw [binaryExpression, findTopLevelBinaryOp_numeral h]
    rfl
  have hobject : parseObjectExpressionText text = .error none := by
    have hlegacy : parseLegacyObjectExpression text = none := by
      rw [parseLegacyObjectExpression, htrim]
      rw [if_pos]
      rw [htext]
      show List.isPrefixOf ('o' :: _) (d :: t) = false
      rw [isPrefixOf_cons_cons]
      have : d ≠ 'o' := by rintro rfl; exact absurd hd (by decide)
      simp [Ne.symm this]
    rw [parseObjectExpressionText, hlegacy, htrim]
    dsimp only
    rw [findNextTopLevelArrow_numeral h]
  have hcall : ∀ message, parseValueSourceCallText text message = .noValue message := by
    intro message
    have hparts : callParts text = none := by
      have hdrop : text.dropWhile (· ≠ '(') = [] := by
        rw [dropWhile_eq_nil_iff]
        intro c hc
        simpa using ne_of_isNumeralWordChar (h c hc) (by decide)
      rw [callParts, hdrop]
    rw [parseValueSourceCallText, htrim, hparts]
  unfold parseValueSourceTextEx
  rw [htrim, if_neg hne, hblock]
  dsimp only
  rw [if_neg hbool, if_neg (by rw [hidentifier]; exact fun hboth => Bool.false_ne_true hboth.2),
    hternary]
  rw [hbinary]
  rw [parseOtherValueSource, hobject]
  dsimp only
  rw [hcall]
  rw [arkshLexLine_numeral h hne]
  by_cases hshort : text.length < arkshMaxToken
  · rw [dif_pos hshort, if_pos hshort]
    have hquoted : tokenIsQuotedString (numeralToken ⟨text, hshort⟩) = false := by
      have hquote : ∀ c, isdigit c = false → (text.head? == some c) = false := by
        intro c hc
        rw [htext]
        have : d ≠ c := by
          rintro rfl
          rw [hc] at hd
          cases hd
        simpa using this
      have hdouble := hquote '"' (by decide)
      have hsingle := hquote '\'' (by decide)
      simp only [beq_eq_false_iff_ne] at hdouble hsingle
      simp [tokenIsQuotedString, numeralToken, isQuotedText, hdouble, hsingle]
    have hnumeric : isNumericText text = true := by rw [isNumericText, hstrtod]; rfl
    have hword : (numeralToken ⟨text, hshort⟩).kind = .word := rfl
    have htokenText : (numeralToken ⟨text, hshort⟩).text.1 = text := rfl
    have htokenRaw : (numeralToken ⟨text, hshort⟩).raw.1 = text := rfl
    simp only [parseNonObjectValueSourceTokens, numeralTokens, hquoted, hword, htokenText, htokenRaw,
      hbool, hnumeric, Bool.false_eq_true, ne_eq, not_true_eq_false, if_false, if_true]
    rfl
  · rw [dif_neg hshort, if_neg hshort]

/-! ## 5. The value of a literal -/

theorem expandScanner_numeral (view : ShellView σ) {text : Text} (h : IsNumeralWord text)
    {s : Expansion σ} (hquote : s.quote = .unquoted)
    (hexpanded : s.expanded.length + text.length < arkshMaxToken)
    (hpattern : s.pattern.length + text.length < 2 * arkshMaxToken) :
    ∃ s', (expandScanner view .objectArgument).run s text = .ok (s', []) ∧
      s'.expanded = s.expanded ++ text := by
  induction text generalizing s with
  | nil =>
    refine ⟨s, ?_, (append_nil _).symm⟩
    show Except.map _ (if s.quote = .unquoted then _ else _) = _
    rw [if_pos hquote]
    rfl
  | cons c text ih =>
    have hc := h c mem_cons_self
    have hne : ∀ d, isNumeralWordChar d = false → c ≠ d := fun d hd => ne_of_isNumeralWordChar hc hd
    have hread : readPiece s.quote c text = .ok (.plain c, text) := by
      rw [hquote, readPiece, if_neg (hne _ (by decide)), if_neg (hne _ (by decide)),
        if_neg (hne _ (by decide)), if_neg fun htilde => hne '~' (by decide) htilde.1,
        if_neg (hne _ (by decide))]
    have hglob : s.allowGlob .objectArgument = false := rfl
    have hchar : patternChar false c = [c] := by
      have hmeta : isGlobMetaChar c = false := by
        simp [isGlobMetaChar, hne '*' (by decide), hne '?' (by decide), hne '[' (by decide),
          hne ']' (by decide)]
      simp [patternChar, hmeta, hne '\\' (by decide)]
    rw [length_cons] at hexpanded hpattern
    have happend : s.append [c] false false = .ok { s with
        expanded := s.expanded ++ [c], pattern := s.pattern ++ [c]
        splitFlags := s.splitFlags ++ [false], hasGlob := s.hasGlob || false
        sawPrefixFragment := true } := by
      rw [Expansion.append, appendText, if_neg (by rw [length_singleton]; omega)]
      rw [flatMap_singleton, hchar, appendText, if_neg (by rw [length_singleton]; omega)]
      rfl
    have hstep : (expandScanner view .objectArgument).step s c text = .ok (.more { s with
        expanded := s.expanded ++ [c], pattern := s.pattern ++ [c]
        splitFlags := s.splitFlags ++ [false], hasGlob := s.hasGlob || false
        sawPrefixFragment := true } text) := by
      show (readPiece s.quote c text).bind _ = _
      rw [hread]
      show (s.append [c] (s.allowGlob .objectArgument) false).map _ = _
      rw [hglob, happend]
      rfl
    rw [Scanner.run_more _ hstep]
    obtain ⟨s', hrun, htext⟩ := @ih (fun d hd => h d (mem_cons_of_mem _ hd)) { s with
        expanded := s.expanded ++ [c], pattern := s.pattern ++ [c]
        splitFlags := s.splitFlags ++ [false], hasGlob := s.hasGlob || false
        sawPrefixFragment := true } hquote
      (by
        rw [length_append, length_singleton]
        omega)
      (by
        rw [length_append, length_singleton]
        omega)
    refine ⟨s', hrun, ?_⟩
    rw [htext, append_assoc]
    rfl

theorem expandSingleWord_numeral (S : ValueShell σ) (h : IsNumeralWord text)
    (hfits : text.length < arkshMaxToken) : expandSingleWord S .objectArgument text = .ok text := by
  have hprocess : startsProcessSubstitution text = false := by
    unfold startsProcessSubstitution
    split
    · exact absurd (h _ mem_cons_self) (by decide)
    · exact absurd (h _ mem_cons_self) (by decide)
    · rfl
  obtain ⟨s, hrun, htext⟩ := @expandScanner_numeral σ S.view text h (.start S.shell) rfl
    (by
      show 0 + text.length < _
      omega)
    (by
      show 0 + text.length < _
      omega)
  rw [expandSingleWord, hprocess, if_neg Bool.false_ne_true, expandRawToken, hrun]
  show Except.ok (copyString arkshMaxToken s.expanded) = _
  rw [htext]
  exact congrArg Except.ok (copyString_of_lt hfits)

theorem isNumeralWord_literal (h : ¬ n.SignedExponent) : IsNumeralWord n.text := by
  intro c hc
  rcases n.text_cases with ⟨-, hall⟩ | ⟨hsigned, -⟩
  · rcases hall c hc with hdigit | hother
    · simp [isNumeralWordChar, hdigit]
    · simp only [mem_cons, not_mem_nil, or_false] at hother
      rcases hother with rfl | rfl | rfl <;> decide
  · exact (h hsigned).elim

theorem ValueShell.getBinding_none (S : ValueShell σ) (name : Text)
    (h : isIdentifierText name = false) : S.getBinding name = none ∧ S.findClass name = none := by
  constructor
  · cases hbinding : S.getBinding name with
    | none => rfl
    | some value =>
      have hname := S.bindingNames name (by rw [hbinding]; rfl)
      rw [h] at hname
      cases hname
  · cases hclass : S.findClass name with
    | none => rfl
    | some value =>
      have hname := S.classNames name (by rw [hclass]; rfl)
      rw [h] at hname
      cases hname

theorem evaluateLineValue_literal (S : ValueShell σ) (turns : Nat) (h : ¬ n.SignedExponent)
    (hline : n.text.length < arkshMaxLine) :
    evaluateLineValue S (turns + 1) n.text =
      if n.text.length < arkshMaxToken then .ok (arkshValueSetNumber n.value)
      else .error "raw token too long" := by
  have hword := isNumeralWord_literal h
  obtain ⟨d, t, htext, hd⟩ := n.exists_digit
  have hnone := S.getBinding_none n.text (by
    rw [htext]
    exact isIdentifierText_of_isdigit hd)
  rw [evaluateLineValue, copyString_of_lt hline, trimText_numeral hword, if_neg n.text_ne_nil, hnone.1, hnone.2, parseValueSourceTextEx_literal hword hline]
  by_cases hfits : n.text.length < arkshMaxToken
  · rw [if_pos hfits, if_pos hfits]
    show evaluateNumberLiteral S n.text = _
    rw [evaluateNumberLiteral, expandSingleWord_numeral S hword hfits]
    show (match parseNumberText n.text with | none => _ | some number => _ : Except _ _) = _
    rw [parseNumberText, n.strtod_literal]
  · rw [if_neg hfits, if_neg hfits]; rfl

end Arksh
