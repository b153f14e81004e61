/-
  Subject: How a line of simple commands, joined by `;`, `&`, `&&` and `||`, is taken apart.

  The lexer has cut the line into tokens already. Where an operator counts is decided again, from
  the brackets and quotes in front of it and from the keywords among the words; and what stands
  between two operators is trimmed.
-/
import Arksh.Parse.HeredocLaw

namespace Arksh

open CText Scan List Option Nat

/-! ## 1. The text between two operators -/

variable {token a : ArkshToken} {text : Text} {c : Char} {start stop : Nat}
  {previous : Option ArkshToken} {s s' : ListState} {background : Bool}
  {condition : ArkshListCondition} {tokens : List ArkshToken}

def IsOperatorToken (token : ArkshToken) : Prop :=
  ∃ op ∈ operators, token.kind = op.kind ∧ token.text.1 = op.lexeme ∧ token.raw.1 = op.lexeme

theorem matchFdRedirectionToken_control {kind : ArkshTokenKind} {length : Nat}
    (h : matchFdRedirectionToken text = some (kind, length)) : isListControlToken kind = false := by
  unfold matchFdRedirectionToken at h
  split at h
  · cases h
  · split at h
    · dsimp only at h
      split at h <;> cases h <;> rfl
    · cases h

theorem lexStep_operators {s s' : LexState} {rest rest' : Text}
    (h : lexStep s c rest = .ok (.more s' rest')) :
    ∀ token ∈ s'.stream.tokens, token ∈ s.stream.tokens ∨
      (isListControlToken token.kind = true → IsOperatorToken token) := by
  have htoken : ∀ {scanned flags}, s.token scanned flags = .ok (.more s' rest') →
      (∀ token rest, scanned = .ok (token, rest) →
        isListControlToken token.kind = true → IsOperatorToken token) →
      ∀ token ∈ s'.stream.tokens, token ∈ s.stream.tokens ∨
        (isListControlToken token.kind = true → IsOperatorToken token) := by
    intro scanned flags hok hscanned token hmem
    unfold LexState.token at hok
    split at hok
    · obtain ⟨⟨read, rest⟩, hscan, hok⟩ := bind_ok.mp hok
      obtain ⟨stream, hpush, hok⟩ := map_ok.mp hok
      cases hok
      dsimp only at hmem
      rw [ArkshTokenStream.push_tokens hpush] at hmem
      rcases mem_append.mp hmem with hmem | hmem
      · exact .inl hmem
      · cases mem_singleton.mp hmem; exact .inr (hscanned _ _ hscan)
    · cases hok
  have hoperator : ∀ {op i}, (op ∈ operators ∨ isListControlToken op.kind = false) →
      s.operator op (c :: rest) i = .ok (.more s' rest') → _ :=
    fun {op _} hop hok => htoken hok fun token _ hscan hcontrol => by
      cases hscan
      rcases hop with hop | hword
      · exact ⟨op, hop, rfl, rfl, rfl⟩
      · rw [hword] at hcontrol; cases hcontrol
  have hword : ∀ {mode i flags}, s.token (scanWordToken mode (c :: rest) i) flags =
      .ok (.more s' rest') → _ :=
    fun hok => htoken hok fun token _ hscan hkind => by
      rw [(scanWordToken_took hscan).kind_eq] at hkind
      cases hkind
  have hprocess : ∀ {i flags}, s.processSubstitution (c :: rest) i flags =
      .ok (.more s' rest') → _ :=
    fun hok => htoken hok fun token _ hscan hkind => by
      rw [(scanProcessSubstitutionToken_took hscan).kind_eq] at hkind
      split at hkind <;> cases hkind
  have hbracket : ∀ op ∈ bracketOperators, isListControlToken op.kind = false := by
    simp [bracketOperators, isListControlToken]
  unfold lexStep at h
  dsimp only at h
  split at h
  · cases h; exact fun token hmem => .inl hmem
  · split at h
    · split at h
      · exact hprocess h
      · split at h
        next hop => exact hoperator (.inr (hbracket _ (mem_of_find?_eq_some hop))) h
        · exact hword h
    · split at h
      · exact hoperator (.inr rfl) h
      · split at h
        next hm =>
          unfold LexState.fdRedirection at h
          split at h
          · refine htoken h fun token _ hscan hcontrol => ?_
            cases hscan
            rw [show isListControlToken _ = false from matchFdRedirectionToken_control hm] at hcontrol
            cases hcontrol
          · cases h
        · split at h
          · exact hprocess h
          · split at h
            next hop => exact hoperator (.inl (mem_of_find?_eq_some hop)) h
            · exact hword h

variable {line : Text}

theorem arkshLexLine_operators {stream : ArkshTokenStream} (h : arkshLexLine line = .ok stream) :
    ∀ token ∈ stream.tokens, isListControlToken token.kind = true → IsOperatorToken token := by
  obtain ⟨⟨s', t'⟩, hrun, rfl⟩ := map_ok.mp h
  have hrest : ∀ token ∈ s'.stream.tokens, token ∈ ([] : List ArkshToken) ∨
      (isListControlToken token.kind = true → IsOperatorToken token) := by
    refine lexScanner.run_ok
      (motive := fun s _ => ∀ token ∈ s'.stream.tokens, token ∈ s.stream.tokens ∨
        (isListControlToken token.kind = true → IsOperatorToken token)) ?_ ?_ ?_ hrun
    · intro _ s hend token hmem
      change (if s.flags.inDoubleBracket then _ else _) = _ at hend
      split at hend
      · cases hend
      · obtain ⟨stream, hpush, hend⟩ := map_ok.mp hend
        cases hend
        dsimp only at hmem
        rw [ArkshTokenStream.push_tokens hpush] at hmem
        rcases mem_append.mp hmem with hmem | hmem
        · exact .inl hmem
        · rw [mem_singleton.mp hmem]; exact .inr fun hkind => nomatch hkind
    · -- no turn leaves the loop
      intro s c t hstep
      rcases lexStep_cases hstep with ⟨-, hturn⟩ | ⟨_, _, _, _, _, -, hturn, -⟩ <;> cases hturn
    · intro s c t s₁ t₁ hstep _ ih token hmem
      rcases ih token hmem with hmem | htext
      · exact lexStep_operators hstep token hmem
      · exact .inr htext
  exact fun token hmem => (hrest token hmem).resolve_left (not_mem_nil)

theorem IsOperatorToken.text_eq (h : IsOperatorToken token) : token.text = token.raw := by
  obtain ⟨op, -, -, htext, hraw⟩ := h
  exact Subtype.ext (htext.trans hraw.symm)

/-- A `;` is read from one. -/
theorem IsOperatorToken.sequence (h : IsOperatorToken token) (hkind : token.kind = .sequence) :
    token.raw.1 = [';'] := by
  obtain ⟨op, hop, hop', -, hraw⟩ := h
  have htable : ∀ op ∈ operators, op.kind = .sequence → op.lexeme = [';'] := by
    simp [operators]
  exact hraw.trans (htable op hop (hop'.symm.trans hkind))

theorem trimText_append_front {front : Text} (h : ∀ c ∈ front, isspace c = true) :
    trimText (front ++ text) = trimText text := by
  rw [trimText, trimText, dropWhile_append_of_pos h]

theorem trimText_cons_blank (text : Text) : trimText (' ' :: text) = trimText text := by
  have hblank : ∀ c ∈ [' '], isspace c = true := by
    intro c hc
    rw [mem_singleton.mp hc]
    rfl
  exact trimText_append_front hblank

theorem length_trimText_blank (text : Text) : (trimText (' ' :: text)).length ≤ text.length := by
  rw [trimText_cons_blank]
  exact trimText_length_le text

theorem trimText_append_back {back : Text} (h : ∀ c ∈ back, isspace c = true) :
    trimText (text ++ back) = trimText text := by
  have hback : back.dropWhile isspace = [] := dropWhile_eq_nil_iff.mpr h
  rw [trimText, trimText, dropWhile_append]
  split
  next hnil => rw [hback, isEmpty_iff.mp hnil]
  · have hreverse : ∀ c ∈ back.reverse, isspace c = true := fun c hc => h c (mem_reverse.mp hc)
    rw [reverse_append, dropWhile_append_of_pos hreverse]

theorem trimText_concat_blank (text : Text) : trimText (text ++ [' ']) = trimText text := by
  refine trimText_append_back fun c hc => ?_
  rw [mem_singleton.mp hc]
  rfl

theorem trimText_self_iff : trimText text = text ↔
    (∀ c, text.head? = some c → isspace c = false) ∧
      ∀ c, text.getLast? = some c → isspace c = false := by
  constructor
  · intro h
    refine ⟨fun c hc => ?_, fun c hc => ?_⟩
    · rw [← h] at hc; exact dropWhile_head? (trimText_head? hc)
    · rw [← h] at hc; exact trimText_getLast? hc
  · intro ⟨hfirst, hlast⟩
    have hfront : text.dropWhile isspace = text := by
      cases text with
      | nil => rfl
      | cons c text => exact dropWhile_cons_of_neg (by rw [hfirst c rfl]; exact Bool.false_ne_true)
    have hback : text.reverse.dropWhile isspace = text.reverse := by
      cases hrev : text.reverse with
      | nil => rfl
      | cons c rest =>
        have hc : text.getLast? = some c := by rw [← head?_reverse, hrev]; rfl
        exact dropWhile_cons_of_neg (by rw [hlast c hc]; exact Bool.false_ne_true)
    rw [trimText, hfront, hback, reverse_reverse]

theorem trimText_between {a b : Text} (between : Text) (ha : trimText a = a) (hb : trimText b = b)
    (hane : a ≠ []) (hbne : b ≠ []) : trimText (a ++ (between ++ b)) = a ++ (between ++ b) := by
  rw [trimText_self_iff] at ha hb ⊢
  refine ⟨fun c hc => ha.1 c ?_, fun c hc => hb.2 c ?_⟩
  · rwa [head?_append_of_ne_nil _ hane] at hc
  · rwa [getLast?_append_of_ne_nil _ (append_ne_nil_of_right_ne_nil _ hbne),
      getLast?_append_of_ne_nil _ hbne] at hc

theorem trimText_split (text : Text) : ∃ front back, text = front ++ (trimText text ++ back) ∧
    (∀ c ∈ front, isspace c = true) ∧ ∀ c ∈ back, isspace c = true := by
  refine ⟨text.takeWhile isspace, List.rtakeWhile isspace (text.dropWhile isspace), ?_,
    fun c hc => mem_takeWhile_imp hc, fun c hc => mem_rtakeWhile_imp hc⟩
  have hback : trimText text = List.rdropWhile isspace (text.dropWhile isspace) := rfl
  rw [hback, rdropWhile_append_rtakeWhile, takeWhile_append_dropWhile]

theorem mem_slice (h : c ∈ (line.drop start).take (stop - start)) :
    ∃ i, start ≤ i ∧ i < stop ∧ (line)[i]? = some c := by
  obtain ⟨i, hi, hget⟩ := mem_iff_getElem.mp h
  rw [length_take, length_drop] at hi
  rw [getElem_take, getElem_drop] at hget
  refine ⟨start + i, by omega, by omega, ?_⟩
  rw [getElem?_eq_some_iff]
  exact ⟨by omega, hget⟩

theorem slice_split (line : Text) {first last : Nat} (hfirst : start ≤ first)
    (horder : first ≤ last) (hlast : last ≤ stop) : (line.drop start).take (stop - start) =
      (line.drop start).take (first - start) ++
        ((line.drop first).take (last - first) ++ (line.drop last).take (stop - last)) := by
  have h₁ : stop - start = (first - start) + ((last - first) + (stop - last)) := by omega
  rw [h₁, take_add, drop_drop, take_add, drop_drop]
  have h₂ : start + (first - start) = first := by omega
  have h₃ : first + (last - first) = last := by omega
  rw [h₂, h₃]

theorem trimText_slice {first last : Nat} (hfirst : start ≤ first) (horder : first ≤ last)
    (hlast : last ≤ stop)
    (hfront : ∀ i c, start ≤ i → i < first → (line)[i]? = some c → isspace c = true)
    (hback : ∀ i c, last ≤ i → i < stop → (line)[i]? = some c → isspace c = true) :
    trimText ((line.drop start).take (stop - start)) =
      trimText ((line.drop first).take (last - first)) := by
  rw [slice_split line hfirst horder hlast, trimText_append_front, trimText_append_back]
  · intro c hc
    obtain ⟨i, hge, hlt, hget⟩ := mem_slice hc
    exact hback i c hge hlt hget
  · intro c hc
    obtain ⟨i, hge, hlt, hget⟩ := mem_slice hc
    exact hfront i c hge hlt hget

theorem copyTrimmedSlice_eq (hfits : line.length < arkshMaxLine) (hstop : stop ≤ line.length) :
    copyTrimmedSlice line start stop = trimText ((line.drop start).take (stop - start)) := by
  have hmin : min (stop - start) (arkshMaxLine - 1) = stop - start := by omega
  have hlen : (trimText ((line.drop start).take (stop - start))).length < arkshMaxLine := by
    refine ((trimText_length_le _).trans (length_take_le' _ _)).trans_lt ?_
    rw [length_drop]
    omega
  rw [copyTrimmedSlice, hmin]
  exact copyString_of_lt hlen

/-! ## 2. The entries, if every operator counts -/

def depthAfter (line : Text) (previous : Option ArkshToken) (depth : Nat) (token : ArkshToken) :
    Nat :=
  if positionIsInsideNestedStructure line token.position then depth
  else if token.kind = .word ∧ tokenStartsCommand line previous token = true then
    compoundDepthBehind depth token.text.1
  else depth

/-- Every operator stands outside of brackets and of what the words take for compound commands. -/
def AllVisible (line : Text) : Option ArkshToken → Nat → List ArkshToken → Prop
  | _, _, [] => True
  | previous, depth, token :: rest =>
    (isListControlToken token.kind = true →
      positionIsInsideNestedStructure line token.position = false ∧ depth = 0) ∧
      AllVisible line (some token) (depthAfter line previous depth token) rest

def listEntries (line : Text) : Nat → ArkshListCondition → List ArkshToken →
    List ArkshCommandListEntry
  | _, _, [] => []
  | start, condition, token :: rest =>
    if token.kind = .eof then [⟨copyTrimmedSlice line start line.length, condition, false⟩]
    else if isListControlToken token.kind = true then
      ⟨copyTrimmedSlice line start token.position, condition, token.kind = .background⟩ ::
        listEntries line (token.position + token.text.1.length) (nextListCondition token.kind) rest
    else listEntries line start condition rest

variable {line : Text}

def OneLine (text : Text) : Prop := ∀ c ∈ text, c ≠ '\n' ∧ c ≠ '\r'

theorem OneLine.newlineBetween (h : OneLine line) (previous token : ArkshToken) :
    newlineBetween line previous token = false := by
  refine any_eq_false.mpr fun c hc => ?_
  have hline := h c (mem_of_mem_drop (mem_of_mem_take hc))
  simp [hline.1, hline.2]

variable {rest : List ArkshToken}

theorem commandListLoop_skip (hline : OneLine line) (heof : token.kind ≠ .eof)
    (hcontrol : isListControlToken token.kind = false) :
    commandListLoop line previous s (token :: rest) =
      commandListLoop line (some token)
        { s with compoundDepth := depthAfter line previous s.compoundDepth token } rest := by
  rw [commandListLoop, if_neg heof]
  unfold depthAfter
  split
  · rfl
  · unfold ListState.word
    split
    next hstarts =>
      have hnewline : s.newline line previous token = .ok s := by
        unfold ListState.newline
        cases previous with
        | none => rfl
        | some previous => simp [hline.newlineBetween previous token]
      rw [hnewline]
      dsimp only [Except.map, Except.bind]
      rw [if_neg (by simp [hcontrol])]
    next hstarts => dsimp only [Except.bind]; rw [if_neg (by simp [hcontrol])]

theorem isListControlToken_not_word (h : isListControlToken token.kind = true) :
    token.kind ≠ .word ∧ token.kind ≠ .eof := by
  constructor <;>
  · intro hkind
    rw [hkind] at h
    cases h

theorem commandListLoop_control (hcontrol : isListControlToken token.kind = true)
    (hvisible : positionIsInsideNestedStructure line token.position = false)
    (hdepth : s.compoundDepth = 0) : commandListLoop line previous s (token :: rest) =
      (s.control line token).bind fun s => commandListLoop line (some token) s rest := by
  obtain ⟨hword, heof⟩ := isListControlToken_not_word hcontrol
  rw [commandListLoop, if_neg heof, if_neg (by simp [hvisible]), ListState.word,
    if_neg fun hstarts => hword hstarts.1]
  dsimp only [Except.bind]
  rw [if_pos ⟨hdepth, hcontrol⟩]

theorem commandListLoop_hidden (hcontrol : isListControlToken token.kind = true)
    (hhidden : ¬ (positionIsInsideNestedStructure line token.position = false ∧
      s.compoundDepth = 0)) : commandListLoop line previous s (token :: rest) =
      commandListLoop line (some token) s rest := by
  obtain ⟨hword, heof⟩ := isListControlToken_not_word hcontrol
  rw [commandListLoop, if_neg heof]
  split
  · rfl
  next hvisible =>
    rw [ListState.word, if_neg fun hstarts => hword hstarts.1]
    dsimp only [Except.bind]
    rw [if_neg]
    exact fun hcounts => hhidden ⟨by simpa using hvisible, hcounts.1⟩

variable {depth i : Nat}

theorem depthAfter_control (h : isListControlToken token.kind = true) :
    depthAfter line previous depth token = depth := by
  unfold depthAfter
  split
  · rfl
  · exact if_neg fun hstarts => (isListControlToken_not_word h).1 hstarts.1

def ListState.behind (s : ListState) (line : Text) (token : ArkshToken) : ListState where
  segmentStart := token.position + token.text.1.length
  lastControl := some token.kind
  nextCondition := nextListCondition token.kind
  compoundDepth := s.compoundDepth
  entries := s.entries ++ [⟨copyTrimmedSlice line s.segmentStart token.position, s.nextCondition,
    token.kind = .background⟩]

theorem ListState.push_eq (htext : copyTrimmedSlice line s.segmentStart stop ≠ [])
    (hroom : s.entries.length < arkshMaxListEntries) :
    s.push line stop background = .ok { s with entries := s.entries ++
      [⟨copyTrimmedSlice line s.segmentStart stop, s.nextCondition, background⟩] } := by
  unfold push
  dsimp only
  rw [if_neg htext, if_neg (by omega)]

theorem ListState.control_eq (htext : copyTrimmedSlice line s.segmentStart token.position ≠ [])
    (hroom : s.entries.length < arkshMaxListEntries) :
    s.control line token = .ok (s.behind line token) := by
  rw [control, ListState.push_eq htext hroom]
  rfl

theorem ListState.control_ok (h : s.control line token = .ok s') : s' = s.behind line token := by
  obtain ⟨s₁, hpush, rfl⟩ := map_ok.mp h
  obtain ⟨rfl, -⟩ := ListState.push_ok hpush
  rfl

theorem ListState.push_room (h : s.push line stop background = .ok s') :
    s.entries.length < arkshMaxListEntries := by
  unfold push at h
  dsimp only at h
  split at h
  · cases h
  · split at h
    · cases h
    next hroom => omega

/-- **Where every operator counts, and no entry is empty, the loop makes these entries.** -/
theorem commandListLoop_visible (hline : OneLine line) {tokens : List ArkshToken}
    {eof : ArkshToken} (heof : eof.kind = .eof) (hnone : ∀ token ∈ tokens, token.kind ≠ .eof)
    {previous : Option ArkshToken} {s : ListState}
    (hvisible : AllVisible line previous s.compoundDepth tokens)
    (htexts : ∀ entry ∈ listEntries line s.segmentStart s.nextCondition (tokens ++ [eof]),
      entry.text ≠ []) (hroom : s.entries.length +
      (listEntries line s.segmentStart s.nextCondition (tokens ++ [eof])).length ≤
        arkshMaxListEntries) : commandListLoop line previous s (tokens ++ [eof]) =
      .ok (s.entries ++ listEntries line s.segmentStart s.nextCondition (tokens ++ [eof])) := by
  induction tokens generalizing previous s with
  | nil =>
    simp only [nil_append, listEntries, heof, if_true, mem_singleton, forall_eq, length_singleton] at htexts hroom ⊢
    rw [commandListLoop, if_pos heof, ListState.finish, if_neg fun hmissing => htexts hmissing.1,
      ListState.push_eq htexts (by omega)]
    rfl
  | cons token rest ih =>
    have htoken := hnone token mem_cons_self
    have hrest : ∀ token ∈ rest, token.kind ≠ .eof := fun t ht =>
      hnone t (mem_cons_of_mem _ ht)
    obtain ⟨hcounts, hvisible⟩ := hvisible
    rw [cons_append, listEntries, if_neg htoken] at htexts hroom ⊢
    by_cases hcontrol : isListControlToken token.kind = true
    · obtain ⟨houtside, hdepth⟩ := hcounts hcontrol
      rw [if_pos hcontrol] at htexts hroom ⊢
      rw [depthAfter_control hcontrol] at hvisible
      rw [commandListLoop_control hcontrol houtside hdepth,
        ListState.control_eq (htexts _ mem_cons_self) (by simp at hroom; omega)]
      have hlater := @ih hrest (some token) (s.behind line token) hvisible
        (fun entry hentry => htexts entry (mem_cons_of_mem _ hentry))
        (by simp [ListState.behind] at hroom ⊢; omega)
      refine hlater.trans ?_
      simp [ListState.behind]
    · rw [if_neg hcontrol] at htexts hroom ⊢
      rw [commandListLoop_skip hline htoken (Bool.not_eq_true _ ▸ hcontrol)]
      exact @ih hrest (some token) { s with compoundDepth := _ } hvisible htexts hroom

def controlCount (tokens : List ArkshToken) : Nat := tokens.countP (isListControlToken ·.kind)

theorem controlCount_cons : controlCount (token :: rest) =
      controlCount rest + if isListControlToken token.kind = true then 1 else 0 :=
  countP_cons

variable {entries : List ArkshCommandListEntry}

theorem ListState.finish_ok (h : s.finish line = .ok entries) :
    entries = s.entries ∨ entries = s.entries ++
      [⟨copyTrimmedSlice line s.segmentStart line.length, s.nextCondition, false⟩] ∧
        s.entries.length < arkshMaxListEntries := by
  unfold finish at h
  split at h
  · cases h; exact .inl rfl
  · obtain ⟨s₁, hpush, rfl⟩ := map_ok.mp h
    have hroom := ListState.push_room hpush
    obtain ⟨rfl, -⟩ := ListState.push_ok hpush
    exact .inr ⟨rfl, hroom⟩

section

variable (hline : OneLine line) {tokens : List ArkshToken} {eof : ArkshToken}
  (heof : eof.kind = .eof) (hnone : ∀ token ∈ tokens, token.kind ≠ .eof)
  {previous : Option ArkshToken} {s : ListState}
  (h : commandListLoop line previous s (tokens ++ [eof]) = .ok entries)
include hline heof hnone h

theorem commandListLoop_length : entries.length ≤ s.entries.length + controlCount tokens + 1 := by
  induction tokens generalizing previous s with
  | nil =>
    rw [nil_append, commandListLoop, if_pos heof] at h
    rcases ListState.finish_ok h with rfl | ⟨rfl, -⟩
    · omega
    · simp
  | cons token rest ih =>
    have hrest : ∀ token ∈ rest, token.kind ≠ .eof := fun t ht =>
      hnone t (mem_cons_of_mem _ ht)
    rw [cons_append] at h
    rw [controlCount_cons]
    by_cases hcontrol : isListControlToken token.kind = true
    · rw [if_pos hcontrol]
      by_cases hcounts : positionIsInsideNestedStructure line token.position = false ∧
          s.compoundDepth = 0
      · rw [commandListLoop_control hcontrol hcounts.1 hcounts.2] at h
        obtain ⟨s', hs', h⟩ := bind_ok.mp h
        have hlen := ih hrest h
        rw [ListState.control_ok hs'] at hlen
        simp only [ListState.behind, length_append, length_singleton] at hlen
        omega
      · rw [commandListLoop_hidden hcontrol hcounts] at h
        have hlen := ih hrest h
        omega
    · rw [if_neg hcontrol]
      rw [commandListLoop_skip hline (hnone token mem_cons_self) (Bool.not_eq_true _ ▸ hcontrol)] at h
      have hlen := ih hrest h
      exact hlen

theorem commandListLoop_full (hfull : entries.length = s.entries.length + controlCount tokens + 1) :
    AllVisible line previous s.compoundDepth tokens ∧
      entries = s.entries ++ listEntries line s.segmentStart s.nextCondition (tokens ++ [eof]) ∧
      entries.length ≤ arkshMaxListEntries := by
  induction tokens generalizing previous s with
  | nil =>
    rw [nil_append, commandListLoop, if_pos heof] at h
    rw [nil_append, listEntries, if_pos heof]
    rcases ListState.finish_ok h with rfl | ⟨rfl, hroom⟩
    · simp only [controlCount, countP_nil] at hfull; omega
    · refine ⟨trivial, rfl, ?_⟩; simpa using succ_le_of_lt hroom
  | cons token rest ih =>
    have htoken := hnone token mem_cons_self
    have hrest : ∀ token ∈ rest, token.kind ≠ .eof := fun t ht =>
      hnone t (mem_cons_of_mem _ ht)
    rw [cons_append] at h ⊢
    rw [controlCount_cons] at hfull
    rw [listEntries, if_neg htoken, AllVisible]
    by_cases hcontrol : isListControlToken token.kind = true
    · rw [if_pos hcontrol] at hfull ⊢
      by_cases hcounts : positionIsInsideNestedStructure line token.position = false ∧
          s.compoundDepth = 0
      · rw [commandListLoop_control hcontrol hcounts.1 hcounts.2] at h
        obtain ⟨s', hs', h⟩ := bind_ok.mp h
        cases ListState.control_ok hs'
        have hlen : (s.behind line token).entries.length = s.entries.length + 1 := by
          simp [ListState.behind]
        obtain ⟨hvisible, hentries, hmax⟩ := ih hrest h (by omega)
        refine ⟨⟨fun _ => hcounts, ?_⟩, ?_, hmax⟩
        · rw [depthAfter_control hcontrol]; exact hvisible
        · rw [hentries]; simp [ListState.behind]
      · -- an operator that is passed over leaves too few entries
        rw [commandListLoop_hidden hcontrol hcounts] at h
        have hlen := commandListLoop_length hline heof hrest h
        omega
    · rw [if_neg hcontrol] at hfull ⊢
      rw [commandListLoop_skip hline htoken (Bool.not_eq_true _ ▸ hcontrol)] at h
      obtain ⟨hvisible, hentries, hmax⟩ := ih hrest h hfull
      exact ⟨⟨fun hc => absurd hc hcontrol, hvisible⟩, hentries, hmax⟩

end

/-! ## 3. The commands of a line -/

variable {command : List ArkshToken} {others : List (ArkshToken × List ArkshToken)}

def commandText (line : Text) (command : List ArkshToken) : Text :=
  match command.head?, command.getLast? with
  | some first, some last =>
    (line.drop first.position).take (last.position + last.raw.1.length - first.position)
  | _, _ => []

def joinedTokens (command : List ArkshToken) (others : List (ArkshToken × List ArkshToken)) :
    List ArkshToken :=
  command ++ others.flatMap fun other => other.1 :: other.2

/-- The entries of a list: each command with the condition of the operator in front and the flag of
    the one behind. -/
def commandEntries (textOf : List ArkshToken → Text) : ArkshListCondition → List ArkshToken →
    List (ArkshToken × List ArkshToken) → List ArkshCommandListEntry
  | condition, command, [] => [⟨textOf command, condition, false⟩]
  | condition, command, (operator, next) :: others =>
    ⟨textOf command, condition, operator.kind = .background⟩ ::
      commandEntries textOf (nextListCondition operator.kind) next others

theorem commandEntries_inj {f g : List ArkshToken → Text} :
    commandEntries f condition command others = commandEntries g condition command others ↔
      ∀ c ∈ command :: others.map Prod.snd, f c = g c := by
  induction others generalizing condition command with
  | nil => simp [commandEntries]
  | cons other others ih => simp [commandEntries, ih]

theorem commandEntries_length (f : List ArkshToken → Text) (condition : ArkshListCondition)
    (command : List ArkshToken) (others : List (ArkshToken × List ArkshToken)) :
    (commandEntries f condition command others).length = others.length + 1 := by
  induction others generalizing condition command with
  | nil => rfl
  | cons other others ih => simp [commandEntries, ih]

theorem mem_commandEntries {f : List ArkshToken → Text} {entry : ArkshCommandListEntry}
    (h : entry ∈ commandEntries f condition command others) :
    ∃ c ∈ command :: others.map Prod.snd, entry.text = f c := by
  induction others generalizing condition command with
  | nil => cases mem_singleton.mp h; exact ⟨command, mem_cons_self, rfl⟩
  | cons other others ih =>
    rcases mem_cons.mp h with rfl | h
    · exact ⟨command, mem_cons_self, rfl⟩
    · obtain ⟨c, hc, htext⟩ := ih h; exact ⟨c, mem_cons_of_mem _ hc, htext⟩

/-- The tokens of a simple command: words and redirections, the first no keyword that opens a
    compound command. -/
structure SimpleTokens (command : List ArkshToken) : Prop where
  nonempty : command ≠ []
  kinds : ∀ token ∈ command, isValueToken token.kind = true ∨ isRedirectToken token.kind = true
  noKeyword : ∀ token ∈ command.head?, token.kind = .word →
    keywordIsCompoundOpen token.text.1 = false

theorem SimpleTokens.kind (h : SimpleTokens command) (htoken : token ∈ command) :
    token.kind ≠ .eof ∧ isListControlToken token.kind = false ∧ token.kind ≠ .shellPipe ∧
      token.kind ≠ .objectPipe ∧ token.kind ≠ .arrow ∧ token.kind ≠ .lparen := by
  have hkind := h.kinds token htoken
  revert hkind
  cases token.kind <;> decide

theorem listEntries_skip {command rest : List ArkshToken} (h : ∀ token ∈ command,
      token.kind ≠ .eof ∧ isListControlToken token.kind = false) :
    listEntries line start condition (command ++ rest) = listEntries line start condition rest := by
  induction command with
  | nil => rfl
  | cons token command ih =>
    obtain ⟨heof, hcontrol⟩ := h token mem_cons_self
    rw [cons_append, listEntries, if_neg heof, if_neg (by simp [hcontrol])]
    exact ih fun t ht => h t (mem_cons_of_mem _ ht)

variable {stream front : List ArkshToken}

section

variable (h : Lossless line stream tokens)
include h

theorem Lossless.between {behind : List ArkshToken} {b : ArkshToken}
    (htokens : tokens = front ++ a :: b :: behind) (hfrom : a.position + a.raw.1.length ≤ i)
    (hto : i < b.position) (hget : (line)[i]? = some c) : isspace c = true := by
  refine h.gaps i c hget fun token htoken => ?_
  have hordered := h.ordered
  rw [htokens] at hordered htoken
  obtain ⟨-, hback, hfront⟩ := pairwise_append.mp hordered
  obtain ⟨-, hb⟩ := pairwise_cons.mp hback
  obtain ⟨hbehind, -⟩ := pairwise_cons.mp hb
  rcases mem_append.mp htoken with htoken | htoken
  · have := hfront token htoken a mem_cons_self; omega
  · rcases mem_cons.mp htoken with rfl | htoken
    · omega
    · rcases mem_cons.mp htoken with rfl | htoken
      · omega
      · have := hbehind token htoken; omega

theorem Lossless.behind (htokens : tokens = front ++ [a]) (hfrom : a.position + a.raw.1.length ≤ i)
    (hget : (line)[i]? = some c) : isspace c = true := by
  refine h.gaps i c hget fun token htoken => ?_
  have hordered := h.ordered
  rw [htokens] at hordered htoken
  obtain ⟨-, -, hfront⟩ := pairwise_append.mp hordered
  rcases mem_append.mp htoken with htoken | htoken
  · have := hfront token htoken a mem_cons_self; omega
  · cases mem_singleton.mp htoken; omega

theorem Lossless.before_first {behind : List ArkshToken} (htokens : tokens = a :: behind)
    (hto : i < a.position) (hget : (line)[i]? = some c) : isspace c = true := by
  refine h.gaps i c hget fun token htoken => ?_
  have hordered := h.ordered
  rw [htokens] at hordered htoken
  obtain ⟨hbehind, -⟩ := pairwise_cons.mp hordered
  rcases mem_cons.mp htoken with rfl | htoken
  · omega
  · have := hbehind token htoken; omega

end

theorem lexLine_tokens {stream : ArkshTokenStream} (h : arkshLexLine line = .ok stream) :
    ∃ tokens, Lossless line stream.tokens tokens ∧ ∀ token ∈ tokens, token.raw.1 ≠ [] := by
  obtain ⟨tokens, hlossless⟩ := lexLine_lossless h
  refine ⟨tokens, hlossless, ?_⟩
  obtain ⟨⟨s', t'⟩, hrun, rfl⟩ := map_ok.mp h
  obtain ⟨tiles, hstream, htiles, -⟩ := lexScanner_tiles hrun (le_refl _)
  obtain ⟨eof, heof, -⟩ := hlossless.eof
  have hsame : tokens = tiles := by
    have htokens : tokens ++ [eof] = tiles ++ [_] := heof.symm.trans hstream
    exact (append_inj' htokens rfl).1
  exact hsame ▸ htiles.seg_ne_nil

theorem Lossless.bound (h : Lossless line stream tokens) (htoken : token ∈ tokens)
    (hne : token.raw.1 ≠ []) : token.position + token.raw.1.length ≤ line.length := by
  have hlen := congrArg List.length (h.raw token htoken)
  rw [length_take, length_drop] at hlen
  have hpos := length_pos_of_ne_nil hne
  omega

theorem command_ends (h : command ≠ []) :
    ∃ first last, command.head? = some first ∧ command.getLast? = some last ∧
      (∃ behind, command = first :: behind) ∧ ∃ front, command = front ++ [last] := by
  obtain ⟨first, behind, rfl⟩ := exists_cons_of_ne_nil h
  refine ⟨first, (first :: behind).getLast h, rfl, getLast?_eq_some_getLast h, ⟨behind, rfl⟩,
    (first :: behind).dropLast, ?_⟩
  exact (dropLast_append_getLast h).symm

section

variable (h : Lossless line stream tokens)
include h

theorem Lossless.command_order {command : List ArkshToken} (hsub : command.Sublist tokens)
    {first last : ArkshToken} (hfirst : command.head? = some first)
    (hlast : command.getLast? = some last) :
    first.position + first.raw.1.length ≤ last.position + last.raw.1.length := by
  have hordered := h.ordered.sublist hsub
  obtain ⟨rest, rfl⟩ := head?_eq_some_iff.mp hfirst
  rcases mem_cons.mp (mem_of_getLast? hlast) with rfl | hmem
  · omega
  · have := (pairwise_cons.mp hordered).1 last hmem; omega

theorem Lossless.commandText_ne_nil {command : List ArkshToken}
    (hraw : ∀ token ∈ tokens, token.raw.1 ≠ []) (hsub : command.Sublist tokens) (hne : command ≠ []) :
    commandText line command ≠ [] := by
  obtain ⟨first, last, hfirst, hlast, -, -⟩ := command_ends hne
  have hmem : first ∈ tokens := hsub.mem (mem_of_head? hfirst)
  have hbound := h.bound hmem (hraw first hmem)
  have hpos := length_pos_of_ne_nil (hraw first hmem)
  have horder := h.command_order hsub hfirst hlast
  unfold commandText
  rw [hfirst, hlast]
  refine ne_nil_of_length_pos ?_
  rw [length_take, length_drop]
  omega

theorem Lossless.slice {behind command : List ArkshToken} (hfits : line.length < arkshMaxLine)
    (htokens : tokens = front ++ command ++ behind) {first last : ArkshToken}
    (hfirst : command.head? = some first) (hlast : command.getLast? = some last)
    (hstart : start ≤ first.position) (hstop : last.position + last.raw.1.length ≤ stop)
    (hend : stop ≤ line.length)
    (hfront : ∀ i c, start ≤ i → i < first.position → (line)[i]? = some c → isspace c = true)
    (hback : ∀ i c, last.position + last.raw.1.length ≤ i → i < stop → (line)[i]? = some c →
      isspace c = true) :
    copyTrimmedSlice line start stop = trimText (commandText line command) := by
  have hsub : command.Sublist tokens := by
    rw [htokens]
    exact (sublist_append_right _ _).trans (sublist_append_left _ _)
  have horder : first.position ≤ last.position + last.raw.1.length :=
    (le_add_right _ _).trans (h.command_order hsub hfirst hlast)
  rw [copyTrimmedSlice_eq hfits hend, trimText_slice hstart horder hstop hfront hback]
  unfold commandText
  rw [hfirst, hlast]

end

/-- **If every operator counts, the entries are the commands, trimmed.** -/
theorem listEntries_joined {eof : ArkshToken} (hlossless : Lossless line stream tokens)
    (hraw : ∀ token ∈ tokens, token.raw.1 ≠ [])
    (htext : ∀ token ∈ tokens, isListControlToken token.kind = true → token.text = token.raw)
    (hfits : line.length < arkshMaxLine) (heof : eof.kind = .eof) :
    ∀ {front command : List ArkshToken} {start : Nat} {condition : ArkshListCondition},
      tokens = front ++ joinedTokens command others →
      (∀ c ∈ command :: others.map Prod.snd, SimpleTokens c) →
      (∀ other ∈ others, isListControlToken other.1.kind = true) →
      (∀ first ∈ command.head?, start ≤ first.position ∧ ∀ i c, start ≤ i →
        i < first.position → (line)[i]? = some c → isspace c = true) →
      listEntries line start condition (joinedTokens command others ++ [eof]) =
        commandEntries (fun c => trimText (commandText line c)) condition command others := by
  induction others with
  | nil =>
    intro front command start condition htokens hsimple _ hstart
    have hcommand := hsimple command mem_cons_self
    obtain ⟨first, last, hfirst, hlast, -, before, hbefore⟩ := command_ends hcommand.nonempty
    obtain ⟨hle, hblank⟩ := hstart first hfirst
    simp only [joinedTokens, flatMap_nil, append_nil] at htokens ⊢
    have hmem : last ∈ tokens := by rw [htokens]; exact mem_append_right _ (mem_of_getLast? hlast)
    rw [listEntries_skip fun token htoken => ⟨(hcommand.kind htoken).1, (hcommand.kind htoken).2.1⟩,
      listEntries, if_pos heof, commandEntries]
    rw [hlossless.slice hfits (by rw [htokens, append_nil]) hfirst hlast hle
      (hlossless.bound hmem (hraw last hmem)) (le_refl _) hblank]
    intro i c hfrom _ hget
    have hend : tokens = (front ++ before) ++ [last] := by
      rw [htokens, hbefore, append_assoc]
    exact hlossless.behind hend hfrom hget
  | cons other others ih =>
    intro front command start condition htokens hsimple hcontrols hstart
    obtain ⟨operator, next⟩ := other
    have hcommand := hsimple command mem_cons_self
    have hnext := hsimple next (mem_cons_of_mem _ mem_cons_self)
    have hcontrol := hcontrols _ mem_cons_self
    dsimp only at hcontrol
    obtain ⟨first, last, hfirst, hlast, -, before, hbefore⟩ := command_ends hcommand.nonempty
    obtain ⟨first', last', hfirst', -, ⟨behind, hbehind⟩, -⟩ := command_ends hnext.nonempty
    obtain ⟨hle, hblank⟩ := hstart first hfirst
    have hsplit : joinedTokens command ((operator, next) :: others) =
        command ++ operator :: joinedTokens next others := by
      simp [joinedTokens]
    rw [hsplit] at htokens ⊢
    have hoperator : operator ∈ tokens := by rw [htokens]; simp
    -- the operator stands behind the last token of the command and in front of the next one
    have hlastop : tokens = (front ++ before) ++ last :: operator :: joinedTokens next others := by
      rw [htokens, hbefore]
      simp
    have hopfirst : tokens = (front ++ command) ++ operator :: first' ::
        (behind ++ others.flatMap fun other => other.1 :: other.2) := by
      rw [htokens, joinedTokens, hbehind]
      simp
    have hordered := hlossless.ordered
    have hopbound := hlossless.bound hoperator (hraw operator hoperator)
    rw [append_assoc, listEntries_skip fun token htoken =>
      ⟨(hcommand.kind htoken).1, (hcommand.kind htoken).2.1⟩]
    rw [cons_append, listEntries, if_neg (isListControlToken_not_word hcontrol).2,
      if_pos hcontrol, commandEntries]
    have hlastle : last.position + last.raw.1.length ≤ operator.position := by
      rw [hlastop] at hordered
      have := (pairwise_append.mp hordered).2.1
      exact ((pairwise_cons.mp this).1 operator mem_cons_self).2
    have hfirstle : operator.position + operator.raw.1.length ≤ first'.position := by
      rw [hopfirst] at hordered
      have := (pairwise_append.mp hordered).2.1
      exact ((pairwise_cons.mp this).1 first' mem_cons_self).2
    rw [hlossless.slice hfits (htokens.trans (append_assoc _ _ _).symm) hfirst hlast hle
      hlastle (by omega) hblank fun i c hfrom hto hget => hlossless.between hlastop hfrom hto hget]
    rw [htext operator hoperator hcontrol]
    refine congrArg _ (@ih (front ++ command ++ [operator]) next _ _ ?_ ?_ ?_ ?_)
    · rw [htokens]; simp
    · exact fun c hc => hsimple c (mem_cons_of_mem _ hc)
    · exact fun other hother => hcontrols other (mem_cons_of_mem _ hother)
    · intro first hhead
      rw [hfirst'] at hhead
      cases hhead
      exact ⟨hfirstle, fun i c hfrom hto hget => hlossless.between hopfirst hfrom hto hget⟩

theorem AllVisible.outside (h : AllVisible line previous depth tokens) (htoken : token ∈ tokens)
    (hcontrol : isListControlToken token.kind = true) :
    positionIsInsideNestedStructure line token.position = false := by
  induction tokens generalizing previous depth with
  | nil => cases htoken
  | cons first rest ih =>
    rcases mem_cons.mp htoken with rfl | htoken
    · exact (h.1 hcontrol).1
    · exact ih h.2 htoken

/-! ## 4. The law -/

/-- A line of simple commands joined by operators, in front of EOF. It fits the buffer of a line, as
    every line does that is executed. -/
structure JoinedLine (text : Text) where
  stream : ArkshTokenStream
  first : List ArkshToken
  others : List (ArkshToken × List ArkshToken)
  eof : ArkshToken
  lexed : arkshLexLine (trimText text) = .ok stream
  tokens_eq : stream.tokens = joinedTokens first others ++ [eof]
  eof_kind : eof.kind = .eof
  simple : ∀ command ∈ first :: others.map Prod.snd, SimpleTokens command
  operators : ∀ other ∈ others, isListControlToken other.1.kind = true
  oneLine : OneLine text
  fits : (trimText text).length < arkshMaxLine

def singleCommand (command : List ArkshToken) : Option (ArkshAst ArkshNode) :=
  if command.any fun token => isRedirectToken token.kind then
    (parseCommandStageTokens command []).toOption.map fun s =>
      .plain .commandPipeline (.commandPipeline [s.stage])
  else some (.plain .simpleCommand (.command (command.map wordOf)))

variable {heredocs : List ArkshParsedHeredoc}

namespace JoinedLine

variable {text : Text} {previous : Option ArkshToken} {ast : ArkshAst ArkshNode}

/-- The parser gives back exactly the commands, each with the condition and the flag of the
    operators next to it. -/
def SplitLaw (J : JoinedLine text) : Prop :=
  if J.others = [] then
    ∃ ast, singleCommand J.first = some ast ∧ arkshParseLine lineParser text = .ok ast
  else
    arkshParseLine lineParser text =
      .ok (.commandList
        (commandEntries (commandText (trimText text)) .always J.first J.others))

/-- A single command is read as one: it is no value, and there is room for its words and
    redirections. -/
structure ReadsAsCommand (J : JoinedLine text) : Prop where
  noExpression : (parseObjectExpressionText (trimText text)).toOption = none
  noValue : ∀ value, parseValueSourceText (trimText text) "" = .value value →
    value.kind = .objectExpression
  notInvalid : ∀ message, parseValueSourceText (trimText text) "" ≠ .invalid message
  noObject : "obj(".toList.isPrefixOf (trimText text) = false
  room : if J.first.any fun token => isRedirectToken token.kind then
      (parseCommandStageTokens J.first []).toOption.isSome = true
    else J.first.length ≤ arkshMaxArgs

/-- Where the parser splits a line: no here-document is looked for in vain, no group and no subshell
    is seen; every operator is visible, there are at most 16 commands, and none has a blank at its
    end; a single command is read as one. -/
structure SplitCondition (J : JoinedLine text) : Prop where
  noHeredocs : lineHeredocs (trimText text) = .ok (trimText text, [])
  noGroup : firstCompound (trimText text) J.stream [groupParser, subshellParser] "" = .ok none
  visible : AllVisible (trimText text) none 0 (joinedTokens J.first J.others)
  room : J.others.length < arkshMaxListEntries
  trimmed : J.others ≠ [] → ∀ command ∈ J.first :: J.others.map Prod.snd,
    trimText (commandText (trimText text) command) = commandText (trimText text) command
  single : J.others = [] → J.ReadsAsCommand

theorem trimCopy_eq (J : JoinedLine text) : trimCopy arkshMaxLine text = trimText text :=
  copyString_of_lt J.fits

theorem oneLine_trimmed (J : JoinedLine text) : OneLine (trimText text) := by
  intro c hc
  refine J.oneLine c ?_
  have hmem := (dropWhile_sublist isspace).mem (mem_reverse.mp hc)
  exact (dropWhile_sublist isspace).mem (mem_reverse.mp hmem)

theorem lossless (J : JoinedLine text) :
    Lossless (trimText text) J.stream.tokens (joinedTokens J.first J.others) ∧
      ∀ token ∈ joinedTokens J.first J.others, token.raw.1 ≠ [] := by
  obtain ⟨tokens, hlossless, hraw⟩ := lexLine_tokens J.lexed
  obtain ⟨eof, heof, -⟩ := hlossless.eof
  have hsame : tokens ++ [eof] = joinedTokens J.first J.others ++ [J.eof] :=
    heof.symm.trans J.tokens_eq
  obtain rfl := (append_inj' hsame rfl).1
  exact ⟨hlossless, hraw⟩

theorem mem_joinedTokens {first : List ArkshToken} {others : List (ArkshToken × List ArkshToken)}
    {token : ArkshToken} (h : token ∈ joinedTokens first others) :
    (∃ command ∈ first :: others.map Prod.snd, token ∈ command) ∨
      ∃ other ∈ others, token = other.1 := by
  rcases mem_append.mp h with h | h
  · exact .inl ⟨first, mem_cons_self, h⟩
  · obtain ⟨other, hother, h⟩ := mem_flatMap.mp h
    rcases mem_cons.mp h with rfl | h
    · exact .inr ⟨other, hother, rfl⟩
    · exact .inl ⟨other.2, mem_cons_of_mem _ (mem_map_of_mem hother), h⟩

theorem kinds (J : JoinedLine text) {token : ArkshToken}
    (h : token ∈ joinedTokens J.first J.others) :
    token.kind ≠ .eof ∧ token.kind ≠ .shellPipe ∧ token.kind ≠ .objectPipe ∧
      token.kind ≠ .arrow ∧ token.kind ≠ .lparen := by
  rcases mem_joinedTokens h with ⟨command, hcommand, htoken⟩ | ⟨other, hother, rfl⟩
  · obtain ⟨heof, -, hrest⟩ := (J.simple command hcommand).kind htoken; exact ⟨heof, hrest⟩
  · have hcontrol := J.operators other hother
    revert hcontrol
    cases other.1.kind <;> decide

theorem controlCount_eq (J : JoinedLine text) :
    controlCount (joinedTokens J.first J.others) = J.others.length := by
  have hcommand : ∀ command, SimpleTokens command → controlCount command = 0 := by
    intro command hsimple
    refine countP_eq_zero.mpr fun token htoken => ?_
    simp [(hsimple.kind htoken).2.1]
  have hothers : ∀ others : List (ArkshToken × List ArkshToken),
      (∀ other ∈ others, isListControlToken other.1.kind = true ∧ SimpleTokens other.2) →
      controlCount (others.flatMap fun other => other.1 :: other.2) = others.length := by
    intro others h
    induction others with
    | nil => rfl
    | cons other others ih =>
      obtain ⟨hcontrol, hsimple⟩ := h other mem_cons_self
      have hrest := ih fun o ho => h o (mem_cons_of_mem _ ho)
      have hown := hcommand other.2 hsimple
      unfold controlCount at hrest hown ⊢
      simp [countP_append, hrest, hown, hcontrol]
  have hfirst := hcommand J.first (J.simple J.first mem_cons_self)
  have hrest := hothers J.others fun other hother =>
    ⟨J.operators other hother,
      J.simple other.2 (mem_cons_of_mem _ (mem_map_of_mem hother))⟩
  unfold controlCount at hfirst hrest ⊢
  rw [joinedTokens, countP_append, hfirst, hrest, zero_add]

/-! ## 5. Past the other parsers -/

variable {tokens : List ArkshToken}

theorem kind_of_mem (J : JoinedLine text) {token : ArkshToken} (h : token ∈ J.stream.tokens) :
    token.kind ≠ .shellPipe ∧ token.kind ≠ .objectPipe ∧ token.kind ≠ .arrow ∧
      token.kind ≠ .lparen := by
  rw [J.tokens_eq] at h
  rcases mem_append.mp h with h | h
  · exact (J.kinds h).2
  · rw [mem_singleton.mp h, J.eof_kind]; decide

theorem lineHeredocs_oneLine {found : Text} (hline : OneLine line)
    (h : lineHeredocs line = .ok (found, heredocs)) : found = line ∧ heredocs = [] := by
  rcases lineHeredocs_cases h with hnone | ⟨-, collected, hcollected, -⟩
  · exact hnone
  · have hfirst : firstLine line = line :=
      takeWhile_eq_self_iff.mpr fun c hc => by simp [hline c hc]
    unfold collectHeredocs at hcollected
    dsimp only at hcollected
    split at hcollected
    · cases hcollected
    · obtain ⟨stream, -, hcollected⟩ := bind_ok.mp hcollected
      obtain ⟨marks, -, hcollected⟩ := bind_ok.mp hcollected
      split at hcollected
      · cases hcollected
      · rw [if_pos (by rw [hfirst])] at hcollected; cases hcollected

section

variable (J : JoinedLine text)

theorem not_startsWith (kind : CompoundKind) : ¬ StartsWith J.stream kind.keyword := by
  intro ⟨token, rest, htokens, hword⟩
  have hsimple := J.simple J.first mem_cons_self
  obtain ⟨first, behind, hfirst⟩ := exists_cons_of_ne_nil hsimple.nonempty
  have hhead : token = first := by
    have htokens' := J.tokens_eq
    rw [htokens, joinedTokens, hfirst] at htokens'
    exact (cons.inj htokens').1
  simp only [isWord, Bool.and_eq_true, decide_eq_true_eq] at hword
  have hkeyword := hsimple.noKeyword first (by rw [hfirst]; rfl) (hhead ▸ hword.1)
  rw [← hhead, hword.2, kind.opens] at hkeyword
  cases hkeyword

theorem posix_passes : Passes posixFunctionParser (trimText text) J.stream := by
  refine ⟨?_, rfl⟩
  have hlocated : locatePosixFunction (trimText text) J.stream = .error none := by
    unfold locatePosixFunction
    split
    next name lparen rparen next rest htokens =>
      have hsecond : lparen ∈ J.stream.tokens := by rw [htokens]; simp
      rw [if_pos (.inr (.inr (.inl (J.kind_of_mem hsecond).2.2.2)))]
    · rfl
  show (parsePosixFunctionCommandTokens _ _).mapError _ = _
  rw [parsePosixFunctionCommandTokens, hlocated]
  rfl

theorem firstCompound_eq :
    firstCompound (trimText text) J.stream compoundParsers "" =
      firstCompound (trimText text) J.stream [groupParser, subshellParser] "" := by
  have hsplit : compoundParsers = (earlyKinds.map CompoundKind.parser ++
      posixFunctionParser :: lateKinds.map CompoundKind.parser) ++ [groupParser, subshellParser] :=
    rfl
  rw [hsplit]
  refine firstCompound_passes (fun parser hparser => ?_) _
  rcases mem_append.mp hparser with hparser | hparser
  · obtain ⟨kind, -, rfl⟩ := mem_map.mp hparser; exact CompoundKind.passes (J.not_startsWith kind)
  · rcases mem_cons.mp hparser with rfl | hparser
    · exact J.posix_passes
    · obtain ⟨kind, -, rfl⟩ := mem_map.mp hparser; exact CompoundKind.passes (J.not_startsWith kind)

end

theorem boundaryLoop_oneLine (hline : OneLine line) :
    boundaryLoop line previous depth tokens = false := by
  induction tokens generalizing previous depth with
  | nil => rfl
  | cons token rest ih =>
    have hnone : previous.any (newlineBetween line · token) = false := by
      cases previous with
      | none => rfl
      | some previous => exact hline.newlineBetween previous token
    unfold boundaryLoop
    split
    · rfl
    · split
      · exact ih
      · split
        · rw [if_neg (by simp [hnone])]; exact ih
        · exact ih

theorem parse_eq (J : JoinedLine text)
    (hheredocs : lineHeredocs (trimText text) = .ok (trimText text, [])) :
    arkshParseLine lineParser text = parseTokens (trimText text) J.stream [] := by
  let l : LexedLine text :=
    ⟨trimText text, [], J.stream, by rw [J.trimCopy_eq]; exact hheredocs, J.lexed⟩
  exact l.parse_eq

theorem lineHeredocs_of_parse (J : JoinedLine text) (h : arkshParseLine lineParser text = .ok ast) :
    lineHeredocs (trimText text) = .ok (trimText text, []) := by
  obtain ⟨l⟩ := exists_lexedLine h
  have hfound := l.found
  rw [J.trimCopy_eq] at hfound
  obtain ⟨hline, hnone⟩ := lineHeredocs_oneLine J.oneLine_trimmed hfound
  rw [hfound, hline, hnone]

theorem parseTokens_plain {stream : ArkshTokenStream}
    (h : parseTokens line stream heredocs = .ok ast)
    (hkind : ast.kind = .commandList ∨ ast.kind ∈ singleKinds) :
    firstCompound line stream compoundParsers "" = .ok none ∧
      parseOtherForms line stream heredocs = .ok ast := by
  obtain ⟨taken, hfirst, h⟩ := bind_ok.mp h
  cases taken with
  | none => exact ⟨hfirst, h⟩
  | some taken =>
    cases h
    obtain ⟨parser, hmem, hparse⟩ := firstCompound_mem hfirst
    rcases mem_compoundParsers hmem with ⟨kind, rfl⟩ | rfl | rfl | rfl
    · rw [CompoundKind.parse_kind hparse] at hkind
      cases kind <;> simp [CompoundKind.astKind, singleKinds] at hkind
    · obtain ⟨_, _, _, -, -, hfunction⟩ := posixFunction_ok (mapError_ok hparse)
      simp [hfunction, singleKinds] at hkind
    · obtain ⟨group, -, rfl⟩ := map_ok.mp hparse; simp [ArkshAst.kind, singleKinds] at hkind
    · obtain ⟨subshell, -, rfl⟩ := map_ok.mp hparse; simp [ArkshAst.kind, singleKinds] at hkind

/-! ## 6. Several commands -/

section

variable (J : JoinedLine text)

theorem commandText_ne_nil {command : List ArkshToken}
    (h : command ∈ J.first :: J.others.map Prod.snd) :
    commandText (trimText text) command ≠ [] := by
  obtain ⟨hlossless, hraw⟩ := J.lossless
  have hsub : command.Sublist (joinedTokens J.first J.others) := by
    rcases mem_cons.mp h with rfl | h
    · exact sublist_append_left _ _
    · obtain ⟨other, hother, rfl⟩ := mem_map.mp h
      obtain ⟨front, behind, hsplit⟩ := append_of_mem hother
      refine List.Sublist.trans ?_ (sublist_append_right _ _)
      rw [hsplit, flatMap_append, flatMap_cons]
      exact ((sublist_cons_self _ _).trans (sublist_append_left _ _)).trans
        (sublist_append_right _ _)
  exact hlossless.commandText_ne_nil hraw hsub (J.simple command h).nonempty

theorem listEntries_eq :
    listEntries (trimText text) 0 .always J.stream.tokens =
      commandEntries (fun c => trimText (commandText (trimText text) c)) .always J.first
        J.others := by
  obtain ⟨hlossless, hraw⟩ := J.lossless
  have htext : ∀ token ∈ joinedTokens J.first J.others,
      isListControlToken token.kind = true → token.text = token.raw := by
    intro token htoken hcontrol
    have hmem : token ∈ J.stream.tokens := by rw [J.tokens_eq]; exact mem_append_left _ htoken
    exact (arkshLexLine_operators J.lexed token hmem hcontrol).text_eq
  rw [J.tokens_eq]
  have hfront : joinedTokens J.first J.others = [] ++ joinedTokens J.first J.others := rfl
  refine listEntries_joined hlossless hraw htext J.fits J.eof_kind hfront J.simple
    J.operators fun first hfirst => ⟨zero_le _, fun i c _ hto hget => ?_⟩
  obtain ⟨behind, hbehind⟩ := head?_eq_some_iff.mp hfirst
  have htokens : joinedTokens J.first J.others =
      first :: (behind ++ J.others.flatMap fun other => other.1 :: other.2) := by
    rw [joinedTokens, hbehind]
    rfl
  exact hlossless.before_first htokens hto hget

theorem tokens_ne_eof :
    ∀ token ∈ joinedTokens J.first J.others, token.kind ≠ .eof := fun _ h => (J.kinds h).1

/-- **The parser of lists gives back the commands exactly where the operators are visible.** -/
theorem parseCommandListTokens_iff :
    parseCommandListTokens (trimText text) J.stream =
        .ok (commandEntries (commandText (trimText text)) .always J.first J.others) ↔
      AllVisible (trimText text) none 0 (joinedTokens J.first J.others) ∧
        J.others.length < arkshMaxListEntries ∧ ∀ command ∈ J.first :: J.others.map Prod.snd,
          trimText (commandText (trimText text) command) = commandText (trimText text) command := by
  have hentries := J.listEntries_eq
  have hlength := commandEntries_length (fun c => trimText (commandText (trimText text) c))
    .always J.first J.others
  rw [parseCommandListTokens, J.tokens_eq]
  rw [J.tokens_eq] at hentries
  constructor
  · intro h
    have hfull : (commandEntries (commandText (trimText text)) .always J.first J.others).length =
        0 + controlCount (joinedTokens J.first J.others) + 1 := by
      rw [commandEntries_length, J.controlCount_eq, zero_add]
    obtain ⟨hvisible, heq, hmax⟩ :=
      commandListLoop_full J.oneLine_trimmed J.eof_kind J.tokens_ne_eof h hfull
    refine ⟨hvisible, ?_, ?_⟩
    · rw [commandEntries_length] at hmax; exact hmax
    · rw [nil_append, hentries] at heq
      exact fun command hcommand => (commandEntries_inj.mp heq command hcommand).symm
  · intro ⟨hvisible, hroom, htrimmed⟩
    have htexts : ∀ entry ∈ listEntries (trimText text) 0 .always
        (joinedTokens J.first J.others ++ [J.eof]), entry.text ≠ [] := by
      rw [hentries]
      intro entry hentry
      obtain ⟨command, hcommand, htext⟩ := mem_commandEntries hentry
      rw [htext, htrimmed command hcommand]
      exact J.commandText_ne_nil hcommand
    have hloop := @commandListLoop_visible _ J.oneLine_trimmed _ _ J.eof_kind J.tokens_ne_eof none
      ⟨0, none, .always, 0, []⟩ hvisible htexts (by
        show 0 + (listEntries _ 0 .always _).length ≤ _
        rw [hentries, hlength, zero_add]
        exact hroom)
    refine hloop.trans ?_
    show Except.ok ([] ++ listEntries _ 0 .always _) = _
    rw [nil_append, hentries, commandEntries_inj.mpr htrimmed]

theorem hasListControl_of_visible (h : J.others ≠ [])
    (hvisible : AllVisible (trimText text) none 0 (joinedTokens J.first J.others)) :
    hasListControl (trimText text) J.stream = true := by
  obtain ⟨other, others, hothers⟩ := exists_cons_of_ne_nil h
  have hmem : other.1 ∈ joinedTokens J.first J.others := by rw [hothers]; simp [joinedTokens]
  have hcontrol := J.operators other (by rw [hothers]; exact mem_cons_self)
  refine any_eq_true.mpr ⟨other.1, ?_, by simp [hcontrol, hvisible.outside hmem hcontrol]⟩
  rw [J.tokens_eq]
  exact mem_append_left _ hmem

/-- **A line of several commands is split exactly where no group or subshell is seen and its
    operators are visible.** -/
theorem splitLaw_list (h : J.others ≠ []) : J.SplitLaw ↔ J.SplitCondition := by
  have hlist := J.parseCommandListTokens_iff
  rw [SplitLaw, if_neg h]
  constructor
  · intro hparse
    have hheredocs := J.lineHeredocs_of_parse hparse
    rw [J.parse_eq hheredocs] at hparse
    obtain ⟨hcompound, hforms⟩ := parseTokens_plain hparse (.inl rfl)
    unfold parseOtherForms at hforms
    split at hforms
    · obtain ⟨entries, hentries, heq⟩ := map_ok.mp hforms
      cases heq
      obtain ⟨hvisible, hroom, htrimmed⟩ := hlist.mp hentries
      exact
        { noHeredocs := hheredocs
          noGroup := J.firstCompound_eq.symm.trans hcompound
          visible := hvisible
          room := hroom
          trimmed := fun _ => htrimmed
          single := fun hnone => absurd hnone h }
    · have hkind := parseSingleForm_kind hforms; simp [ArkshAst.kind, singleKinds] at hkind
  · intro hcondition
    have hentries := hlist.mpr
      ⟨hcondition.visible, hcondition.room, hcondition.trimmed h⟩
    have hcontrol := J.hasListControl_of_visible h hcondition.visible
    rw [J.parse_eq hcondition.noHeredocs, parseTokens, J.firstCompound_eq, hcondition.noGroup]
    show parseOtherForms _ _ _ = _
    rw [parseOtherForms, if_pos (.inl hcontrol), hentries]
    rfl

end

/-! ## 7. One command -/

theorem tokens_single (J : JoinedLine text) (h : J.others = []) :
    J.stream.tokens = J.first ++ [J.eof] := by
  rw [J.tokens_eq, h]
  simp [joinedTokens]

theorem simpleCommandLoop_tokens {eof : ArkshToken} (heof : eof.kind = .eof)
    {words : List CommandWord} (hvalues : ∀ token ∈ tokens, isValueToken token.kind = true) :
    (simpleCommandLoop words (tokens ++ [eof])).toOption =
      if tokens = [] ∨ words.length + tokens.length ≤ arkshMaxArgs then
        some (words ++ tokens.map wordOf) else none := by
  induction tokens generalizing words with
  | nil => simp [simpleCommandLoop, heof, Except.toOption]
  | cons token tokens ih =>
    have hvalue := hvalues token mem_cons_self
    have hkind : token.kind ≠ .eof := by revert hvalue; cases token.kind <;> decide
    rw [cons_append, simpleCommandLoop, if_neg hkind, if_neg (by simp [hvalue])]
    by_cases hroom : words.length ≥ arkshMaxArgs
    · rw [if_pos hroom, if_neg (by simp; omega)]; rfl
    · rw [if_neg hroom, ih fun t ht => hvalues t (mem_cons_of_mem _ ht)]
      have hcondition : (tokens = [] ∨ (words ++ [wordOf token]).length + tokens.length ≤
          arkshMaxArgs) ↔ (token :: tokens = [] ∨ words.length + (token :: tokens).length ≤
            arkshMaxArgs) := by
        cases tokens with
        | nil | cons next rest => simp; omega
      simp only [hcondition]
      simp

theorem stageTokens_single {eof : ArkshToken} (heof : eof.kind = .eof)
    (hkinds : ∀ token ∈ tokens, token.kind ≠ .eof ∧ token.kind ≠ .shellPipe) {own : List ArkshToken} :
    stageTokens own (tokens ++ [eof]) = [own ++ tokens] := by
  induction tokens generalizing own with
  | nil => simp [stageTokens, heof]
  | cons token tokens ih =>
    obtain ⟨hne, hpipe⟩ := hkinds token mem_cons_self
    rw [cons_append, stageTokens, if_neg hne, if_neg hpipe,
      ih fun t ht => hkinds t (mem_cons_of_mem _ ht)]
    simp

theorem parseShellForm_single (J : JoinedLine text) (h : J.others = []) (message : String) :
    (parseShellForm (trimText text) J.stream [] message).toOption =
      if "obj(".toList.isPrefixOf (trimText text) = true then none
      else if J.first.any fun token => isRedirectToken token.kind then singleCommand J.first
      else if J.first.length ≤ arkshMaxArgs then singleCommand J.first else none := by
  have hsimple := J.simple J.first mem_cons_self
  have htokens := J.tokens_single h
  have harrow : hasToken J.stream (· = .arrow) = false :=
    any_eq_false.mpr fun token htoken => by simp [(J.kind_of_mem htoken).2.2.1]
  have hpipe : hasToken J.stream (· = .shellPipe) = false :=
    any_eq_false.mpr fun token htoken => by simp [(J.kind_of_mem htoken).1]
  have hredirect : hasToken J.stream isRedirectToken =
      J.first.any fun token => isRedirectToken token.kind := by
    have heof : isRedirectToken J.eof.kind = false := by rw [J.eof_kind]; rfl
    simp [hasToken, htokens, heof]
  unfold parseShellForm
  dsimp only
  rw [harrow, hpipe, hredirect, Bool.false_or]
  by_cases hobject : "obj(".toList.isPrefixOf (trimText text) = true
  · rw [if_pos (.inr hobject), if_pos hobject]
    split <;> rfl
  · rw [if_neg (by simpa using hobject), if_neg hobject]
    by_cases hany : (J.first.any fun token => isRedirectToken token.kind) = true
    · rw [if_pos hany, if_pos hany, singleCommand, if_pos hany, parseCommandPipelineTokens, htokens,
        stageTokens_single J.eof_kind fun token htoken =>
          ⟨(hsimple.kind htoken).1, (hsimple.kind htoken).2.2.1⟩]
      show (Except.map _ ((parseCommandStageTokens J.first []).bind _)).toOption = _
      cases parseCommandStageTokens J.first [] <;> rfl
    · rw [if_neg hany, if_neg hany, singleCommand, if_neg hany, parseSimpleCommandTokens, htokens]
      have hvalues : ∀ token ∈ J.first, isValueToken token.kind = true := by
        intro token htoken
        refine (hsimple.kinds token htoken).resolve_right fun hredirect => hany ?_
        exact any_eq_true.mpr ⟨token, htoken, hredirect⟩
      have hloop := @simpleCommandLoop_tokens J.first J.eof J.eof_kind [] hvalues
      rw [length_nil, zero_add, nil_append] at hloop
      simp only [hsimple.nonempty, false_or] at hloop
      have hwords : J.first.map wordOf ≠ [] := by simpa using hsimple.nonempty
      cases hresult : simpleCommandLoop [] (J.first ++ [J.eof]) with
      | error e =>
        rw [hresult] at hloop
        split at hloop
        · cases hloop
        next hlong => rw [if_neg hlong]; rfl
      | ok words =>
        rw [hresult] at hloop
        split at hloop
        next hshort =>
          cases hloop
          rw [if_pos hshort]
          show some (if J.first.map wordOf = [] then _ else _) = _
          rw [if_neg hwords]
        · cases hloop

theorem singleCommand_kind {command : List ArkshToken} (h : singleCommand command = some ast) :
    ast.kind = .commandPipeline ∨ ast.kind = .simpleCommand := by
  unfold singleCommand at h
  split at h
  · obtain ⟨s, -, rfl⟩ := map_eq_some_iff.mp h; exact .inl rfl
  · cases h; exact .inr rfl

theorem allVisible_of_none (h : ∀ token ∈ tokens, isListControlToken token.kind = false) :
    AllVisible line previous depth tokens := by
  induction tokens generalizing previous depth with
  | nil => trivial
  | cons token rest ih =>
    refine ⟨fun hcontrol => ?_, ih fun t ht => h t (mem_cons_of_mem _ ht)⟩
    rw [h token mem_cons_self] at hcontrol
    cases hcontrol

theorem parseOtherForms_single (J : JoinedLine text) (h : J.others = []) :
    parseOtherForms (trimText text) J.stream [] =
      match parseObjectExpressionText (trimText text) with
      | .ok expression => .ok (.plain .objectExpression (.objectExpression expression))
      | .error _ =>
        match parseValueSourceText (trimText text) "" with
        | .value value =>
          if value.kind ≠ .objectExpression then
            .ok (.plain .valueExpression (.valueExpression value))
          else parseShellForm (trimText text) J.stream [] ""
        | .invalid message => .error message
        | .noValue message => parseShellForm (trimText text) J.stream [] message := by
  have hsimple := J.simple J.first mem_cons_self
  have hlist : hasListControl (trimText text) J.stream = false := by
    refine any_eq_false.mpr fun token htoken => ?_
    rw [J.tokens_single h] at htoken
    rcases mem_append.mp htoken with htoken | htoken
    · simp [(hsimple.kind htoken).2.1]
    · simp [mem_singleton.mp htoken, J.eof_kind, isListControlToken]
  have hboundary : hasTopLevelCommandBoundary (trimText text) J.stream = false :=
    boundaryLoop_oneLine J.oneLine_trimmed
  have hpipe : (J.stream.tokens.dropWhile fun token => decide (token.kind ≠ .objectPipe)) = [] :=
    dropWhile_eq_nil_iff.mpr fun token htoken =>
      decide_eq_true (J.kind_of_mem htoken).2.1
  have hsingle : parseOtherForms (trimText text) J.stream [] =
      parseSingleForm (trimText text) J.stream [] :=
    if_neg (by simp [hlist, hboundary])
  refine hsingle.trans ?_
  unfold parseSingleForm
  split
  · rename_i pipe behind hfound
    rw [hpipe] at hfound
    cases hfound
  · rfl

/-- **A line of one command is read as it exactly where no group, subshell or value is seen, and
    there is room for its words.** -/
theorem splitLaw_single (J : JoinedLine text) (h : J.others = []) :
    J.SplitLaw ↔ J.SplitCondition := by
  have hsimple := J.simple J.first mem_cons_self
  have hforms := J.parseOtherForms_single h
  have hshell := J.parseShellForm_single h
  rw [SplitLaw, if_pos h]
  constructor
  · intro ⟨ast, hsingle, hparse⟩
    have hkind := singleCommand_kind hsingle
    have hheredocs := J.lineHeredocs_of_parse hparse
    rw [J.parse_eq hheredocs] at hparse
    obtain ⟨hcompound, hother⟩ := parseTokens_plain hparse (.inr (by
      rcases hkind with hkind | hkind <;> simp [hkind, singleKinds]))
    rw [hforms] at hother
    have hvisible : AllVisible (trimText text) none 0 (joinedTokens J.first J.others) := by
      refine allVisible_of_none fun token htoken => ?_
      rw [h] at htoken
      simp only [joinedTokens, flatMap_nil, append_nil] at htoken
      exact (hsimple.kind htoken).2.1
    -- the form of the shell gives the tree, so there is room for it
    have hread : ∀ message, parseShellForm (trimText text) J.stream [] message = .ok ast →
        "obj(".toList.isPrefixOf (trimText text) = false ∧
          (if J.first.any fun token => isRedirectToken token.kind then
            (parseCommandStageTokens J.first []).toOption.isSome = true
          else J.first.length ≤ arkshMaxArgs) := by
      intro message hok
      have hvalue := hshell message
      rw [hok] at hvalue
      by_cases hobject : "obj(".toList.isPrefixOf (trimText text) = true
      · rw [if_pos hobject] at hvalue; cases hvalue
      · rw [if_neg hobject] at hvalue
        refine ⟨Bool.eq_false_iff.mpr hobject, ?_⟩
        split
        next hany =>
          rw [singleCommand, if_pos hany] at hsingle
          obtain ⟨s, hs, -⟩ := map_eq_some_iff.mp hsingle
          rw [hs]
          rfl
        next hany =>
          rw [if_neg hany] at hvalue
          by_contra hlong
          rw [if_neg hlong] at hvalue
          cases hvalue
    have hreads : J.ReadsAsCommand := by
      cases hexpression : parseObjectExpressionText (trimText text) with
      | ok expression =>
        rw [hexpression] at hother
        cases hother
        simp [ArkshAst.kind] at hkind
      | error left =>
        rw [hexpression] at hother
        dsimp only at hother
        cases hvalue : parseValueSourceText (trimText text) "" with
        | value value =>
          rw [hvalue] at hother
          dsimp only at hother
          by_cases hobject : value.kind = .objectExpression
          · rw [if_neg (not_not.mpr hobject)] at hother
            obtain ⟨hobj, hroom⟩ := hread "" hother
            refine ⟨by rw [hexpression]; rfl, ?_, ?_, hobj, hroom⟩
            · intro value' heq
              cases hvalue.symm.trans heq
              exact hobject
            · intro message heq; cases hvalue.symm.trans heq
          · rw [if_pos hobject] at hother
            cases hother
            simp [ArkshAst.kind] at hkind
        | invalid message => rw [hvalue] at hother; cases hother
        | noValue message =>
          rw [hvalue] at hother
          obtain ⟨hobj, hroom⟩ := hread message hother
          refine ⟨by rw [hexpression]; rfl, ?_, ?_, hobj, hroom⟩
          · intro value' heq; cases hvalue.symm.trans heq
          · intro message heq; cases hvalue.symm.trans heq
    exact
      { noHeredocs := hheredocs
        noGroup := J.firstCompound_eq.symm.trans hcompound
        visible := hvisible
        room := by rw [h]; decide
        trimmed := fun hne => absurd h hne
        single := fun _ => hreads }
  · intro hcondition
    obtain ⟨hexpression, hvalue, hinvalid, hobject, hroom⟩ := hcondition.single h
    have hread : ∀ message, ∃ ast, singleCommand J.first = some ast ∧
        parseShellForm (trimText text) J.stream [] message = .ok ast := by
      intro message
      have hok := hshell message
      rw [if_neg (Bool.eq_false_iff.mp hobject)] at hok
      split at hroom
      next hany =>
        rw [if_pos hany] at hok
        obtain ⟨s, hs⟩ := isSome_iff_exists.mp hroom
        rw [singleCommand, if_pos hany, hs] at hok ⊢
        exact ⟨_, rfl, toOption_some hok⟩
      next hany =>
        rw [if_neg hany, if_pos hroom] at hok
        rw [singleCommand, if_neg hany] at hok ⊢
        exact ⟨_, rfl, toOption_some hok⟩
    rw [J.parse_eq hcondition.noHeredocs, parseTokens, J.firstCompound_eq, hcondition.noGroup]
    show ∃ ast, _ ∧ parseOtherForms _ _ _ = _
    rw [hforms]
    cases hexpr : parseObjectExpressionText (trimText text) with
    | ok expression => rw [hexpr] at hexpression; cases hexpression
    | error left =>
      cases hsource : parseValueSourceText (trimText text) "" with
      | value value =>
        dsimp only
        rw [if_neg (not_not.mpr (hvalue value hsource))]
        exact hread ""
      | invalid message => exact absurd hsource (hinvalid message)
      | noValue message => exact hread message

/-- **A line of simple commands is split into exactly these where no here-document is looked for, no
    group or subshell is seen, every operator is visible, there is room, and none ends in a blank; a
    single command must not read as a value.** -/
theorem splitLaw_iff (J : JoinedLine text) : J.SplitLaw ↔ J.SplitCondition := by
  by_cases h : J.others = []
  · exact J.splitLaw_single h
  · exact J.splitLaw_list h

def parts (token : ArkshToken) : ArkshTokenKind × Text × Text × Nat :=
  (token.kind, token.text.1, token.raw.1, token.position)

theorem parts_injective : Function.Injective parts := by
  intro ⟨kind, text, raw, position⟩ ⟨kind', text', raw', position'⟩ h
  obtain ⟨rfl, h⟩ := Prod.mk.inj h
  obtain ⟨htext, h⟩ := Prod.mk.inj h
  obtain ⟨hraw, rfl⟩ := Prod.mk.inj h
  cases Subtype.ext htext
  cases Subtype.ext hraw
  rfl

def plainToken (kind : ArkshTokenKind) (text : Text) (position : Nat)
    (h : text.length < arkshMaxToken := by decide) : ArkshToken :=
  ⟨kind, ⟨text, h⟩, ⟨text, h⟩, position⟩

/-- `echo [ ; echo b`: the bracket hides the operator, and the line is refused. -/
theorem not_splitLaw_bracket : ¬ ∀ (text : Text) (J : JoinedLine text), J.SplitLaw := by
  intro law
  have hlexed : (arkshLexLine (trimText "echo [ ; echo b".toList)).toOption.map (fun stream =>
      stream.tokens.map parts) =
        some ([ plainToken .word "echo".toList 0, plainToken .word "[".toList 5,
          plainToken .sequence ";".toList 7, plainToken .word "echo".toList 9,
          plainToken .word "b".toList 14, plainToken .eof [] 15 ].map parts) := by
    decide
  obtain ⟨stream, hstream, htokens⟩ := map_eq_some_iff.mp hlexed
  have htokens := parts_injective.list_map htokens
  let J : JoinedLine "echo [ ; echo b".toList :=
    { stream := stream
      first := [plainToken .word "echo".toList 0, plainToken .word "[".toList 5]
      others := [(plainToken .sequence ";".toList 7,
        [plainToken .word "echo".toList 9, plainToken .word "b".toList 14])]
      eof := plainToken .eof [] 15
      lexed := toOption_some hstream
      tokens_eq := htokens
      eof_kind := rfl
      simple := by
        intro command hcommand
        simp only [map_cons, map_nil, mem_cons, not_mem_nil, or_false]
          at hcommand
        rcases hcommand with rfl | rfl <;>
        · refine ⟨by decide, by decide, fun token htoken _ => ?_⟩
          cases htoken
          decide
      operators := by decide
      oneLine := by simp [OneLine]
      fits := by decide }
  have hsplit := law _ J
  rw [SplitLaw, if_neg (by simp [J])] at hsplit
  have hrefused : (arkshParseLine lineParser "echo [ ; echo b".toList).toOption = none := by
    have hnone : (arkshParseLine lineParser "echo [ ; echo b".toList).toOption.isNone = true := by
      decide +kernel
    exact isNone_iff_eq_none.mp hnone
  rw [hsplit] at hrefused
  cases hrefused

end JoinedLine

end Arksh
