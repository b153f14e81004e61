/-
  Subject: Command lists: `parse_command_list_tokens`, and what the executor runs of its lists.

  The parser cuts a line at the operators `;`, `&`, `&&` and `||` that are in no brackets and in no
  compound command, and at line breaks in front of a command. Of an operator it keeps the
  condition of the entry behind it, and `&` as a flag of the entry in front of it.
-/
import Arksh.Exec.Executor
import Arksh.Lib.AndOr

namespace Arksh

open CText Scan Traces Traces.Trace AndOrLists List

/-! ## 1. Text helpers of `src/parser.c` -/

/-- The open parentheses, braces and brackets in front of a position: the loop of
    `analyze_text_nesting_before`. -/
def nestingBefore : Quote → Nat → Nat → Nat → Text → Nat → Nat × Nat × Nat
  | _, paren, brace, bracket, [], _ => (paren, brace, bracket)
  | _, paren, brace, bracket, _ :: _, 0 => (paren, brace, bracket)
  | .single, paren, brace, bracket, c :: text, n + 1 =>
    nestingBefore (if c = '\'' then .unquoted else .single) paren brace bracket text n
  | .double, paren, brace, bracket, c :: text, n + 1 =>
    if c = '"' then nestingBefore .unquoted paren brace bracket text n
    else
      match c, text with
      | '\\', _ :: text => nestingBefore .double paren brace bracket text (n - 1)
      | _, text => nestingBefore .double paren brace bracket text n
  | .unquoted, paren, brace, bracket, c :: text, n + 1 =>
    if c = '"' then nestingBefore .double paren brace bracket text n
    else if c = '\'' then nestingBefore .single paren brace bracket text n
    else
      match c, text with
      | '\\', _ :: text => nestingBefore .unquoted paren brace bracket text (n - 1)
      | '(', text => nestingBefore .unquoted (paren + 1) brace bracket text n
      | ')', text => nestingBefore .unquoted (paren - 1) brace bracket text n
      | '{', text => nestingBefore .unquoted paren (brace + 1) bracket text n
      | '}', text => nestingBefore .unquoted paren (brace - 1) bracket text n
      | '[', text => nestingBefore .unquoted paren brace (bracket + 1) text n
      | ']', text => nestingBefore .unquoted paren brace (bracket - 1) text n
      | _, text => nestingBefore .unquoted paren brace bracket text n

def positionIsInsideNestedStructure (text : Text) (position : Nat) : Bool :=
  let (paren, brace, bracket) := nestingBefore .unquoted 0 0 0 text position
  paren > 0 || brace > 0 || bracket > 0

def copyTrimmedSlice (line : Text) (start stop : Nat) : Text :=
  trimCopy arkshMaxLine ((line.drop start).take (min (stop - start) (arkshMaxLine - 1)))

def textRangeContainsNewline (text : Text) (start stop : Nat) : Bool :=
  ((text.drop start).take (stop - start)).any fun c => c = '\n' || c = '\r'

def compoundOpenKeywords : List String :=
  ["if", "while", "until", "for", "case", "switch", "function", "class", "with"]

def compoundCloseKeywords : List String :=
  ["fi", "done", "esac", "endswitch", "endfunction", "endclass", "endwith"]

def keywordIsCompoundOpen (word : Text) : Bool :=
  compoundOpenKeywords.any fun keyword => keyword.toList = word

def keywordIsCompoundClose (word : Text) : Bool :=
  compoundCloseKeywords.any fun keyword => keyword.toList = word

def isListControlToken (kind : ArkshTokenKind) : Bool :=
  kind = .sequence || kind = .andIf || kind = .orIf || kind = .background

def newlineBetween (line : Text) (previous token : ArkshToken) : Bool :=
  textRangeContainsNewline line (previous.position + previous.raw.1.length) token.position

def tokenStartsCommand (line : Text) (previous : Option ArkshToken) (token : ArkshToken) : Bool :=
  match previous with
  | none => true
  | some previous =>
    newlineBetween line previous token ||
      match previous.kind with
      | .sequence | .andIf | .orIf | .background | .shellPipe => true
      | .word =>
        previous.text.1 = "then".toList || previous.text.1 = "do".toList ||
          previous.text.1 = "else".toList
      | _ => false

/-! ## 2. The parser -/

def arkshMaxListEntries : Nat := 16

structure ListState where
  segmentStart : Nat
  lastControl : Option ArkshTokenKind
  nextCondition : ArkshListCondition
  compoundDepth : Nat
  entries : List ArkshCommandListEntry

def unexpectedControlOperator : String := "unexpected control operator in command list"

def ListState.push (s : ListState) (line : Text) (stop : Nat) (background : Bool) :
    Except String ListState :=
  let segmentText := copyTrimmedSlice line s.segmentStart stop
  if segmentText = [] then .error unexpectedControlOperator
  else if s.entries.length ≥ arkshMaxListEntries then .error "too many command list entries"
  else .ok { s with entries := s.entries ++ [⟨segmentText, s.nextCondition, background⟩] }

def ListState.newline (s : ListState) (line : Text) (previous : Option ArkshToken)
    (token : ArkshToken) : Except String ListState :=
  match previous with
  | none => .ok s
  | some previous =>
    if s.compoundDepth = 0 ∧ newlineBetween line previous token then
      (s.push line token.position false).map fun s => { s with
        segmentStart := token.position
        lastControl := some .sequence
        nextCondition := .always }
    else .ok s

def compoundDepthBehind (depth : Nat) (word : Text) : Nat :=
  if keywordIsCompoundOpen word then depth + 1
  else if keywordIsCompoundClose word then depth - 1
  else depth

def nextListCondition (kind : ArkshTokenKind) : ArkshListCondition :=
  match kind with
  | .andIf => .onSuccess
  | .orIf => .onFailure
  | _ => .always

def ListState.word (s : ListState) (line : Text) (previous : Option ArkshToken)
    (token : ArkshToken) : Except String ListState :=
  if token.kind = .word ∧ tokenStartsCommand line previous token then
    (s.newline line previous token).map fun s => { s with
      compoundDepth := compoundDepthBehind s.compoundDepth token.text.1 }
  else .ok s

/-- At the end, the last segment becomes an entry; it may be missing behind `&`. -/
def ListState.finish (s : ListState) (line : Text) : Except String (List ArkshCommandListEntry) :=
  if copyTrimmedSlice line s.segmentStart line.length = [] ∧ s.lastControl = some .background ∧
      s.entries ≠ [] then .ok s.entries
  else (s.push line line.length false).map ListState.entries

def ListState.control (s : ListState) (line : Text) (token : ArkshToken) : Except String ListState :=
  (s.push line token.position (token.kind = .background)).map fun s => { s with
    segmentStart := token.position + token.text.1.length
    lastControl := some token.kind
    nextCondition := nextListCondition token.kind }

def commandListLoop (line : Text) :
    Option ArkshToken → ListState → List ArkshToken → Except String (List ArkshCommandListEntry)
  | _, _, [] => .error ""
  | previous, s, token :: tokens =>
    if token.kind = .eof then s.finish line
    else if positionIsInsideNestedStructure line token.position then
      commandListLoop line (some token) s tokens
    else
      (s.word line previous token).bind fun s =>
        if s.compoundDepth = 0 ∧ isListControlToken token.kind then
          (s.control line token).bind fun s => commandListLoop line (some token) s tokens
        else commandListLoop line (some token) s tokens

def parseCommandListTokens (line : Text) (stream : ArkshTokenStream) :
    Except String (List ArkshCommandListEntry) :=
  commandListLoop line none ⟨0, none, .always, 0, []⟩ stream.tokens

/-! ## 3. The commands of a line -/

/-- What an operator of a list is. -/
def separatorOf : ArkshTokenKind → Option Separator
  | .sequence => some .sequence
  | .background => some .background
  | .andIf => some .andIf
  | .orIf => some .orIf
  | _ => none

def commandsFrom (line : Text) : Option ArkshToken → Nat → Nat → List ArkshToken →
    List (Text × Separator)
  | _, _, _, [] => []
  | previous, start, depth, token :: tokens =>
    if token.kind = .eof then
      if copyTrimmedSlice line start line.length = [] then []
      else [(copyTrimmedSlice line start line.length, .sequence)]
    else if positionIsInsideNestedStructure line token.position then
      commandsFrom line (some token) start depth tokens
    else if token.kind = .word ∧ tokenStartsCommand line previous token then
      let depth' := compoundDepthBehind depth token.text.1
      if depth = 0 ∧ previous.any (newlineBetween line · token) then
        (copyTrimmedSlice line start token.position, .sequence) ::
          commandsFrom line (some token) token.position depth' tokens
      else commandsFrom line (some token) start depth' tokens
    else
      match separatorOf token.kind with
      | some separator =>
        if depth = 0 then
          (copyTrimmedSlice line start token.position, separator) ::
            commandsFrom line (some token) (token.position + token.text.1.length) depth tokens
        else commandsFrom line (some token) start depth tokens
      | none => commandsFrom line (some token) start depth tokens

/-- The commands of a line, each with the operator behind it: a line break in front of a command,
    or the end, is a `;`. -/
def joinedCommands (line : Text) (stream : ArkshTokenStream) : List (Text × Separator) :=
  commandsFrom line none 0 0 stream.tokens

def listCondition : Condition → ArkshListCondition
  | .always => .always
  | .onSuccess => .onSuccess
  | .onFailure => .onFailure

def listEntry (entry : Entry Text) : ArkshCommandListEntry :=
  ⟨entry.command, listCondition entry.condition, entry.background⟩

theorem isListControlToken_eq (kind : ArkshTokenKind) :
    isListControlToken kind = (separatorOf kind).isSome := by
  cases kind <;> rfl

variable {line : Text}

theorem ListState.push_ok {s s' : ListState} {stop : Nat} {background : Bool}
    (h : s.push line stop background = .ok s') :
    s' = { s with entries := s.entries ++
      [⟨copyTrimmedSlice line s.segmentStart stop, s.nextCondition, background⟩] } ∧
      copyTrimmedSlice line s.segmentStart stop ≠ [] := by
  unfold push at h
  dsimp only at h
  split at h
  · cases h
  split at h
  · cases h
  cases h
  exact ⟨rfl, ‹_›⟩

/-- The rest of the loop adds these commands, the first of them under this condition. -/
structure ListState.Adds (s : ListState) (condition : Condition) (ps : List (Text × Separator))
    (entries : List ArkshCommandListEntry) : Prop where
  entries_eq : entries = s.entries ++ (entriesFrom condition ps).map listEntry
  complete : Complete ps
  missing : ps = [] → s.lastControl = some .background

theorem ListState.Adds.push {s s₁ s₂ : ListState} {line : Text} {stop : Nat} {separator : Separator}
    {condition : Condition} {ps : List (Text × Separator)} {entries : List ArkshCommandListEntry}
    (h : s₂.Adds separator.condition ps entries)
    (hpush : s.push line stop (separator = .background) = .ok s₁)
    (hcondition : s.nextCondition = listCondition condition) (hentries : s₂.entries = s₁.entries)
    (hlast : s₂.lastControl = some .background → separator = .background) :
    s.Adds condition ((copyTrimmedSlice line s.segmentStart stop, separator) :: ps) entries := by
  obtain ⟨rfl, -⟩ := ListState.push_ok hpush
  refine ⟨?_, ?_, fun h => nomatch h⟩
  · rw [h.entries_eq, hentries, hcondition, append_assoc]; rfl
  · cases hps : ps with
    | nil =>
      intro p hp
      cases hp
      exact Or.inr (hlast (h.missing hps))
    | cons p ps =>
      rw [← hps]
      have hcomplete := h.complete
      rw [hps] at hcomplete ⊢
      exact hcomplete

variable {entries : List ArkshCommandListEntry}

theorem ListState.finish_adds {s : ListState} {condition : Condition}
    (hcondition : s.nextCondition = listCondition condition) (h : s.finish line = .ok entries) :
    s.Adds condition (if copyTrimmedSlice line s.segmentStart line.length = [] then []
      else [(copyTrimmedSlice line s.segmentStart line.length, .sequence)]) entries := by
  unfold finish at h
  split at h
  · rename_i hmissing
    rw [if_pos hmissing.1]
    cases h
    exact ⟨(append_nil _).symm, (fun p hp => nomatch hp), fun _ => hmissing.2.1⟩
  · obtain ⟨s₁, hpush, rfl⟩ := map_ok.mp h
    obtain ⟨rfl, hne⟩ := ListState.push_ok hpush
    rw [if_neg hne, hcondition]
    refine ⟨rfl, ?_, fun h => nomatch h⟩
    intro p hp
    cases hp
    exact Or.inl rfl

theorem commandListLoop_adds {line : Text} {tokens : List ArkshToken} :
    ∀ {previous : Option ArkshToken} {s : ListState} {condition : Condition}
      {entries : List ArkshCommandListEntry}, s.nextCondition = listCondition condition →
      commandListLoop line previous s tokens = .ok entries →
      s.Adds condition (commandsFrom line previous s.segmentStart s.compoundDepth tokens)
        entries := by
  induction tokens with
  | nil => intro previous s condition entries _ h; cases h
  | cons token tokens ih =>
    intro previous s condition entries hcondition h
    rw [commandListLoop] at h
    rw [commandsFrom]
    split at h
    · rename_i heof
      rw [if_pos heof]
      exact ListState.finish_adds hcondition h
    rename_i heof
    rw [if_neg heof]
    split at h
    · rename_i hnested
      rw [if_pos hnested]
      exact ih hcondition h
    rename_i hnested
    rw [if_neg hnested]
    obtain ⟨s₁, hword, hloop⟩ := bind_ok.mp h
    unfold ListState.word at hword
    split at hword
    · rename_i hstarts
      rw [if_pos hstarts]
      rw [if_neg fun hc => absurd hc.2 (by rw [hstarts.1]; decide)] at hloop
      obtain ⟨s₂, hnewline, hs₁⟩ := map_ok.mp hword
      subst hs₁
      unfold ListState.newline at hnewline
      cases previous with
      | none =>
        cases hnewline
        rw [if_neg fun hc => nomatch hc.2]
        have hrest := @ih _ _ condition _ (by exact hcondition) hloop
        exact ⟨hrest.entries_eq, hrest.complete, hrest.missing⟩
      | some previous =>
        dsimp only [Option.any] at hnewline ⊢
        split at hnewline
        · rename_i hline
          rw [if_pos hline]
          obtain ⟨s₃, hpush, hs₂⟩ := map_ok.mp hnewline
          subst hs₂
          have hrest := @ih _ _ .always _ rfl hloop
          obtain ⟨rfl, -⟩ := ListState.push_ok hpush
          exact @ListState.Adds.push _ _ _ _ _ .sequence _ _ _ hrest hpush hcondition rfl
            fun hlast => nomatch hlast
        · rename_i hline
          rw [if_neg hline]
          cases hnewline
          have hrest := @ih _ _ condition _ (by exact hcondition) hloop
          exact ⟨hrest.entries_eq, hrest.complete, hrest.missing⟩
    · rename_i hstarts
      rw [if_neg hstarts]
      cases hword
      rw [isListControlToken_eq] at hloop
      cases hseparator : separatorOf token.kind with
      | none => rw [hseparator, if_neg fun hc => nomatch hc.2] at hloop; exact ih hcondition hloop
      | some separator =>
        rw [hseparator] at hloop
        dsimp only
        split at hloop
        · rename_i hdepth
          rw [if_pos hdepth.1]
          obtain ⟨s₁, hcontrol, hloop⟩ := bind_ok.mp hloop
          obtain ⟨s₂, hpush, rfl⟩ := map_ok.mp hcontrol
          have hnext : nextListCondition token.kind = listCondition separator.condition ∧
              (token.kind = .background ↔ separator = .background) := by
            cases hkind : token.kind <;> rw [hkind] at hseparator <;> cases hseparator <;>
              exact ⟨rfl, by decide⟩
          have hrest := ih hnext.1 hloop
          rw [decide_eq_decide.mpr hnext.2] at hpush
          have hdepth₂ : s₂.compoundDepth = s.compoundDepth := by rw [(ListState.push_ok hpush).1]
          rw [show ListState.compoundDepth _ = _ from hdepth₂] at hrest
          exact hrest.push hpush hcondition rfl fun hlast => hnext.2.mp (Option.some.inj hlast)
        · rename_i hdepth
          rw [if_neg fun hc => hdepth ⟨hc, rfl⟩]
          exact ih hcondition hloop

theorem parseCommandListTokens_entries {stream : ArkshTokenStream}
    (h : parseCommandListTokens line stream = .ok entries) :
    ∃ l : CommandList Text, l.pieces = joinedCommands line stream ∧
      entries = l.entries.map listEntry := by
  have hadds := @commandListLoop_adds _ _ _ _ .always _ rfl h
  have hpieces : CommandList.pieces (group (joinedCommands line stream)) = _ :=
    group_pieces hadds.complete
  refine ⟨group (joinedCommands line stream), hpieces, ?_⟩
  unfold CommandList.entries
  rw [hpieces]
  exact hadds.entries_eq

/-! ## 4. What the executor runs -/

variable {σ N I : Type} {l : CommandList Text}

def andOrText : AndOr Text → Text
  | .command text => text
  | .andIf left right => andOrText left ++ " && ".toList ++ right
  | .orIf left right => andOrText left ++ " || ".toList ++ right

section Executors

variable (W : World σ N I) (exec : Text → Exec σ (Int × Text))

/-- A command of a list behind some output; the list ends where that does not fit or a transfer is
    under way. -/
def executePart (tested background : Bool) (text : Text) (out : Text) :
    Exec σ (Progress Int Text) := do
  let (status, segment) ← executeTested W exec tested ⟨text, .always, background⟩
  match appendOutputSegment out segment with
  | none => do
    let (status, out) ← giveUp 1 outputTooLarge
    return .stop status out
  | some out => do
    let sh ← getState
    if sh.ready then return .next status out
    else do
      reportSkipped
      return .stop status out

def runCommandList (l : CommandList Text) : Exec σ (Int × Text) :=
  CommandList.run (fun status => status = 0) (executePart W exec) andOrText l 0 []

end Executors

def CommandListLaw (entries : List ArkshCommandListEntry) (l : CommandList Text) : Prop :=
  ∀ (σ N I : Type) (W : World σ N I) (exec : Text → Exec σ (Int × Text)),
    executeCommandList W exec entries 0 [] = runCommandList W exec l

theorem shouldRunListEntry_eq (condition : Condition) (status : Int) :
    shouldRunListEntry (listCondition condition) status =
      condition.holds (fun status : Int => status = 0) status := by
  cases condition with
  | always | onSuccess => rfl
  | onFailure => exact decide_not

theorem isTested_eq (entries : List (Entry Text)) :
    Arksh.isTested (entries.map listEntry) = AndOrLists.isTested entries := by
  cases entries with
  | nil => rfl
  | cons entry entries => obtain ⟨text, condition, background⟩ := entry; cases condition <;> rfl

theorem executePart_andThen (W : World σ N I) (exec : Text → Exec σ (Int × Text))
    (f : Int → Text → Exec σ (Int × Text)) (tested : Bool) (entry : ArkshCommandListEntry)
    (out : Text) :
    executePart W exec tested entry.runInBackground entry.text out >>= Progress.andThen f = do
      let (status, segment) ← executeTested W exec tested entry
      match appendOutputSegment out segment with
      | none => giveUp 1 outputTooLarge
      | some out => do
        let sh ← getState
        if sh.ready then f status out
        else do
          reportSkipped
          return (status, out) := by
  unfold executePart
  rw [bind_assoc]
  refine congrArg (executeTested W exec tested entry >>= ·) (funext fun ⟨status, segment⟩ => ?_)
  dsimp only
  cases appendOutputSegment out segment with
  | none =>
    rw [bind_assoc]
    refine (congrArg (_ >>= ·) (funext fun ⟨status, out⟩ => ?_)).trans (bind_pure _)
    exact pure_bind _ _
  | some out =>
    rw [bind_assoc]
    refine congrArg (_ >>= ·) (funext fun sh => ?_)
    split
    · exact pure_bind _ _
    · rw [bind_assoc]
      refine congrArg (_ >>= ·) (funext fun _ => ?_)
      exact pure_bind _ _

theorem executeCommandList_eq (W : World σ N I) (exec : Text → Exec σ (Int × Text))
    (entries : List (Entry Text)) (status : Int) (out : Text) :
    executeCommandList W exec (entries.map listEntry) status out =
      runEntries (fun status => status = 0) (executePart W exec) entries status out := by
  induction entries generalizing status out with
  | nil => rfl
  | cons entry rest ih =>
    have hrest : executeCommandList W exec (rest.map listEntry) =
        runEntries (fun status => status = 0) (executePart W exec) rest :=
      funext fun status => funext (ih status)
    have hpart := executePart_andThen W exec
      (runEntries (fun status => status = 0) (executePart W exec) rest)
      (AndOrLists.isTested rest) (listEntry entry) out
    rw [map_cons, executeCommandList, isTested_eq, hrest, runEntries]
    show (if ¬ shouldRunListEntry (listCondition entry.condition) status = true then _ else _) = _
    rw [shouldRunListEntry_eq, ite_not]
    exact ite_congr rfl (fun _ => hpart.symm) fun _ => rfl

theorem commandListLaw_of_single (hl : ∀ item ∈ l, item.background = true → item.andOr.Single) :
    CommandListLaw (l.entries.map listEntry) l := by
  intro σ N I W exec
  have hjoin : ∀ text, andOrText (.command text) = text := fun _ => rfl
  rw [executeCommandList_eq, runEntries_entries hjoin hl]
  rfl

/-! ## 5. AND-OR lists in the background -/

def tellEnded : Text → Exec Unit (Int × Text) := fun _ => do
  tell .ended
  return (0, [])

def plainWorld : World Unit String Unit := tableWorld [] []

def Leads {α : Type} (x : Exec Unit α) (es : List Event) (a : α) : Prop :=
  ∀ c, Ends x c (freshShell ()) es a (freshShell ())

theorem Leads.bind {α β : Type} {x : Exec Unit α} {f : α → Exec Unit β} {es es' : List Event}
    {a : α} {b : β} (hx : Leads x es a) (hf : Leads (f a) es' b) : Leads (x >>= f) (es ++ es') b :=
  fun c => bind_ends.mpr ⟨a, _, es, es', hx c, hf c, rfl⟩

theorem executePart_leads (tested : Bool) (text : Text) :
    Leads (executePart plainWorld tellEnded tested false text []) [.ended] (.next 0 []) := by
  intro c
  cases tested with
  | false | true => rfl

theorem executePart_background (text : Text) :
    Leads (executePart plainWorld tellEnded false true text [])
      [.line true, .background text] (.next 0 []) :=
  fun _ => rfl

theorem andOr_leads (andOr : AndOr Text) (tested : Bool) :
    ∃ es, Leads (andOr.run (fun status => status = 0) (executePart plainWorld tellEnded) tested [])
      (.ended :: es) (.next 0 []) := by
  induction andOr generalizing tested with
  | command text => exact ⟨[], executePart_leads tested text⟩
  | andIf left right ih =>
    obtain ⟨es, hleft⟩ := ih true
    exact ⟨es ++ [.ended], hleft.bind (executePart_leads tested right)⟩
  | orIf left right ih =>
    obtain ⟨es, hleft⟩ := ih true
    refine ⟨es ++ [], ?_⟩
    show Leads (_ >>= _) ((.ended :: es) ++ []) _
    exact hleft.bind fun _ => rfl

theorem Leads.events {α β : Type} {x : Exec Unit α} {f : α → Exec Unit β} {es : List Event} {a : α}
    (hx : Leads x es a) : ((x >>= f) Context.top (freshShell ())).events =
      es ++ (f a Context.top (freshShell ())).events := by
  have h : x Context.top (freshShell ()) = ⟨es, some (a, freshShell ())⟩ := hx Context.top
  show (Trace.bind x f Context.top (freshShell ())).events = _
  unfold Trace.bind
  rw [h]

theorem item_background (andOr : AndOr Text) :
    Leads (Item.run (fun status => status = 0) (executePart plainWorld tellEnded) andOrText
      ⟨andOr, true⟩ []) [.line true, .background (andOrText andOr)] (.next 0 []) :=
  executePart_background (andOrText andOr)

theorem item_leads (item : Item Text) :
    ∃ es, Leads (item.run (fun status => status = 0) (executePart plainWorld tellEnded) andOrText [])
      es (.next 0 []) := by
  obtain ⟨andOr, background⟩ := item
  cases background with
  | false => exact ⟨_, (andOr_leads andOr false).choose_spec⟩
  | true => exact ⟨_, item_background andOr⟩

theorem left_ended (left : AndOr Text) (sep : Separator) (right : Text) (l : CommandList Text)
    (hsep : sep.condition ≠ .always) :
    ∃ es, (runEntries (fun status => status = 0) (executePart plainWorld tellEnded)
      (entriesFrom .always (left.pieces sep ++ (right, .background) :: CommandList.pieces l)) 0 []
      Context.top (freshShell ())).events = .ended :: es := by
  have hbackground : sep ≠ .background := by rintro rfl; exact hsep rfl
  have hcomplete (a : Text) : Complete ((a, sep) :: (right, .background) :: CommandList.pieces l) :=
    (CommandList.pieces_complete l).append (Or.inr rfl) [(a, sep)]
  obtain ⟨es, hleft⟩ := andOr_leads left (sep.condition ≠ .always : Bool)
  rw [runEntries_andOr left hbackground hcomplete, hleft.events]
  exact ⟨_, rfl⟩

/-- The flat form of an AND-OR list in the background that is no single command starts with a
    command in the foreground. -/
theorem entries_ended {andOr : AndOr Text} (h : ¬ andOr.Single) (l : CommandList Text) :
    ∃ es, (runEntries (fun status => status = 0) (executePart plainWorld tellEnded)
      (CommandList.entries (⟨andOr, true⟩ :: l)) 0 [] Context.top (freshShell ())).events =
        .ended :: es := by
  cases andOr with
  | command text => exact absurd trivial h
  | andIf left right =>
    have hentries : CommandList.entries (⟨.andIf left right, true⟩ :: l) =
        entriesFrom .always (left.pieces .andIf ++ (right, .background) :: CommandList.pieces l) :=
      congrArg (entriesFrom .always) (append_assoc _ _ _)
    rw [hentries]
    exact left_ended left .andIf right l (by decide)
  | orIf left right =>
    have hentries : CommandList.entries (⟨.orIf left right, true⟩ :: l) =
        entriesFrom .always (left.pieces .orIf ++ (right, .background) :: CommandList.pieces l) :=
      congrArg (entriesFrom .always) (append_assoc _ _ _)
    rw [hentries]
    exact left_ended left .orIf right l (by decide)

theorem single_of_events
    (h : (runEntries (fun status => status = 0) (executePart plainWorld tellEnded) l.entries 0 []
      Context.top (freshShell ())).events =
        (runCommandList plainWorld tellEnded l Context.top (freshShell ())).events) :
    ∀ item ∈ l, item.background = true → item.andOr.Single := by
  have hjoin : ∀ text, andOrText (.command text) = text := fun _ => rfl
  induction l with
  | nil => exact fun item hitem => absurd hitem not_mem_nil
  | cons item l ih =>
    have hsingle : item.background = true → item.andOr.Single := by
      obtain ⟨andOr, background⟩ := item
      rintro rfl
      by_contra hnot
      obtain ⟨es, hes⟩ := entries_ended hnot l
      rw [hes] at h
      cases h
    obtain ⟨es, hitem⟩ := item_leads item
    rw [runEntries_item hjoin hsingle, hitem.events] at h
    unfold runCommandList at h
    rw [CommandList.run, hitem.events] at h
    have hrest := ih (append_cancel_left h)
    intro item' hmem
    rcases mem_cons.mp hmem with rfl | hmem
    · exact hsingle
    · exact hrest item' hmem

/-- **The executor does with the entries of the parser what the commands, joined by their operators,
    are to do, exactly where each AND-OR list in the background is one command.** -/
theorem commandListLaw_iff {line : Text} {stream : ArkshTokenStream}
    {entries : List ArkshCommandListEntry} (h : parseCommandListTokens line stream = .ok entries) :
    ∃ l : CommandList Text, l.pieces = joinedCommands line stream ∧
      (∀ l' : CommandList Text, l'.pieces = joinedCommands line stream → l' = l) ∧
      (CommandListLaw entries l ↔ ∀ item ∈ l, item.background = true → item.andOr.Single) := by
  obtain ⟨l, hpieces, rfl⟩ := parseCommandListTokens_entries h
  refine ⟨l, hpieces, ?_, ?_, commandListLaw_of_single⟩
  · intro l' hl'; rw [← group_of_pieces l', ← group_of_pieces l, hl', hpieces]
  · intro hlaw
    refine single_of_events ?_
    rw [← hlaw Unit String Unit plainWorld tellEnded, executeCommandList_eq]

def commandsOfLine (line : Text) : Except String (List (Text × Separator)) :=
  (arkshLexLine line).bind fun stream =>
    (parseCommandListTokens line stream).map fun _ => joinedCommands line stream

theorem commandsOfLine_some {line : Text} {ps : List (Text × Separator)}
    (h : (commandsOfLine line).toOption = some ps) :
    ∃ stream entries, arkshLexLine line = .ok stream ∧
      parseCommandListTokens line stream = .ok entries ∧ joinedCommands line stream = ps := by
  cases hline : commandsOfLine line with
  | error message => rw [hline] at h; cases h
  | ok ps' =>
    rw [hline] at h
    cases h
    obtain ⟨stream, hlex, hparse⟩ := bind_ok.mp hline
    obtain ⟨entries, hentries, hps⟩ := map_ok.mp hparse
    exact ⟨stream, entries, hlex, hentries, hps⟩

/-- `a & b || c` -/
theorem commandListLaw_iff_job : ∃ stream entries l, arkshLexLine "a & b || c".toList = .ok stream ∧
      parseCommandListTokens "a & b || c".toList stream = .ok entries ∧
      l.pieces = [("a".toList, .background), ("b".toList, .orIf), ("c".toList, .sequence)] ∧
      CommandListLaw entries l := by
  obtain ⟨stream, entries, hlex, hparse, hps⟩ := @commandsOfLine_some "a & b || c".toList
    [("a".toList, .background), ("b".toList, .orIf), ("c".toList, .sequence)] (by decide +kernel)
  obtain ⟨l, hpieces, -, hlaw⟩ := commandListLaw_iff hparse
  refine ⟨stream, entries, l, hlex, hparse, hpieces.trans hps, hlaw.mpr ?_⟩
  rw [← group_of_pieces l, hpieces, hps]
  intro item hitem hbackground
  rcases mem_cons.mp hitem with rfl | hitem
  · trivial
  · cases mem_singleton.mp hitem; cases hbackground

/-- `a && b & c`: `a` is run in the foreground, and its status is waited for. -/
theorem not_commandListLaw_andIf : ¬ ∀ line stream entries, arkshLexLine line = .ok stream →
      parseCommandListTokens line stream = .ok entries →
      ∀ l : CommandList Text, l.pieces = joinedCommands line stream → CommandListLaw entries l := by
  intro h
  obtain ⟨stream, entries, hlex, hparse, hps⟩ := @commandsOfLine_some "a && b & c".toList
    [("a".toList, .andIf), ("b".toList, .background), ("c".toList, .sequence)] (by decide +kernel)
  obtain ⟨l, hpieces, rfl⟩ := parseCommandListTokens_entries hparse
  have hlaw := h _ _ _ hlex hparse l hpieces
  have hsingle : ∀ item ∈ l, item.background = true → item.andOr.Single := by
    refine single_of_events ?_
    rw [← hlaw Unit String Unit plainWorld tellEnded, executeCommandList_eq]
  rw [← group_of_pieces l, hpieces, hps] at hsingle
  exact hsingle _ mem_cons_self rfl

end Arksh
