/-
  Subject: What is quoted in the source, and that the tokens of the lexer are whole.

  A backslash quotes the character behind it, outside quotes and between double ones; between single
  quotes everything is quoted. A token of the lexer never ends between quotes or behind a backslash.
-/
import Arksh.Expand.WordPattern
import Mathlib.Data.Bool.AllAny

namespace Arksh

open CText Scan List

/-! ## 1. Quoting -/

/-- Where a character of the source stands: outside quotes, between quotes, or behind a backslash. -/
inductive SourceMode where
  | bare | single | double | bareEscape | doubleEscape
  deriving DecidableEq

namespace SourceMode

def next : SourceMode → Char → SourceMode
  | .bare, c =>
    if c = '\\' then .bareEscape else if c = '\'' then .single else if c = '"' then .double
    else .bare
  | .single, c => if c = '\'' then .bare else .single
  | .double, c => if c = '\\' then .doubleEscape else if c = '"' then .bare else .double
  | .bareEscape, _ => .bare
  | .doubleEscape, _ => .double

/-- The character, if it is not a mark, and whether it is quoted. -/
def chars : SourceMode → Char → List (Char × Bool)
  | .bare, c => if c = '\\' ∨ c = '\'' ∨ c = '"' then [] else [(c, false)]
  | .single, c => if c = '\'' then [] else [(c, true)]
  | .double, c => if c = '\\' ∨ c = '"' then [] else [(c, true)]
  | .bareEscape, c => [(c, true)]
  | .doubleEscape, c => [(c, true)]

def behind (mode : SourceMode) (text : Text) : SourceMode := text.foldl next mode

/-- A backslash at the end stands for itself. -/
def atEnd : SourceMode → List (Char × Bool)
  | .bareEscape => [('\\', false)]
  | .doubleEscape => [('\\', true)]
  | _ => []

theorem behind_append (mode : SourceMode) (front back : Text) :
    mode.behind (front ++ back) = (mode.behind front).behind back := foldl_append

end SourceMode

def sourceChars : SourceMode → Text → List (Char × Bool)
  | mode, [] => mode.atEnd
  | mode, c :: text => mode.chars c ++ sourceChars (mode.next c) text

def cutPipes : SourceMode → Text → List Text
  | _, [] => [[]]
  | mode, c :: text =>
    if mode = .bare ∧ c = '|' then [] :: cutPipes .bare text
    else (cutPipes (mode.next c) text).modifyHead (c :: ·)

/-! ## 2. The tokens of the lexer -/

def Quote.mode : Quote → SourceMode
  | .unquoted => .bare
  | .single => .single
  | .double => .double

variable {t t' cs line : Text} {quote : Quote} {s : CommandState} {depth : Nat}
  {turn : Turn CommandState} {conditionalMode : Bool} {stream : ArkshTokenStream}

section Whole

variable {σ ε : Type} {b b' : Buffers} {c : Char} {text rest : Text} {start : Nat}
  {token : ArkshToken} {kind : ArkshTokenKind}

theorem Scanner.run_invariant (S : Scanner σ ε) {Inv Post : σ → Prop}
    (atEnd : ∀ {s s'}, Inv s → S.atEnd s = .ok s' → Post s')
    (stop : ∀ {s c t s' t'}, Inv s → S.step s c t = .ok (.stop s' t') → Post s')
    (more : ∀ {s c t s' t'}, Inv s → S.step s c t = .ok (.more s' t') → Inv s') {s s' : σ}
    (h : S.run s t = .ok (s', t')) (hs : Inv s) : Post s' := by
  refine S.run_ok (motive := fun s _ => Inv s → Post s') ?_ ?_ ?_ h hs
  · intro _ s hend hinv; exact atEnd hinv hend
  · intro s c t hstep hinv; exact stop hinv hstep
  · intro s c t s₁ t₁ hstep _ ih hinv; exact ih (more hinv hstep)

/-- The mode behind what a scanner has read. -/
def Buffers.mode (b : Buffers) : SourceMode := SourceMode.bare.behind b.seen

theorem Buffers.push_mode (h : b.push cs = .ok b') : b'.mode = b.mode.behind cs := by
  rw [mode, push_seen h, SourceMode.behind_append]
  rfl

theorem Buffers.pushRaw_mode (h : b.pushRaw cs = .ok b') : b'.mode = b.mode.behind cs := by
  rw [mode, pushRaw_seen h, SourceMode.behind_append]
  rfl

theorem Buffers.pushCooked_mode {label : String} (h : b.pushCooked label cs = .ok b') :
    b'.mode = b.mode := by
  rw [mode, pushCooked_seen h]
  rfl

theorem next_bare (hbackslash : c ≠ '\\') (hsingle : c ≠ '\'') (hdouble : c ≠ '"') :
    SourceMode.bare.next c = .bare := by
  rw [SourceMode.next, if_neg hbackslash, if_neg hsingle, if_neg hdouble]

theorem next_single (c : Char) :
    SourceMode.single.next c = (if c = '\'' then Quote.unquoted else .single).mode := by
  rw [SourceMode.next]
  split <;> rfl

theorem next_double {c : Char} (hc : c ≠ '\\') :
    SourceMode.double.next c = (if c = '"' then Quote.unquoted else .double).mode := by
  rw [SourceMode.next, if_neg hc]
  split <;> rfl

theorem next_escaped (h : quote ≠ .single) (e : Char) :
    (quote.mode.next '\\').next e = quote.mode := by
  cases quote with
  | unquoted => rfl
  | single => exact absurd rfl h
  | double => rfl

theorem behind_bare (h : ∀ c ∈ text, c ≠ '\\' ∧ c ≠ '\'' ∧ c ≠ '"') :
    SourceMode.bare.behind text = .bare := by
  induction text with
  | nil => rfl
  | cons c text ih =>
    obtain ⟨hbackslash, hsingle, hdouble⟩ := h c mem_cons_self
    show (SourceMode.bare.next c).behind text = .bare
    rw [next_bare hbackslash hsingle hdouble]
    exact ih fun d hd => h d (mem_cons_of_mem _ hd)

def Turn.Leads (Inv Post : σ → Prop) : Turn σ → Prop
  | .more s _ => Inv s
  | .stop s _ => Post s

theorem Scanner.run_leads (S : Scanner σ ε) {Inv Post : σ → Prop}
    (atEnd : ∀ {s s'}, Inv s → S.atEnd s = .ok s' → Post s')
    (step : ∀ {s c t turn}, Inv s → S.step s c t = .ok turn → Turn.Leads Inv Post turn) {s s' : σ}
    (h : S.run s t = .ok (s', t')) (hs : Inv s) : Post s' :=
  Scanner.run_invariant S atEnd (fun hinv hstep => step hinv hstep)
    (fun hinv hstep => step hinv hstep) h hs

/-! ### Arithmetic expansions -/

theorem ArithState.take_leads {s : ArithState} {turn : Turn ArithState}
    (h : s.take cs quote depth rest = .ok turn) (hmode : s.bufs.mode.behind cs = quote.mode) :
    Turn.Leads (fun s => s.bufs.mode = s.quote.mode) (fun s => s.bufs.mode = .bare) turn := by
  obtain ⟨bufs, hb, h⟩ := bind_ok.mp h
  cases h
  exact (Buffers.push_mode hb).trans hmode

theorem ArithState.escape_leads {s : ArithState} {turn : Turn ArithState}
    (h : s.escape rest = .ok turn) (hmode : s.bufs.mode = s.quote.mode) (hquote : s.quote ≠ .single) :
    Turn.Leads (fun s => s.bufs.mode = s.quote.mode) (fun s => s.bufs.mode = .bare) turn := by
  obtain ⟨bufs, hb, h⟩ := bind_ok.mp h
  cases rest with
  | nil => cases h
  | cons e rest =>
    obtain ⟨bufs', hb', h⟩ := bind_ok.mp h
    cases h
    show bufs'.mode = s.quote.mode
    rw [Buffers.push_mode hb', Buffers.push_mode hb, hmode]
    exact next_escaped hquote e

theorem arithStep_leads {s : ArithState} {turn : Turn ArithState}
    (hmode : s.bufs.mode = s.quote.mode) (h : arithStep s c rest = .ok turn) :
    Turn.Leads (fun s => s.bufs.mode = s.quote.mode) (fun s => s.bufs.mode = .bare) turn := by
  unfold arithStep at h
  split at h
  · next hquote =>
    rw [hquote] at hmode
    split at h
    · next hc => exact s.take_leads h (by rw [hmode, hc]; rfl)
    split at h
    · next hc => exact s.take_leads h (by rw [hmode, hc]; rfl)
    split at h
    · exact s.escape_leads h (by rw [hmode, hquote]) (by rw [hquote]; decide)
    split at h
    · exact s.take_leads h (by rw [hmode]; rfl)
    · obtain ⟨bufs, hb, h⟩ := bind_ok.mp h
      have hbufs : bufs.mode = .bare := by rw [Buffers.push_mode hb, hmode]; rfl
      split at h
      · cases h; exact hbufs
      · cases h
        show bufs.mode = s.quote.mode
        rw [hbufs, hquote]
        rfl
    · next hsingle hdouble hbackslash _ _ _ _ =>
      exact s.take_leads h (by rw [hmode]; exact next_bare hbackslash hsingle hdouble)
  · next hquote =>
    exact s.take_leads h (by rw [hmode, hquote]; exact next_single c)
  · next hquote =>
    split at h
    · exact s.escape_leads h hmode (by rw [hquote]; decide)
    · next hc => exact s.take_leads h (by rw [hmode, hquote]; exact next_double hc)

theorem scanArithmeticExpansion_mode (h : scanArithmeticExpansion b text = .ok (b', rest))
    (hb : b.mode = .bare) : b'.mode = .bare := by
  unfold scanArithmeticExpansion at h
  split at h
  · obtain ⟨b₁, hb₁, h⟩ := bind_ok.mp h
    obtain ⟨⟨s, t⟩, hrun, h⟩ := map_ok.mp h
    cases h
    refine Scanner.run_leads arithScanner (fun _ hend => by cases hend) arithStep_leads hrun ?_
    show b₁.mode = _
    rw [Buffers.push_mode hb₁, hb]
    rfl
  · cases h

/-! ### Command substitutions -/

def CommandState.Inside (s : CommandState) : Prop := s.bufs.mode = s.quote.mode ∧ s.depth ≠ 0

theorem CommandState.take_leads (h : s.take c quote depth rest = .ok turn)
    (hmode : s.bufs.mode.next c = quote.mode) (hdepth : quote = .unquoted ∨ depth ≠ 0) :
    Turn.Leads Inside (fun s => s.bufs.mode = .bare) turn := by
  obtain ⟨bufs, hb, h⟩ := bind_ok.mp h
  have hbufs : bufs.mode = quote.mode := (Buffers.push_mode hb).trans hmode
  split at h
  · next hend =>
    cases h
    show bufs.mode = .bare
    rw [hbufs, hend.1]
    rfl
  · next hend =>
    cases h
    exact ⟨hbufs, fun hzero => hend ⟨hdepth.resolve_right (not_not_intro hzero), hzero⟩⟩

theorem CommandState.escape_leads (h : s.escape rest = .ok turn) (hs : s.Inside)
    (hquote : s.quote ≠ .single) : Turn.Leads Inside (fun s => s.bufs.mode = .bare) turn := by
  obtain ⟨bufs, hb, h⟩ := bind_ok.mp h
  cases rest with
  | nil => cases h
  | cons e rest =>
    refine CommandState.take_leads h ?_ (.inr hs.2)
    show bufs.mode.next e = _
    rw [Buffers.pushRaw_mode hb, hs.1]
    exact next_escaped hquote e

theorem commandStep_leads (hs : s.Inside) (h : commandStep s c rest = .ok turn) :
    Turn.Leads CommandState.Inside (fun s => s.bufs.mode = .bare) turn := by
  have hmode := hs.1
  unfold commandStep at h
  split at h
  · next hquote =>
    rw [hquote] at hmode
    split at h
    · next hc => exact s.take_leads h (by rw [hmode, hc]; rfl) (.inr hs.2)
    split at h
    · next hc => exact s.take_leads h (by rw [hmode, hc]; rfl) (.inr hs.2)
    split at h
    · exact s.escape_leads h hs (by rw [hquote]; decide)
    next hsingle hdouble hbackslash =>
      have hbare : s.bufs.mode.next c = Quote.unquoted.mode := by
        rw [hmode]
        exact next_bare hbackslash hsingle hdouble
      split at h
      · exact s.take_leads h hbare (.inl rfl)
      split at h <;> exact s.take_leads h hbare (.inl rfl)
  · next hquote =>
    exact s.take_leads h (by rw [hmode, hquote]; exact next_single c) (.inr hs.2)
  · next hquote =>
    split at h
    · exact s.escape_leads h hs (by rw [hquote]; decide)
    · next hc =>
      exact s.take_leads h (by rw [hmode, hquote]; exact next_double hc) (.inr hs.2)

theorem scanCommandSubstitution_mode (h : scanCommandSubstitution b text = .ok (b', rest))
    (hb : b.mode = .bare) : b'.mode = .bare := by
  obtain ⟨b₁, hb₁, h⟩ := bind_ok.mp h
  obtain ⟨⟨s, t⟩, hrun, h⟩ := map_ok.mp h
  cases h
  refine Scanner.run_leads commandScanner ?_ commandStep_leads hrun ⟨?_, Nat.one_ne_zero⟩
  · intro s s' hs hend
    change (if s.depth ≠ 0 then _ else _) = _ at hend
    rw [if_pos hs.2] at hend
    cases hend
  · show b₁.mode = _
    rw [Buffers.push_mode hb₁, hb]
    rfl

/-! ### Process substitutions -/

def ProcessState.Inside (s : ProcessState) : Prop := s.bufs.mode = s.quote.mode ∧ s.depth ≠ 0

theorem ProcessState.take_leads {s : ProcessState} {turn : Turn ProcessState}
    (h : s.take c quote depth rest = .ok turn) (hmode : s.bufs.mode.next c = quote.mode)
    (hdepth : quote = .unquoted ∨ depth ≠ 0) :
    Turn.Leads Inside (fun s => s.bufs.mode = .bare) turn := by
  obtain ⟨bufs, hb, h⟩ := bind_ok.mp h
  have hbufs : bufs.mode = quote.mode := (Buffers.pushRaw_mode hb).trans hmode
  split at h
  · next hend =>
    cases h
    show bufs.mode = .bare
    rw [hbufs, hdepth.resolve_right (not_not_intro hend)]
    rfl
  · next hend =>
    obtain ⟨bufs', hb', h⟩ := bind_ok.mp h
    cases h
    exact ⟨(Buffers.pushCooked_mode hb').trans hbufs, hend⟩

theorem ProcessState.escape_leads {s : ProcessState} {turn : Turn ProcessState}
    (h : s.escape rest = .ok turn) (hs : s.Inside) (hquote : s.quote ≠ .single) :
    Turn.Leads Inside (fun s => s.bufs.mode = .bare) turn := by
  obtain ⟨bufs, hb, h⟩ := bind_ok.mp h
  cases rest with
  | nil => cases h
  | cons e rest =>
    refine ProcessState.take_leads h ?_ (.inr hs.2)
    show bufs.mode.next e = _
    rw [Buffers.push_mode hb, hs.1]
    exact next_escaped hquote e

theorem processStep_leads {s : ProcessState} {turn : Turn ProcessState} (hs : s.Inside)
    (h : processStep s c rest = .ok turn) :
    Turn.Leads ProcessState.Inside (fun s => s.bufs.mode = .bare) turn := by
  have hmode := hs.1
  unfold processStep at h
  split at h
  · next hquote =>
    rw [hquote] at hmode
    split at h
    · next hc => exact s.take_leads h (by rw [hmode, hc]; rfl) (.inr hs.2)
    split at h
    · next hc => exact s.take_leads h (by rw [hmode, hc]; rfl) (.inr hs.2)
    split at h
    · exact s.escape_leads h hs (by rw [hquote]; decide)
    next hsingle hdouble hbackslash =>
      have hbare : s.bufs.mode.next c = Quote.unquoted.mode := by
        rw [hmode]
        exact next_bare hbackslash hsingle hdouble
      split at h
      · exact s.take_leads h hbare (.inl rfl)
      split at h <;> exact s.take_leads h hbare (.inl rfl)
  · next hquote =>
    exact s.take_leads h (by rw [hmode, hquote]; exact next_single c) (.inr hs.2)
  · next hquote =>
    split at h
    · exact s.escape_leads h hs (by rw [hquote]; decide)
    · next hc =>
      exact s.take_leads h (by rw [hmode, hquote]; exact next_double hc) (.inr hs.2)

/-! ### Quoted parts -/

theorem quoteStep_leads {quote : Char} {mode : SourceMode} {turn : Turn Buffers}
    (hquote : (quote = '\'' ∧ mode = .single) ∨ (quote = '"' ∧ mode = .double)) (hb : b.mode = mode)
    (h : quoteStep quote b c rest = .ok turn) :
    Turn.Leads (fun b => b.mode = mode) (fun b => b.mode = .bare) turn := by
  unfold quoteStep at h
  split at h
  · next hc =>
    obtain ⟨b₁, hb₁, h⟩ := bind_ok.mp h
    cases h
    show b₁.mode = .bare
    rw [Buffers.pushRaw_mode hb₁, hb, hc]
    rcases hquote with ⟨rfl, rfl⟩ | ⟨rfl, rfl⟩ <;> rfl
  next hclose =>
  split at h
  · next hescape =>
    obtain ⟨b₁, hb₁, h⟩ := bind_ok.mp h
    cases rest with
    | nil => cases h
    | cons e rest =>
      obtain ⟨b₂, hb₂, h⟩ := bind_ok.mp h
      obtain ⟨b₃, hb₃, h⟩ := bind_ok.mp h
      cases h
      show b₃.mode = mode
      rw [Buffers.pushCooked_mode hb₃, Buffers.pushRaw_mode hb₂, Buffers.pushRaw_mode hb₁, hb,
        hescape.2]
      rcases hquote with ⟨hsingle, -⟩ | ⟨-, rfl⟩
      · exact absurd (hsingle.symm.trans hescape.1) (by decide)
      · rfl
  · next hescape =>
    obtain ⟨b₁, hb₁, h⟩ := bind_ok.mp h
    obtain ⟨b₂, hb₂, h⟩ := bind_ok.mp h
    cases h
    show b₂.mode = mode
    rw [Buffers.pushCooked_mode hb₂, Buffers.pushRaw_mode hb₁, hb]
    show mode.next c = mode
    rcases hquote with ⟨rfl, rfl⟩ | ⟨rfl, rfl⟩
    · exact if_neg hclose
    · rw [SourceMode.next, if_neg fun hc => hescape ⟨rfl, hc⟩, if_neg hclose]

theorem scanQuoted_mode (hquote : c = '\'' ∨ c = '"') (h : scanQuoted b c text = .ok (b', rest))
    (hb : b.mode = .bare) : b'.mode = .bare := by
  obtain ⟨b₁, hb₁, h⟩ := bind_ok.mp h
  obtain ⟨mode, hmode, hnext⟩ : ∃ mode,
      ((c = '\'' ∧ mode = .single) ∨ (c = '"' ∧ mode = .double)) ∧ SourceMode.bare.next c = mode := by
    rcases hquote with rfl | rfl
    · exact ⟨.single, .inl ⟨rfl, rfl⟩, rfl⟩
    · exact ⟨.double, .inr ⟨rfl, rfl⟩, rfl⟩
  refine Scanner.run_leads (quoteScanner c) (fun _ hend => by cases hend)
    (fun hinv hstep => quoteStep_leads hmode hinv hstep) h ?_
  rw [Buffers.pushRaw_mode hb₁, hb]
  exact hnext

/-! ### Words -/

theorem wordStep_leads {s : WordState} {turn : Turn WordState} (hs : s.bufs.mode = .bare)
    (h : wordStep conditionalMode s c rest = .ok turn) :
    Turn.Leads (fun s => s.bufs.mode = .bare) (fun s => s.bufs.mode = .bare) turn := by
  unfold wordStep at h
  split at h
  · obtain ⟨⟨bufs, t⟩, hscan, h⟩ := map_ok.mp h
    cases h
    exact scanArithmeticExpansion_mode hscan hs
  · obtain ⟨⟨bufs, t⟩, hscan, h⟩ := map_ok.mp h
    cases h
    exact scanCommandSubstitution_mode hscan hs
  split at h
  · cases h; exact hs
  split at h
  · cases h; exact hs
  split at h
  · next hc =>
    obtain ⟨b₁, hb₁, h⟩ := bind_ok.mp h
    cases rest with
    | nil => cases h
    | cons e rest =>
      obtain ⟨b₂, hb₂, h⟩ := bind_ok.mp h
      cases h
      show b₂.mode = .bare
      rw [Buffers.push_mode hb₂, Buffers.pushRaw_mode hb₁, hs, hc]
      rfl
  next hbackslash =>
  split at h
  · next hquote =>
    obtain ⟨⟨bufs, t⟩, hscan, h⟩ := map_ok.mp h
    cases h
    exact scanQuoted_mode hquote hscan hs
  · next hquote =>
    obtain ⟨b₁, hb₁, h⟩ := bind_ok.mp h
    cases h
    show b₁.mode = .bare
    rw [Buffers.push_mode hb₁, hs]
    exact next_bare hbackslash (fun hc => hquote (.inl hc)) fun hc => hquote (.inr hc)

/-! ### Lines -/

def WholeToken (token : ArkshToken) : Prop := SourceMode.bare.behind token.raw.1 = .bare

theorem scanWordToken_whole (h : scanWordToken conditionalMode text start = .ok (token, rest)) :
    WholeToken token := by
  obtain ⟨⟨s, t⟩, hrun, h⟩ := bind_ok.mp h
  dsimp only at h
  split at h
  · cases h
    refine Scanner.run_leads (wordScanner conditionalMode) ?_ wordStep_leads hrun rfl
    intro s s' hs hend
    cases hend
    exact hs
  · cases h

theorem scanProcessSubstitutionToken_whole (hstart : startsProcessSubstitution text = true)
    (h : scanProcessSubstitutionToken kind text start = .ok (token, rest)) : WholeToken token := by
  unfold scanProcessSubstitutionToken at h
  split at h
  · next c text =>
    obtain ⟨b₁, hb₁, h⟩ := bind_ok.mp h
    obtain ⟨⟨s, t⟩, hrun, h⟩ := map_ok.mp h
    cases h
    refine Scanner.run_leads processScanner (fun _ hend => by cases hend) processStep_leads hrun
      ⟨?_, Nat.one_ne_zero⟩
    show b₁.mode = .bare
    rw [Buffers.pushRaw_mode hb₁]
    refine behind_bare fun d hd => ?_
    unfold startsProcessSubstitution at hstart
    split at hstart
    · next heq =>
      cases heq
      have hplain : ∀ d ∈ ['<', '('], d ≠ '\\' ∧ d ≠ '\'' ∧ d ≠ '"' :=
        all_iff_forall_prop.mp (by decide)
      exact hplain d hd
    · next heq =>
      cases heq
      have hplain : ∀ d ∈ ['>', '('], d ≠ '\\' ∧ d ≠ '\'' ∧ d ≠ '"' :=
        all_iff_forall_prop.mp (by decide)
      exact hplain d hd
    · cases hstart
  · cases h

theorem matchFdRedirectionToken_plain {length : Nat}
    (h : matchFdRedirectionToken text = some (kind, length)) :
    ∀ c ∈ text.take length, isdigit c = true ∨ c = '<' ∨ c = '>' ∨ c = '&' := by
  have htake : ∀ n, ∀ c ∈ text.take ((text.takeWhile isdigit).length + n),
      isdigit c = true ∨ c ∈ (text.dropWhile isdigit).take n := by
    intro n c hc
    have hsplit : text.take ((text.takeWhile isdigit).length + n) =
        text.takeWhile isdigit ++ (text.dropWhile isdigit).take n := by
      have hcat : text.takeWhile isdigit ++ text.dropWhile isdigit = text :=
        takeWhile_append_dropWhile
      exact (congrArg (List.take _) hcat.symm).trans (take_length_add_append _)
    rw [hsplit] at hc
    rcases mem_append.mp hc with hc | hc
    · exact .inl (mem_takeWhile_imp hc)
    · exact .inr hc
  unfold matchFdRedirectionToken at h
  split at h
  · cases h
  split at h
  · dsimp only at h
    split at h <;> cases h
    all_goals
      next hrest =>
        intro c hc
        have hmem := htake _ c hc
        rw [hrest] at hmem
        simp at hmem
        tauto
  · cases h

theorem scansTokens_whole : ScansTokens WholeToken where
  eof _ := rfl
  word h := scanWordToken_whole h
  process _ hstart h := scanProcessSubstitutionToken_whole hstart h
  operator := by
    intro op hop i
    show SourceMode.bare.behind op.lexeme = .bare
    revert op
    decide
  descriptor := by
    intro kind length text fdText i hm htext
    show SourceMode.bare.behind fdText.1 = .bare
    rw [htext]
    refine behind_bare fun c hc => ?_
    have hplain := matchFdRedirectionToken_plain hm c hc
    refine ⟨?_, ?_, ?_⟩
    · rintro rfl; exact absurd hplain (by decide)
    · rintro rfl; exact absurd hplain (by decide)
    · rintro rfl; exact absurd hplain (by decide)

theorem lexLine_whole (h : arkshLexLine line = .ok stream) :
    ∀ token ∈ stream.tokens, WholeToken token :=
  scansTokens_whole.lexLine h

theorem scansTokens_pipe :
    ScansTokens fun token => token.kind = .shellPipe → token.raw.1 = ['|'] where
  eof _ hkind := by cases hkind
  word h hkind := by
    rw [(scanWordToken_took h).kind_eq] at hkind
    cases hkind
  process := by
    intro kind text start token rest hprocess _ h hkind
    rw [(scanProcessSubstitutionToken_took h).kind_eq] at hkind
    rw [hkind] at hprocess
    exact absurd hprocess (by decide)
  operator op hop i hkind := by
    have hall : ∀ op ∈ openBracket :: (bracketOperators ++ operators),
        op.kind = .shellPipe → op.lexeme = ['|'] := by decide
    exact hall op hop hkind
  descriptor := by
    intro kind length text fdText i hm _ hkind
    have hkind' : kind = .shellPipe := hkind
    rw [hkind'] at hm
    unfold matchFdRedirectionToken at hm
    split at hm
    · cases hm
    split at hm
    · dsimp only at hm
      split at hm <;> cases hm
    · cases hm

theorem lexLine_pipe (h : arkshLexLine line = .ok stream) :
    ∀ token ∈ stream.tokens, token.kind = .shellPipe → token.raw.1 = ['|'] :=
  scansTokens_pipe.lexLine h

end Whole

/-! ## 3. Pieces of a source -/

section Pieces

variable {mode : SourceMode} {front back text : Text}

theorem cutPipes_ne_nil (mode : SourceMode) (text : Text) : cutPipes mode text ≠ [] := by
  induction text generalizing mode with
  | nil => exact cons_ne_nil _ _
  | cons c text ih =>
    rw [cutPipes]
    split
    · exact cons_ne_nil _ _
    · rw [ne_eq, modifyHead_eq_nil_iff]; exact ih _

theorem cutPipes_append (h : cutPipes mode front = [front]) :
    cutPipes mode (front ++ back) = (cutPipes (mode.behind front) back).modifyHead (front ++ ·) := by
  induction front generalizing mode with
  | nil => show cutPipes mode back = (cutPipes mode back).modifyHead id; rw [modifyHead_id, id]
  | cons c front ih =>
    rw [cutPipes] at h
    split at h
    · cases (cons.inj h).1
    next hpipe =>
    have hfront : cutPipes (mode.next c) front = [front] := by
      obtain ⟨piece, pieces, hcut⟩ := exists_cons_of_ne_nil (cutPipes_ne_nil (mode.next c) front)
      rw [hcut, modifyHead_cons] at h
      obtain ⟨hpiece, hpieces⟩ := cons.inj h
      rw [hcut, hpieces, (cons.inj hpiece).2]
    rw [cons_append, cutPipes, if_neg hpipe, ih hfront, modifyHead_modifyHead]
    rfl

theorem sourceChars_append (h : (mode.behind front).atEnd = []) : sourceChars mode (front ++ back) =
      sourceChars mode front ++ sourceChars (mode.behind front) back := by
  induction front generalizing mode with
  | nil =>
    show _ = mode.atEnd ++ _
    rw [show mode.atEnd = [] from h]
    rfl
  | cons c front ih =>
    show mode.chars c ++ sourceChars (mode.next c) (front ++ back) =
      (mode.chars c ++ sourceChars (mode.next c) front) ++ _
    rw [ih h, append_assoc]
    rfl

/-- **Without quotes a source reads as a pattern.** -/
theorem sourceChars_bare (h : ∀ t ∈ patternChars text, t.2 = false → t.1 ≠ '\'' ∧ t.1 ≠ '"') :
    sourceChars .bare text = patternChars text := by
  induction text using patternChars.induct with
  | case1 c text ih =>
    show (c, true) :: sourceChars .bare text = (c, true) :: patternChars text
    rw [ih fun t ht => h t (mem_cons_of_mem _ ht)]
  | case2 c text hescape ih =>
    have hchars : patternChars (c :: text) = (c, false) :: patternChars text := by
      rw [patternChars]
      exact hescape
    rw [hchars] at h ⊢
    obtain ⟨hsingle, hdouble⟩ := h _ mem_cons_self rfl
    by_cases hc : c = '\\'
    · subst hc
      cases text with
      | nil => rfl
      | cons d text => exact absurd rfl (hescape d text rfl)
    · rw [sourceChars, next_bare hc hsingle hdouble, SourceMode.chars,
        if_neg (by tauto), ih fun t ht => h t (mem_cons_of_mem _ ht)]
      rfl
  | case3 => rfl

/-- **Between single quotes everything is quoted.** -/
theorem sourceChars_single (h : '\'' ∉ text) :
    sourceChars .single text = text.map (·, true) ∧ SourceMode.single.behind text = .single := by
  induction text with
  | nil => exact ⟨rfl, rfl⟩
  | cons c text ih =>
    have hc : ¬ c = '\'' := fun heq => h (heq ▸ mem_cons_self)
    obtain ⟨hchars, hmode⟩ := ih fun hmem => h (mem_cons_of_mem _ hmem)
    have hnext : SourceMode.single.next c = .single := if_neg hc
    constructor
    · rw [sourceChars, hnext, hchars, SourceMode.chars, if_neg hc]; rfl
    · show (SourceMode.single.next c).behind text = _; rw [hnext, hmode]

/-- **Between double quotes too, and a backslash is a mark.** -/
theorem sourceChars_double (h : ∀ t ∈ patternChars text, t.2 = false → t.1 ≠ '"' ∧ t.1 ≠ '\\') :
    sourceChars .double text = (patternChars text).map (fun t => (t.1, true)) ∧
      SourceMode.double.behind text = .double := by
  induction text using patternChars.induct with
  | case1 c text ih =>
    obtain ⟨hchars, hmode⟩ := ih fun t ht => h t (mem_cons_of_mem _ ht)
    refine ⟨?_, hmode⟩
    show (c, true) :: sourceChars .double text = (c, true) :: (patternChars text).map _
    rw [hchars]
  | case2 c text hescape ih =>
    have hpattern : patternChars (c :: text) = (c, false) :: patternChars text := by
      rw [patternChars]
      exact hescape
    rw [hpattern] at h ⊢
    obtain ⟨hdouble, hbackslash⟩ := h _ mem_cons_self rfl
    obtain ⟨hchars, hmode⟩ := ih fun t ht => h t (mem_cons_of_mem _ ht)
    have hnext : SourceMode.double.next c = .double := by
      rw [SourceMode.next, if_neg hbackslash, if_neg hdouble]
    constructor
    · rw [sourceChars, hnext, hchars, SourceMode.chars, if_neg (by tauto)]; rfl
    · show (SourceMode.double.next c).behind text = _; rw [hnext, hmode]
  | case3 => exact ⟨rfl, rfl⟩

end Pieces

end Arksh
