/-
  Subject: `break`, `continue` and `return`: how many loops and functions they leave.

  `watchTransfers` is what they mean. It follows how loops and functions are nested in a run, and
  behind a `break n` it lets nothing happen but the ends of `min n` of the loops of the current
  function, behind a `continue n` the ends of one less and a further turn of the next, behind a
  `return` the ends of the loops of the current function and its own.

  The executors have one control signal with a count for all of this.
-/
import Arksh.Exec.Control

namespace Arksh

open CText Traces Traces.Trace List

variable {σ N I α : Type} {suppressed : Bool}

/-! ## 1. What the commands mean -/

inductive Frame where
  | loop | function
  deriving DecidableEq

/-- What is still to be left: some loops; one loop less, and then to go on; or the function. -/
inductive Transfer where
  | breaks (loops : Nat)
  | continues (loops : Nat)
  | returns

/-- How loops and functions are nested, from the innermost, and the transfer that is under way. -/
structure Nesting where
  frames : List Frame
  due : Option Transfer

def loopsOf : List Frame → Nat
  | .loop :: frames => loopsOf frames + 1
  | _ => 0

def loopTransfer (kind : ArkshControlSignalKind) (loops : Nat) : Option Transfer :=
  if loops = 0 then none
  else if kind = .breakSignal then some (.breaks loops) else some (.continues loops)

def endLoop : Option Transfer → Option (Option Transfer)
  | none => some none
  | some .returns => some (some .returns)
  | some (.breaks 1) => some none
  | some (.breaks (loops + 2)) => some (some (.breaks (loops + 1)))
  | some (.continues (loops + 2)) => some (some (.continues (loops + 1)))
  | some _ => none

mutual

def watchTransfers (m : Nesting) : Event → Option Nesting
  | .trap _ events => followTransfers m events
  | .line _ => if m.due.isNone then some m else none
  | .loopStart => if m.due.isNone then some ⟨.loop :: m.frames, none⟩ else none
  | .functionStart => if m.due.isNone then some ⟨.function :: m.frames, none⟩ else none
  | .turn =>
    match m with
    | ⟨.loop :: frames, none⟩ => some ⟨.loop :: frames, none⟩
    | ⟨.loop :: frames, some (.continues 1)⟩ => some ⟨.loop :: frames, none⟩
    | _ => none
  | .loopEnd =>
    match m with
    | ⟨.loop :: frames, due⟩ => (endLoop due).map fun due => ⟨frames, due⟩
    | _ => none
  | .functionEnd =>
    match m with
    | ⟨.function :: frames, none⟩ => some ⟨frames, none⟩
    | ⟨.function :: frames, some .returns⟩ => some ⟨frames, none⟩
    | _ => none
  | .loopControl kind count =>
    if m.due.isNone then some ⟨m.frames, loopTransfer kind (min count (loopsOf m.frames))⟩
    else none
  | .returns =>
    if m.due.isNone then some ⟨m.frames, if .function ∈ m.frames then some .returns else none⟩
    else none
  | .skipped => if m.due.isSome then some m else none
  | _ => some m

def followTransfers (m : Nesting) : List Event → Option Nesting
  | [] => some m
  | e :: es =>
    match watchTransfers m e with
    | some m' => followTransfers m' es
    | none => none

end

theorem follow_watchTransfers (m : Nesting) (es : List Event) :
    Monitor.follow watchTransfers m es = followTransfers m es := by
  induction es generalizing m with
  | nil =>
    rfl
  | cons e es ih =>
    rw [followTransfers]
    show (watchTransfers m e).bind _ = _
    cases watchTransfers m e with
    | none => rfl
    | some m' => exact ih m'

mutual

/-- A control command, or the end of a loop or function, that the one signal cannot follow. -/
def Event.goesAstray : Event → Bool
  | .misplaced => true
  | .abandoned => true
  | .interrupted => true
  | .late signalled => signalled
  | .trap _ events => goAstray events
  | _ => false

def goAstray : List Event → Bool
  | [] => false
  | e :: es => e.goesAstray || goAstray es

end

theorem goAstray_eq_false {es : List Event} (h : goAstray es = false) :
    ∀ e ∈ es, ¬ e.goesAstray = true := by
  induction es with
  | nil => exact fun e he => absurd he not_mem_nil
  | cons e es ih =>
    rw [goAstray, Bool.or_eq_false_iff] at h
    intro e' he'
    rcases mem_cons.mp he' with rfl | he'
    · rw [h.1]; decide
    · exact ih h.2 e' he'

/-! ## 2. What the signal says -/

def Encodes (loops : Nat) : Option Transfer → ArkshControlSignalKind → Nat → Prop
  | none, kind, _ => kind = .none
  | some (.breaks n), kind, levels => kind = .breakSignal ∧ levels = n ∧ 0 < n ∧ n ≤ loops
  | some (.continues n), kind, levels => kind = .continueSignal ∧ levels = n ∧ 0 < n ∧ n ≤ loops
  | some .returns, kind, _ => kind = .returnSignal

structure Tracks (k : Context) (m : Nesting) (sh : ArkshShell σ) : Prop where
  loops : k.loops ≤ loopsOf m.frames
  loopDepth : m.frames.count .loop ≤ sh.loopDepth
  functionDepth : sh.functionDepth = m.frames.count .function
  signal : Encodes k.loops m.due sh.controlSignal sh.controlLevels
  returns : m.due = some .returns → .function ∈ m.frames

abbrev SafeTransfers (k : Context) (m : Nesting) (sh : ArkshShell σ) (x : Exec σ α)
    (Q : α → Nesting → ArkshShell σ → Prop) : Prop :=
  Safe watchTransfers (fun e => e.goesAstray = true) k m sh x Q

def Follows (x : Exec σ α) : Prop :=
  ∀ k m (sh : ArkshShell σ), Tracks k m sh → m.due = none →
    SafeTransfers k m sh x fun _ m' sh' => m'.frames = m.frames ∧ Tracks k m' sh'

def AlwaysFollows (x : Exec σ α) : Prop :=
  ∀ k m (sh : ArkshShell σ), Tracks k m sh →
    SafeTransfers k m sh x fun _ m' sh' => m'.frames = m.frames ∧ Tracks k m' sh'

def CalmFollows (x : Exec σ α) : Prop :=
  ∀ k m (sh : ArkshShell σ), Tracks k m sh →
    SafeTransfers k m sh x fun _ m' sh' => m' = m ∧ Tracks k m sh'

namespace Tracks

variable {k : Context} {m : Nesting} {sh sh' : ArkshShell σ}

section

variable (h : Tracks k m sh)
include h

theorem of_control (hc : sh'.control = sh.control) : Tracks k m sh' := by
  obtain ⟨hsignal, hrest⟩ := Prod.mk.inj hc
  obtain ⟨hlevels, hdepths⟩ := Prod.mk.inj hrest
  have hloop : sh'.loopDepth = sh.loopDepth := congrArg Depths.loop hdepths
  have hfunction : sh'.functionDepth = sh.functionDepth := congrArg Depths.function hdepths
  refine ⟨h.loops, ?_, hfunction.trans h.functionDepth, ?_, h.returns⟩
  · rw [hloop]; exact h.loopDepth
  · rw [hsignal, hlevels]; exact h.signal

theorem due_none (hs : sh.controlSignal = .none) : m.due = none := by
  have henc := h.signal
  rw [hs] at henc
  cases hd : m.due with
  | none => rfl
  | some t =>
    rw [hd] at henc
    cases t with
    | returns => cases henc
    | breaks n | continues n => cases henc.1

theorem signal_none (hd : m.due = none) : sh.controlSignal = .none := by
  have henc := h.signal
  rw [hd] at henc
  exact henc

theorem reportSkipped (k' : Context) :
    SafeTransfers k' m sh reportSkipped fun _ m' sh' => m' = m ∧ sh' = sh := by
  refine safe_bind (safe_getState (safe_tellIf (fun hsignal _ => ?_) fun _ => ⟨rfl, rfl⟩))
  refine ⟨m, ?_, rfl, rfl⟩
  rw [watchTransfers]
  cases hdue : m.due with
  | none => exact absurd (h.signal_none hdue) hsignal
  | some t => rfl

end

end Tracks

variable {x y : Exec σ α} {e : Event} {exec : Text → Exec σ (Int × Text)}

namespace AlwaysFollows

variable {β : Type}

theorem pure (a : α) : AlwaysFollows (Pure.pure a : Exec σ α) := fun _ _ _ h => safe_pure ⟨rfl, h⟩

theorem bind {f : α → Exec σ β} (hx : AlwaysFollows x) (hf : ∀ a, AlwaysFollows (f a)) :
    AlwaysFollows (x >>= f) := by
  intro k m sh h
  refine safe_bind ((hx k m sh h).mono ?_)
  intro a m₁ sh₁ ⟨hm₁, h₁⟩
  refine (hf a k m₁ sh₁ h₁).mono ?_
  intro b m₂ sh₂ ⟨hm₂, h₂⟩
  exact ⟨hm₂.trans hm₁, h₂⟩

theorem getState : AlwaysFollows (Trace.getState : Exec σ (ArkshShell σ)) :=
  fun _ _ _ h => safe_getState ⟨rfl, h⟩

theorem getContext : AlwaysFollows (Trace.getContext : Exec σ Context) :=
  fun _ _ _ h => safe_getContext ⟨rfl, h⟩

theorem modify {g : ArkshShell σ → ArkshShell σ} (hg : ∀ sh, (g sh).control = sh.control) :
    AlwaysFollows (modifyState g) :=
  fun _ _ sh h => safe_modifyState ⟨rfl, h.of_control (hg sh)⟩

theorem tell (he : ∀ m, watchTransfers m e = some m) : AlwaysFollows (Trace.tell e : Exec σ Unit) :=
  fun _ m _ h => safe_tell fun _ => ⟨m, he m, rfl, h⟩

theorem tellIf {c : Prop} [Decidable c] (he : ∀ m, watchTransfers m e = some m) :
    AlwaysFollows (Trace.tellIf c e : Exec σ Unit) :=
  holds_ite (tell he) (pure ())

theorem giveUp (status : Int) (out : Text) :
    AlwaysFollows (Arksh.giveUp status out : Exec σ (Int × Text)) :=
  (tell fun _ => rfl).bind fun _ => pure _

theorem reportSkipped : AlwaysFollows (Arksh.reportSkipped : Exec σ Unit) := by
  intro k m sh h
  refine (h.reportSkipped k).mono ?_
  intro _ m' sh' hsame
  rw [hsame.1, hsame.2]
  exact ⟨rfl, h⟩

theorem executeTrap (kind : ArkshTrapKind) (command : Text) (hexec : Follows (exec command)) :
    AlwaysFollows (Arksh.executeTrap exec kind command) := by
  intro k m sh h
  refine safe_bind (safe_bind (safe_getState (safe_tellIf (fun _ hok => absurd rfl hok) ?_)))
  intro hs
  have hdue := h.due_none (not_not.mp hs)
  refine safe_bind (safe_enclose ?_ ?_ (hexec k m sh h hdue))
  · intro inner hok
    refine goAstray_eq_false ((Bool.not_eq_true _).mp ?_)
    exact hok
  · intro inner m₂ _ hm₂
    refine ⟨m₂, ?_, fun _ _ h₂ => safe_pure h₂⟩
    rw [watchTransfers, ← follow_watchTransfers]
    exact hm₂

theorem failLine (status : Int) (own : Bool) (hexec : ∀ text, Follows (exec text)) :
    AlwaysFollows (Arksh.failLine exec status own) := by
  have hreport {e : Event} (he : ∀ m, watchTransfers m e = some m) :
      AlwaysFollows (reportFailure e : Exec σ Unit) :=
    getContext.bind fun _ => holds_ite (pure ()) (tell he)
  have hset (active : Bool) : AlwaysFollows (modifyState (setErrTrap active) : Exec σ Unit) :=
    modify fun _ => rfl
  refine holds_ite (pure ()) (getState.bind fun sh => (hreport fun _ => rfl).bind fun _ => ?_)
  refine holds_ite (bind ?_ fun _ => ?_) (hreport fun _ => rfl)
  · refine getState.bind fun sh => ?_
    split
    · exact (hset false).bind fun _ => (executeTrap _ _ (hexec _)).bind fun _ => hset true
    · exact pure ()
  · refine getState.bind fun sh => (hreport fun _ => rfl).bind fun _ => ?_
    refine (tellIf fun _ => rfl).bind fun _ => holds_ite (modify fun _ => rfl) (pure ())

end AlwaysFollows

/-! ## 3. Loops -/

variable {frames : List Frame} {sh : ArkshShell σ}

def AtHead (k : Context) (frames : List Frame) (m : Nesting) (sh : ArkshShell σ) : Prop :=
  m.frames = .loop :: frames ∧ (m.due = none ∨ m.due = some (.continues 1)) ∧
    Tracks k.body ⟨.loop :: frames, none⟩ sh

def AtEnd (k : Context) (frames : List Frame) (m : Nesting) (sh : ArkshShell σ) : Prop :=
  ∃ due, m.frames = .loop :: frames ∧ endLoop m.due = some due ∧
    Tracks k ⟨frames, due⟩ { sh with loopDepth := sh.loopDepth - 1 }

variable {k : Context}

theorem Tracks.leaveLoop {due due' : Option Transfer} {sh sh' : ArkshShell σ}
    (h : Tracks k.body ⟨.loop :: frames, due⟩ sh) (hdepths : sh'.depths = sh.depths)
    (hsignal : Encodes k.loops due' sh'.controlSignal sh'.controlLevels)
    (hreturns : due' = some .returns → due = some .returns) :
    Tracks k ⟨frames, due'⟩ { sh' with loopDepth := sh'.loopDepth - 1 } := by
  have hloop : sh'.loopDepth = sh.loopDepth := congrArg Depths.loop hdepths
  have hfunction : sh'.functionDepth = sh.functionDepth := congrArg Depths.function hdepths
  refine ⟨Nat.le_of_succ_le_succ h.loops, ?_, ?_, hsignal, ?_⟩
  · have hcount := h.loopDepth
    rw [count_cons_self] at hcount
    show frames.count .loop ≤ sh'.loopDepth - 1
    omega
  · show sh'.functionDepth = frames.count .function
    rw [hfunction, h.functionDepth]
    exact count_cons_of_ne (by decide)
  · intro hdue
    rcases mem_cons.mp (h.returns (hreturns hdue)) with hf | hf
    · cases hf
    · exact hf

variable {m : Nesting}

theorem AtEnd.of_tracks (hframes : m.frames = .loop :: frames)
    (hdue : m.due = none ∨ m.due = some .returns) (h : Tracks k.body ⟨.loop :: frames, m.due⟩ sh) :
    AtEnd k frames m sh := by
  rcases hdue with hdue | hdue
  · rw [hdue] at h
    refine ⟨none, hframes, ?_, h.leaveLoop rfl (h.signal_none rfl) fun h => nomatch h⟩
    rw [hdue]
    rfl
  · rw [hdue] at h
    refine ⟨some .returns, hframes, ?_, h.leaveLoop rfl h.signal id⟩
    rw [hdue]
    rfl

theorem resolveLoopControl_tracks {due : Option Transfer}
    (h : Tracks k.body ⟨.loop :: frames, due⟩ sh) :
    match (resolveLoopControl sh).1 with
    | .none | .continueLoop => AtHead k frames ⟨.loop :: frames, due⟩ (resolveLoopControl sh).2
    | .breakLoop | .propagate => AtEnd k frames ⟨.loop :: frames, due⟩ (resolveLoopControl sh).2 := by
  have hsignal := h.signal
  cases due with
  | none =>
    unfold resolveLoopControl
    rw [show sh.controlSignal = .none from hsignal]
    exact ⟨rfl, Or.inl rfl, h⟩
  | some t =>
    cases t with
    | returns =>
      unfold resolveLoopControl
      rw [show sh.controlSignal = .returnSignal from hsignal]
      exact ⟨some .returns, rfl, rfl, h.leaveLoop rfl hsignal id⟩
    | breaks n =>
      obtain ⟨hkind, hlevels, hpos, hle⟩ := hsignal
      unfold resolveLoopControl
      rw [hkind, hlevels]
      match n, hle with
      | 1, _ => exact ⟨none, rfl, rfl, h.leaveLoop rfl rfl fun h => nomatch h⟩
      | n + 2, hle =>
        refine ⟨some (.breaks (n + 1)), rfl, rfl, h.leaveLoop rfl ?_ fun h => nomatch h⟩
        exact ⟨rfl, rfl, Nat.succ_pos _, Nat.le_of_succ_le_succ hle⟩
    | continues n =>
      obtain ⟨hkind, hlevels, hpos, hle⟩ := hsignal
      unfold resolveLoopControl
      rw [hkind, hlevels]
      match n, hle with
      | 1, _ =>
        refine ⟨rfl, Or.inr rfl, h.loops, h.loopDepth, h.functionDepth, rfl, fun h => nomatch h⟩
      | n + 2, hle =>
        refine ⟨some (.continues (n + 1)), rfl, rfl, h.leaveLoop rfl ?_ fun h => nomatch h⟩
        exact ⟨rfl, rfl, Nat.succ_pos _, Nat.le_of_succ_le_succ hle⟩

section Loops

variable {frames : List Frame} {k : Context} {m : Nesting} {sh : ArkshShell σ}

section

variable (h : AtEnd k frames m sh)
include h

theorem AtEnd.loopEnd :
    ∃ due, watchTransfers m .loopEnd = some ⟨frames, due⟩ ∧
      Tracks k ⟨frames, due⟩ { sh with loopDepth := sh.loopDepth - 1 } := by
  obtain ⟨due, hframes, hend, htracks⟩ := h
  refine ⟨due, ?_, htracks⟩
  obtain ⟨_, old⟩ := m
  cases hframes
  rw [watchTransfers, hend]
  rfl

theorem AtEnd.leave (hy : AlwaysFollows y) :
    SafeTransfers k m sh (leaveLoop >>= fun _ => y) fun _ m' sh' =>
      m'.frames = frames ∧ Tracks k m' sh' := by
  obtain ⟨due, hwatch, htracks⟩ := h.loopEnd
  refine safe_bind (safe_bind (safe_modifyState (safe_tell fun _ => ?_)))
  exact ⟨⟨frames, due⟩, hwatch, hy k _ _ htracks⟩

theorem AtEnd.leaveOpen (he : ∀ m, watchTransfers m e = some m) (hy : AlwaysFollows y) :
    SafeTransfers k m sh (Trace.tell e >>= fun _ => Trace.tell .loopEnd >>= fun _ => y)
      fun _ m' sh' => m'.frames = frames ∧ Tracks k m' sh' := by
  obtain ⟨due, hwatch, htracks⟩ := h.loopEnd
  refine safe_bind (safe_tell fun _ => ⟨m, he m, safe_bind (safe_tell fun _ => ?_)⟩)
  refine ⟨⟨frames, due⟩, hwatch, hy k _ _ ⟨htracks.loops, ?_, ?_, ?_, htracks.returns⟩⟩
  · exact htracks.loopDepth.trans (Nat.sub_le _ _)
  · exact htracks.functionDepth
  · exact htracks.signal

end

theorem AtHead.turn (h : AtHead k frames m sh) {Q : α → Nesting → ArkshShell σ → Prop}
    (hy : Tracks k.body ⟨.loop :: frames, none⟩ sh → SafeTransfers k ⟨.loop :: frames, none⟩ sh y Q) :
    SafeTransfers k m sh (Trace.tell .turn >>= fun _ => y) Q := by
  obtain ⟨hframes, hdue, htracks⟩ := h
  refine safe_bind (safe_tell fun _ => ⟨⟨.loop :: frames, none⟩, ?_, hy htracks⟩)
  obtain ⟨_, due⟩ := m
  cases hframes
  rcases hdue with hdue | hdue
  · cases hdue; rw [watchTransfers]
  · cases hdue; rw [watchTransfers]

theorem Tracks.due_of_loops (h : Tracks k m sh) (hk : k.loops = 0) :
    m.due = none ∨ m.due = some .returns := by
  have hsignal := h.signal
  cases hdue : m.due with
  | none => exact Or.inl rfl
  | some t =>
    rw [hdue, hk] at hsignal
    cases t with
    | returns => exact Or.inr rfl
    | breaks n | continues n => exact absurd hsignal.2.2.1 (Nat.not_lt.mpr hsignal.2.2.2)

theorem Tracks.of_due (h : Tracks k m sh) (hdue : m.due = none ∨ m.due = some .returns)
    {k' : Context} (hk' : k'.loops ≤ loopsOf m.frames) : Tracks k' m sh := by
  refine ⟨hk', h.loopDepth, h.functionDepth, ?_, h.returns⟩
  have hsignal := h.signal
  rcases hdue with hdue | hdue
  · rw [hdue] at hsignal ⊢; exact hsignal
  · rw [hdue] at hsignal ⊢; exact hsignal

theorem Follows.enclosed (hx : Follows x) {g : Context → Context} (h : Tracks (g k) m sh)
    (hdue : m.due = none) :
    SafeTransfers k m sh (enclosedCondition g x) fun _ m' sh' =>
      m'.frames = m.frames ∧ Tracks (g k) m' sh' := by
  have hraised : Tracks (g k) m { sh with inCondition := sh.inCondition + 1 } :=
    ⟨h.loops, h.loopDepth, h.functionDepth, h.signal, h.returns⟩
  refine safe_bind (safe_modifyState (safe_bind ((safe_within (hx _ _ _ hraised hdue)).mono ?_)))
  intro a m₁ sh₁ ⟨hm₁, h₁⟩
  refine safe_bind (safe_modifyState (safe_pure ⟨hm₁, ?_⟩))
  exact ⟨h₁.loops, h₁.loopDepth, h₁.functionDepth, h₁.signal, h₁.returns⟩

/-- The computation goes on behind the head of a loop. -/
def HeadFollows (x : Exec σ α) : Prop :=
  ∀ k frames m (sh : ArkshShell σ), AtHead k frames m sh →
    SafeTransfers k m sh x fun _ m' sh' => m'.frames = frames ∧ Tracks k m' sh'

/-- Or behind its last turn. -/
def EndFollows (x : Exec σ α) : Prop :=
  ∀ k frames m (sh : ArkshShell σ), AtEnd k frames m sh →
    SafeTransfers k m sh x fun _ m' sh' => m'.frames = frames ∧ Tracks k m' sh'

theorem AlwaysFollows.leave (hx : AlwaysFollows x) :
    EndFollows (leaveLoop >>= fun _ => x) := fun _ _ _ _ h => h.leave hx

variable {W : World σ N I} {exec : Text → Exec σ (Int × Text)}
  (hexec : ∀ text, Follows (exec text))

include hexec

theorem executeBody_follows {f : Option (ArkshLoopControlAction × Int × Text) → Exec σ α}
    (hfail : EndFollows (f none))
    (hbreak : ∀ status out, EndFollows (f (some (.breakLoop, status, out))))
    (hcontinue : ∀ status out, HeadFollows (f (some (.continueLoop, status, out))))
    (hpropagate : ∀ status out, EndFollows (f (some (.propagate, status, out))))
    (hnone : ∀ status out, HeadFollows (f (some (.none, status, out))))
    (out body : Text) (h : Tracks k.body ⟨.loop :: frames, none⟩ sh) :
    SafeTransfers k ⟨.loop :: frames, none⟩ sh (executeBody exec out body >>= f)
      fun _ m' sh' => m'.frames = frames ∧ Tracks k m' sh' := by
  refine safe_bind (safe_bind ((safe_within (hexec body _ _ sh h rfl)).mono ?_))
  intro ⟨status, segment⟩ ⟨frames₁, due⟩ sh₁ ⟨hframes, h₁⟩
  cases hframes
  refine safe_bind ((h₁.reportSkipped k).mono ?_)
  intro _ m₂ sh₂ ⟨hm₂, hsh₂⟩
  rw [hm₂, hsh₂]
  refine safe_bind (safe_getState ?_)
  split
  · refine safe_bind (safe_tellIf (fun _ hok => absurd rfl hok) fun hsignal => safe_pure ?_)
    refine hfail _ _ _ _ (AtEnd.of_tracks rfl ?_ h₁)
    have hencodes := h₁.signal
    cases due with
    | none => exact Or.inl rfl
    | some t =>
      cases t with
      | returns => exact Or.inr rfl
      | breaks n => exact absurd (Or.inl hencodes.1) hsignal
      | continues n => exact absurd (Or.inr hencodes.1) hsignal
  refine safe_bind (safe_modifyState (safe_pure ?_))
  have hresolve := resolveLoopControl_tracks h₁
  cases haction : (resolveLoopControl sh₁).1 with
  | none => rw [haction] at hresolve; exact hnone _ _ _ _ _ _ hresolve
  | continueLoop => rw [haction] at hresolve; exact hcontinue _ _ _ _ _ _ hresolve
  | breakLoop => rw [haction] at hresolve; exact hbreak _ _ _ _ _ _ hresolve
  | propagate => rw [haction] at hresolve; exact hpropagate _ _ _ _ _ _ hresolve

theorem executeLoop_follows {condition : Text}
    (hcondition : Follows (evaluateConditionStatus W exec condition)) (stopsOn : Bool)
    (body : Text) (turns : Nat) (status : Int) (out : Text) :
    HeadFollows (executeLoop W exec stopsOn condition body turns status out) := by
  induction turns generalizing status out with
  | zero => exact fun _ _ _ _ _ => safe_cut
  | succ turns ih =>
    intro k frames m sh hhead
    refine hhead.turn fun h => safe_bind (safe_getState ?_)
    have hnow := AtEnd.of_tracks (m := ⟨.loop :: frames, none⟩) rfl (Or.inl rfl) h
    refine safe_ite (fun _ => hnow.leave (AlwaysFollows.pure _)) fun hrunning => ?_
    refine safe_bind ((hcondition.enclosed (h.of_due (Or.inl rfl) (Nat.zero_le _)) rfl).mono ?_)
    intro result m₁ sh₁ henclosed
    obtain ⟨frames₁, due⟩ := m₁
    obtain ⟨hframes, h₁⟩ := henclosed
    cases hframes
    -- a condition is in no loop, so that only a `return` can be under way
    have hdue := h₁.due_of_loops rfl
    have hbody : Tracks k.body _ sh₁ := h₁.of_due hdue h.loops
    have hend := AtEnd.of_tracks rfl hdue hbody
    split
    · exact hend.leave (AlwaysFollows.giveUp _ _)
    split
    · exact hend.leaveOpen (fun _ => rfl) (AlwaysFollows.giveUp _ _)
    refine safe_bind (safe_getState (safe_ite (fun _ => ?_) fun hready => ?_))
    · refine safe_bind ((h₁.reportSkipped k).mono ?_)
      intro _ m₂ sh₂ hskipped
      rw [hskipped.1, hskipped.2]
      exact hend.leave (AlwaysFollows.giveUp _ _)
    refine safe_ite (fun _ => hend.leave (AlwaysFollows.pure _)) fun _ => ?_
    cases hbody.due_none (ready_signal (not_not.mp hready))
    exact executeBody_follows hexec (AlwaysFollows.giveUp _ _).leave
      (fun _ _ => (AlwaysFollows.pure _).leave) (fun _ _ => ih _ _)
      (fun _ _ => (AlwaysFollows.pure _).leave) (fun _ _ => ih _ _) _ _ hbody

theorem executeForItems_follows (name body : Text) (items : List I) (status : Int) (out : Text) :
    HeadFollows (executeForItems W exec name body items status out) := by
  induction items generalizing status out with
  | nil =>
    intro k frames m sh hhead
    refine hhead.turn fun h => ?_
    exact (AtEnd.of_tracks rfl (Or.inl rfl) h).leave (AlwaysFollows.pure _)
  | cons item items ih =>
    intro k frames m sh hhead
    refine hhead.turn fun h => safe_bind (safe_getState ?_)
    have hend (sh' : ArkshShell σ) (hc : sh'.control = sh.control) :
        AtEnd k frames ⟨.loop :: frames, none⟩ sh' :=
      AtEnd.of_tracks rfl (Or.inl rfl) (h.of_control hc)
    refine safe_ite (fun _ => (hend _ rfl).leave (AlwaysFollows.pure _)) fun _ => ?_
    refine safe_bind (safe_bind (safe_getState (safe_bind (safe_modifyState (safe_pure ?_)))))
    refine safe_ite (fun _ => ?_) fun _ => safe_ite (fun _ => ?_) fun _ => ?_
    · refine AtEnd.leave ?_ (AlwaysFollows.giveUp _ _); exact hend _ rfl
    · refine AtEnd.leaveOpen ?_ (fun _ => rfl) (AlwaysFollows.giveUp _ _); exact hend _ rfl
    split
    · refine safe_bind (safe_modifyState (AtEnd.leave ?_ (AlwaysFollows.giveUp _ _)))
      exact hend _ rfl
    refine safe_bind (safe_modifyState ?_)
    exact executeBody_follows hexec (AlwaysFollows.giveUp _ _).leave
      (fun _ _ => (AlwaysFollows.pure _).leave) (fun _ _ => ih _ _)
      (fun _ _ => (AlwaysFollows.pure _).leave) (fun _ _ => ih _ _) _ _ (h.of_control rfl)

theorem executeForSingle_follows (name body : Text) (item : I) :
    HeadFollows (executeForSingle W exec name body item) := by
  intro k frames m sh hhead
  refine hhead.turn fun h => safe_bind (safe_getState ?_)
  split
  · refine safe_bind (safe_modifyState (AtEnd.leave ?_ (AlwaysFollows.giveUp _ _)))
    exact AtEnd.of_tracks rfl (Or.inl rfl) (h.of_control rfl)
  refine safe_bind (safe_modifyState ?_)
  have hturn (result : Int × Text) : HeadFollows (Trace.tell .turn >>= fun _ =>
      leaveLoop >>= fun _ => (pure result : Exec σ (Int × Text))) := fun _ _ _ _ h' =>
    h'.turn fun h => (AtEnd.of_tracks rfl (Or.inl rfl) h).leave (AlwaysFollows.pure _)
  exact executeBody_follows hexec (AlwaysFollows.giveUp _ _).leave
    (fun _ _ => (AlwaysFollows.pure _).leave) (fun _ _ => hturn _)
    (fun _ _ => (AlwaysFollows.pure _).leave) (fun _ _ => hturn _) _ _ (h.of_control rfl)

end Loops

theorem enterLoop_follows
    (hx : ∀ k frames (sh : ArkshShell σ), Tracks k.body ⟨.loop :: frames, none⟩ sh →
      SafeTransfers k ⟨.loop :: frames, none⟩ sh x fun _ m' sh' =>
        m'.frames = frames ∧ Tracks k m' sh') : Follows (enterLoop >>= fun _ => x) := by
  intro k ⟨frames, due⟩ sh h hdue
  cases hdue
  refine safe_bind (safe_bind (safe_modifyState (safe_tell fun _ => ?_)))
  refine ⟨⟨.loop :: frames, none⟩, rfl, hx k frames _ ?_⟩
  refine ⟨Nat.succ_le_succ h.loops, ?_, ?_, h.signal, fun h => nomatch h⟩
  · rw [count_cons_self]; exact Nat.succ_le_succ h.loopDepth
  · rw [count_cons_of_ne (by decide)]; exact h.functionDepth

theorem HeadFollows.loop (hx : HeadFollows x) : Follows (enterLoop >>= fun _ => x) :=
  enterLoop_follows fun k frames sh h => hx k frames _ sh ⟨rfl, Or.inl rfl, h⟩

/-! ## 4. Functions and commands -/

variable {exec : Text → Exec σ (Int × Text)}

theorem leaveFunction_follows (hframes : m.frames = .function :: frames)
    (h : Tracks k.function m sh) (hk : k.loops ≤ loopsOf frames) (status : Int) :
    SafeTransfers k m sh (leaveFunction status) fun _ m' sh' =>
      m' = ⟨frames, none⟩ ∧ Tracks k m' sh' := by
  obtain ⟨_, due⟩ := m
  cases hframes
  have hdue := h.due_of_loops rfl
  have hwatch : watchTransfers ⟨.function :: frames, due⟩ .functionEnd = some ⟨frames, none⟩ := by
    rcases hdue with hdue | hdue
    · cases hdue; rw [watchTransfers]
    · cases hdue; rw [watchTransfers]
  have hleft {sh' : ArkshShell σ} (hsignal : sh'.controlSignal = .none)
      (hloop : sh'.loopDepth = sh.loopDepth) (hfunction : sh'.functionDepth = sh.functionDepth - 1) :
      Tracks k ⟨frames, none⟩ sh' := by
    refine ⟨hk, ?_, ?_, hsignal, fun h => nomatch h⟩
    · rw [hloop]
      have hcount := h.loopDepth
      exact hcount
    · rw [hfunction, h.functionDepth, count_cons_self]; rfl
  refine safe_bind (safe_modifyState (safe_bind (safe_bind (safe_getState (safe_bind ?_)))))
  refine safe_tellIf (fun _ hok => absurd rfl hok) fun hstatus => ?_
  refine safe_ite (fun hreturn => ?_) fun hreturn => ?_
  · refine safe_modifyState (safe_tell fun _ => ⟨_, hwatch, rfl, ?_⟩); exact hleft rfl rfl rfl
  · refine safe_pure (safe_tell fun _ => ⟨_, hwatch, rfl, hleft ?_ rfl rfl⟩)
    have hsignal := h.signal
    rcases hdue with hdue | hdue
    · cases hdue; exact hsignal
    · cases hdue
      by_cases hzero : status = 0
      · exact absurd ⟨hzero, hsignal⟩ hreturn
      · exact absurd ⟨hzero, hsignal⟩ hstatus

theorem executeFunctionBody_follows (body : Text) (hexec : ∀ text, Follows (exec text)) :
    Follows (executeFunctionBody exec body) := by
  intro k ⟨frames, due⟩ sh h hdue
  cases hdue
  have hentered {sh' : ArkshShell σ} (hsignal : sh'.controlSignal = sh.controlSignal)
      (hloop : sh'.loopDepth = sh.loopDepth) (hfunction : sh'.functionDepth = sh.functionDepth + 1) :
      Tracks k.function ⟨.function :: frames, none⟩ sh' := by
    refine ⟨Nat.zero_le _, ?_, ?_, hsignal.trans h.signal, fun h => nomatch h⟩
    · rw [hloop, count_cons_of_ne (by decide)]; exact h.loopDepth
    · rw [hfunction, h.functionDepth, count_cons_self]
  have hbody (sh' : ArkshShell σ) (h' : Tracks k.function ⟨.function :: frames, none⟩ sh') :
      SafeTransfers k ⟨.function :: frames, none⟩ sh' (do
          let result ← within Context.function (exec body)
          leaveFunction result.1
          return result) fun _ m' sh' => m'.frames = frames ∧ Tracks k m' sh' := by
    refine safe_bind ((safe_within (hexec body _ _ sh' h' rfl)).mono ?_)
    intro result m₁ sh₁ ⟨hm₁, h₁⟩
    refine safe_bind ((leaveFunction_follows hm₁ h₁ h.loops _).mono ?_)
    intro _ m₂ sh₂ ⟨hm₂, h₂⟩
    refine safe_pure ⟨?_, h₂⟩
    rw [hm₂]
  refine safe_bind (safe_bind (safe_modifyState (safe_bind (safe_tell fun _ => ?_))))
  refine ⟨⟨.function :: frames, none⟩, rfl, safe_bind (safe_getState (safe_ite ?_ ?_))⟩
  · exact fun _ => safe_modifyState (hbody _ (hentered rfl rfl rfl))
  · exact fun _ => safe_tell fun _ => ⟨_, rfl, hbody _ (hentered rfl rfl rfl)⟩

theorem loopsOf_le_count (frames : List Frame) : loopsOf frames ≤ frames.count .loop := by
  induction frames with
  | nil => exact Nat.le_refl 0
  | cons frame frames ih =>
    cases frame with
    | loop => rw [count_cons_self]; exact Nat.succ_le_succ ih
    | function => exact Nat.zero_le _

theorem parsePositiveControlCount_pos {text : Text} {count : Nat}
    (h : parsePositiveControlCount text = some count) : 0 < count := by
  unfold parsePositiveControlCount at h
  split at h
  · cases h; exact Nat.one_pos
  · obtain ⟨hcount, h⟩ := Option.ite_none_right_eq_some.mp h
    cases h
    exact hcount.2.2.1

theorem handleLoopControlLine_follows (keyword : String) {kind : ArkshControlSignalKind}
    (hkind : kind = .breakSignal ∨ kind = .continueSignal) (line : Text) :
    Follows (handleLoopControlLine keyword kind line : Exec σ (Int × Text)) := by
  intro k ⟨frames, due⟩ sh h hdue
  cases hdue
  unfold handleLoopControlLine
  cases hparsed : parsePositiveControlCount (controlLineArgument keyword.toList line) with
  | none =>
    refine safe_bind (safe_pure (safe_bind (safe_getState (safe_ite (fun _ => ?_) fun _ => ?_))))
    · exact safe_pure ⟨rfl, h⟩
    · exact safe_pure ⟨rfl, h⟩
  | some count =>
    refine safe_bind (safe_tell fun _ => ⟨_, rfl, safe_bind (safe_getState ?_)⟩)
    refine safe_ite (fun hdepth => safe_pure ⟨rfl, ?_⟩) fun _ => ?_
    · have hzero : loopsOf frames = 0 := by
        have hcount := (loopsOf_le_count frames).trans h.loopDepth
        omega
      rw [hzero, Nat.min_zero]
      exact h
    refine safe_bind (safe_getContext (safe_bind ?_))
    refine safe_tellIf (fun _ hok => absurd rfl hok) fun hcount => ?_
    have hloops := (Nat.not_lt.mp hcount).trans h.loops
    have hpos := parsePositiveControlCount_pos hparsed
    refine safe_bind (safe_modifyState (safe_pure ⟨rfl, h.loops, h.loopDepth, h.functionDepth, ?_, ?_⟩))
    · rw [Nat.min_eq_left hloops]
      unfold loopTransfer
      rw [if_neg (Nat.ne_of_gt hpos)]
      rcases hkind with rfl | rfl <;> exact ⟨rfl, rfl, hpos, Nat.not_lt.mp hcount⟩
    · rw [Nat.min_eq_left hloops]
      unfold loopTransfer
      rw [if_neg (Nat.ne_of_gt hpos)]
      split <;> exact fun h => nomatch h

theorem Tracks.raiseReturn (h : Tracks k ⟨frames, none⟩ sh) (hdepth : sh.functionDepth ≠ 0) :
    Tracks k ⟨frames, if .function ∈ frames then some .returns else none⟩
      (raiseControlSignal .returnSignal 1 sh) := by
  have hmem : Frame.function ∈ frames := by
    refine count_pos_iff.mp (Nat.pos_of_ne_zero ?_)
    rw [← h.functionDepth]
    exact hdepth
  rw [if_pos hmem]
  exact ⟨h.loops, h.loopDepth, h.functionDepth, rfl, fun _ => hmem⟩

theorem handleReturnLine_follows {W : World σ N I} (line : Text)
    (htask : ∀ task : Task σ (Except Text Text), AlwaysFollows (runTask exec task)) :
    Follows (handleReturnLine W exec line) := by
  intro k ⟨frames, due⟩ sh h hdue
  cases hdue
  refine safe_bind (safe_getState (safe_ite (fun hdepth => ?_) fun hdepth => safe_ite ?_ ?_))
  · refine safe_bind (safe_tell fun _ => ⟨_, rfl, safe_pure ⟨rfl, ?_⟩⟩)
    have hmem : Frame.function ∉ frames := by rw [← count_eq_zero, ← h.functionDepth]; exact hdepth
    rw [if_neg hmem]
    exact h
  · intro _
    exact safe_bind (safe_tell fun _ => ⟨_, rfl, safe_bind (safe_modifyState (safe_pure
      ⟨rfl, h.raiseReturn hdepth⟩))⟩)
  · intro _
    refine safe_bind ((htask _ k _ sh h).mono ?_)
    intro value ⟨frames₁, due⟩ sh₁ ⟨hframes, h₁⟩
    cases hframes
    split
    · exact safe_pure ⟨rfl, h₁⟩
    refine safe_bind (safe_bind (safe_getState (safe_tellIf (fun _ hok => absurd rfl hok) ?_)))
    intro hsignal
    cases h₁.due_none (not_not.mp hsignal)
    have hdepth₁ : sh₁.functionDepth ≠ 0 := by
      rw [h₁.functionDepth, ← h.functionDepth]
      exact hdepth
    exact safe_bind (safe_tell fun _ => ⟨_, rfl, safe_bind (safe_modifyState (safe_pure
      ⟨rfl, h₁.raiseReturn hdepth₁⟩))⟩)

/-! ## 5. Every step follows -/

theorem Event.IsNote.watchTransfers (h : e.IsNote) (m : Nesting) :
    Arksh.watchTransfers m e = some m := by
  cases e <;> first | rfl | exact h.elim

theorem transferRules : @LineRules σ Follows AlwaysFollows CalmFollows where
  pure _ := fun _ _ _ h => safe_pure ⟨rfl, h⟩
  calm_any hx := fun k m sh h => (hx k m sh h).mono fun _ _ _ h' => by
    rw [h'.1]
    exact ⟨rfl, h'.2⟩
  any_run hx := fun k m sh h _ => hx k m sh h
  calm_calm hx hf := fun k m sh h => safe_bind ((hx k m sh h).mono fun a m₁ sh₁ h₁ => by
    rw [h₁.1]
    exact hf a k m sh₁ h₁.2)
  calm_bind hx hf := fun k m sh h hdue => safe_bind ((hx k m sh h).mono fun a m₁ sh₁ h₁ => by
    rw [h₁.1]
    exact hf a k m sh₁ h₁.2 hdue)
  run_bind hx hf := fun k m sh h hdue => safe_bind ((hx k m sh h hdue).mono fun a m₁ sh₁ h₁ =>
    (hf a k m₁ sh₁ h₁.2).mono fun _ _ _ h₂ => ⟨h₂.1.trans h₁.1, h₂.2⟩)
  any_bind := AlwaysFollows.bind
  getState := fun _ _ _ h => safe_getState ⟨rfl, h⟩
  getContext := fun _ _ _ h => safe_getContext ⟨rfl, h⟩
  modify hg := fun _ _ sh h => safe_modifyState ⟨rfl, h.of_control (hg sh).1⟩
  stop hg := AlwaysFollows.modify hg
  tell he := fun _ m _ h => safe_tell fun _ => ⟨m, he.watchTransfers m, rfl, h⟩
  unhandled := fun _ m _ h => safe_tellIf (fun _ _ => ⟨m, rfl, rfl, h⟩) fun _ => ⟨rfl, h⟩
  listen hx := fun k m sh h hdue => safe_listen ((hx k m sh h hdue).mono fun _ _ _ h' _ => h')
  skipped := AlwaysFollows.reportSkipped
  startLine hy := fun k m sh h hdue => by
    refine safe_bind (safe_bind (safe_getState (safe_tell fun _ => ⟨m, ?_, hy k m sh h hdue⟩)))
    rw [Arksh.watchTransfers, hdue]
    rfl
  late hy := fun k m sh h => by
    refine safe_bind (safe_bind (safe_getState (safe_tellIf (fun _ hok => ?_) fun hready => ?_)))
    · refine ⟨m, rfl, hy k m sh h (h.due_none ?_)⟩
      by_contra hsignal
      exact hok (decide_eq_true hsignal)
    · exact hy k m sh h (h.due_none (ready_signal (not_not.mp hready)))
  ifReady hf hg := fun k m sh h => safe_bind (safe_getState
    (safe_ite (fun hready => hf sh k m sh h (h.due_none (ready_signal hready)))
      fun _ => hg sh k m sh h))
  function := executeFunctionBody_follows
  tested hx := by
    intro k m sh h hdue
    refine safe_bind (safe_modifyState (safe_bind ((safe_within (hx _ _ _ ?_ hdue)).mono ?_)))
    · exact ⟨h.loops, h.loopDepth, h.functionDepth, h.signal, h.returns⟩
    intro _ m₁ sh₁ ⟨hm₁, h₁⟩
    refine safe_bind (safe_modifyState (safe_pure ⟨hm₁, ?_⟩))
    exact ⟨h₁.loops, h₁.loopDepth, h₁.functionDepth, h₁.signal, h₁.returns⟩
  condition hx := by
    intro k m sh h hdue
    refine (hx.enclosed ⟨h.loops, h.loopDepth, h.functionDepth, h.signal, h.returns⟩ hdue).mono ?_
    intro _ m₁ sh₁ ⟨hm₁, h₁⟩
    exact ⟨hm₁, h₁.loops, h₁.loopDepth, h₁.functionDepth, h₁.signal, h₁.returns⟩
  whileLoop stopsOn _ body turns hexec hcondition :=
    (executeLoop_follows hexec hcondition stopsOn body turns 0 []).loop
  forLoop name body iterable hexec := by
    cases iterable with
    | list items => exact (executeForItems_follows hexec name body items 0 []).loop
    | single item => exact (executeForSingle_follows hexec name body item).loop
    | empty =>
      refine enterLoop_follows fun k frames sh h => ?_
      exact (AtEnd.of_tracks rfl (Or.inl rfl) h).leave (AlwaysFollows.pure _)
  loopControl keyword kind line hkind := handleLoopControlLine_follows keyword hkind line
  returnLine line htask := handleReturnLine_follows line htask
  trap command _ hexec := AlwaysFollows.executeTrap _ command (hexec command)
  failure status own hexec := AlwaysFollows.failLine status own hexec
  cut := fun _ _ _ _ _ => safe_cut

/-! ## 6. Runs -/

def Nesting.outside : Nesting := ⟨[], none⟩

/-- The run does what its `break`, `continue` and `return` mean, and where it finishes it is
    outside again, and no control signal is left. -/
def LoopControlLaw (run : Run Event (ArkshShell σ) α) : Prop :=
  ∃ m, followTransfers .outside run.events = some m ∧
    ∀ a sh, run.result = some (a, sh) → m = .outside ∧ sh.controlSignal = .none

structure Outside (sh : ArkshShell σ) : Prop where
  signal : sh.controlSignal = .none
  functionDepth : sh.functionDepth = 0

theorem Outside.tracks (h : Outside sh) (suppressed : Bool) : Tracks ⟨0, suppressed⟩ .outside sh :=
  ⟨Nat.le_refl 0, Nat.zero_le _, h.functionDepth, h.signal, fun h => nomatch h⟩

theorem Tracks.outside (h : Tracks ⟨0, suppressed⟩ m sh) (hm : m.frames = []) :
    m = .outside ∧ Outside sh := by
  obtain ⟨_, due⟩ := m
  cases hm
  rcases h.due_of_loops rfl with hdue | hdue
  · cases hdue; exact ⟨rfl, h.signal, h.functionDepth⟩
  · exact absurd (h.returns hdue) not_mem_nil

theorem runRepl_outside (hexec : ∀ text, Follows (exec text)) (historyAdd : Text → σ → σ)
    (commands : List Text) (suppressed : Bool) (sh : ArkshShell σ) (h : Outside sh) :
    SafeTransfers ⟨0, suppressed⟩ .outside sh (runRepl exec historyAdd commands) fun _ m' sh' =>
      m' = .outside ∧ Outside sh' := by
  induction commands generalizing sh with
  | nil => exact safe_pure ⟨rfl, h⟩
  | cons command commands ih =>
    refine safe_bind (safe_getState (safe_ite (fun _ => ?_) fun _ => safe_pure ⟨rfl, h⟩))
    refine safe_bind (safe_modifyState (safe_bind ((hexec command _ _ _ ?_ rfl).mono ?_)))
    · exact (h.tracks suppressed).of_control rfl
    intro _ m₁ sh₁ ⟨hm₁, h₁⟩
    obtain ⟨hm₁, h₁⟩ := h₁.outside hm₁
    rw [hm₁]
    exact ih sh₁ h₁

theorem loopControlLaw_of_safe
    (h : SafeTransfers ⟨0, suppressed⟩ .outside sh x fun _ m' sh' => m' = .outside ∧ Outside sh')
    (hok : goAstray (x ⟨0, suppressed⟩ sh).events = false) :
    LoopControlLaw (x ⟨0, suppressed⟩ sh) := by
  obtain ⟨m, hm, hres⟩ := h (goAstray_eq_false hok)
  refine ⟨m, ?_, fun a sh' hr => ⟨(hres a sh' hr).1, (hres a sh' hr).2.signal⟩⟩
  rw [← follow_watchTransfers]
  exact hm

/-- **`break`, `continue` and `return` leave what they are to leave, and nothing is left of them
    outside, in every run in which each `break` or `continue` is in as many loops of its function as
    it counts, no loop or function gives up on it, and no action of a trap, further command of a
    file or further line of a command starts while one is under way.** -/
theorem loopControl_run (W : World σ N I) (n : Nat) (suppressed : Bool) (sh : ArkshShell σ)
    (h : Outside sh) : (∀ line, goAstray (executeLine W n line ⟨0, suppressed⟩ sh).events = false →
      LoopControlLaw (executeLine W n line ⟨0, suppressed⟩ sh)) ∧ ∀ historyAdd commands,
      goAstray (runRepl (executeLine W n) historyAdd commands ⟨0, suppressed⟩ sh).events = false →
      LoopControlLaw (runRepl (executeLine W n) historyAdd commands ⟨0, suppressed⟩ sh) := by
  have hline : ∀ line, Follows (executeLine W n line) := executeLine_holds transferRules W n
  constructor
  · intro line hok
    refine loopControlLaw_of_safe ((hline line _ _ sh (h.tracks suppressed) rfl).mono ?_) hok
    intro _ m₁ sh₁ ⟨hm₁, h₁⟩
    exact h₁.outside hm₁
  · intro historyAdd commands hok
    exact loopControlLaw_of_safe (runRepl_outside hline historyAdd commands suppressed sh h) hok

def loopWorld : World Unit String Unit :=
  tableWorld [("for i in a; do break; done", .forCommand "i".toList "a".toList "break".toList),
      ("for i in a; do break 2; done", .forCommand "i".toList "a".toList "break 2".toList)] []

/-- `for i in a; do break; done` -/
theorem loopControl_run_break :
    LoopControlLaw (executeLine loopWorld 3 "for i in a; do break; done".toList Context.top
      (freshShell ())) :=
  (loopControl_run loopWorld 3 false (freshShell ()) ⟨rfl, rfl⟩).1 _ (by decide)

/-- `for i in a; do break 2; done`: there is one loop only, and a signal is left behind it. -/
theorem not_loopControlLaw_break : ¬ ∀ (W : World Unit String Unit) n sh, Outside sh → ∀ line,
      LoopControlLaw (executeLine W n line Context.top sh) := by
  intro h
  obtain ⟨m, _, hend⟩ :=
    h loopWorld 3 (freshShell ()) ⟨rfl, rfl⟩ "for i in a; do break 2; done".toList
  have hleft : ((executeLine loopWorld 3 "for i in a; do break 2; done".toList Context.top
      (freshShell ())).result.map fun p => p.2.controlSignal) = some .breakSignal := by decide
  obtain ⟨⟨a, sh⟩, hresult, hsignal⟩ := Option.map_eq_some_iff.mp hleft
  have hnone := (hend a sh hresult).2
  rw [hnone] at hsignal
  cases hsignal

end Arksh
