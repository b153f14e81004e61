/-
  Subject: Output is complete, or the command fails.

  The copies between buffers of one size, the lists, the loops, the subshells and the
  substitutions append what fits, or fail. What a buffer cuts is lost where it is filled: by the
  reader of a pipe, by a builtin, and by `$(< )`; beside that, a pipeline may not get what the
  builtin in front of it has to say.
-/
import Arksh.Exec.Output
import Arksh.Shell.FileLines

namespace Arksh

open CText List Nat

/-! ## 1. The law -/

def FitsBuffer (text : Text) : Prop := text.length < arkshMaxOutput ∧ '\x00' ∉ text

instance (text : Text) : Decidable (FitsBuffer text) := inferInstanceAs (Decidable (_ ∧ _))

/-- What goes elsewhere (to files, to the next stage) and what is returned are the whole output. -/
def OutputRun.Sent : OutputRun → Prop
  | .redirected b steps =>
    let sent := builtinWithRedirection b steps
    sent.2.flatten ++ sent.1.2 = b.whole
  | .piped b steps redirections _ =>
    let sent := builtinWithRedirection b steps
    ∃ given, stageInput redirections sent.1.2 = some given ∧ sent.2.flatten ++ given = b.whole
  | .group body steps =>
    let sent := executeGroup body.run steps
    sent.2.flatten ++ sent.1.2 = body.account
  | _ => True

/-- **Either the output is complete, or the command fails.** -/
def OutputRun.Law (r : OutputRun) : Prop := r.run.1 = 0 → r.run.2 = r.whole ∧ r.Sent

mutual

def OutputRun.All (P : OutputRun → Prop) : OutputRun → Prop
  | .processes fallback p => P (.processes fallback p)
  | .builtin b => P (.builtin b)
  | .redirected b steps => P (.redirected b steps)
  | .piped b steps redirections p => P (.piped b steps redirections p)
  | .list entries => P (.list entries) ∧ entries.All P
  | .compound status parts => P (.compound status parts) ∧ parts.All P
  | .source resolved commands => P (.source resolved commands) ∧ commands.All P
  | .group body steps => P (.group body steps) ∧ body.All P
  | .subshell body pieces => P (.subshell body pieces) ∧ body.All P
  | .through body => P (.through body) ∧ body.All P
  | .substitution command body room => P (.substitution command body room) ∧ body.All P
  | .fileSubstitution content room => P (.fileSubstitution content room)

def OutputParts.All (P : OutputRun → Prop) : OutputParts → Prop
  | .nil => True
  | .cons _ _ run _ rest => run.All P ∧ rest.All P

end

/-! ## 2. The condition -/

/-- The processes are started, not stopped, and end with status 0. -/
def ProcessRun.Succeeds (p : ProcessRun) : Prop :=
  p.refusal = none ∧ p.stopped = false ∧ p.exitCode = 0

def ProcessRun.Fits (p : ProcessRun) : Prop := FitsBuffer p.whole ∧ p.unread = []

def BuiltinRun.Succeeds : BuiltinRun → Prop
  | .echo _ => True
  | .other status _ => status = 0

def RedirectStep.opens : RedirectStep → Bool
  | .output _ refusal | .error _ refusal => refusal.isNone
  | .errorToOutput | .other => true

def TargetsOpen (steps : List RedirectStep) : Prop := steps.all RedirectStep.opens = true

def OutputRun.Fits : OutputRun → Prop
  | .processes _ p => p.Succeeds → p.Fits
  | .builtin b => b.Succeeds → FitsBuffer b.whole
  | .redirected b steps => b.Succeeds → TargetsOpen steps → FitsBuffer b.whole
  | .piped b steps redirections p =>
    b.Succeeds → TargetsOpen steps → p.Succeeds →
      p.Fits ∧ FitsBuffer b.whole ∧ b.whole ≠ [] ∧ steps.any RedirectStep.isOutput = false ∧
        redirections < arkshMaxRedirections
  | .fileSubstitution content room =>
    (cString (trimTrailingNewlines (content.take (arkshMaxOutput - 1)))).length < room →
      FitsBuffer (trimTrailingNewlines content)
  | _ => True

/-! ## 3. Buffers -/

variable {t out output : Text} {b : BuiltinRun} {r body : OutputRun}

theorem cString_eq_self : cString t = t ↔ '\x00' ∉ t := by
  unfold cString
  rw [takeWhile_eq_self_iff]
  constructor
  · intro h hmem; simpa using h _ hmem
  · intro h c hc
    have hne : c ≠ '\x00' := fun heq => h (heq ▸ hc)
    simpa using hne

theorem cString_length_le (t : Text) : (cString t).length ≤ t.length :=
  (List.takeWhile_prefix _).length_le

theorem trimTrailingNewlines_length_le (t : Text) : (trimTrailingNewlines t).length ≤ t.length :=
  (List.rdropWhile_prefix (fun c => c = '\n' || c = '\r') t).length_le

theorem trimTrailingNewlines_take {n : Nat} (h : (trimTrailingNewlines t).length ≤ n) :
    trimTrailingNewlines (t.take n) = trimTrailingNewlines t := by
  obtain ⟨ending, htext, hending⟩ := trimTrailingNewlines_ends t
  have hcut : t.take n = trimTrailingNewlines t ++
      ending.take (n - (trimTrailingNewlines t).length) := by
    conv_lhs => rw [htext, take_append, take_of_length_le h]
  rw [hcut]
  unfold trimTrailingNewlines
  rw [List.rdropWhile, reverse_append, dropWhile_append_of_pos]
  · exact rdropWhile_idempotent _ _
  · intro c hc; rcases hending c (mem_of_mem_take (mem_reverse.mp hc)) with rfl | rfl <;> rfl

theorem copyString_fits (text : Text) : (copyString arkshMaxOutput text).length < arkshMaxOutput :=
  copyString_length_lt (by decide) text

theorem cString_copyString : cString (copyString arkshMaxOutput t) = t ↔ FitsBuffer t := by
  constructor
  · intro h
    have hlen : t.length < arkshMaxOutput := by
      have hcopy := copyString_fits t
      have hle := cString_length_le (copyString arkshMaxOutput t)
      rw [h] at hle
      omega
    rw [copyString_of_lt hlen] at h
    exact ⟨hlen, cString_eq_self.mp h⟩
  · intro ⟨hlen, hnul⟩
    rw [copyString_of_lt hlen]
    exact cString_eq_self.mpr hnul

theorem copyString_cString (t : Text) :
    copyString arkshMaxOutput (cString t) = cString (copyString arkshMaxOutput t) := by
  exact take_takeWhile

theorem take_append_cut (n : Nat) (front behind : Text) :
    (front.take n ++ behind).take n = (front ++ behind).take n := by
  rw [take_append, take_append, take_take, min_self, length_take]
  congr 2
  omega

/-- **The reader of a pipe cuts what does not fit.** -/
theorem foldl_readChunk (size : Nat) (chunks : List Text) : ∀ out : Text, out.length ≤ size - 1 →
      chunks.foldl (readChunk size) out = copyString size (out ++ chunks.flatten) := by
  induction chunks with
  | nil =>
    intro out hout
    rw [flatten_nil, append_nil, copyString, take_of_length_le hout]
    rfl
  | cons chunk chunks ih =>
    intro out hout
    have hturn : readChunk size out chunk = (out ++ chunk).take (size - 1) := by
      unfold readChunk
      split
      · rw [take_append, take_of_length_le hout]
      · rw [take_append_of_le_length (by omega), take_of_length_le hout]
    rw [foldl_cons, hturn, ih _ (by rw [length_take]; omega), copyString, take_append_cut,
      flatten_cons, ← append_assoc]
    rfl

theorem readFdToBuffer_eq (size : Nat) (chunks : List Text) (readError : Bool) :
    (readFdToBuffer size chunks readError).2 = copyString size chunks.flatten :=
  foldl_readChunk size chunks [] (zero_le _)

theorem readChildChunk_eq (size : Nat) : readChildChunk size = readChunk size := by
  funext out chunk
  unfold readChildChunk readChunk
  have h : out.length + 1 < size ↔ out.length < size - 1 := by omega
  rw [if_congr h rfl rfl, Nat.sub_right_comm]

/-! ## 4. `echo` -/

theorem foldl_putChar (size : Nat) (chars : Text) : ∀ out : Text, out.length ≤ size - 1 →
      chars.foldl (putChar size) out = (out ++ chars).take (size - 1) := by
  induction chars with
  | nil =>
    intro out hout
    rw [append_nil, take_of_length_le hout]
    rfl
  | cons c chars ih =>
    intro out hout
    rw [foldl_cons, putChar]
    split
    next hroom => rw [ih _ (by rw [length_append]; exact hroom), append_assoc]; rfl
    next hfull =>
      rw [ih _ hout, take_append_of_le_length (by omega), take_append_of_le_length (by omega)]

/-- What an argument of `echo` stands for. -/
def echoText (flags : EchoFlags) (arg : Text) : Text :=
  if flags.interpretEscapes then escapedText arg.length arg else arg

theorem echoArgument_eq (size : Nat) (flags : EchoFlags) (arg : Text) (hout : out.length ≤ size - 1) :
    echoArgument size flags out arg = (out ++ echoText flags arg).take (size - 1) := by
  unfold echoArgument echoText
  split
  · exact foldl_putChar size _ out hout
  · rw [take_append, take_of_length_le hout]
    congr 1
    split
    · rw [Nat.sub_right_comm]
    · rw [take_length, take_of_length_le (by omega)]

theorem echoArguments_eq (size : Nat) (flags : EchoFlags) (args : List Text) :
    ∀ out : Text, out.length ≤ size - 1 → echoArguments size flags out args =
        (out ++ [' '].intercalate (args.map (echoText flags))).take (size - 1) := by
  induction args with
  | nil =>
    intro out hout
    rw [echoArguments, map_nil, intercalate_nil, append_nil, take_of_length_le hout]
  | cons arg args ih =>
    intro out hout
    cases args with
    | nil =>
      rw [echoArguments, echoArgument_eq size flags arg hout, map_singleton, intercalate_singleton]
    | cons next args =>
      have hlen : ((out ++ echoText flags arg).take (size - 1)).length ≤ size - 1 := by
        rw [length_take]
        exact min_le_left _ _
      have hblank := foldl_putChar size [' '] _ hlen
      rw [foldl_cons, foldl_nil, take_append_cut] at hblank
      rw [echoArguments, echoArgument_eq size flags arg hout, hblank,
        ih _ (by rw [length_take]; exact min_le_left _ _), take_append_cut,
        map_cons (a := arg), map_cons, intercalate_cons_cons, append_assoc,
        append_assoc, append_assoc]
      exact cons_ne_nil _ _

theorem commandEcho_eq (args : List Text) :
    commandEcho args = (0, cString (copyString arkshMaxOutput (echoWhole args))) := by
  unfold commandEcho echoWhole
  generalize echoOptions ⟨true, false⟩ args = options
  obtain ⟨flags, args⟩ := options
  dsimp only
  have htexts : (if flags.interpretEscapes then args.map fun arg => escapedText arg.length arg
      else args) = args.map (echoText flags) := by
    unfold echoText
    split
    · rfl
    · exact (map_id _).symm
  have hargs := echoArguments_eq arkshMaxOutput flags args [] (zero_le _)
  rw [nil_append] at hargs
  have hresult : (if flags.newline then
      putChar arkshMaxOutput (echoArguments arkshMaxOutput flags [] args) '\n'
      else echoArguments arkshMaxOutput flags [] args) =
      copyString arkshMaxOutput ([' '].intercalate (args.map (echoText flags)) ++
        if flags.newline then ['\n'] else []) := by
    rw [hargs, copyString]
    split
    · have hlen : (([' '].intercalate (args.map (echoText flags))).take
          (arkshMaxOutput - 1)).length ≤ arkshMaxOutput - 1 := by
        rw [length_take]
        exact min_le_left _ _
      have hnewline := foldl_putChar arkshMaxOutput ['\n'] _ hlen
      rw [foldl_cons, foldl_nil, take_append_cut] at hnewline
      exact hnewline
    · rw [append_nil]
  rw [htexts, hresult, copyString_cString, copyString, copyString, take_take, min_self]

theorem BuiltinRun.run_text (b : BuiltinRun) :
    b.run.2 = cString (copyString arkshMaxOutput b.whole) := by
  cases b with
  | echo args => exact congrArg Prod.snd (commandEcho_eq args)
  | other status text => exact copyString_cString text

theorem BuiltinRun.succeeds_iff (b : BuiltinRun) : b.run.1 = 0 ↔ b.Succeeds := by
  cases b with
  | echo args => exact iff_of_true (congrArg Prod.fst (commandEcho_eq args)) trivial
  | other status text => exact Iff.rfl

theorem BuiltinRun.complete_iff (b : BuiltinRun) : b.run.2 = b.whole ↔ FitsBuffer b.whole := by
  rw [b.run_text, cString_copyString]

/-! ## 5. Leaves -/

variable {steps : List RedirectStep}

theorem ProcessRun.succeeds_iff (fallback : Text) (p : ProcessRun) :
    (p.run fallback).1 = 0 ↔ p.Succeeds := by
  unfold run Succeeds
  cases p.refusal with
  | some message => simp
  | none =>
    cases p.stopped with
    | true | false => simp

theorem ProcessRun.complete_iff {fallback : Text} {p : ProcessRun} (h : p.Succeeds) :
    (p.run fallback).2 = p.whole ↔ p.Fits := by
  obtain ⟨hrefusal, hstopped, -⟩ := h
  have hrun : (p.run fallback).2 = cString (copyString arkshMaxOutput p.chunks.flatten) := by
    unfold run
    rw [hrefusal, hstopped]
    exact congrArg cString (readFdToBuffer_eq _ _ _)
  rw [hrun]
  constructor
  · intro heq
    have hlen : p.whole.length ≤ p.chunks.flatten.length := by
      rw [← heq]
      exact (cString_length_le _).trans (length_take_le' _ _)
    have hunread : p.unread = [] := by
      rw [whole, length_append] at hlen
      exact length_eq_zero_iff.mp (by omega)
    refine ⟨?_, hunread⟩
    rw [whole, hunread, append_nil] at heq ⊢
    exact cString_copyString.mp heq
  · intro ⟨hfits, hunread⟩
    rw [whole, hunread, append_nil] at hfits ⊢
    exact cString_copyString.mpr hfits

theorem redirectOutput_ok {output' : Text} {written written' : List Text}
    (h : redirectOutput steps output written = .ok (output', written')) :
    output' = leftOutput steps output ∧
      written'.flatten ++ output' = written.flatten ++ output := by
  induction steps generalizing output written with
  | nil => cases h; exact ⟨rfl, rfl⟩
  | cons step steps ih =>
    cases step with
    | output append refusal =>
      cases refusal with
      | some message => cases h
      | none =>
        obtain ⟨hleft, hall⟩ := ih h
        have hnil : output' = [] := by
          rw [hleft, leftOutput]
          split <;> rfl
        refine ⟨hnil, ?_⟩
        rw [hall, flatten_append, append_nil, flatten_singleton]
    | error append refusal =>
      cases refusal with
      | some message => cases h
      | none => exact ih h
    | errorToOutput | other => exact ih h

theorem redirectOutput_succeeds (steps : List RedirectStep) (output : Text) (written : List Text) :
    (∃ left, redirectOutput steps output written = .ok left) ↔ TargetsOpen steps := by
  induction steps generalizing output written with
  | nil => exact iff_of_true ⟨_, rfl⟩ rfl
  | cons step steps ih =>
    cases step with
    | output append refusal =>
      cases refusal with
      | some message => exact iff_of_false (fun ⟨_, h⟩ => nomatch h) Bool.false_ne_true
      | none => exact ih [] (written ++ [output])
    | error append refusal =>
      cases refusal with
      | some message => exact iff_of_false (fun ⟨_, h⟩ => nomatch h) Bool.false_ne_true
      | none => exact ih output written
    | errorToOutput | other => exact ih output written

theorem builtinWithRedirection_ok (h : (builtinWithRedirection b steps).1.1 = 0) :
    b.Succeeds ∧ TargetsOpen steps ∧
      (builtinWithRedirection b steps).1.2 = leftOutput steps b.run.2 ∧
      (builtinWithRedirection b steps).2.flatten ++ (builtinWithRedirection b steps).1.2 =
        b.run.2 := by
  unfold builtinWithRedirection at h ⊢
  have hstatus := b.succeeds_iff
  generalize b.run = run at h hstatus ⊢
  obtain ⟨status, output⟩ := run
  dsimp only at h hstatus ⊢
  split at h
  · cases h
  next hzero =>
    rw [not_not] at hzero
    cases hredirect : redirectOutput steps output [] with
    | error message => rw [hredirect] at h; cases h
    | ok left =>
      rw [if_neg (not_not.mpr hzero)]
      obtain ⟨hleft, hall⟩ := redirectOutput_ok hredirect
      exact ⟨hstatus.mp hzero, (redirectOutput_succeeds _ _ _).mp ⟨_, hredirect⟩, hleft, hall⟩

theorem builtinWithRedirection_succeeds (hb : b.Succeeds) (hsteps : TargetsOpen steps) :
    (builtinWithRedirection b steps).1.1 = 0 := by
  unfold builtinWithRedirection
  have hstatus := b.succeeds_iff.mpr hb
  generalize b.run = run at hstatus ⊢
  obtain ⟨status, output⟩ := run
  obtain ⟨left, hredirect⟩ := (redirectOutput_succeeds steps output []).mpr hsteps
  dsimp only at hstatus ⊢
  rw [if_neg (not_not.mpr hstatus), hredirect]

theorem redirected_law_iff (b : BuiltinRun) (steps : List RedirectStep) :
    (OutputRun.redirected b steps).Law ↔ (OutputRun.redirected b steps).Fits := by
  constructor
  · intro h hb hsteps
    have hzero := builtinWithRedirection_succeeds hb hsteps
    obtain ⟨-, hsent⟩ := h hzero
    rw [← b.complete_iff, ← hsent]
    exact (builtinWithRedirection_ok hzero).2.2.2.symm
  · intro h hzero
    obtain ⟨hb, hsteps, hleft, hall⟩ := builtinWithRedirection_ok hzero
    have hwhole := b.complete_iff.mpr (h hb hsteps)
    rw [hwhole] at hleft hall
    exact ⟨hleft, hall⟩

theorem piped_law_iff (b : BuiltinRun) (steps : List RedirectStep) (redirections : Nat)
    (p : ProcessRun) : (OutputRun.piped b steps redirections p).Law ↔
      (OutputRun.piped b steps redirections p).Fits := by
  have hrun : (OutputRun.piped b steps redirections p).run =
      if (builtinWithRedirection b steps).1.1 ≠ 0 then (builtinWithRedirection b steps).1
      else p.run "failed to execute shell pipeline".toList := rfl
  constructor
  · intro h hb hsteps hp
    have hzero := builtinWithRedirection_succeeds hb hsteps
    rw [if_neg (not_not.mpr hzero)] at hrun
    unfold OutputRun.Law at h
    rw [hrun] at h
    obtain ⟨hout, given, hgiven, hall⟩ := h ((p.succeeds_iff _).mpr hp)
    obtain ⟨-, -, hleft, hwritten⟩ := builtinWithRedirection_ok hzero
    unfold stageInput at hgiven
    split at hgiven
    next hroom =>
      cases hgiven
      have hwhole : b.run.2 = b.whole := hwritten.symm.trans hall
      have hnone : steps.any RedirectStep.isOutput = false := by
        by_contra hany
        rw [Bool.not_eq_false] at hany
        rw [leftOutput, if_pos hany] at hleft
        exact hroom.2 hleft
      rw [leftOutput, if_neg (by simp [hnone]), hwhole] at hleft
      refine ⟨(ProcessRun.complete_iff hp).mp hout, b.complete_iff.mp hwhole, ?_, hnone, hroom.1⟩
      rw [← hleft]
      exact hroom.2
    · cases hgiven
  · intro h hzero
    rw [hrun] at hzero
    have hbuilt : (builtinWithRedirection b steps).1.1 = 0 := by
      by_contra hne
      rw [if_pos hne] at hzero
      exact hne hzero
    rw [if_neg (not_not.mpr hbuilt)] at hrun hzero
    obtain ⟨hb, hsteps, hleft, hall⟩ := builtinWithRedirection_ok hbuilt
    have hp := (p.succeeds_iff _).mp hzero
    obtain ⟨hpfits, hfits, hne, hnone, hroom⟩ := h hb hsteps hp
    have hwhole := b.complete_iff.mpr hfits
    rw [leftOutput, if_neg (by simp [hnone]), hwhole] at hleft
    rw [hwhole] at hall
    rw [hrun]
    refine ⟨(ProcessRun.complete_iff hp).mpr hpfits, _, ?_, hall⟩
    rw [stageInput, if_pos ⟨hroom, by rw [hleft]; exact hne⟩]

theorem processes_law_iff (fallback : Text) (p : ProcessRun) :
    (OutputRun.processes fallback p).Law ↔ (OutputRun.processes fallback p).Fits := by
  constructor
  · intro h hp; exact (ProcessRun.complete_iff hp).mp (h ((p.succeeds_iff fallback).mpr hp)).1
  · intro h hzero
    have hp := (p.succeeds_iff fallback).mp hzero
    exact ⟨(ProcessRun.complete_iff hp).mpr (h hp), trivial⟩

theorem builtin_law_iff (b : BuiltinRun) :
    (OutputRun.builtin b).Law ↔ (OutputRun.builtin b).Fits := by
  constructor
  · intro h hb; exact b.complete_iff.mp (h (b.succeeds_iff.mpr hb)).1
  · intro h hzero; exact ⟨b.complete_iff.mpr (h (b.succeeds_iff.mp hzero)), trivial⟩

/-- `$(< )` loses what is behind the buffer. -/
theorem fileSubstitution_law_iff (content : Text) (room : Nat) :
    (OutputRun.fileSubstitution content room).Law ↔
      (OutputRun.fileSubstitution content room).Fits := by
  have hrun : (OutputRun.fileSubstitution content room).run =
      appendToWord (cString (trimTrailingNewlines (content.take (arkshMaxOutput - 1)))) room := rfl
  have hcut : cString (trimTrailingNewlines (content.take (arkshMaxOutput - 1))) =
      trimTrailingNewlines content ↔ FitsBuffer (trimTrailingNewlines content) := by
    constructor
    · intro heq
      have hlen := (cString_length_le _).trans
        (trimTrailingNewlines_length_le (content.take (arkshMaxOutput - 1)))
      rw [heq, length_take] at hlen
      have hlt : (trimTrailingNewlines content).length < arkshMaxOutput :=
        lt_of_le_of_lt (hlen.trans (min_le_left _ _)) (by decide)
      refine ⟨hlt, fun hmem => ?_⟩
      rw [← heq] at hmem
      simpa using mem_takeWhile_imp hmem
    · intro ⟨hlen, hnul⟩
      rw [trimTrailingNewlines_take (by omega)]
      exact cString_eq_self.mpr hnul
  constructor
  · intro h hroom
    unfold OutputRun.Law at h
    rw [hrun, appendToWord, if_pos hroom] at h
    exact hcut.mp (h rfl).1
  · intro h hzero
    rw [hrun, appendToWord] at hzero ⊢
    split at hzero
    next hroom => rw [if_pos hroom]; exact ⟨hcut.mpr (h hroom), trivial⟩
    · cases hzero

/-! ## 6. The executors -/

theorem OutputRun.Law.account (h : r.Law) : r.account = r.run.2 := by
  unfold OutputRun.account
  split
  next hzero => exact (h hzero).1.symm
  · rfl

theorem OutputRun.All.self {P : OutputRun → Prop} (h : r.All P) : P r := by
  cases r with
  | processes | builtin | redirected | piped | fileSubstitution => exact h
  | list | compound | source | group | subshell | through | substitution => exact h.1

theorem appendOutputSegment_some {segment out' : Text}
    (h : appendOutputSegment out segment = some out') : out' = joinSegments out segment ∧
      (out.length < arkshMaxOutput → out'.length < arkshMaxOutput) := by
  unfold appendOutputSegment at h
  unfold joinSegments
  split at h
  next hnil => cases h; exact ⟨(if_pos hnil).symm, id⟩
  next hsegment =>
    rw [if_neg hsegment]
    split at h
    next hnil =>
      rw [if_pos hnil]
      split at h
      · cases h
      next hfits => cases h; exact ⟨rfl, fun _ => not_le.mp hfits⟩
    next hout =>
      rw [if_neg hout]
      split at h
      · cases h
      next hfits =>
        cases h
        refine ⟨rfl, fun _ => ?_⟩
        rw [length_append, length_cons]
        omega

theorem OutputParts.runList_eq :
    ∀ {parts : OutputParts} {previousStatus : Int} {out : Text}, parts.All OutputRun.Law →
      parts.runList previousStatus out = (1, outputTooLarge) ∨
        (parts.runList previousStatus out).2 = parts.wholeList previousStatus out
  | .nil, _, _, _ => .inr rfl
  | .cons condition line run ready rest, previousStatus, out, h => by
    have hself : (if run.run.1 = 0 then run.whole else run.run.2) = run.run.2 := h.1.self.account
    unfold runList wholeList
    split
    · exact runList_eq h.2
    · rw [hself]
      cases hsegment : appendOutputSegment out run.run.2 with
      | none => exact .inl rfl
      | some out' =>
        obtain ⟨rfl, -⟩ := appendOutputSegment_some hsegment
        dsimp only
        cases ready with
        | true => exact runList_eq h.2
        | false => exact .inr rfl

theorem OutputParts.runCompound_eq :
    ∀ {parts : OutputParts} {status : Int} {out : Text}, parts.All OutputRun.Law →
      parts.runCompound status out = (1, outputTooLarge) ∨
        (parts.runCompound status out).2 = parts.wholeCompound out
  | .nil, _, _, _ => .inr rfl
  | .cons condition line run ready rest, status, out, h => by
    have hself : (if run.run.1 = 0 then run.whole else run.run.2) = run.run.2 := h.1.self.account
    unfold runCompound wholeCompound
    rw [hself]
    cases hsegment : appendOutputSegment out run.run.2 with
    | none => exact .inl rfl
    | some out' => obtain ⟨rfl, -⟩ := appendOutputSegment_some hsegment; exact runCompound_eq h.2

theorem OutputParts.runSource_eq :
    ∀ {parts : OutputParts} {resolved out : Text}, parts.All OutputRun.Law →
      (parts.runSource resolved out).1 = 0 →
      (parts.runSource resolved out).2 = parts.wholeCompound out
  | .nil, _, _, _, _ => rfl
  | .cons condition line run ready rest, resolved, out, h, hzero => by
    have hself : (if run.run.1 = 0 then run.whole else run.run.2) = run.run.2 := h.1.self.account
    unfold runSource at hzero ⊢
    unfold wholeCompound
    rw [hself]
    split at hzero
    · cases hzero
    next hstatus =>
      rw [if_neg hstatus]
      cases hsegment : appendOutputSegment out run.run.2 with
      | none => rw [hsegment] at hzero; cases hzero
      | some out' =>
        rw [hsegment] at hzero
        obtain ⟨rfl, -⟩ := appendOutputSegment_some hsegment
        exact runSource_eq h.2 hzero

theorem executeGroup_ok {body : Int × Text} (h : (executeGroup body steps).1.1 = 0) :
    (executeGroup body steps).1.2 = leftOutput steps body.2 ∧
      (executeGroup body steps).2.flatten ++ (executeGroup body steps).1.2 = body.2 := by
  unfold executeGroup at h ⊢
  split at h
  next hne =>
    cases hreport : redirectReport steps [] body.2 [] with
    | error message => rw [hreport] at h; cases h
    | ok left => rw [hreport] at h; exact absurd h hne
  next hzero =>
    rw [if_neg hzero]
    cases hredirect : redirectOutput steps body.2 [] with
    | error message => rw [hredirect] at h; cases h
    | ok left => exact redirectOutput_ok hredirect

/-! ## 7. What is returned fits -/

theorem cString_copyString_fits (text : Text) :
    (cString (copyString arkshMaxOutput text)).length < arkshMaxOutput :=
  (cString_length_le _).trans_lt (copyString_fits text)

theorem ProcessRun.run_fits (fallback : Text) (p : ProcessRun) :
    (p.run fallback).2.length < arkshMaxOutput := by
  unfold run
  split
  · exact copyString_fits _
  · split
    · decide
    · rw [readFdToBuffer_eq]; exact cString_copyString_fits _

theorem BuiltinRun.run_fits (b : BuiltinRun) : b.run.2.length < arkshMaxOutput := by
  rw [b.run_text]
  exact cString_copyString_fits _

theorem redirectOutput_fits (h : output.length < arkshMaxOutput) :
    (match redirectOutput steps output [] with
      | .error message => (((1 : Int), copyString arkshMaxOutput message), ([] : List Text))
      | .ok (output, written) => ((0, output), written)).1.2.length < arkshMaxOutput := by
  cases hredirect : redirectOutput steps output [] with
  | error message => exact copyString_fits _
  | ok left =>
    obtain ⟨hleft, -⟩ := redirectOutput_ok hredirect
    dsimp only
    rw [hleft, leftOutput]
    split
    · decide
    · exact h

theorem builtinWithRedirection_fits (b : BuiltinRun) (steps : List RedirectStep) :
    (builtinWithRedirection b steps).1.2.length < arkshMaxOutput := by
  have hrun := b.run_fits
  unfold builtinWithRedirection
  dsimp only
  split
  · exact hrun
  · exact redirectOutput_fits hrun

theorem redirectReport_fits {report left : Text} {written written' : List Text}
    (houtput : output.length < arkshMaxOutput) (hreport : report.length < arkshMaxOutput)
    (h : redirectReport steps output report written = .ok (left, written')) :
    left.length < arkshMaxOutput := by
  have hnil : ([] : Text).length < arkshMaxOutput := by decide
  induction steps generalizing output report written with
  | nil =>
    cases h
    split
    · exact hreport
    · exact houtput
  | cons step steps ih =>
    cases step with
    | output append refusal =>
      cases refusal with
      | some message => cases h
      | none => exact ih hnil hreport h
    | error append refusal =>
      cases refusal with
      | some message => cases h
      | none => exact ih houtput hnil h
    | errorToOutput =>
      rw [redirectReport] at h
      cases hsegment : appendOutputSegment output report with
      | none => rw [hsegment] at h; cases h
      | some joined =>
        rw [hsegment] at h
        exact ih ((appendOutputSegment_some hsegment).2 houtput) hnil h
    | other => exact ih houtput hreport h

theorem executeGroup_fits {body : Int × Text} (steps : List RedirectStep)
    (h : body.2.length < arkshMaxOutput) :
    (executeGroup body steps).1.2.length < arkshMaxOutput := by
  unfold executeGroup
  split
  · cases hreport : redirectReport steps [] body.2 [] with
    | error message => exact copyString_fits _
    | ok left => exact redirectReport_fits (by decide) h hreport
  · exact redirectOutput_fits h

theorem appendToWord_fits {text : Text} (room : Nat) (h : text.length < arkshMaxOutput) :
    (appendToWord text room).2.length < arkshMaxOutput := by
  unfold appendToWord
  split
  · exact h
  · decide

theorem readChildChunks_eq (chunks : List Text) : chunks.foldl (readChildChunk arkshMaxOutput) [] =
      copyString arkshMaxOutput chunks.flatten := by
  rw [readChildChunk_eq]
  exact foldl_readChunk arkshMaxOutput chunks [] (zero_le _)

mutual

theorem OutputRun.run_fits : (r : OutputRun) → r.run.2.length < arkshMaxOutput
  | .processes fallback p => p.run_fits fallback
  | .builtin b => b.run_fits
  | .redirected b steps => builtinWithRedirection_fits b steps
  | .piped b steps _ p => by
    unfold OutputRun.run
    dsimp only
    split
    · exact builtinWithRedirection_fits b steps
    · exact p.run_fits _
  | .list entries => entries.runList_fits 0 [] (by decide)
  | .compound status parts => parts.runCompound_fits status [] (by decide)
  | .source resolved commands => commands.runSource_fits resolved [] (by decide)
  | .group body steps => executeGroup_fits steps body.run_fits
  | .subshell body pieces => by
    unfold OutputRun.run
    rw [readChildChunks_eq]
    exact copyString_fits _
  | .through body => body.run_fits
  | .substitution command body room => by
    show (executeSubstitution command body.run room).2.length < _
    unfold executeSubstitution
    split
    · exact copyString_fits _
    · exact appendToWord_fits room ((trimTrailingNewlines_length_le _).trans_lt body.run_fits)
  | .fileSubstitution content room => by
    refine appendToWord_fits room ?_
    refine ((cString_length_le _).trans (trimTrailingNewlines_length_le _)).trans_lt ?_
    exact copyString_fits content

theorem OutputParts.runList_fits : (parts : OutputParts) → (previousStatus : Int) →
    (out : Text) → out.length < arkshMaxOutput →
    (parts.runList previousStatus out).2.length < arkshMaxOutput
  | .nil, _, _, h => h
  | .cons condition line run ready rest, previousStatus, out, h => by
    unfold OutputParts.runList
    split
    · exact rest.runList_fits previousStatus out h
    · cases hsegment : appendOutputSegment out run.run.2 with
      | none => dsimp only; decide
      | some out' =>
        have hout := (appendOutputSegment_some hsegment).2 h
        cases ready with
        | true => exact rest.runList_fits _ _ hout
        | false => exact hout

theorem OutputParts.runCompound_fits : (parts : OutputParts) → (status : Int) → (out : Text) →
    out.length < arkshMaxOutput → (parts.runCompound status out).2.length < arkshMaxOutput
  | .nil, _, _, h => h
  | .cons condition line run ready rest, status, out, h => by
    unfold OutputParts.runCompound
    cases hsegment : appendOutputSegment out run.run.2 with
    | none => dsimp only; decide
    | some out' => exact rest.runCompound_fits status out' ((appendOutputSegment_some hsegment).2 h)

theorem OutputParts.runSource_fits : (parts : OutputParts) → (resolved out : Text) →
    out.length < arkshMaxOutput → (parts.runSource resolved out).2.length < arkshMaxOutput
  | .nil, _, _, h => h
  | .cons condition line run ready rest, resolved, out, h => by
    unfold OutputParts.runSource
    split
    · exact copyString_fits _
    · cases hsegment : appendOutputSegment out run.run.2 with
      | none => exact copyString_fits _
      | some out' =>
        exact rest.runSource_fits resolved out' ((appendOutputSegment_some hsegment).2 h)

end

/-! ## 8. Everywhere in a run -/

theorem list_law {entries : OutputParts} (h : entries.All OutputRun.Law) :
    (OutputRun.list entries).Law := by
  intro hzero
  have hrun : (OutputRun.list entries).run = (1, outputTooLarge) ∨
      (OutputRun.list entries).run.2 = (OutputRun.list entries).whole :=
    OutputParts.runList_eq h
  obtain hlarge | hwhole := hrun
  · rw [hlarge] at hzero; cases hzero
  · exact ⟨hwhole, trivial⟩

theorem compound_law {status : Int} {parts : OutputParts} (h : parts.All OutputRun.Law) :
    (OutputRun.compound status parts).Law := by
  intro hzero
  have hrun : (OutputRun.compound status parts).run = (1, outputTooLarge) ∨
      (OutputRun.compound status parts).run.2 = (OutputRun.compound status parts).whole :=
    OutputParts.runCompound_eq h
  obtain hlarge | hwhole := hrun
  · rw [hlarge] at hzero; cases hzero
  · exact ⟨hwhole, trivial⟩

theorem source_law {resolved : Text} {commands : OutputParts} (h : commands.All OutputRun.Law) :
    (OutputRun.source resolved commands).Law :=
  fun hzero => ⟨OutputParts.runSource_eq h hzero, trivial⟩

theorem group_law (h : body.Law) : (OutputRun.group body steps).Law := by
  intro hzero
  obtain ⟨hleft, hall⟩ := executeGroup_ok hzero
  rw [← h.account] at hleft hall
  exact ⟨hleft, hall⟩

theorem subshell_law {pieces : Pieces} (h : body.Law) : (OutputRun.subshell body pieces).Law := by
  intro _
  refine ⟨?_, trivial⟩
  show List.foldl _ _ _ = body.account
  rw [readChildChunks_eq, pieces.joined, copyString_of_lt body.run_fits, h.account]

theorem through_law (h : body.Law) : (OutputRun.through body).Law :=
  fun _ => ⟨h.account.symm, trivial⟩

theorem substitution_law {command : Text} {room : Nat} (h : body.Law) :
    (OutputRun.substitution command body room).Law := by
  intro hzero
  refine ⟨?_, trivial⟩
  show (executeSubstitution command body.run room).2 = trimTrailingNewlines body.account
  rw [h.account]
  have hrun : (OutputRun.substitution command body room).run =
      executeSubstitution command body.run room := rfl
  rw [hrun] at hzero
  unfold executeSubstitution appendToWord at hzero ⊢
  split at hzero
  · cases hzero
  next hstatus =>
    rw [if_neg hstatus]
    split at hzero
    next hroom => rw [if_pos hroom]
    · cases hzero

mutual

/-- **Output is complete everywhere in a run iff what its processes, its builtins and `$(< )` have
    to say fits.** -/
theorem OutputRun.outputLaw_iff : (r : OutputRun) → (r.All OutputRun.Law ↔ r.All OutputRun.Fits)
  | .processes fallback p => processes_law_iff fallback p
  | .builtin b => builtin_law_iff b
  | .redirected b steps => redirected_law_iff b steps
  | .piped b steps redirections p => piped_law_iff b steps redirections p
  | .list entries =>
    ⟨fun h => ⟨trivial, entries.parts_law_iff.mp h.2⟩,
      fun h => ⟨list_law (entries.parts_law_iff.mpr h.2), entries.parts_law_iff.mpr h.2⟩⟩
  | .compound _ parts =>
    ⟨fun h => ⟨trivial, parts.parts_law_iff.mp h.2⟩,
      fun h => ⟨compound_law (parts.parts_law_iff.mpr h.2), parts.parts_law_iff.mpr h.2⟩⟩
  | .source _ commands =>
    ⟨fun h => ⟨trivial, commands.parts_law_iff.mp h.2⟩,
      fun h => ⟨source_law (commands.parts_law_iff.mpr h.2), commands.parts_law_iff.mpr h.2⟩⟩
  | .group body _ =>
    ⟨fun h => ⟨trivial, body.outputLaw_iff.mp h.2⟩,
      fun h => ⟨group_law (body.outputLaw_iff.mpr h.2).self, body.outputLaw_iff.mpr h.2⟩⟩
  | .subshell body _ =>
    ⟨fun h => ⟨trivial, body.outputLaw_iff.mp h.2⟩,
      fun h => ⟨subshell_law (body.outputLaw_iff.mpr h.2).self, body.outputLaw_iff.mpr h.2⟩⟩
  | .through body =>
    ⟨fun h => ⟨trivial, body.outputLaw_iff.mp h.2⟩,
      fun h => ⟨through_law (body.outputLaw_iff.mpr h.2).self, body.outputLaw_iff.mpr h.2⟩⟩
  | .substitution _ body _ =>
    ⟨fun h => ⟨trivial, body.outputLaw_iff.mp h.2⟩,
      fun h => ⟨substitution_law (body.outputLaw_iff.mpr h.2).self, body.outputLaw_iff.mpr h.2⟩⟩
  | .fileSubstitution content room => fileSubstitution_law_iff content room

theorem OutputParts.parts_law_iff : (parts : OutputParts) →
    (parts.All OutputRun.Law ↔ parts.All OutputRun.Fits)
  | .nil => Iff.rfl
  | .cons _ _ run _ rest => and_congr run.outputLaw_iff rest.parts_law_iff

end

/-! ## 9. A stream of 8192 characters -/

/-- Processes that write so many characters and end with status 0. -/
def writers (n : Nat) : ProcessRun where
  refusal := none
  chunks := [List.replicate n 'x']
  readError := false
  unread := []
  unread_nil := fun _ => rfl
  stopped := false
  exitCode := 0

/-- A stream that fills the buffer is cut, and the pipeline succeeds. -/
theorem not_outputLaw_writers :
    ¬ (OutputRun.list (.cons .always 1 (.processes [] (writers arkshMaxOutput)) true .nil)).All
        OutputRun.Law := by
  intro ⟨_, h, _⟩
  have hfits := (processes_law_iff [] (writers arkshMaxOutput)).mp h ⟨rfl, rfl, rfl⟩
  have hlen := hfits.1.1
  simp [writers, ProcessRun.whole] at hlen

end Arksh
