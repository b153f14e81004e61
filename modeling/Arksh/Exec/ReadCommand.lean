/-
  Subject: The builtin `read` of `src/shell.c`.

  The loop takes a character from the standard input before it looks whether there are enough, so
  that the one behind the last it returns is lost.
-/
import Arksh.Lib.InputUnits
import Arksh.Lib.Strtoll
import Arksh.Shell.Line
import Arksh.Shell.Vars

namespace Arksh

open CText Input List

/-! ## 1. The builtin -/

structure ReadOptions where
  rawMode : Bool
  nchars : Int
  prompt : Option Text
  deriving DecidableEq

/-- The options before the loop over the arguments. -/
def noReadOptions : ReadOptions := ⟨false, -1, none⟩

/-- The loop over the arguments: the options, and the names behind them. -/
def readOptions (opts : ReadOptions) : List Text → Except Text (ReadOptions × List Text)
  | [] => .ok (opts, [])
  | arg :: args =>
    if arg = "-r".toList then readOptions { opts with rawMode := true } args
    else
      match args with
      | value :: rest =>
        if arg = "-p".toList then readOptions { opts with prompt := some value } rest
        else if arg = "-n".toList then readOptions { opts with nchars := atoiSigned value } rest
        else if arg = "-t".toList then readOptions opts rest
        else if arg.head? = some '-' then .error ("read: unknown option: ".toList ++ arg)
        else .ok (opts, arg :: value :: rest)
      | [] =>
        if arg.head? = some '-' then .error ("read: unknown option: ".toList ++ arg)
        else .ok (opts, [arg])

/-- `if (line_len + 1 < sizeof(line) - 1) line[line_len++] = c` -/
def linePut (line : Text) (c : Char) : Text :=
  if line.length + 1 < arkshMaxLine - 1 then line ++ [c] else line

/-- What the loop leaves. -/
structure LineRead where
  line : Text
  rest : Text
  eof : Bool
  deriving DecidableEq

def readLoop (rawMode : Bool) (nchars : Int) (line : Text) : Text → LineRead
  | [] => ⟨line, [], true⟩
  | [c] =>
    if c = '\n' then ⟨line, [], false⟩
    else if nchars > 0 ∧ (line.length : Int) ≥ nchars then ⟨line, [], false⟩
    else ⟨linePut line c, [], true⟩
  | c :: next :: s =>
    if c = '\n' then ⟨line, next :: s, false⟩
    else if nchars > 0 ∧ (line.length : Int) ≥ nchars then ⟨line, next :: s, false⟩
    else if ¬ rawMode ∧ c = '\\' then
      readLoop rawMode nchars (if next = '\n' then line else linePut line next) s
    else readLoop rawMode nchars (linePut line c) (next :: s)

def readField (span : Text) : Text := copyString arkshMaxVarValue span

/-- The loop over the names. `shared` says that `ifs` points into the entry which a write of IFS
    goes to. -/
def readAssign (shared : Bool) (sh : VarStore) (ifs p : Text) : List Text → VarStore
  | [] => sh
  | [name] => (arkshShellSetVar sh name (readField p) false).2
  | name :: names =>
    let span := (p.takeWhile fun c => !ifs.contains c).length
    let span := if span ≥ arkshMaxVarValue then arkshMaxVarValue - 1 else span
    let field := p.take span
    let p := (p.drop span).dropWhile fun c => ifs.contains c
    let sh := (arkshShellSetVar sh name field false).2
    readAssign shared sh (if shared ∧ name = "IFS".toList then field else ifs) p names

structure ReadOutcome where
  status : Nat
  out : Text
  shell : VarStore
  stdin : Text

/-- `command_read`, without the prompt that it prints. -/
def commandRead (sh : VarStore) (args : List Text) (stdin : Text) : ReadOutcome :=
  match readOptions noReadOptions args with
  | .error message => ⟨1, message, sh, stdin⟩
  | .ok (_, []) => ⟨1, "read: missing variable name".toList, sh, stdin⟩
  | .ok (opts, names) =>
    let read := readLoop opts.rawMode opts.nchars [] stdin
    let ifsVal := arkshShellGetVar sh "IFS".toList
    let shared := ifsVal.isSome && sh.topNames.contains "IFS".toList
    ⟨if read.eof ∧ read.line = [] then 1 else 0, [],
      readAssign shared sh (ifsVal.getD " \t\n".toList) read.line names, read.rest⟩

/-! ## 2. The loop over units -/

def putUnit (line : Text) (u : InputUnit) : Text := u.char?.elim line (linePut line)

def readUnits (nchars : Int) (line : Text) : List InputUnit → LineRead
  | [] => ⟨line, [], true⟩
  | u :: us =>
    if u = .newline then ⟨line, Input.textOf us, false⟩
    else if nchars > 0 ∧ (line.length : Int) ≥ nchars then
      ⟨line, u.text.tail ++ Input.textOf us, false⟩
    else readUnits nchars (putUnit line u) us

section Loop

variable {raw : Bool} {nchars : Int} {line s : Text} {us : List InputUnit}

theorem readUnits_cons (u : InputUnit) (us : List InputUnit) : readUnits nchars line (u :: us) =
    if u = .newline then ⟨line, Input.textOf us, false⟩
    else if nchars > 0 ∧ (line.length : Int) ≥ nchars then
      ⟨line, u.text.tail ++ Input.textOf us, false⟩ else readUnits nchars (putUnit line u) us := rfl

theorem readLoop_units (raw : Bool) (nchars : Int) (line s : Text) :
    readLoop raw nchars line s = readUnits nchars line (units raw s) := by
  fun_induction readLoop raw nchars line s with
  | case1 line => rfl
  | case2 line =>
    rfl
  | case3 line c hc hlimit =>
    rw [units, if_neg hc, readUnits_cons, if_neg (by simp), if_pos hlimit]
    rfl
  | case4 line c hc hlimit =>
    rw [units, if_neg hc, readUnits_cons, if_neg (by simp), if_neg hlimit]
    rfl
  | case5 line next s =>
    rw [units_newline, readUnits_cons, if_pos rfl, units_text]
  | case6 line c next s hc hlimit =>
    by_cases hplain : raw = true ∨ c ≠ '\\'
    · rw [units_plain hc hplain, readUnits_cons, if_neg (by simp), if_pos hlimit, units_text]; rfl
    · rw [not_or, not_not, Bool.not_eq_true] at hplain
      obtain ⟨rfl, rfl⟩ := hplain
      by_cases hnext : next = '\n'
      · rw [hnext, units_continuation, readUnits_cons, if_neg (by simp), if_pos hlimit, units_text]; rfl
      · rw [units_escaped hnext, readUnits_cons, if_neg (by simp), if_pos hlimit, units_text]; rfl
  | case7 line c next s hc hlimit hescape ih =>
    rw [Bool.not_eq_true] at hescape
    obtain ⟨rfl, rfl⟩ := hescape
    by_cases hnext : next = '\n'
    · rw [if_pos hnext] at ih ⊢
      rw [ih, hnext, units_continuation, readUnits_cons, if_neg (by simp), if_neg hlimit]
      rfl
    · rw [if_neg hnext] at ih ⊢
      rw [ih, units_escaped hnext, readUnits_cons, if_neg (by simp), if_neg hlimit]
      rfl
  | case8 line c next s hc hlimit hescape ih =>
    have hplain : raw = true ∨ c ≠ '\\' := by
      by_contra h
      rw [not_or, not_not] at h
      exact hescape ⟨h.1, h.2⟩
    rw [ih, units_plain hc hplain, readUnits_cons, if_neg (by simp), if_neg hlimit]
    rfl

def lineBuffer (line : Text) : Text := line.take (arkshMaxLine - 2)

theorem lineBuffer_of_le (h : line.length ≤ arkshMaxLine - 2) : lineBuffer line = line :=
  take_of_length_le h

theorem lineBuffer_length (line : Text) :
    (lineBuffer line).length = min (arkshMaxLine - 2) line.length := length_take

theorem linePut_lineBuffer (line : Text) (c : Char) :
    linePut (lineBuffer line) c = lineBuffer (line ++ [c]) := by
  have hlength := lineBuffer_length line
  unfold linePut
  by_cases h : line.length + 1 < arkshMaxLine - 1
  · rw [lineBuffer_of_le (by omega), if_pos h, lineBuffer_of_le]
    rw [length_append, length_singleton]
    omega
  · rw [if_neg (by omega), lineBuffer, lineBuffer, take_append_of_le_length (by omega)]

theorem putUnit_lineBuffer (line : Text) (u : InputUnit) :
    putUnit (lineBuffer line) u = lineBuffer (line ++ u.char?.toList) := by
  unfold putUnit
  cases u.char? with
  | none => exact congrArg lineBuffer (append_nil line).symm
  | some c => exact linePut_lineBuffer line c

/-- **Units in front of the limit go into the buffer.** -/
theorem readUnits_append {ws : List InputUnit} (hws : ∀ u ∈ ws, u ≠ .newline)
    (hlimit : nchars > 0 → ((lineBuffer (line ++ delivered ws)).length : Int) < nchars) :
    readUnits nchars (lineBuffer line) (ws ++ us) =
      readUnits nchars (lineBuffer (line ++ delivered ws)) us := by
  induction ws generalizing line with
  | nil => rw [delivered_nil, append_nil, nil_append]
  | cons u ws ih =>
    rw [delivered_cons, ← append_assoc] at hlimit ⊢
    have hroom : ¬ (nchars > 0 ∧ ((lineBuffer line).length : Int) ≥ nchars) := by
      intro hfull
      have hbelow := hlimit hfull.1
      rw [lineBuffer_length] at hbelow hfull
      simp only [length_append] at hbelow
      omega
    rw [cons_append, readUnits_cons, if_neg (hws u mem_cons_self), if_neg hroom,
      putUnit_lineBuffer, ih (fun v hv => hws v (mem_cons_of_mem _ hv)) hlimit]

end Loop

/-! ## 3. Reading a number of characters -/

/-- The call takes from the input what it returns, at most `k` characters, and the end of the line
    only behind fewer. -/
def TakesExactly (raw : Bool) (k : Nat) (s : Text) (read : LineRead) : Prop :=
  ∃ taken left, units raw s = taken ++ left ∧ read.rest = Input.textOf left ∧
    delivered taken = read.line ∧ read.line.length ≤ k ∧
    (.newline ∈ taken → read.line.length < k)

/-- The first line fits the buffer and has fewer than `k` characters, or the `k`-th is the last of
    the input. -/
def FewCharacters (raw : Bool) (k : Nat) (s : Text) : Prop :=
  let line := delivered (Input.firstLine raw s)
  line.length ≤ arkshMaxLine - 2 ∧
    (line.length < k ∨ line.length = k ∧ Input.firstLine raw s = units raw s ∧
      (units raw s).getLast? ≠ some .continuation)

section Limit

variable {raw : Bool} {k : Nat} {s : Text} {us vs : List InputUnit}

theorem exists_upTo (hk : 0 < k) (h : k ≤ (delivered us).length) :
    ∃ ws u rest, us = ws ++ u :: rest ∧ u.char?.isSome ∧ (delivered (ws ++ [u])).length = k := by
  induction us generalizing k with
  | nil => rw [delivered_nil, length_nil] at h; omega
  | cons v us ih =>
    rw [delivered_cons, length_append] at h
    by_cases hlast : k ≤ v.char?.toList.length
    · cases hv : v.char? with
      | none => rw [hv] at hlast; exact absurd hlast (by simpa using Nat.ne_of_gt hk)
      | some c =>
        rw [hv, Option.toList_some, length_singleton] at hlast
        refine ⟨[], v, us, rfl, by rw [hv]; rfl, ?_⟩
        rw [nil_append, delivered_cons, hv]
        show 1 = k
        omega
    · obtain ⟨ws, u, rest, hus, hu, hlength⟩ :=
        ih (k := k - v.char?.toList.length) (by omega) (by omega)
      refine ⟨v :: ws, u, rest, by rw [hus]; rfl, hu, ?_⟩
      rw [cons_append, delivered_cons, length_append, hlength]
      omega

theorem firstLine_ne (raw : Bool) (s : Text) : ∀ u ∈ Input.firstLine raw s, u ≠ .newline := by
  intro u hu
  simpa using mem_takeWhile_imp hu

theorem firstLine_split (raw : Bool) (s : Text) : ∃ back, units raw s = Input.firstLine raw s ++ back ∧
    (back = [] ∨ ∃ more, back = .newline :: more) := by
  refine ⟨(units raw s).dropWhile (· ≠ .newline), takeWhile_append_dropWhile.symm, ?_⟩
  cases hback : (units raw s).dropWhile (· ≠ .newline) with
  | nil => exact .inl rfl
  | cons u more =>
    have hhead := head?_dropWhile_not (· ≠ InputUnit.newline) (units raw s)
    rw [hback] at hhead
    simp only [head?_cons, decide_eq_false_iff_not, not_not] at hhead
    exact .inr ⟨more, by rw [hhead]⟩

theorem readLoop_firstLine {nchars : Int}
    (hlimit : nchars > 0 → ((lineBuffer (delivered (Input.firstLine raw s))).length : Int) < nchars) :
    ∃ taken left, units raw s = taken ++ left ∧ delivered taken = delivered (Input.firstLine raw s) ∧
      (readLoop raw nchars [] s).rest = Input.textOf left ∧
      (readLoop raw nchars [] s).line = lineBuffer (delivered (Input.firstLine raw s)) := by
  obtain ⟨back, hsplit, hback⟩ := firstLine_split raw s
  have hread := @readUnits_append nchars [] back _ (firstLine_ne raw s)
    (by rwa [nil_append])
  rw [← hsplit, nil_append, show lineBuffer [] = [] from rfl, ← readLoop_units] at hread
  rcases hback with rfl | ⟨more, rfl⟩
  · refine ⟨_, [], hsplit, rfl, ?_, ?_⟩
    · rw [hread]; rfl
    · rw [hread]; rfl
  · refine ⟨Input.firstLine raw s ++ [.newline], more, by rw [hsplit, append_assoc]; rfl, ?_, ?_, ?_⟩
    · rw [delivered_append]; exact append_nil _
    · rw [hread, readUnits_cons, if_pos rfl]
    · rw [hread, readUnits_cons, if_pos rfl]

theorem readLoop_upTo {u : InputUnit} {back : List InputUnit} (hunits : units raw s = us ++ u :: back)
    (hline : ∀ v ∈ us ++ [u], v ≠ .newline) (hu : u.char?.isSome)
    (hlength : (delivered (us ++ [u])).length = k) (hk : k ≤ arkshMaxLine - 2) :
    readLoop raw k [] s = readUnits k (delivered (us ++ [u])) back := by
  obtain ⟨c, hc⟩ := Option.isSome_iff_exists.mp hu
  have hlast : delivered (us ++ [u]) = delivered us ++ [c] := by
    rw [delivered_append, delivered_cons, hc]
    rfl
  rw [hlast, length_append, length_singleton] at hlength
  have hfits : lineBuffer ([] ++ delivered us) = delivered us := by
    rw [nil_append]
    exact lineBuffer_of_le (by omega)
  have hread := @readUnits_append k [] (u :: back) _
    (fun v hv => hline v (mem_append_left _ hv)) (by rw [hfits]; omega)
  have hput : putUnit (delivered us) u = delivered us ++ [c] := by
    rw [putUnit, hc]
    exact if_pos (by omega)
  rw [hfits, show lineBuffer [] = [] from rfl, ← hunits, ← readLoop_units, readUnits_cons,
    if_neg (hline u (mem_append_right _ mem_cons_self)), if_neg (by omega), hput] at hread
  rw [hread, hlast]

theorem readUnits_full {line : Text} {u : InputUnit} (hk : 0 < k) (hline : line.length = k) :
    readUnits k line (u :: us) = ⟨line, u.text.tail ++ Input.textOf us, false⟩ := by
  rw [readUnits_cons]
  split
  next h => rw [h]; rfl
  · exact if_pos (by omega)

theorem not_takesExactly_of_upTo {u v : InputUnit} {rest : List InputUnit} (hpos : 0 < k)
    (hunits : units raw s = us ++ u :: v :: rest) (hline : ∀ w ∈ us ++ [u], w ≠ .newline)
    (hu : u.char?.isSome) (hlength : (delivered (us ++ [u])).length = k)
    (hk : k ≤ arkshMaxLine - 2) : ¬ TakesExactly raw k s (readLoop raw k [] s) := by
  rw [readLoop_upTo hunits hline hu hlength hk, readUnits_full hpos hlength]
  replace hunits : units raw s = (us ++ [u]) ++ v :: rest := by
    rw [hunits, append_assoc]
    rfl
  generalize us ++ [u] = ws at hunits hlength
  rintro ⟨taken, left, htaken, hrest, hdelivered, -, hnewline⟩
  rw [hunits] at htaken
  have hv := length_pos_iff.mpr v.text_ne_nil
  have hsame := congrArg (fun us => (Input.textOf us).length) htaken
  have hleft := congrArg List.length hrest
  simp only [textOf_append, textOf_cons, length_append, length_tail] at hsame hleft
  rcases append_eq_append_iff.mp htaken with ⟨more, htake, hmore⟩ | ⟨more, hws, -⟩
  · cases more with
    | nil => rw [htake, append_nil] at hsame; omega
    | cons w more =>
      obtain ⟨rfl, hmore⟩ := cons.inj hmore
      subst htake
      -- the unit behind the last character returned stands for none
      rw [delivered_append, delivered_cons, append_right_eq_self, append_eq_nil_iff] at hdelivered
      cases v with
      | plain c | escaped c => cases hdelivered.1
      | continuation =>
        rw [textOf_append, textOf_cons, length_append, length_append] at hsame
        have htext : (InputUnit.text .continuation).length = 2 := rfl
        omega
      | newline =>
        have hbelow := hnewline (mem_append_right _ mem_cons_self)
        exact absurd hlength (Nat.ne_of_lt hbelow)
  · have hlen : (Input.textOf ws).length = (Input.textOf taken).length + (Input.textOf more).length := by
      rw [hws, textOf_append, length_append]
    omega

theorem takesExactly_iff (hk : 0 < k) :
    TakesExactly raw k s (readLoop raw k [] s) ↔ FewCharacters raw k s := by
  have hbuffer := lineBuffer_length (delivered (Input.firstLine raw s))
  by_cases hbelow : (lineBuffer (delivered (Input.firstLine raw s))).length < k
  · -- the loop does not come to the limit
    obtain ⟨taken, left, hunits, hdelivered, hrest, hread⟩ :=
      @readLoop_firstLine raw s k (fun _ => by omega)
    constructor
    · rintro ⟨taken', left', hunits', hrest', hdelivered', -, -⟩
      have hlengths : (Input.textOf taken).length = (Input.textOf taken').length := by
        have hsame := congrArg (fun us => (Input.textOf us).length) (hunits.symm.trans hunits')
        simp only [textOf_append, length_append] at hsame
        have hleft := congrArg List.length (hrest.symm.trans hrest')
        omega
      rw [← textOf_cut (hunits.symm.trans hunits') hlengths, hdelivered, hread] at hdelivered'
      have hall := congrArg List.length hdelivered'
      exact ⟨by omega, .inl (by omega)⟩
    · rintro ⟨hfits, -⟩
      rw [lineBuffer_of_le hfits] at hread hbelow
      refine ⟨taken, left, hunits, hrest, hdelivered.trans hread.symm, ?_, fun _ => ?_⟩
      · rw [hread]; omega
      · rw [hread]; exact hbelow
  · have hlimit : k ≤ arkshMaxLine - 2 := by omega
    obtain ⟨us, u, rest, hline, hu, hlength⟩ := @exists_upTo k (Input.firstLine raw s) hk (by omega)
    obtain ⟨back, hsplit, -⟩ := firstLine_split raw s
    have hplain : ∀ w ∈ us ++ [u], w ≠ .newline := by
      intro w hw
      refine firstLine_ne raw s w ?_
      rw [hline, append_cons]
      exact mem_append_left _ hw
    have hunits : units raw s = us ++ u :: (rest ++ back) := by
      rw [hsplit, hline, append_assoc, cons_append]
    cases hback : rest ++ back with
    | nil =>
      obtain ⟨rfl, rfl⟩ := append_eq_nil_iff.mp hback
      rw [hback] at hunits
      refine iff_of_true ⟨us ++ [u], [], ?_, ?_, ?_, ?_, ?_⟩ ⟨?_, .inr ⟨?_, ?_, ?_⟩⟩
      · rw [hunits, append_nil]
      · rw [readLoop_upTo hunits hplain hu hlength hlimit]; rfl
      · rw [readLoop_upTo hunits hplain hu hlength hlimit]; rfl
      · rw [readLoop_upTo hunits hplain hu hlength hlimit]; exact Nat.le_of_eq hlength
      · exact fun hmem => absurd rfl (hplain _ hmem)
      · rw [hline, hlength]; exact hlimit
      · rw [hline, hlength]
      · rw [hunits, hline]
      · rw [hunits, getLast?_append]
        rintro ⟨⟩
        cases hu
    | cons v more =>
      rw [hback] at hunits
      refine iff_of_false (not_takesExactly_of_upTo hk hunits hplain hu hlength hlimit) ?_
      rintro ⟨-, hfew⟩
      have hcount : (delivered (Input.firstLine raw s)).length = k + (delivered rest).length := by
        rw [hline, append_cons, delivered_append, length_append, hlength]
      rcases hfew with hfew | ⟨hfew, hall, hlast⟩
      · omega
      · -- what stands behind the last character of the line are continuations
        have hnone : delivered rest = [] := eq_nil_of_length_eq_zero (by omega)
        have hend : back = [] := by rw [hall] at hsplit; exact append_right_eq_self.mp hsplit.symm
        rw [hend, append_nil] at hback
        obtain ⟨w, hw⟩ : ∃ w, (v :: more).getLast? = some w := ⟨_, getLast?_cons⟩
        have hmem : w ∈ rest := by rw [hback]; exact mem_of_getLast? hw
        have hchar : w.char? = none := filterMap_eq_nil_iff.mp hnone w hmem
        have hnewline : w ≠ .newline := by
          refine firstLine_ne raw s w ?_
          rw [hline]
          exact mem_append_right _ (mem_cons_of_mem _ hmem)
        rw [hunits, getLast?_append, getLast?_cons_cons, hw] at hlast
        cases w with
        | plain c | escaped c => cases hchar
        | continuation => exact hlast rfl
        | newline => exact hnewline rfl

end Limit

/-! ## 4. Runs -/

/-- A call: how many characters, the input in front of it, and what the loop leaves. -/
structure ReadCall where
  count : ℕ+
  input : Text
  read : LineRead

/-- Calls of `read -n` on one input. -/
def reads (raw : Bool) : List ℕ+ → Text → List ReadCall
  | [], _ => []
  | k :: ks, s =>
    let read := readLoop raw k [] s
    ⟨k, s, read⟩ :: reads raw ks read.rest

def inputBehind (s : Text) (calls : List ReadCall) : Text :=
  (calls.getLast?.map (·.read.rest)).getD s

/-- Each call takes what it returns, and together they return all, once and in order. -/
structure ReadsLaw (raw : Bool) (ks : List ℕ+) (s : Text) : Prop where
  calls : ∀ call ∈ reads raw ks s, TakesExactly raw call.count call.input call.read
  once : ∃ taken left, units raw s = taken ++ left ∧ inputBehind s (reads raw ks s) = Input.textOf left ∧
    delivered taken = (reads raw ks s).flatMap (·.read.line)

section Runs

variable {raw : Bool} {ks : List ℕ+} {s : Text}

theorem inputBehind_cons (call : ReadCall) (calls : List ReadCall) :
    inputBehind s (call :: calls) = inputBehind call.read.rest calls := by
  cases calls with
  | nil => rfl
  | cons next calls => rw [inputBehind, inputBehind, getLast?_cons_cons, getLast?_cons]; rfl

theorem reads_once (h : ∀ call ∈ reads raw ks s, TakesExactly raw call.count call.input call.read) :
    ∃ taken left, units raw s = taken ++ left ∧ inputBehind s (reads raw ks s) = Input.textOf left ∧
      delivered taken = (reads raw ks s).flatMap (·.read.line) := by
  induction ks generalizing s with
  | nil => exact ⟨[], units raw s, rfl, (units_text raw s).symm, rfl⟩
  | cons k ks ih =>
    obtain ⟨taken, left, hunits, hrest, hdelivered, -, -⟩ := h _ mem_cons_self
    obtain ⟨more, last, hmore, hbehind, hlines⟩ := ih fun call hcall => h call (mem_cons_of_mem _ hcall)
    rw [hrest, units_rest hunits] at hmore
    refine ⟨taken ++ more, last, ?_, ?_, ?_⟩
    · rw [hunits, hmore, append_assoc]
    · rw [reads, inputBehind_cons]; exact hbehind
    · rw [delivered_append, hdelivered, hlines]; rfl

theorem reads_loop {call : ReadCall} (h : call ∈ reads raw ks s) :
    call.read = readLoop raw call.count [] call.input := by
  induction ks generalizing s with
  | nil => cases h
  | cons k ks ih =>
    rcases mem_cons.mp h with rfl | h
    · rfl
    · exact ih h

end Runs

/-- **A run of `read -n` loses nothing exactly if each call finds few characters.** -/
theorem readsLaw_iff (raw : Bool) (ks : List ℕ+) (s : Text) :
    ReadsLaw raw ks s ↔ ∀ call ∈ reads raw ks s, FewCharacters raw call.count call.input := by
  have hcall : ∀ call ∈ reads raw ks s, TakesExactly raw call.count call.input call.read ↔
      FewCharacters raw call.count call.input := by
    intro call hcall
    rw [reads_loop hcall]
    exact takesExactly_iff call.count.pos
  constructor
  · intro hlaw call hmem; exact (hcall call hmem).mp (hlaw.calls call hmem)
  · intro hfew
    have hcalls : ∀ call ∈ reads raw ks s, TakesExactly raw call.count call.input call.read :=
      fun call hmem => (hcall call hmem).mpr (hfew call hmem)
    exact ⟨hcalls, reads_once hcalls⟩

/-- Two calls for one character each return the first and the third. -/
theorem not_readsLaw : ¬ ∀ raw ks s, ReadsLaw raw ks s := by
  intro h
  obtain ⟨taken, left, hunits, hbehind, hlines⟩ := (h true [1, 1] "abc".toList).once
  have hleft : left = [] := by
    cases left with
    | nil => rfl
    | cons u left =>
      have hlength := congrArg List.length hbehind
      rw [textOf_cons, length_append] at hlength
      have hpos := length_pos_iff.mpr u.text_ne_nil
      have hempty : (inputBehind "abc".toList (reads true [1, 1] "abc".toList)).length = 0 := by decide
      omega
  rw [hleft, append_nil] at hunits
  rw [← hunits] at hlines
  revert hlines
  decide

end Arksh
