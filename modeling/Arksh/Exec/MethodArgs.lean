/-
  Subject: Arguments of a method call: `parse_method_args_csv` of the parser beside
           `split_top_level_arguments` of `src/executor.c`.

  The parser reads quotes that no backslash escapes. What it does is said piece by piece: the text
  falls apart at its commas, every character of a piece with whether it is a quotation mark
  (`argPieces`), and a piece is refused where a quotation mark does not fit, and else cut.

  Invariant of its loop: the buffers hold the first 255 characters of the piece, with and without
  its quotation marks, and no quotation mark was dropped.
-/
import Arksh.Exec.Binary
import Arksh.Parse.Split
import Arksh.Parse.TopLevel

namespace Arksh

open CText Scan List Nat
open Function (comp_apply)

/-! ## 1. `split_top_level_arguments` -/

/-- The commas that the loop of `split_top_level_arguments` stops at, from the place `i`. -/
def collectCommas : Nat → List (Char × Bool) → List (Nat × Char)
  | _, [] => []
  | i, (c, top) :: rest =>
    if c = ',' ∧ top = true then (i, c) :: collectCommas (i + 1) rest
    else collectCommas (i + 1) rest

def splitTopLevelArguments (text : Text) (maxParts : Nat) : Option (List Text) :=
  let commas := collectCommas 0 (markedChars ⟨false, false⟩ text)
  if commas.length + 1 > maxParts then none else some (binarySegments text 0 commas)

/-! ## 2. Pieces -/

/-- Characters between two commas, each with whether it is a quotation mark. -/
abbrev ArgPiece := List (Char × Bool)

def argDepths (c : Char) (paren bracket : Nat) : Nat × Nat :=
  if c = '(' then (paren + 1, bracket)
  else if c = ')' ∧ paren > 0 then (paren - 1, bracket)
  else if c = '[' then (paren, bracket + 1)
  else if c = ']' ∧ bracket > 0 then (paren, bracket - 1)
  else (paren, bracket)

def argPieces : Option Char → Nat → Nat → Text → Option (ArgPiece × List ArgPiece)
  | some _, _, _, [] => none
  | none, _, _, [] => some ([], [])
  | some quote, paren, bracket, c :: text =>
    (argPieces (if c = quote then none else some quote) paren bracket text).map fun r =>
      ((c, decide (c = quote)) :: r.1, r.2)
  | none, paren, bracket, c :: text =>
    if c = '"' ∨ c = '\'' then
      (argPieces (some c) paren bracket text).map fun r => ((c, true) :: r.1, r.2)
    else
      let depths := argDepths c paren bracket
      if c = ',' ∧ depths.1 = 0 ∧ depths.2 = 0 then
        (argPieces none depths.1 depths.2 text).map fun r => ([], r.1 :: r.2)
      else
        (argPieces none depths.1 depths.2 text).map fun r => ((c, false) :: r.1, r.2)

/-- What is between the quotation marks. -/
def ArgPiece.content (p : ArgPiece) : Text := (p.filter fun x => !x.2).map Prod.fst

def ArgPiece.text (p : ArgPiece) : Text := p.map Prod.fst

/-- A quotation mark stands behind the characters that fit. -/
def ArgPiece.lateMark (p : ArgPiece) : Bool := (p.drop (arkshMaxToken - 1)).any Prod.snd

def readArgPiece (p : ArgPiece) : Option ParsedArg :=
  if p.lateMark then none
  else
    some (trimCopy arkshMaxToken (p.content.take (arkshMaxToken - 1)),
      trimCopy arkshMaxToken (p.text.take (arkshMaxToken - 1)))

/-- The pieces of a call behind the arguments that are read: empty ones are passed over. -/
def readPieces (args : List ParsedArg) : List ArgPiece → Option (List ParsedArg)
  | [] => some args
  | p :: pieces =>
    if p = [] then readPieces args pieces
    else if args.length ≥ arkshMaxArgs then none
    else (readArgPiece p).bind fun arg => readPieces (args ++ [arg]) pieces

/-! ## 3. The parser, piece by piece -/

variable {p : ArgPiece} {args : List ParsedArg} {s : ArgsState} {pieces : List ArgPiece}

/-- The loop of `parse_method_args_csv` and what is behind it. -/
def ArgsState.run (s : ArgsState) (text : Text) : Option (List ParsedArg) :=
  (text.foldlM ArgsState.step s).bind fun s =>
    if s.quote.isSome then none else s.finish.map ArgsState.args

theorem ArgsState.run_cons (s : ArgsState) (c : Char) (text : Text) :
    s.run (c :: text) = (s.step c).bind fun s => s.run text := by
  rw [ArgsState.run, foldlM_cons]
  cases s.step c <;> rfl

structure ArgsState.Holds (s : ArgsState) (p : ArgPiece) : Prop where
  token : s.token = p.content.take (arkshMaxToken - 1)
  raw : s.raw = p.text.take (arkshMaxToken - 1)
  sawAny : s.sawAny = !p.isEmpty
  inTime : p.lateMark = false
  opened : s.quote.isSome = true → p ≠ []

theorem ArgPiece.content_concat (p : ArgPiece) (c : Char) (mark : Bool) :
    ArgPiece.content (p ++ [(c, mark)]) = p.content ++ (if mark then [] else [c]) := by
  cases mark <;> simp [ArgPiece.content]

theorem ArgPiece.text_concat (p : ArgPiece) (x : Char × Bool) :
    ArgPiece.text (p ++ [x]) = p.text ++ [x.1] := by
  simp [ArgPiece.text]

theorem ArgPiece.length_content_le (p : ArgPiece) : p.content.length ≤ p.length := by
  rw [ArgPiece.content, length_map]
  exact length_filter_le _ _

theorem pushIfRoom_take (buf : Text) (c : Char) :
    pushIfRoom (buf.take (arkshMaxToken - 1)) c = (buf ++ [c]).take (arkshMaxToken - 1) := by
  have hmax : arkshMaxToken - 1 = 255 := rfl
  unfold pushIfRoom appendChar
  rw [hmax, length_take]
  by_cases hfull : 255 ≤ buf.length
  · rw [if_pos (by rw [arkshMaxToken]; omega), take_append_of_le_length hfull]; rfl
  · rw [if_neg (by rw [arkshMaxToken]; omega), take_of_length_le (by omega),
      take_of_length_le (by rw [length_append, length_singleton]; omega)]
    rfl

theorem appendChar_take (buf : Text) (c : Char) :
    appendChar arkshMaxToken (buf.take (arkshMaxToken - 1)) c =
      if buf.length < arkshMaxToken - 1 then some (buf ++ [c]) else none := by
  have hmax : arkshMaxToken - 1 = 255 := rfl
  unfold appendChar
  rw [hmax, length_take]
  by_cases hfull : 255 ≤ buf.length
  · rw [if_pos (by rw [arkshMaxToken]; omega), if_neg (by omega)]
  · rw [if_neg (by rw [arkshMaxToken]; omega), if_pos (by omega), take_of_length_le (by omega)]

theorem ArgPiece.lateMark_append (p q : ArgPiece) :
    ArgPiece.lateMark (p ++ q) = (p.lateMark || (q.drop (arkshMaxToken - 1 - p.length)).any Prod.snd) := by
  rw [ArgPiece.lateMark, drop_append, any_append, ArgPiece.lateMark]

theorem ArgPiece.lateMark_of_long {p q : ArgPiece} (hp : arkshMaxToken - 1 ≤ p.length)
    (hq : q.any Prod.snd = true) : ArgPiece.lateMark (p ++ q) = true := by
  rw [ArgPiece.lateMark_append, Nat.sub_eq_zero_of_le hp, drop_zero, hq, Bool.or_true]

theorem ArgPiece.lateMark_of_short (x : Char × Bool) (hp : p.length < arkshMaxToken - 1) :
    ArgPiece.lateMark (p ++ [x]) = false := by
  rw [ArgPiece.lateMark, drop_eq_nil_of_le]
  · rfl
  · rw [length_append, length_singleton]; omega

theorem readPieces_late (hne : p ≠ []) (hlate : p.lateMark = true) :
    readPieces args (p :: pieces) = none := by
  rw [readPieces, if_neg hne, readArgPiece, if_pos hlate]
  split <;> rfl

variable {quote c : Char} {r : ArgPiece × List ArgPiece}

theorem argPieces_closes {paren bracket : Nat} {text : Text}
    (h : argPieces (some quote) paren bracket text = some r) : r.1.any Prod.snd = true := by
  induction text generalizing r with
  | nil => cases h
  | cons c text ih =>
    obtain ⟨r', hr', rfl⟩ := Option.map_eq_some_iff.mp h
    rw [any_cons]
    by_cases hc : c = quote
    · simp [hc]
    · rw [if_neg hc] at hr'; rw [ih hr', Bool.or_true]

theorem ArgsState.run_full (hquote : s.quote = some quote)
    (hfull : ∀ c, appendChar arkshMaxToken s.raw c = none) (text : Text) : s.run text = none := by
  induction text with
  | nil =>
    show (if s.quote.isSome then none else _) = none
    rw [hquote]
    rfl
  | cons c text ih =>
    rw [ArgsState.run_cons]
    unfold ArgsState.step
    rw [hquote]
    dsimp only
    rw [hfull]
    split
    · rfl
    · split
      · rename_i heq; cases heq
      · exact ih

variable {s s' : ArgsState}

theorem ArgsState.Holds.push (h : s.Holds p)
    (htoken : s'.token = (p.content ++ [c]).take (arkshMaxToken - 1))
    (hraw : s'.raw = (p.text ++ [c]).take (arkshMaxToken - 1)) (hany : s'.sawAny = true) :
    s'.Holds (p ++ [(c, false)]) where
  token := by
    rw [htoken, ArgPiece.content_concat]
    rfl
  raw := by rw [hraw, ArgPiece.text_concat]
  sawAny := by
    rw [hany]
    simp
  inTime := by
    rw [ArgPiece.lateMark_append, h.inTime, Bool.false_or, any_eq_false]
    intro x hx
    obtain rfl := mem_singleton.mp (mem_of_mem_drop hx)
    exact Bool.false_ne_true
  opened _ := by simp

theorem ArgsState.Holds.mark (h : s.Holds p) (hshort : p.length < arkshMaxToken - 1)
    (htoken : s'.token = s.token) (hraw : s'.raw = p.text ++ [c]) (hany : s'.sawAny = true) :
    s'.Holds (p ++ [(c, true)]) where
  token := by
    rw [htoken, h.token, ArgPiece.content_concat, if_pos rfl, append_nil]
  raw := by
    rw [hraw, ArgPiece.text_concat, take_of_length_le]
    rw [length_append, length_singleton, ArgPiece.text, length_map]
    omega
  sawAny := by
    rw [hany]
    simp
  inTime := ArgPiece.lateMark_of_short _ hshort
  opened _ := by simp

theorem ArgsState.holds_nil (hquote : s.quote = none) (htoken : s.token = []) (hraw : s.raw = [])
    (hany : s.sawAny = false) : s.Holds [] where
  token := by
    rw [htoken]
    rfl
  raw := by
    rw [hraw]
    rfl
  sawAny := hany
  inTime := rfl
  opened hopen := by
    rw [hquote] at hopen
    cases hopen

theorem ArgsState.Holds.appendRaw (h : s.Holds p) (c : Char) : appendChar arkshMaxToken s.raw c =
      if p.length < arkshMaxToken - 1 then some (p.text ++ [c]) else none := by
  rw [h.raw, appendChar_take, ArgPiece.text, length_map]

theorem ArgsState.Holds.finish (h : s.Holds p) (pieces : List ArgPiece) :
    readPieces s.args (p :: pieces) = s.finish.bind fun s' => readPieces s'.args pieces := by
  rw [readPieces, ArgsState.finish, h.sawAny]
  by_cases hp : p = []
  · rw [if_pos hp, hp]; rfl
  · have hany : ¬ (!p.isEmpty) = false := by simpa using hp
    rw [if_neg hp, if_neg hany]
    split
    · rfl
    · rw [readArgPiece, if_neg (by rw [h.inTime]; exact Bool.false_ne_true), h.token, h.raw]; rfl

theorem ArgsState.Holds.finished (h : s.Holds p) (hquote : s.quote = none)
    (hfinish : s.finish = some s') :
    s'.Holds [] ∧ s'.quote = s.quote ∧ s'.paren = s.paren ∧ s'.bracket = s.bracket := by
  unfold ArgsState.finish at hfinish
  split at hfinish
  · rename_i hany
    obtain rfl := Option.some.inj hfinish
    refine ⟨?_, rfl, rfl, rfl⟩
    rw [h.sawAny] at hany
    have hp : p = [] := by simpa using hany
    rw [hp] at h
    exact h
  · split at hfinish
    · cases hfinish
    · obtain rfl := Option.some.inj hfinish
      exact ⟨ArgsState.holds_nil hquote rfl rfl rfl, rfl, rfl, rfl⟩

theorem ArgsState.step_plain (hquote : s.quote = none) (hc : ¬ (c = '"' ∨ c = '\'')) :
    s.step c =
      let depths := argDepths c s.paren s.bracket
      let s := { s with paren := depths.1, bracket := depths.2 }
      if c = ',' ∧ depths.1 = 0 ∧ depths.2 = 0 then s.finish
      else
        some { s with token := pushIfRoom s.token c, raw := pushIfRoom s.raw c, sawAny := true } := by
  obtain ⟨quote, paren, bracket, token, raw, sawAny, args⟩ := s
  obtain rfl : quote = none := hquote
  unfold ArgsState.step argDepths
  split_ifs <;> rfl

theorem bind_consPiece {β : Type} (pieces : Option (ArgPiece × List ArgPiece)) (p : ArgPiece)
    (x : Char × Bool) (f : ArgPiece → List ArgPiece → Option β) :
    ((pieces.map fun r => (x :: r.1, r.2)).bind fun r => f (p ++ r.1) r.2) =
      pieces.bind fun r => f ((p ++ [x]) ++ r.1) r.2 := by
  rw [Option.bind_map]
  congr 1
  funext r
  rw [comp_apply, append_assoc, singleton_append]

/-- **The parser does what is said piece by piece.** -/
theorem ArgsState.Holds.run (h : s.Holds p) (text : Text) :
    s.run text = (argPieces s.quote s.paren s.bracket text).bind fun r =>
      readPieces s.args ((p ++ r.1) :: r.2) := by
  induction text generalizing s p with
  | nil =>
    show (if s.quote.isSome then none else s.finish.map ArgsState.args) = _
    cases hquote : s.quote with
    | some quote => rfl
    | none => rw [argPieces, Option.bind_some, append_nil, h.finish]; exact Option.map_eq_bind
  | cons c text ih =>
    rw [ArgsState.run_cons]
    cases hquote : s.quote with
    | some quote =>
      have hne : p ≠ [] := h.opened (by rw [hquote]; rfl)
      have hany : s.sawAny = true := by rw [h.sawAny]; simpa using hne
      rw [argPieces, bind_consPiece (f := fun p ps => readPieces s.args (p :: ps))]
      by_cases hshort : p.length < arkshMaxToken - 1
      · unfold ArgsState.step
        rw [hquote]
        dsimp only
        rw [h.appendRaw, if_pos hshort]
        by_cases hc : c = quote
        · -- the quotation mark that closes
          rw [if_pos hc, if_pos hc, decide_eq_true hc]
          exact ih (h.mark hshort rfl rfl hany)
        · have hcontent : p.content.length < arkshMaxToken - 1 :=
            p.length_content_le.trans_lt hshort
          rw [if_neg hc, if_neg hc, decide_eq_false hc, h.token, appendChar_take, if_pos hcontent]
          have htext : p.text.length < arkshMaxToken - 1 := by rwa [ArgPiece.text, length_map]
          have hfits : ∀ {t : Text}, t.length < arkshMaxToken - 1 →
              t ++ [c] = (t ++ [c]).take (arkshMaxToken - 1) := by
            intro t ht
            rw [take_of_length_le]
            rw [length_append, length_singleton]
            exact ht
          exact ih (h.push (hfits hcontent) (hfits htext) rfl)
      · -- the buffer is full: the quote is not closed in time
        have hfull : ∀ d, appendChar arkshMaxToken s.raw d = none :=
          fun d => by rw [h.appendRaw, if_neg hshort]
        rw [← ArgsState.run_cons, ArgsState.run_full hquote hfull]
        cases hpieces : argPieces (if c = quote then none else some quote) s.paren s.bracket text with
        | none => rfl
        | some r =>
          have hlate : ArgPiece.lateMark ((p ++ [(c, decide (c = quote))]) ++ r.1) = true := by
            rw [append_assoc]
            refine ArgPiece.lateMark_of_long (not_lt.mp hshort) ?_
            rw [any_append, any_cons, any_nil, Bool.or_false]
            by_cases hc : c = quote
            · rw [decide_eq_true hc, Bool.true_or]
            · rw [if_neg hc] at hpieces; rw [argPieces_closes hpieces, Bool.or_true]
          exact (readPieces_late (by simp) hlate).symm
    | none =>
      rw [argPieces]
      by_cases hc : c = '"' ∨ c = '\''
      · rw [if_pos hc, bind_consPiece (f := fun p ps => readPieces s.args (p :: ps))]
        unfold ArgsState.step
        rw [hquote]
        rw [if_pos hc, h.appendRaw]
        by_cases hshort : p.length < arkshMaxToken - 1
        · -- the quotation mark that opens
          rw [if_pos hshort]
          exact ih (h.mark hshort rfl rfl rfl)
        · rw [if_neg hshort]
          cases hpieces : argPieces (some c) s.paren s.bracket text with
          | none => rfl
          | some r =>
            have hlate : ArgPiece.lateMark ((p ++ [(c, true)]) ++ r.1) = true := by
              rw [append_assoc]
              exact ArgPiece.lateMark_of_long (not_lt.mp hshort) rfl
            exact (readPieces_late (by simp) hlate).symm
      · rw [ArgsState.step_plain hquote hc, if_neg hc]
        dsimp only
        have hdepths : ({ s with
            paren := (argDepths c s.paren s.bracket).1
            bracket := (argDepths c s.paren s.bracket).2 } : ArgsState).Holds p :=
          ⟨h.token, h.raw, h.sawAny, h.inTime, h.opened⟩
        split
        · -- a comma ends the piece
          rw [Option.bind_map]
          cases hfinish : ArgsState.finish { s with
              paren := (argDepths c s.paren s.bracket).1
              bracket := (argDepths c s.paren s.bracket).2 } with
          | none =>
            symm
            refine Option.bind_eq_none_iff.mpr fun r _ => ?_
            have hread := hdepths.finish (r.1 :: r.2)
            rw [hfinish] at hread
            rw [comp_apply, append_nil]
            exact hread
          | some s' =>
            obtain ⟨hnil, hquote', hparen, hbracket⟩ := hdepths.finished hquote hfinish
            rw [Option.bind_some, ih hnil, hquote', hparen, hbracket, hquote]
            congr 1
            funext r
            have hread := hdepths.finish (r.1 :: r.2)
            rw [hfinish] at hread
            rw [comp_apply, append_nil]
            exact hread.symm
        · rw [bind_consPiece (f := fun p ps => readPieces s.args (p :: ps)), ← hquote]
          refine ih (hdepths.push ?_ ?_ rfl)
          · show pushIfRoom s.token c = _; rw [h.token, pushIfRoom_take]
          · show pushIfRoom s.raw c = _; rw [h.raw, pushIfRoom_take]

theorem parseMethodArgsCsv_eq (text : Text) :
    parseMethodArgsCsv text = (argPieces none 0 0 text).bind fun r =>
      readPieces [] (r.1 :: r.2) := by
  exact (ArgsState.holds_nil (s := ⟨none, 0, 0, [], [], false, []⟩) rfl rfl rfl rfl).run text

/-! ## 4. Arguments as they are written -/

structure QuotedChar where
  escaped : Bool
  char : Char
  plain : escaped = false → char ≠ '"' ∧ char ≠ '\\'

def QuotedChar.text (q : QuotedChar) : Text := if q.escaped then ['\\', q.char] else [q.char]

/-- What is written between the quotation marks. -/
def quotedBody (chars : List QuotedChar) : Text := chars.flatMap QuotedChar.text

variable {bufs : Buffers}

theorem pushRaw_fits (h : bufs.raw.1.length + 1 < arkshMaxToken) (c : Char) :
    ∃ b, bufs.pushRaw [c] = .ok b ∧ b.raw.1 = bufs.raw.1 ++ [c] ∧ b.cooked = bufs.cooked := by
  rw [Buffers.pushRaw, appendTokenText, appendTokenChar, dif_pos h]
  exact ⟨_, rfl, rfl, rfl⟩

theorem pushCooked_fits (h : bufs.cooked.1.length + 1 < arkshMaxToken) (label : String) (c : Char) :
    ∃ b, bufs.pushCooked label [c] = .ok b ∧ b.cooked.1 = bufs.cooked.1 ++ [c] ∧
      b.raw = bufs.raw := by
  rw [Buffers.pushCooked, appendTokenText, appendTokenChar, dif_pos h]
  exact ⟨_, rfl, rfl, rfl⟩

/-- A character that is written between double quotes is read in one turn. -/
theorem quoteScanner_quotedChar {q : QuotedChar}
    (hraw : bufs.raw.1.length + q.text.length < arkshMaxToken)
    (hcooked : bufs.cooked.1.length + 1 < arkshMaxToken) (rest : Text) :
    ∃ bufs' : Buffers, bufs'.raw.1 = bufs.raw.1 ++ q.text ∧
      bufs'.cooked.1 = bufs.cooked.1 ++ [q.char] ∧
      (quoteScanner '"').run bufs (q.text ++ rest) = (quoteScanner '"').run bufs' rest := by
  obtain ⟨escaped, c, hplain⟩ := q
  cases escaped with
  | true =>
    have hlen : bufs.raw.1.length + 2 < arkshMaxToken := hraw
    obtain ⟨b₁, h₁, hraw₁, hcooked₁⟩ := @pushRaw_fits bufs (by omega) '\\'
    obtain ⟨b₂, h₂, hraw₂, hcooked₂⟩ := @pushRaw_fits b₁ (by rw [hraw₁]; simp; omega) c
    obtain ⟨b₃, h₃, hcooked₃, hraw₃⟩ := @pushCooked_fits b₂ (by rwa [hcooked₂, hcooked₁])
      "string token" c
    refine ⟨b₃, ?_, by rw [hcooked₃, hcooked₂, hcooked₁], Scanner.run_more _ ?_⟩
    · rw [hraw₃, hraw₂, hraw₁, append_assoc]; rfl
    · show (bufs.pushRaw ['\\']).bind _ = _
      rw [h₁]
      show (b₁.pushRaw [c]).bind _ = _
      rw [h₂]
      show (b₂.pushCooked _ [c]).bind _ = _
      rw [h₃]
      rfl
  | false =>
    obtain ⟨hquote, hslash⟩ := hplain rfl
    obtain ⟨b₁, h₁, hraw₁, hcooked₁⟩ := pushRaw_fits hraw c
    obtain ⟨b₂, h₂, hcooked₂, hraw₂⟩ := @pushCooked_fits b₁ (by rwa [hcooked₁]) "string token" c
    refine ⟨b₂, by rw [hraw₂, hraw₁]; rfl, by rw [hcooked₂, hcooked₁], Scanner.run_more _ ?_⟩
    show quoteStep '"' bufs c rest = _
    rw [quoteStep, if_neg hquote, if_neg fun hboth => hslash hboth.2, h₁]
    show (b₁.pushCooked _ [c]).bind _ = _
    rw [h₂]
    rfl

/-- **What is written between double quotes is read as its characters**, if the buffers have
    room. -/
theorem quoteScanner_quotedBody {chars : List QuotedChar}
    (hraw : bufs.raw.1.length + (quotedBody chars).length + 1 < arkshMaxToken)
    (hcooked : bufs.cooked.1.length + chars.length < arkshMaxToken) (rest : Text) :
    ∃ bufs' : Buffers, bufs'.raw.1 = bufs.raw.1 ++ (quotedBody chars ++ ['"']) ∧
      bufs'.cooked.1 = bufs.cooked.1 ++ chars.map QuotedChar.char ∧
      (quoteScanner '"').run bufs (quotedBody chars ++ '"' :: rest) = .ok (bufs', rest) := by
  induction chars generalizing bufs with
  | nil =>
    obtain ⟨b, h, hraw', hcooked'⟩ := pushRaw_fits hraw '"'
    refine ⟨b, hraw', by rw [hcooked', map_nil, append_nil], ?_⟩
    have hstep : (quoteScanner '"').step bufs '"' rest = .ok (.stop b rest) := by
      show (bufs.pushRaw ['"']).bind _ = _
      rw [h]
      rfl
    rw [quotedBody, flatMap_nil, nil_append, Scanner.run_cons, hstep]
  | cons q chars ih =>
    have hbody : quotedBody (q :: chars) = q.text ++ quotedBody chars := flatMap_cons
    rw [hbody, length_append] at hraw
    rw [length_cons] at hcooked
    obtain ⟨b, hraw', hcooked', hstep⟩ := @quoteScanner_quotedChar bufs q (by omega) (by omega)
      (quotedBody chars ++ '"' :: rest)
    obtain ⟨b', hraw'', hcooked'', hrun⟩ := @ih b (by rw [hraw', length_append]; omega)
      (by rw [hcooked', length_append, length_singleton]; omega)
    refine ⟨b', ?_, by rw [hcooked'', hcooked', append_assoc]; rfl, ?_⟩
    · rw [hraw'', hraw', hbody, append_assoc, append_assoc]
    · rw [hbody, append_assoc, hstep, hrun]

/-- `"\"a"` and what stands behind it. -/
theorem quoteScanner_quotedBody_escaped : ∃ bufs : Buffers, bufs.raw.1 = "\\\"a\"".toList ∧
    bufs.cooked.1 = ['"', 'a'] ∧
      (quoteScanner '"').run default "\\\"a\" b".toList = .ok (bufs, " b".toList) :=
  @quoteScanner_quotedBody default [⟨true, '"', nofun⟩, ⟨false, 'a', fun _ => by decide⟩]
    (by decide) (by decide) " b".toList

def isArgChar (c : Char) : Bool := isPlainChar c && c ≠ ','

/-- An argument of a method call: a plain one has no white space at its ends and is not empty. -/
inductive MethodArg where
  | plain (text : Text) (nonempty : text ≠ []) (chars : ∀ c ∈ text, isArgChar c = true)
      (trimmed : trimText text = text)
  | quoted (chars : List QuotedChar)

/-- The argument. -/
def MethodArg.text : MethodArg → Text
  | .plain text _ _ _ => text
  | .quoted chars => chars.map QuotedChar.char

/-- The argument as it stands in the call. -/
def MethodArg.written : MethodArg → Text
  | .plain text _ _ _ => text
  | .quoted chars => '"' :: (quotedBody chars ++ ['"'])

/-- Arguments with commas between them. -/
def joinArgs : List MethodArg → Text
  | [] => []
  | [arg] => arg.written
  | arg :: args => arg.written ++ ',' :: joinArgs args

/-- The arguments come back, a list that does not fit is refused, and the executor finds as many
    pieces. -/
structure MethodArgsLaw (args : List MethodArg) : Prop where
  returned : args.length ≤ 8 → (∀ arg ∈ args, arg.text.length < arkshMaxToken) →
    (parseMethodArgsCsv (joinArgs args)).map (List.map Prod.fst) = some (args.map MethodArg.text)
  refused : (arkshMaxArgs < args.length ∨ ∃ arg ∈ args, arkshMaxToken ≤ arg.text.length) →
    parseMethodArgsCsv (joinArgs args) = none
  pieces : args.length ≤ 8 → (∀ arg ∈ args, arg.text.length < arkshMaxToken) →
    ∃ parts, splitTopLevelArguments (joinArgs args) arkshMaxArgs = some parts ∧
      parts.length = args.length

/-- An argument that comes back: between quotes there is no backslash, no white space at the ends,
    and room for the quotation marks. -/
def MethodArg.Returned : MethodArg → Prop
  | .plain _ _ _ _ => True
  | .quoted chars => (∀ q ∈ chars, q.escaped = false) ∧
      trimText (chars.map QuotedChar.char) = chars.map QuotedChar.char ∧
      chars.length + 2 < arkshMaxToken

/-- Read with quotes that no backslash escapes, a text has an open quote, too many pieces, or a
    quotation mark that does not fit. -/
def ArgsRefused (text : Text) : Prop :=
  match argPieces none 0 0 text with
  | none => True
  | some r => arkshMaxArgs < ((r.1 :: r.2).filter fun p => !p.isEmpty).length ∨
      ∃ p ∈ r.1 :: r.2, p.lateMark = true

/-- The exact condition. -/
structure MethodArgsFit (args : List MethodArg) : Prop where
  returned : args.length ≤ 8 → (∀ arg ∈ args, arg.text.length < arkshMaxToken) →
    args ≠ [] ∧ ∀ arg ∈ args, arg.Returned
  refused : (arkshMaxArgs < args.length ∨ ∃ arg ∈ args, arkshMaxToken ≤ arg.text.length) →
    ArgsRefused (joinArgs args)

theorem joinArgs_cons (arg : MethodArg) {args : List MethodArg} (h : args ≠ []) :
    joinArgs (arg :: args) = arg.written ++ ',' :: joinArgs args := by
  cases args with
  | nil => exact (h rfl).elim
  | cons arg' args => rfl

/-! ## 5. The executor -/

theorem length_collectCommas (i : Nat) (marked : List (Char × Bool)) :
    (collectCommas i marked).length = marked.countP (· = (',', true)) := by
  induction marked generalizing i with
  | nil => rfl
  | cons x marked ih =>
    obtain ⟨c, top⟩ := x
    rw [collectCommas, countP_cons]
    by_cases h : c = ',' ∧ top = true
    · rw [if_pos h, length_cons, ih, if_pos (by simp [h])]
    · rw [if_neg h, ih, if_neg (by simpa using h)]; rfl

theorem marked_quotedBody (chars : List QuotedChar) :
    TopScan.after ⟨.double, false, 0, 0⟩ (quotedBody chars) = ⟨.double, false, 0, 0⟩ ∧
      ∀ x ∈ TopScan.marked ⟨.double, false, 0, 0⟩ (quotedBody chars), x.2 = false := by
  induction chars with
  | nil => exact ⟨rfl, fun x hx => nomatch hx⟩
  | cons q chars ih =>
    obtain ⟨hafter, hmarked⟩ := ih
    have hitem : TopScan.after ⟨.double, false, 0, 0⟩ q.text = ⟨.double, false, 0, 0⟩ ∧
        ∀ x ∈ TopScan.marked ⟨.double, false, 0, 0⟩ q.text, x.2 = false := by
      obtain ⟨escaped, c, hplain⟩ := q
      cases escaped with
      | true => exact ⟨rfl, by simp [QuotedChar.text, TopScan.marked, TopScan.marks, TopScan.looks,
          TopScan.next, TopScan.start]⟩
      | false =>
        obtain ⟨h1, h2⟩ := hplain rfl
        simp [QuotedChar.text, TopScan.after, TopScan.marked, TopScan.marks, TopScan.looks,
          TopScan.next, TopScan.start, h1, h2]
    rw [quotedBody, flatMap_cons, TopScan.after_append, TopScan.marked_append, hitem.1]
    refine ⟨hafter, fun x hx => ?_⟩
    rcases mem_append.mp hx with hx | hx
    · exact hitem.2 x hx
    · exact hmarked x hx

theorem MethodArg.closed (arg : MethodArg) :
    ClosedText arg.written ∧ (markedChars ⟨false, false⟩ arg.written).countP (· = (',', true)) = 0 := by
  cases arg with
  | plain text nonempty chars trimmed =>
    have hplain : ∀ c ∈ text, isPlainChar c = true := by
      intro c hc
      have := chars c hc
      rw [isArgChar, Bool.and_eq_true] at this
      exact this.1
    refine ⟨closed_of_plain hplain, ?_⟩
    rw [MethodArg.written, markedChars_of_plain hplain, countP_eq_zero]
    intro x hx
    obtain ⟨c, hc, rfl⟩ := mem_map.mp hx
    have := chars c hc
    simp only [isArgChar, Bool.and_eq_true, decide_eq_true_eq] at this
    simpa using this.2
  | quoted chars =>
    obtain ⟨hafter, hmarked⟩ := marked_quotedBody chars
    have hopen : TopScan.start.next '"' = ⟨.double, false, 0, 0⟩ := rfl
    constructor
    · rw [ClosedText, MethodArg.written, TopScan.after, foldl_cons, hopen]
      show TopScan.after _ _ = _
      rw [TopScan.after_append, hafter]
      rfl
    · rw [MethodArg.written, markedChars_eq, TopScan.marked_cons, hopen, TopScan.marked_append,
        hafter, countP_eq_zero]
      intro x hx
      have hfalse : x.2 = false := by
        rcases mem_cons.mp hx with rfl | hx
        · rfl
        rcases mem_append.mp hx with hx | hx
        · exact hmarked x hx
        · obtain rfl := mem_singleton.mp hx; rfl
      obtain ⟨c, top⟩ := x
      obtain rfl : top = false := hfalse
      simp

theorem countP_joinArgs (args : List MethodArg) :
    (markedChars ⟨false, false⟩ (joinArgs args)).countP (· = (',', true)) = args.length - 1 := by
  induction args with
  | nil => rfl
  | cons arg args ih =>
    obtain ⟨hclosed, hcount⟩ := arg.closed
    by_cases hargs : args = []
    · subst hargs; exact hcount
    · have hpos : 0 < args.length := length_pos_iff.mpr hargs
      have hcomma : ClosedText [','] := by decide
      rw [joinArgs_cons arg hargs, markedChars_append hclosed, countP_append, hcount,
        ← singleton_append, markedChars_append hcomma, countP_append, ih, length_cons]
      have hone : (markedChars ⟨false, false⟩ [',']).countP (· = (',', true)) = 1 := by decide
      omega

theorem splitTopLevelArguments_joinArgs {args : List MethodArg} (h : args.length ≤ 8) :
    ∃ parts, splitTopLevelArguments (joinArgs args) arkshMaxArgs = some parts ∧
      parts.length = args.length - 1 + 1 := by
  have hmax : arkshMaxArgs = 16 := rfl
  have hlen := length_collectCommas 0 (markedChars ⟨false, false⟩ (joinArgs args))
  rw [countP_joinArgs] at hlen
  refine ⟨_, if_neg (by omega), ?_⟩
  rw [length_binarySegments, hlen]

/-! ## 6. The pieces of a call -/

variable {arg : MethodArg}

/-- A part of a piece that is no quotation mark. -/
def unmarked (text : Text) : ArgPiece := text.map (·, false)

theorem content_append (p q : ArgPiece) : ArgPiece.content (p ++ q) = p.content ++ q.content := by
  simp [ArgPiece.content]

theorem content_unmarked (text : Text) : ArgPiece.content (unmarked text) = text := by
  induction text with
  | nil => rfl
  | cons c text ih => exact congrArg (c :: ·) ih

theorem argPieces_plain {text : Text} (h : ∀ c ∈ text, isArgChar c = true) (rest : Text) :
    argPieces none 0 0 (text ++ rest) = (argPieces none 0 0 rest).map fun r =>
      (unmarked text ++ r.1, r.2) := by
  induction text with
  | nil => exact Option.map_id'.symm
  | cons c text ih =>
    have hc := h c mem_cons_self
    simp only [isArgChar, isPlainChar, Bool.and_eq_true, decide_eq_true_eq] at hc
    obtain ⟨⟨⟨⟨⟨⟨h1, h2⟩, h3⟩, h4⟩, h5⟩, h6⟩, h7⟩ := hc
    have hdepths : argDepths c 0 0 = (0, 0) := by simp [argDepths, h3, h5]
    rw [cons_append, argPieces, if_neg (not_or.mpr ⟨h1, h2⟩), hdepths]
    rw [if_neg fun hcomma => h7 hcomma.1, ih fun d hd => h d (mem_cons_of_mem _ hd), Option.map_map]
    rfl

theorem argPieces_quote {text : Text} (h : '"' ∉ text) (rest : Text) :
    argPieces (some '"') 0 0 (text ++ '"' :: rest) = (argPieces none 0 0 rest).map fun r =>
      (unmarked text ++ ('"', true) :: r.1, r.2) := by
  induction text with
  | nil => rw [nil_append, argPieces, if_pos rfl]; rfl
  | cons c text ih =>
    rw [mem_cons, not_or] at h
    obtain ⟨hc, htext⟩ := h
    rw [cons_append, argPieces, if_neg (Ne.symm hc), decide_eq_false (Ne.symm hc), ih htext,
      Option.map_map]
    rfl

def MethodArg.piece : MethodArg → ArgPiece
  | .plain text _ _ _ => unmarked text
  | .quoted chars => ('"', true) :: (unmarked (chars.map QuotedChar.char) ++ [('"', true)])

/-- No character of an argument stands behind a backslash. -/
def MethodArg.Unescaped : MethodArg → Prop
  | .plain _ _ _ _ => True
  | .quoted chars => ∀ q ∈ chars, q.escaped = false

theorem quotedBody_unescaped (h : ∀ q ∈ chars, q.escaped = false) :
    quotedBody chars = chars.map QuotedChar.char ∧ '"' ∉ chars.map QuotedChar.char := by
  induction chars with
  | nil => exact ⟨rfl, not_mem_nil⟩
  | cons q chars ih =>
    obtain ⟨htext, hquote⟩ := ih fun q hq => h q (mem_cons_of_mem _ hq)
    have hq := h q mem_cons_self
    constructor
    · rw [quotedBody, flatMap_cons, map_cons, ← htext, QuotedChar.text, if_neg (by simp [hq])]; rfl
    · rw [map_cons, mem_cons, not_or]; exact ⟨Ne.symm (q.plain hq).1, hquote⟩

theorem argPieces_written (h : arg.Unescaped) (rest : Text) :
    argPieces none 0 0 (arg.written ++ rest) = (argPieces none 0 0 rest).map fun r =>
      (arg.piece ++ r.1, r.2) := by
  cases arg with
  | plain text nonempty chars trimmed => exact argPieces_plain chars rest
  | quoted chars =>
    obtain ⟨hbody, hquote⟩ := quotedBody_unescaped h
    rw [MethodArg.written, hbody, cons_append, append_assoc, singleton_append,
      argPieces, if_pos (.inl rfl), argPieces_quote hquote, Option.map_map]
    congr 1
    funext r
    simp [MethodArg.piece]

theorem MethodArg.piece_content (arg : MethodArg) : arg.piece.content = arg.text := by
  cases arg with
  | plain text nonempty chars trimmed => exact content_unmarked text
  | quoted chars =>
    show ArgPiece.content ([('"', true)] ++ (unmarked _ ++ [('"', true)])) = _
    rw [content_append, content_append, content_unmarked]
    exact append_nil _

theorem MethodArg.piece_ne_nil (arg : MethodArg) : arg.piece ≠ [] := by
  cases arg with
  | plain text nonempty chars trimmed => exact fun h => nonempty (map_eq_nil_iff.mp h)
  | quoted chars => exact cons_ne_nil _ _

theorem argPieces_joinArgs (h : arg.Unescaped) (args : List MethodArg) :
    argPieces none 0 0 (joinArgs (arg :: args)) = if args = [] then some (arg.piece, [])
      else (argPieces none 0 0 (joinArgs args)).map fun r => (arg.piece, r.1 :: r.2) := by
  by_cases hargs : args = []
  · subst hargs
    have hone := argPieces_written h []
    rw [append_nil] at hone
    rw [if_pos rfl, joinArgs, hone]
    show some (arg.piece ++ [], []) = _
    rw [append_nil]
  · rw [if_neg hargs, joinArgs_cons arg hargs, argPieces_written h, argPieces, if_neg (by decide)]
    rw [if_pos (by decide), Option.map_map]
    congr 1
    funext r
    rw [comp_apply, append_nil]

/-! ## 7. What is read of an argument -/

theorem trimCopy_take (text : Text) (h : text.length < arkshMaxToken) :
    trimCopy arkshMaxToken (text.take (arkshMaxToken - 1)) = trimText text := by
  rw [take_of_length_le (by omega), trimCopy]
  exact copyString_of_lt ((trimText_length_le _).trans_lt h)

theorem MethodArg.piece_lateMark (arg : MethodArg) : arg.piece.lateMark = true ↔
    ∃ chars, arg = .quoted chars ∧ arkshMaxToken ≤ chars.length + 2 := by
  cases arg with
  | plain text nonempty chars trimmed =>
    refine iff_of_false (fun hlate => ?_) fun ⟨_, heq, _⟩ => nomatch heq
    obtain ⟨x, hx, hmark⟩ := any_eq_true.mp hlate
    obtain ⟨c, -, rfl⟩ := mem_map.mp (mem_of_mem_drop hx)
    cases hmark
  | quoted chars =>
    have hlen : List.length (('"', true) :: unmarked (chars.map QuotedChar.char)) =
        chars.length + 1 := by
      rw [length_cons, unmarked, length_map, length_map]
    rw [MethodArg.piece, ← cons_append]
    by_cases hlong : arkshMaxToken ≤ chars.length + 2
    · exact iff_of_true (ArgPiece.lateMark_of_long (by rw [hlen]; omega) rfl) ⟨chars, rfl, hlong⟩
    · rw [ArgPiece.lateMark_of_short _ (by rw [hlen]; omega)]
      refine iff_of_false Bool.false_ne_true fun ⟨chars', heq, hlong'⟩ => ?_
      cases heq
      exact hlong hlong'

theorem readArgPiece_piece (h : arg.Unescaped) (hfits : arg.text.length < arkshMaxToken) :
    (readArgPiece arg.piece).map Prod.fst = some arg.text ↔ arg.Returned := by
  by_cases hlate : arg.piece.lateMark = true
  · obtain ⟨chars, rfl, hlong⟩ := arg.piece_lateMark.mp hlate
    rw [readArgPiece, if_pos hlate]
    exact iff_of_false (fun heq => nomatch heq) fun hreturned =>
      absurd hreturned.2.2 (not_lt.mpr hlong)
  · have hread : (readArgPiece arg.piece).map Prod.fst =
        some (trimCopy arkshMaxToken (arg.piece.content.take (arkshMaxToken - 1))) := by
      rw [readArgPiece, if_neg hlate]
      rfl
    rw [hread, arg.piece_content, trimCopy_take arg.text hfits, Option.some.injEq]
    cases arg with
    | plain text nonempty chars trimmed => exact iff_of_true trimmed trivial
    | quoted chars =>
      refine ⟨fun heq => ⟨h, heq, ?_⟩, fun hreturned => hreturned.2.1⟩
      by_contra hlong
      exact hlate ((MethodArg.piece_lateMark _).mpr ⟨chars, rfl, not_lt.mp hlong⟩)

theorem replicate_append_cons (n : Nat) (c : Char) (text : Text) :
    List.replicate n c ++ c :: text = c :: (List.replicate n c ++ text) := by
  rw [← singleton_append, ← append_assoc, ← replicate_succ', replicate_succ, cons_append]

/-- A backslash that is kept is one character too many: what is read is never the argument, however
    many backslashes are escaped. -/
theorem unescaped_of_read {n : Nat} {read back : Text}
    (h : List.replicate n '\\' ++ ((quotedBody chars).takeWhile (· ≠ '"') ++ read) =
      chars.map QuotedChar.char ++ back) (hback : ∀ c ∈ back, isspace c = true) :
    n = 0 ∧ ∀ q ∈ chars, q.escaped = false := by
  induction chars generalizing n with
  | nil =>
    refine ⟨?_, fun q hq => nomatch hq⟩
    cases n with
    | zero => rfl
    | succ n =>
      have hmem : '\\' ∈ back := by
        rw [map_nil, nil_append] at h
        rw [← h, replicate_succ]
        exact mem_cons_self
      exact absurd (hback _ hmem) (by decide)
  | cons q chars ih =>
    obtain ⟨escaped, c, hplain⟩ := q
    rw [quotedBody, flatMap_cons, QuotedChar.text] at h
    cases escaped with
    | false =>
      obtain ⟨hquote, hslash⟩ := hplain rfl
      rw [if_neg Bool.false_ne_true, singleton_append, takeWhile_cons_of_pos
        (by simpa using hquote)] at h
      cases n with
      | zero =>
        obtain ⟨-, hall⟩ := @ih 0 (cons.inj h).2
        exact ⟨rfl, forall_mem_cons.mpr ⟨rfl, hall⟩⟩
      | succ n => exact absurd (cons.inj h).1.symm hslash
    | true =>
      rw [if_pos rfl, cons_append, takeWhile_cons_of_pos (by decide)] at h
      -- the argument goes on with a backslash too, and the text is one ahead of it
      have hc : c = '\\' := by
        cases n with
        | zero | succ n => exact (cons.inj h).1.symm
      subst hc
      have htake : ∀ t : Text, List.takeWhile (fun x : Char => decide (x ≠ '"')) ('\\' :: t) =
          '\\' :: List.takeWhile (fun x : Char => decide (x ≠ '"')) t := fun _ => rfl
      rw [singleton_append, htake, cons_append, cons_append, replicate_append_cons,
        replicate_append_cons, map_cons, cons_append] at h
      exact absurd (@ih (n + 1) (cons.inj h).2).1 (succ_ne_zero n)

theorem split_quote (body rest : Text) : ∃ behind,
    body ++ '"' :: rest = body.takeWhile (· ≠ '"') ++ '"' :: behind := by
  induction body with
  | nil => exact ⟨rest, rfl⟩
  | cons c body ih =>
    by_cases hc : c = '"'
    · refine ⟨body ++ '"' :: rest, ?_⟩
      rw [hc, takeWhile_cons_of_neg (by simp)]
      rfl
    · obtain ⟨behind, hbehind⟩ := ih
      refine ⟨behind, ?_⟩
      rw [cons_append, hbehind, takeWhile_cons_of_pos (by simpa using hc)]
      rfl

theorem head_of_read {q : QuotedChar} {read : Text}
    (h : trimText ((quotedBody (q :: chars)).takeWhile (· ≠ '"') ++ read) =
      (q :: chars).map QuotedChar.char) :
    ∃ back, (quotedBody (q :: chars)).takeWhile (· ≠ '"') ++ read =
      (q :: chars).map QuotedChar.char ++ back ∧ ∀ c ∈ back, isspace c = true := by
  obtain ⟨front, back, hsplit, hfront, hback⟩ :=
    trimText_split ((quotedBody (q :: chars)).takeWhile (· ≠ '"') ++ read)
  rw [h] at hsplit
  refine ⟨back, ?_, hback⟩
  cases front with
  | nil => exact hsplit
  | cons c front =>
    -- the first character is no blank
    have hc := hfront c mem_cons_self
    obtain ⟨escaped, d, hplain⟩ := q
    have hd : isspace d = false := by
      have hhead := @trimText_head? _ d (congrArg List.head? h)
      exact dropWhile_head? hhead
    rw [quotedBody, flatMap_cons, QuotedChar.text] at hsplit
    cases escaped with
    | true =>
      have hslash := (cons.inj hsplit).1
      rw [← hslash] at hc
      exact absurd hc (by decide)
    | false =>
      rw [if_neg Bool.false_ne_true, singleton_append, takeWhile_cons_of_pos
        (by simpa using (hplain rfl).1)] at hsplit
      have hfirst := (cons.inj hsplit).1
      rw [← hfirst] at hc
      rw [hc] at hd
      cases hd

/-- **A backslash in an argument: it is refused or comes back as another one.** -/
theorem readArgPiece_escaped (h : ¬ arg.Unescaped) (rest : Text)
    (hr : argPieces none 0 0 (arg.written ++ rest) = some r) :
    r.1 ≠ [] ∧ (readArgPiece r.1).map Prod.fst ≠ some arg.text := by
  cases arg with
  | plain text nonempty chars trimmed => exact (h trivial).elim
  | quoted chars =>
    obtain ⟨behind, hbehind⟩ := split_quote (quotedBody chars) rest
    have hquote : '"' ∉ (quotedBody chars).takeWhile (· ≠ '"') := by
      intro hmem
      have := mem_takeWhile_imp hmem
      simp at this
    rw [MethodArg.written, cons_append, append_assoc, singleton_append, hbehind,
      argPieces, if_pos (.inl rfl), argPieces_quote hquote, Option.map_map] at hr
    obtain ⟨r', hr', rfl⟩ := Option.map_eq_some_iff.mp hr
    dsimp only [comp_apply]
    refine ⟨cons_ne_nil _ _, fun hread => h ?_⟩
    generalize hu : (quotedBody chars).takeWhile (· ≠ '"') = u at hread
    -- the quotation mark that closes fits, so that all in front of it is read
    have hlate : ArgPiece.lateMark (('"', true) :: (unmarked u ++ ('"', true) :: r'.1)) = false := by
      cases hlate : ArgPiece.lateMark (('"', true) :: (unmarked u ++ ('"', true) :: r'.1)) with
      | false => rfl
      | true => rw [readArgPiece, if_pos hlate] at hread; cases hread
    have hshort : u.length + 1 < arkshMaxToken - 1 := by
      by_contra hlong
      have htrue : ArgPiece.lateMark ((('"', true) :: unmarked u) ++ ('"', true) :: r'.1) = true := by
        refine ArgPiece.lateMark_of_long ?_ rfl
        rw [length_cons, unmarked, length_map]
        omega
      rw [cons_append, hlate] at htrue
      cases htrue
    rw [readArgPiece, if_neg (by rw [hlate]; exact Bool.false_ne_true), Option.map_some,
      Option.some.injEq] at hread
    have hcontent : ArgPiece.content (('"', true) :: (unmarked u ++ ('"', true) :: r'.1)) =
        u ++ r'.1.content := by
      show ArgPiece.content ([('"', true)] ++ (unmarked u ++ ([('"', true)] ++ r'.1))) = _
      rw [content_append, content_append, content_append, content_unmarked]
      rfl
    rw [hcontent, take_append, take_of_length_le (by omega)] at hread
    have hlen : (u ++ r'.1.content.take (arkshMaxToken - 1 - u.length)).length < arkshMaxToken := by
      rw [length_append, length_take]
      omega
    rw [trimCopy, copyString_of_lt ((trimText_length_le _).trans_lt hlen), ← hu] at hread
    cases chars with
    | nil => exact fun q hq => absurd hq not_mem_nil
    | cons q chars =>
      obtain ⟨back, hback, hblank⟩ := head_of_read hread
      exact (@unescaped_of_read _ 0 _ _ hback hblank).2

/-! ## 8. What is read of a call -/

theorem readPieces_prefix {args out : List ParsedArg} (h : readPieces args pieces = some out) :
    args <+: out := by
  induction pieces generalizing args with
  | nil => obtain rfl := Option.some.inj h; exact prefix_refl _
  | cons p pieces ih =>
    rw [readPieces] at h
    split at h
    · exact ih h
    · split at h
      · cases h
      · obtain ⟨arg, -, hrest⟩ := Option.bind_eq_some_iff.mp h
        exact (prefix_append args [arg]).trans (ih hrest)

theorem readPieces_cons (pieces : List ArgPiece) (hne : p ≠ []) (hroom : args.length < arkshMaxArgs) :
    readPieces args (p :: pieces) =
      (readArgPiece p).bind fun arg => readPieces (args ++ [arg]) pieces := by
  rw [readPieces, if_neg hne, if_neg (not_le.mpr hroom)]

theorem readPieces_ne {text : Text} {texts : List Text} (hne : p ≠ [])
    (hroom : args.length < arkshMaxArgs) (hread : (readArgPiece p).map Prod.fst ≠ some text) :
    (readPieces args (p :: pieces)).map (List.map Prod.fst) ≠
      some (args.map Prod.fst ++ text :: texts) := by
  intro heq
  rw [readPieces_cons pieces hne hroom] at heq
  obtain ⟨out, hout, hmap⟩ := Option.map_eq_some_iff.mp heq
  obtain ⟨arg, harg, hrest⟩ := Option.bind_eq_some_iff.mp hout
  obtain ⟨tail, rfl⟩ := readPieces_prefix hrest
  rw [map_append, map_append, append_assoc] at hmap
  have htext := (cons.inj (append_cancel_left hmap)).1
  refine hread ?_
  rw [harg, Option.map_some, htext]

theorem readPieces_escaped (h : ¬ arg.Unescaped) (hroom : args.length < arkshMaxArgs) (rest : Text)
    (texts : List Text) : ((argPieces none 0 0 (arg.written ++ rest)).bind fun r =>
        readPieces args (r.1 :: r.2)).map (List.map Prod.fst) ≠
      some (args.map Prod.fst ++ arg.text :: texts) := by
  cases hr : argPieces none 0 0 (arg.written ++ rest) with
  | none => exact fun heq => nomatch heq
  | some r =>
    obtain ⟨hne, hread⟩ := readArgPiece_escaped h rest hr
    exact readPieces_ne hne hroom hread

/-- **The arguments come back exactly where each of them does.** -/
theorem readPieces_joinArgs {list : List MethodArg} (hlist : list ≠ [])
    (hroom : args.length + list.length ≤ arkshMaxArgs)
    (hfits : ∀ arg ∈ list, arg.text.length < arkshMaxToken) :
    ((argPieces none 0 0 (joinArgs list)).bind fun r =>
        readPieces args (r.1 :: r.2)).map (List.map Prod.fst) =
      some (args.map Prod.fst ++ list.map MethodArg.text) ↔ ∀ arg ∈ list, arg.Returned := by
  induction list generalizing args with
  | nil => exact (hlist rfl).elim
  | cons arg list ih =>
    rw [length_cons] at hroom
    have hone : args.length < arkshMaxArgs := by omega
    rw [forall_mem_cons] at hfits
    by_cases hescaped : arg.Unescaped
    · have hpiece := readArgPiece_piece hescaped hfits.1
      rw [argPieces_joinArgs hescaped]
      by_cases hreturned : arg.Returned
      · obtain ⟨read, hread, htext⟩ := Option.map_eq_some_iff.mp (hpiece.mpr hreturned)
        have hstep : ∀ pieces, readPieces args (arg.piece :: pieces) =
            readPieces (args ++ [read]) pieces := by
          intro pieces
          rw [readPieces_cons pieces arg.piece_ne_nil hone, hread, Option.bind_some]
        by_cases hrest : list = []
        · subst hrest
          rw [if_pos rfl, Option.bind_some, hstep]
          refine iff_of_true ?_ fun a ha => ?_
          · show some ((args ++ [read]).map Prod.fst) = _
            rw [map_append, map_singleton, htext]
            rfl
          · rwa [mem_singleton.mp ha]
        · have hmany := @ih (args ++ [read]) hrest (by
            rw [length_append, length_singleton]
            omega) hfits.2
          rw [map_append, map_singleton, htext, append_assoc, singleton_append] at hmany
          rw [if_neg hrest, Option.bind_map, forall_mem_cons, and_iff_right hreturned,
            map_cons, ← hmany]
          simp only [Function.comp_def, hstep]
      · refine iff_of_false ?_ fun hall => hreturned (hall arg mem_cons_self)
        have hpieces : ∀ pieces, (readPieces args (arg.piece :: pieces)).map (List.map Prod.fst) ≠
            some (args.map Prod.fst ++ arg.text :: list.map MethodArg.text) :=
          fun pieces => readPieces_ne arg.piece_ne_nil hone fun heq => hreturned (hpiece.mp heq)
        split
        · exact hpieces []
        · cases argPieces none 0 0 (joinArgs list) with
          | none => exact fun heq => nomatch heq
          | some r => exact hpieces (r.1 :: r.2)
    · have hne : ¬ ∀ a ∈ arg :: list, a.Returned := by
        intro hall
        cases arg with
        | plain text nonempty chars trimmed => exact hescaped trivial
        | quoted chars => exact hescaped (hall _ mem_cons_self).1
      refine iff_of_false ?_ hne
      by_cases hrest : list = []
      · subst hrest
        have hread := readPieces_escaped hescaped hone [] []
        rw [append_nil] at hread
        exact hread
      · rw [joinArgs_cons arg hrest]; exact readPieces_escaped hescaped hone _ _

theorem readPieces_none_iff (args : List ParsedArg) (hroom : args.length ≤ arkshMaxArgs)
    (pieces : List ArgPiece) : readPieces args pieces = none ↔
      arkshMaxArgs < args.length + (pieces.filter fun p => !p.isEmpty).length ∨
        ∃ p ∈ pieces, p.lateMark = true := by
  induction pieces generalizing args with
  | nil =>
    refine iff_of_false (fun heq => nomatch heq) ?_
    rintro (hmany | ⟨p, hp, -⟩)
    · exact absurd hmany (not_lt.mpr hroom)
    · cases hp
  | cons p pieces ih =>
    rw [readPieces, exists_mem_cons_iff]
    by_cases hp : p = []
    · subst hp
      rw [if_pos rfl, ih args hroom]
      have hlate : ArgPiece.lateMark [] = false := rfl
      simp [hlate]
    · have hfilter : ((p :: pieces).filter fun p => !p.isEmpty).length =
          (pieces.filter fun p => !p.isEmpty).length + 1 := by
        rw [filter_cons_of_pos (by simpa using hp), length_cons]
      rw [if_neg hp, hfilter]
      by_cases hfull : args.length ≥ arkshMaxArgs
      · rw [if_pos hfull]; exact iff_of_true rfl (.inl (by omega))
      · rw [if_neg hfull, readArgPiece]
        by_cases hlate : p.lateMark = true
        · rw [if_pos hlate]; exact iff_of_true rfl (.inr (.inl hlate))
        · rw [if_neg hlate, Option.bind_some, ih _ (by
            rw [length_append, length_singleton]
            omega), length_append, length_singleton]
          simp only [hlate, Bool.false_eq_true, false_or]
          rw [add_right_comm, add_assoc]

theorem parseMethodArgsCsv_none_iff (text : Text) :
    parseMethodArgsCsv text = none ↔ ArgsRefused text := by
  rw [parseMethodArgsCsv_eq, ArgsRefused]
  cases argPieces none 0 0 text with
  | none => exact iff_of_true rfl trivial
  | some r =>
    rw [Option.bind_some, readPieces_none_iff [] (zero_le _), length_nil, zero_add]

/-! ## 9. The law -/

/-- **Which arguments come back.** -/
theorem methodArgsLaw_iff (args : List MethodArg) : MethodArgsLaw args ↔ MethodArgsFit args := by
  have hmax : arkshMaxArgs = 16 := rfl
  have hreturned : ∀ (hlist : args ≠ []), args.length ≤ 8 →
      (∀ arg ∈ args, arg.text.length < arkshMaxToken) →
      ((parseMethodArgsCsv (joinArgs args)).map (List.map Prod.fst) =
        some (args.map MethodArg.text) ↔ ∀ arg ∈ args, arg.Returned) := by
    intro hlist hcount hfits
    rw [parseMethodArgsCsv_eq]
    exact @readPieces_joinArgs [] args hlist (by
      rw [length_nil]
      omega) hfits
  constructor
  · intro law
    refine ⟨fun hcount hfits => ?_, fun hlarge => ?_⟩
    · have hlist : args ≠ [] := by
        rintro rfl
        -- the executor finds one piece in a call without arguments
        obtain ⟨parts, hparts, hlen⟩ := law.pieces hcount hfits
        obtain rfl := Option.some.inj hparts
        cases hlen
      exact ⟨hlist, (hreturned hlist hcount hfits).mp (law.returned hcount hfits)⟩
    · exact (parseMethodArgsCsv_none_iff _).mp (law.refused hlarge)
  · intro fit
    refine ⟨fun hcount hfits => ?_, fun hlarge => ?_, fun hcount hfits => ?_⟩
    · obtain ⟨hlist, hall⟩ := fit.returned hcount hfits
      exact (hreturned hlist hcount hfits).mpr hall
    · exact (parseMethodArgsCsv_none_iff _).mpr (fit.refused hlarge)
    · obtain ⟨parts, hparts, hlen⟩ := splitTopLevelArguments_joinArgs hcount
      have hpos := length_pos_iff.mpr (fit.returned hcount hfits).1
      exact ⟨parts, hparts, by omega⟩

/-- `"a\"b\"c"` comes back with its backslashes and without its quotation marks. -/
theorem not_methodArgsLaw_escaped : ¬ MethodArgsLaw
    [.quoted [⟨false, 'a', by decide⟩, ⟨true, '"', nofun⟩, ⟨false, 'b', by decide⟩,
      ⟨true, '"', nofun⟩, ⟨false, 'c', by decide⟩]] := by
  intro law
  have hback := law.returned (by decide) (by decide)
  revert hback
  decide

end Arksh
