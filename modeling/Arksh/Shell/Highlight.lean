/-
  Subject: `highlight_line`: the line with colour sequences, in a buffer of ten times its size.

  What a terminal shows of the output is the line. The room is an amortised bound: a character
  costs ten bytes, of which four are kept for the reset as long as a colour is on.
-/
import Arksh.Shell.Line

namespace Arksh

open CText List

/-! ## 1. The scan -/

def esc : Char := '\x1b'

inductive HlColor where
  | reset
  | bold
  | green
  | cyan
  | yellow
  | gray
  deriving DecidableEq

def HlColor.code : HlColor → Text
  | .reset => esc :: "[0m".toList
  | .bold => esc :: "[1m".toList
  | .green => esc :: "[32m".toList
  | .cyan => esc :: "[36m".toList
  | .yellow => esc :: "[33m".toList
  | .gray => esc :: "[90m".toList

def hlKeywords : List Text :=
  ["if", "then", "else", "elif", "fi", "while", "until", "do", "done", "for", "in", "case", "esac",
    "function", "endfunction", "return", "break", "continue", "true", "false"].map String.toList

def hlIsWordChar (c : Char) : Bool :=
  !isspace c && c ∉ ['|', '&', ';', '>', '<', '\'', '"', '$', '#']

inductive HlState where
  | normal
  | comment
  | sq
  | dq
  | var
  deriving DecidableEq

/-- The variables of `highlight_line`, and what found no room. -/
structure Highlighter where
  state : HlState := .normal
  out : Text := []
  dropped : List Text := []
  curColor : HlColor := .reset
  atWordStart : Bool := true

variable (outSize : Nat) (h : Highlighter) (c : Char) (rest : Text)

/-- `HL_PUT` and `HL_PUTC` -/
def Highlighter.put (s : Text) : Highlighter :=
  if h.out.length + s.length < outSize then { h with out := h.out ++ s }
  else { h with dropped := h.dropped ++ [s] }

/-- `HL_COLOR` -/
def Highlighter.color (id : HlColor) : Highlighter :=
  if h.curColor ≠ id then { h.put outSize id.code with curColor := id } else h

def Highlighter.quotedTurn (quote : Char) : Text × Highlighter :=
  let h := (h.color outSize .green).put outSize [c]
  (rest, if c = quote then
    { h.color outSize .reset with state := .normal, atWordStart := false } else h)

def Highlighter.operatorTurn (two : Bool) : Text × Highlighter :=
  let h := ((h.color outSize .reset).color outSize .yellow).put outSize [c]
  let (rest, h) := if two then (rest.tail, h.put outSize (rest.take 1)) else (rest, h)
  (rest, { h.color outSize .reset with atWordStart := true })

def Highlighter.wordTurn : Text × Highlighter :=
  let h :=
    if h.atWordStart then
      let keyword := (c :: rest).takeWhile hlIsWordChar ∈ hlKeywords
      { h.color outSize (if keyword then .bold else .reset) with atWordStart := false }
    else h
  (rest, h.put outSize [c])

def Highlighter.normalTurn : Text × Highlighter :=
  let nx := rest.headD '\x00'
  if c = '#' then (rest, { (h.color outSize .gray).put outSize [c] with state := .comment })
  else if c = '\'' then
    (rest, { (h.color outSize .green).put outSize [c] with state := .sq, atWordStart := false })
  else if c = '"' then
    (rest, { (h.color outSize .green).put outSize [c] with state := .dq, atWordStart := false })
  else if c = '$' then
    (rest, { (h.color outSize .cyan).put outSize [c] with state := .var, atWordStart := false })
  else if c = '-' ∧ nx = '>' then h.operatorTurn outSize c rest true
  else if c ∈ ['|', '&', ';', '>', '<'] then
    h.operatorTurn outSize c rest
      ((c = '|' ∧ (nx = '>' ∨ nx = '|')) ∨ (c = '&' ∧ nx = '&') ∨ (c = '>' ∧ nx = '>'))
  else if isspace c then (rest, (h.color outSize .reset).put outSize [c])
  else h.wordTurn outSize c rest

/-- One turn of the loop: what is left to read, and the variables. -/
def Highlighter.turn : Text × Highlighter :=
  match h.state with
  | .comment => (rest, (h.color outSize .gray).put outSize [c])
  | .sq => h.quotedTurn outSize c rest '\''
  | .dq => h.quotedTurn outSize c rest '"'
  | .var =>
    if isalnum c ∨ c = '_' then (rest, (h.color outSize .cyan).put outSize [c])
    else (c :: rest, { h.color outSize .reset with state := .normal })
  | .normal => h.normalTurn outSize c rest

/-- What a turn makes less: behind a variable a character may be read again, but only once. -/
def Highlighter.left : Nat := 2 * rest.length + if h.state = .var then 1 else 0

theorem left_shorter {h' : Highlighter} {rest' : Text} (hle : rest'.length ≤ rest.length) :
    h'.left rest' < h.left (c :: rest) := by
  unfold Highlighter.left
  rw [length_cons]
  split <;> omega

theorem operatorTurn_length (two : Bool) :
    (h.operatorTurn outSize c rest two).1.length ≤ rest.length := by
  cases two with
  | true => exact (length_tail (l := rest)).trans_le (Nat.sub_le _ _)
  | false => exact Nat.le_refl _

theorem normalTurn_length : (h.normalTurn outSize c rest).1.length ≤ rest.length := by
  unfold Highlighter.normalTurn
  dsimp only
  iterate 7 (split; first | exact Nat.le_refl _ | exact operatorTurn_length _ _ _ _ _)
  exact Nat.le_refl _

theorem turn_left :
    (h.turn outSize c rest).2.left (h.turn outSize c rest).1 < h.left (c :: rest) := by
  unfold Highlighter.turn
  split
  · exact left_shorter h c rest (Nat.le_refl _)
  · exact left_shorter h c rest (Nat.le_refl _)
  · exact left_shorter h c rest (Nat.le_refl _)
  · rename_i hvar
    split
    · exact left_shorter h c rest (Nat.le_refl _)
    · simp [Highlighter.left, hvar]
  · exact left_shorter h c rest (normalTurn_length outSize h c rest)

def highlightLoop (h : Highlighter) : Text → Highlighter
  | [] => h
  | c :: rest => highlightLoop (h.turn outSize c rest).2 (h.turn outSize c rest).1
termination_by rest => h.left rest
decreasing_by exact turn_left outSize h c rest

/-- `highlight_line`: the bytes that it writes, and what found no room. -/
def highlightLine (buf : Text) : Text × List Text :=
  let h := (highlightLoop outSize {} buf).color outSize .reset
  (if h.out.length < outSize then h.out ++ ['\x00']
    else if 0 < outSize then h.out.take (outSize - 1) ++ ['\x00'] else h.out, h.dropped)

/-! ## 2. What a terminal shows -/

structure Terminal where
  shown : Text := []
  colour : Text := HlColor.reset.code
  pending : Option Text := none

def Terminal.read (t : Terminal) (c : Char) : Terminal :=
  match t.pending with
  | none => if c = esc then { t with pending := some [esc] } else { t with shown := t.shown ++ [c] }
  | some seq =>
    if (c = '[' ∧ seq = [esc]) ∨ (isdigit c ∧ seq ≠ [esc]) then
      { t with pending := some (seq ++ [c]) }
    else if c = 'm' ∧ seq ≠ [esc] then { t with colour := seq ++ [c], pending := none }
    else { t with shown := t.shown ++ seq ++ [c], pending := none }

/-- What a terminal that has shown nothing makes of an output. -/
def terminalOf (out : Text) : Terminal := out.foldl Terminal.read {}

theorem read_code (id : HlColor) (shown colour : Text) :
    id.code.foldl Terminal.read ⟨shown, colour, none⟩ = ⟨shown, id.code, none⟩ := by
  cases id <;> rfl

/-! ## 3. The invariant -/

/-- A terminal shows the text in the current colour, and with the reset that a colour needs the
    output takes no more than so many bytes. -/
structure Painted (h : Highlighter) (text : Text) (bytes : Nat) : Prop where
  dropped : h.dropped = []
  terminal : terminalOf h.out = ⟨text, h.curColor.code, none⟩
  bytes_le : h.out.length + (if h.curColor = .reset then 0 else 4) ≤ bytes

def HlColor.cost : HlColor → Nat
  | .reset => 0
  | _ => 9

variable {outSize h c rest} {text : Text} {bytes : Nat}

theorem Painted.put (hp : Painted h text bytes) (hc : c ≠ esc) (hroom : bytes + 1 < outSize) :
    Painted (h.put outSize [c]) (text ++ [c]) (bytes + 1) := by
  obtain ⟨hdropped, hterminal, hbytes⟩ := hp
  have hfits : h.out.length + [c].length < outSize := by rw [length_singleton]; omega
  unfold Highlighter.put
  rw [if_pos hfits]
  refine ⟨hdropped, ?_, ?_⟩
  · unfold terminalOf at hterminal ⊢
    rw [foldl_append, hterminal]
    exact if_neg hc
  · simp only [length_append, length_singleton]
    omega

section

variable (hp : Painted h text bytes)
include hp

theorem Painted.color (id : HlColor) (hroom : bytes + id.cost < outSize) :
    Painted (h.color outSize id) text (bytes + id.cost) := by
  obtain ⟨hdropped, hterminal, hbytes⟩ := hp
  unfold Highlighter.color
  split
  · rename_i hcolor
    have hcode : h.out.length + id.code.length + (if id = .reset then 0 else 4) ≤
        bytes + id.cost := by
      cases id with
      | reset =>
        rw [if_neg hcolor] at hbytes
        exact hbytes
      | _ =>
        have hle : h.out.length ≤ bytes := (Nat.le_add_right _ _).trans hbytes
        simp only [HlColor.code, HlColor.cost, length_cons]
        simp
        omega
    have hfits : h.out.length + id.code.length < outSize := by omega
    unfold Highlighter.put
    rw [if_pos hfits]
    refine ⟨hdropped, ?_, by rwa [length_append]⟩
    unfold terminalOf at hterminal ⊢
    rw [foldl_append, hterminal, read_code]
  · exact ⟨hdropped, hterminal, hbytes.trans (Nat.le_add_right _ _)⟩

theorem Painted.mono {more : Nat} (hle : bytes ≤ more) :
    Painted h text more := ⟨hp.dropped, hp.terminal, hp.bytes_le.trans hle⟩

theorem Painted.reset (hroom : bytes < outSize) :
    Painted (h.color outSize .reset) text bytes := hp.color .reset hroom

theorem Painted.restate (state : HlState) (atWordStart : Bool) :
    Painted { h with state := state, atWordStart := atWordStart } text bytes :=
  ⟨hp.dropped, hp.terminal, hp.bytes_le⟩

end

theorem HlColor.cost_le (id : HlColor) : id.cost ≤ 9 := by
  cases id <;> decide

theorem Painted.colored (hp : Painted h text bytes) (id : HlColor) (hc : c ≠ esc)
    (hroom : bytes + 10 < outSize) :
    Painted ((h.color outSize id).put outSize [c]) (text ++ [c]) (bytes + 10) := by
  have hcost := id.cost_le
  have hcolor : Painted (h.color outSize id) text (bytes + id.cost) := hp.color id (by omega)
  exact (hcolor.put hc (by omega)).mono (by omega)

/-- A turn has read something, or nothing, and spent ten bytes for each character of it. -/
def Went (text : Text) (bytes : Nat) (line : Text) (r : Text × Highlighter) : Prop :=
  ∃ read, read ++ r.1 = line ∧ Painted r.2 (text ++ read) (bytes + 10 * read.length)

theorem went_one (hp : Painted h (text ++ [c]) (bytes + 10)) :
    Went text bytes (c :: rest) (rest, h) := ⟨[c], rfl, hp⟩

section Turns

variable (hp : Painted h text bytes) (hc : c ≠ esc) (hroom : bytes + 10 < outSize)

include hp hc hroom

theorem quotedTurn_went (quote : Char) :
    Went text bytes (c :: rest) (h.quotedTurn outSize c rest quote) := by
  have hput := hp.colored .green hc hroom
  unfold Highlighter.quotedTurn
  split
  · exact went_one ((hput.reset hroom).restate .normal false)
  · exact went_one hput

theorem wordTurn_went : Went text bytes (c :: rest) (h.wordTurn outSize c rest) := by
  unfold Highlighter.wordTurn
  split
  · have hcolor (id : HlColor) : Painted (h.color outSize id) text (bytes + 9) :=
      (hp.color id (lt_of_le_of_lt (Nat.add_le_add_left id.cost_le _) (by omega))).mono
        (Nat.add_le_add_left id.cost_le _)
    exact went_one (((hcolor _).restate _ false).put hc hroom)
  · exact went_one ((hp.put hc (by omega)).mono (by omega))

theorem operator_painted : Painted (((h.color outSize .reset).color outSize .yellow).put outSize [c])
    (text ++ [c]) (bytes + 10) :=
  (hp.reset (lt_of_le_of_lt (Nat.le_add_right _ 10) hroom)).colored .yellow hc hroom

end Turns

theorem operatorTurn_went (hp : Painted h text bytes) (hesc : esc ∉ c :: rest)
    (hroom : bytes + 10 * (c :: rest).length < outSize) {two : Bool} (htwo : two → rest ≠ []) :
    Went text bytes (c :: rest) (h.operatorTurn outSize c rest two) := by
  have hone : bytes + 10 < outSize := by rw [length_cons] at hroom; omega
  have hput := operator_painted hp (ne_of_mem_of_not_mem mem_cons_self hesc) hone
  cases two with
  | true =>
    obtain ⟨nx, tail, rfl⟩ := exists_cons_of_ne_nil (htwo rfl)
    have htwo : bytes + 10 + 10 < outSize := by simp only [length_cons] at hroom; omega
    have hnx : nx ≠ esc := ne_of_mem_of_not_mem (mem_cons_of_mem _ mem_cons_self) hesc
    have hnext := hput.put hnx (lt_of_le_of_lt (Nat.add_le_add_left (by decide) _) htwo)
    have hboth := (hnext.mono (Nat.add_le_add_left (by decide) _)).reset htwo
    refine ⟨[c, nx], rfl, ?_⟩
    rw [append_cons]
    exact hboth.restate _ true
  | false => exact went_one ((hput.reset hone).restate _ true)

theorem ne_nil_of_headD {d : Char} (h : rest.headD '\x00' = d) (hd : d ≠ '\x00') : rest ≠ [] := by
  rintro rfl
  exact hd h.symm

theorem normalTurn_went (hp : Painted h text bytes) (hesc : esc ∉ c :: rest)
    (hroom : bytes + 10 * (c :: rest).length < outSize) :
    Went text bytes (c :: rest) (h.normalTurn outSize c rest) := by
  have hc : c ≠ esc := ne_of_mem_of_not_mem mem_cons_self hesc
  have hone : bytes + 10 < outSize := by rw [length_cons] at hroom; omega
  have hcolored (id : HlColor) (state : HlState) (atWordStart : Bool) :
      Went text bytes (c :: rest) (rest, { (h.color outSize id).put outSize [c] with
        state := state, atWordStart := atWordStart }) :=
    went_one ((hp.colored id hc hone).restate state atWordStart)
  unfold Highlighter.normalTurn
  dsimp only
  split
  · exact hcolored .gray .comment _
  split
  · exact hcolored .green .sq false
  split
  · exact hcolored .green .dq false
  split
  · exact hcolored .cyan .var false
  split
  · rename_i hpair
    exact operatorTurn_went hp hesc hroom fun _ => ne_nil_of_headD hpair.2 (by decide)
  split
  · refine operatorTurn_went hp hesc hroom fun htwo => ?_
    rcases of_decide_eq_true htwo with ⟨-, hnx | hnx⟩ | ⟨-, hnx⟩ | ⟨-, hnx⟩
    · exact ne_nil_of_headD hnx (by decide)
    · exact ne_nil_of_headD hnx (by decide)
    · exact ne_nil_of_headD hnx (by decide)
    · exact ne_nil_of_headD hnx (by decide)
  split
  · exact went_one (hp.colored .reset hc hone)
  · exact wordTurn_went hp hc hone

/-- **Every turn keeps the invariant, also the one that steps back.** -/
theorem turn_went (hp : Painted h text bytes) (hesc : esc ∉ c :: rest)
    (hroom : bytes + 10 * (c :: rest).length < outSize) :
    Went text bytes (c :: rest) (h.turn outSize c rest) := by
  have hc : c ≠ esc := ne_of_mem_of_not_mem mem_cons_self hesc
  have hone : bytes + 10 < outSize := by rw [length_cons] at hroom; omega
  unfold Highlighter.turn
  split
  · exact went_one (hp.colored .gray hc hone)
  · exact quotedTurn_went hp hc hone '\''
  · exact quotedTurn_went hp hc hone '"'
  · split
    · exact went_one (hp.colored .cyan hc hone)
    · have hreset := hp.reset (lt_of_le_of_lt (Nat.le_add_right _ 10) hone)
      refine ⟨[], rfl, ?_⟩
      rw [append_nil]
      exact hreset.restate .normal _
  · exact normalTurn_went hp hesc hroom

theorem highlightLoop_painted : ∀ (h : Highlighter) (line : Text) {text : Text} {bytes : Nat},
    Painted h text bytes → esc ∉ line → bytes + 10 * line.length < outSize →
      Painted (highlightLoop outSize h line) (text ++ line) (bytes + 10 * line.length) := by
  intro h line
  induction h, line using highlightLoop.induct outSize with
  | case1 h =>
    intro text bytes hp _ _
    rw [highlightLoop, append_nil]
    exact hp
  | case2 h c rest ih =>
    intro text bytes hp hesc hroom
    obtain ⟨read, hread, hp'⟩ := turn_went hp hesc hroom
    rw [highlightLoop]
    rw [← hread] at hesc hroom ⊢
    rw [length_append] at hroom ⊢
    have hrun := ih hp' (fun hmem => hesc (mem_append_right _ hmem)) (by omega)
    rw [append_assoc] at hrun
    exact hrun.mono (by omega)

/-! ## 4. The line -/

/-- **A terminal shows the line, without colours behind it.** -/
theorem highlightLine_shown {buf : Text} (hlen : buf.length < arkshMaxLine) (hesc : esc ∉ buf) :
    ∃ out, highlightLine (arkshMaxLine * 10) buf = (out ++ ['\x00'], []) ∧
      out.length < arkshMaxLine * 10 ∧ terminalOf out = ⟨buf, HlColor.reset.code, none⟩ := by
  have hstart : Painted {} [] 0 := ⟨rfl, rfl, Nat.le_refl 0⟩
  have hroom : 0 + 10 * buf.length < arkshMaxLine * 10 := by omega
  have hloop := highlightLoop_painted {} buf hstart hesc hroom
  have hline := hloop.reset hroom
  have hreset : ((highlightLoop (arkshMaxLine * 10) {} buf).color (arkshMaxLine * 10)
      .reset).curColor = .reset := by
    unfold Highlighter.color
    split
    · rfl
    · rename_i h
      exact not_not.mp h
  have hfits := lt_of_le_of_lt ((Nat.le_add_right _ _).trans hline.bytes_le) hroom
  refine ⟨_, ?_, hfits, ?_⟩
  · unfold highlightLine
    dsimp only
    rw [hline.dropped, if_pos hfits]
  · rw [hline.terminal, hreset]
    rfl

theorem highlightLine_if :
    ∃ out, highlightLine (arkshMaxLine * 10) "if $x".toList = (out ++ ['\x00'], []) ∧
      out.length < arkshMaxLine * 10 ∧ terminalOf out = ⟨"if $x".toList, HlColor.reset.code, none⟩ :=
  highlightLine_shown (by decide) (by decide)

end Arksh
