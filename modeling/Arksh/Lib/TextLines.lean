/-
  Subject: The lines of a text, each with the characters that end it: a carriage return, a
           newline, or both. The last line may have none.
-/
import Arksh.Lib.Text

namespace TextLines

open CText List

/-! ## 1. Lines -/

structure TextLine where
  text : Text
  ending : Text
  deriving DecidableEq

def TextLine.chars (line : TextLine) : Text := line.text ++ line.ending

def consChar (c : Char) : List TextLine → List TextLine
  | [] => [⟨[c], []⟩]
  | line :: rest => ⟨c :: line.text, line.ending⟩ :: rest

def lines : Text → List TextLine
  | [] => []
  | '\r' :: '\n' :: rest => ⟨[], ['\r', '\n']⟩ :: lines rest
  | '\r' :: rest => ⟨[], ['\r']⟩ :: lines rest
  | '\n' :: rest => ⟨[], ['\n']⟩ :: lines rest
  | c :: rest => consChar c (lines rest)

def joined (ls : List TextLine) : Text := ls.flatMap TextLine.chars

theorem joined_consChar (c : Char) (ls : List TextLine) :
    joined (consChar c ls) = c :: joined ls := by
  cases ls with
  | nil | cons line rest => rfl

theorem lines_joined (t : Text) : joined (lines t) = t := by
  induction t using lines.induct with
  | case1 => rfl
  | case2 rest ih =>
    exact congrArg (fun u => '\r' :: '\n' :: u) ih
  | case3 rest hnext ih =>
    rw [lines]
    · exact congrArg ('\r' :: ·) ih
    · exact hnext
  | case4 rest ih =>
    exact congrArg ('\n' :: ·) ih
  | case5 c rest hcrlf hcr hlf ih =>
    rw [lines, joined_consChar, ih]
    · exact hcrlf
    · exact hcr
    · exact hlf

def Ended (ls : List TextLine) : Prop := ∀ line ∈ ls.dropLast, line.ending ≠ []

variable {ls : List TextLine} {line : TextLine}

theorem ended_cons (hline : line.ending ≠ []) (h : Ended ls) : Ended (line :: ls) := by
  intro l hl
  cases ls with
  | nil => cases hl
  | cons next rest =>
    rcases mem_cons.mp hl with rfl | hl
    · exact hline
    · exact h l hl

theorem ended_consChar {c : Char} (h : Ended ls) : Ended (consChar c ls) := by
  cases ls with
  | nil => exact h
  | cons line rest =>
    cases rest with
    | nil => exact h
    | cons next rest =>
      refine ended_cons (h line ?_) fun l hl => h l ?_
      · rw [dropLast_cons_of_ne_nil (cons_ne_nil _ _)]; exact mem_cons_self
      · rw [dropLast_cons_of_ne_nil (cons_ne_nil _ _)]; exact mem_cons_of_mem _ hl

theorem lines_ended (t : Text) : Ended (lines t) := by
  induction t using lines.induct with
  | case1 => exact fun _ h => by cases h
  | case2 rest ih =>
    exact ended_cons (cons_ne_nil _ _) ih
  | case3 rest hnext ih =>
    rw [lines]
    · exact ended_cons (cons_ne_nil _ _) ih
    · exact hnext
  | case4 rest ih =>
    exact ended_cons (cons_ne_nil _ _) ih
  | case5 c rest hcrlf hcr hlf ih =>
    rw [lines]
    · exact ended_consChar ih
    · exact hcrlf
    · exact hcr
    · exact hlf

theorem Ended.drop {rest : List TextLine} (h : Ended (ls ++ rest)) : Ended rest := by
  intro line hline
  refine h line ?_
  cases rest with
  | nil => cases hline
  | cons next rest =>
    rw [dropLast_append_of_ne_nil (cons_ne_nil _ _)]
    exact mem_append_right _ hline

theorem length_mem_lines {t : Text} (h : line ∈ lines t) : line.text.length ≤ t.length := by
  obtain ⟨before, behind, hsplit⟩ := append_of_mem h
  have hjoined := congrArg List.length (lines_joined t)
  rw [hsplit] at hjoined
  simp only [joined, TextLine.chars, flatMap_append, flatMap_cons, length_append] at hjoined
  omega

/-! ## 2. Sections -/

variable {δ : Type}

/-- Lines cut into sections, one for each mark: the lines up to the first that closes it, which is
    in none. -/
inductive Sections (closes : δ → TextLine → Prop) :
    List δ → List TextLine → List (List TextLine) → List TextLine → Prop where
  | done (rest : List TextLine) : Sections closes [] rest [] rest
  | cut {mark : δ} {marks : List δ} {own rest rest' : List TextLine} {last : TextLine}
      {others : List (List TextLine)} :
      (∀ line ∈ own, ¬ closes mark line) → closes mark last →
      Sections closes marks rest others rest' →
      Sections closes (mark :: marks) (own ++ last :: rest) (own :: others) rest'

end TextLines
