/-
  Subject: The lines of a file, and what `fgets` makes of them.
-/
import Arksh.Shell.Source

namespace Arksh

open CText List

/-! ## 1. Lines -/

/-- The lines of a file, each with its newline; a last line without one meets the end of the
    file. -/
def textLines : Text → Text → List FileLine
  | read, [] => if read = [] then [] else [⟨read, true⟩]
  | read, c :: rest =>
    if c = '\n' then ⟨read ++ [c], false⟩ :: textLines [] rest else textLines (read ++ [c]) rest

def FileLine.content (line : FileLine) : Text := trimTrailingNewlines line.text

def FileLine.isBlank (line : FileLine) : Bool := isBlankOrCommentLine line.text

def FileLine.Fits (line : FileLine) : Prop :=
  line.text.length + (if line.atEnd then 1 else 0) < arkshMaxLine

instance (line : FileLine) : Decidable line.Fits := inferInstanceAs (Decidable (_ < _))

/-! ## 2. The end of a line -/

theorem trimTrailingNewlines_ends (text : Text) :
    ∃ ending, text = trimTrailingNewlines text ++ ending ∧ ∀ c ∈ ending, c = '\n' ∨ c = '\r' := by
  refine ⟨text.rtakeWhile fun c => c = '\n' || c = '\r', ?_, fun c hc => ?_⟩
  · exact rdropWhile_append_rtakeWhile.symm
  · have h := mem_rtakeWhile_imp hc; simpa using h

theorem isBlankOrCommentLine_trim (text : Text) :
    isBlankOrCommentLine (trimTrailingNewlines text) = isBlankOrCommentLine text := by
  obtain ⟨ending, htext, hending⟩ := trimTrailingNewlines_ends text
  have hspace : ∀ c ∈ ending, isspace c = true := by
    intro c hc
    rcases hending c hc with rfl | rfl <;> rfl
  conv_rhs => rw [htext]
  unfold isBlankOrCommentLine
  rw [dropWhile_append]
  cases (trimTrailingNewlines text).dropWhile isspace with
  | nil => rw [isEmpty_nil, if_pos rfl, dropWhile_eq_nil_iff.mpr hspace]
  | cons c rest => rfl

/-- A newline stands at the end of a line only. -/
def FileLine.Plain (line : FileLine) : Prop := '\n' ∉ line.text.dropLast

variable {line : FileLine}

theorem FileLine.Plain.content (h : line.Plain) : '\n' ∉ line.content := by
  unfold FileLine.Plain at h
  unfold FileLine.content trimTrailingNewlines
  rcases eq_nil_or_concat line.text with hnil | ⟨front, last, htext⟩
  · rw [hnil]; exact not_mem_nil
  · rw [htext, concat_eq_append] at h ⊢
    rw [dropLast_concat] at h
    rw [rdropWhile_concat]
    split
    · exact fun hmem => h ((List.rdropWhile_prefix _ _).subset hmem)
    next hlast =>
      intro hmem
      rcases mem_append.mp hmem with hmem | hmem
      · exact h hmem
      · rw [mem_singleton] at hmem; exact hlast (by rw [← hmem]; rfl)

def FileLine.Whole (line : FileLine) : Prop :=
  line.text = [] ∨ line.text.getLast? = some '\n' ∨ line.atEnd = true

theorem FileLine.whole_iff :
    line.Whole ↔ ¬ (line.text ≠ [] ∧ line.text.getLast? ≠ some '\n' ∧ ¬ line.atEnd = true) := by
  unfold FileLine.Whole
  rw [not_and_or, not_and_or, not_not, not_not, not_not]

/-! ## 3. Reading -/

section Lines

variable {size : Nat} {read text seg : Text}

theorem textLines_newline (hseg : '\n' ∉ seg) (rest : Text) :
    textLines read (seg ++ '\n' :: rest) = ⟨read ++ seg ++ ['\n'], false⟩ :: textLines [] rest := by
  induction seg generalizing read with
  | nil => rw [append_nil, nil_append, textLines, if_pos rfl]
  | cons c seg ih =>
    rw [mem_cons, not_or] at hseg
    rw [cons_append, textLines, if_neg (Ne.symm hseg.1), ih hseg.2]
    simp

theorem textLines_last (hseg : '\n' ∉ seg) :
    textLines read seg = if read ++ seg = [] then [] else [⟨read ++ seg, true⟩] := by
  induction seg generalizing read with
  | nil => rw [append_nil, textLines]
  | cons c seg ih =>
    rw [mem_cons, not_or] at hseg
    rw [textLines, if_neg (Ne.symm hseg.1), ih hseg.2]
    simp

theorem fileLines_newline (hseg : '\n' ∉ seg) (rest : Text) :
    fileLines size read (seg ++ '\n' :: rest) =
      fileLines size read (seg ++ ['\n']) ++ fileLines size [] rest := by
  induction seg generalizing read with
  | nil => simp [fileLines]
  | cons c seg ih =>
    rw [mem_cons, not_or] at hseg
    rw [cons_append, cons_append, fileLines, fileLines]
    split
    · rw [ih hseg.2, cons_append]
    · exact ih hseg.2

theorem fileLines_fits (hfits : read.length + seg.length + 1 < size) (hseg : '\n' ∉ seg) :
    fileLines size read (seg ++ ['\n']) = [⟨read ++ seg ++ ['\n'], false⟩] ∧
      fileLines size read seg = if read ++ seg = [] then [] else [⟨read ++ seg, true⟩] := by
  induction seg generalizing read with
  | nil => simp [fileLines]
  | cons c seg ih =>
    rw [mem_cons, not_or] at hseg
    rw [length_cons] at hfits
    have hroom : ¬ (c = '\n' ∨ read.length + 2 ≥ size) := by
      rintro (rfl | hfull)
      · exact hseg.1 rfl
      · omega
    obtain ⟨hline, hend⟩ := @ih (read ++ [c]) (by simp; omega) hseg.2
    rw [cons_append, fileLines, if_neg hroom, fileLines, if_neg hroom, hline, hend]
    simp

theorem fileLines_cut (hroom : read.length + 1 < size) (hfull : size ≤ read.length + seg.length + 1)
    (hread : '\n' ∉ read) (hseg : '\n' ∉ seg) (behind : Text) :
    ∃ chunk more, fileLines size read (seg ++ behind) = ⟨chunk, false⟩ :: more ∧ chunk ≠ [] ∧
      '\n' ∉ chunk := by
  induction seg generalizing read with
  | nil => rw [length_nil] at hfull; omega
  | cons c seg ih =>
    rw [mem_cons, not_or] at hseg
    rw [length_cons] at hfull
    have hnext : '\n' ∉ read ++ [c] := by
      rw [mem_append, mem_singleton, not_or]
      exact ⟨hread, hseg.1⟩
    rw [cons_append, fileLines]
    split
    · exact ⟨read ++ [c], _, rfl, by simp, hnext⟩
    next hsmall =>
      exact ih (by simp; omega) (by simp; omega) hnext hseg.2

theorem fileLines_full (hsize : read.length + seg.length + 1 = size) (hne : seg ≠ [])
    (hseg : '\n' ∉ seg) (behind : Text) :
    fileLines size read (seg ++ behind) = ⟨read ++ seg, false⟩ :: fileLines size [] behind := by
  induction seg generalizing read with
  | nil => exact absurd rfl hne
  | cons c seg ih =>
    rw [mem_cons, not_or] at hseg
    rw [length_cons] at hsize
    rw [cons_append, fileLines]
    by_cases hlast : seg = []
    · subst hlast; rw [if_pos (.inr (by simp at hsize; omega)), nil_append]
    · have hpos := length_pos_of_ne_nil hlast
      have hroom : ¬ (c = '\n' ∨ read.length + 2 ≥ size) := by
        rintro (rfl | hfull)
        · exact hseg.1 rfl
        · omega
      rw [if_neg hroom, ih (by simp; omega) hlast hseg.2, append_assoc]
      rfl

def FileLine.pieces (line : FileLine) : List FileLine := fileLines arkshMaxLine [] line.text

theorem newline_induction {P : Text → Prop} (last : ∀ seg, '\n' ∉ seg → P seg)
    (line : ∀ seg rest, '\n' ∉ seg → P rest → P (seg ++ '\n' :: rest)) (text : Text) : P text := by
  induction hlen : text.length using Nat.strong_induction_on generalizing text with
  | _ n ih =>
    by_cases hmem : '\n' ∈ text
    · obtain ⟨seg, rest, rfl, hseg⟩ := eq_append_cons_of_mem hmem
      exact line seg rest hseg (ih rest.length (by rw [← hlen]; simp; omega) rest rfl)
    · exact last text hmem

theorem fileLines_pieces (text : Text) :
    fileLines arkshMaxLine [] text = (textLines [] text).flatMap FileLine.pieces := by
  induction text using newline_induction with
  | last seg hseg =>
    rw [textLines_last hseg, nil_append]
    split
    next hnil => rw [hnil]; rfl
    · rw [flatMap_singleton]; rfl
  | line seg rest hseg ih =>
    rw [textLines_newline hseg, fileLines_newline hseg, ih, flatMap_cons]
    rfl

inductive FileLine.InFile : FileLine → Prop where
  | newline {seg : Text} : '\n' ∉ seg → InFile ⟨seg ++ ['\n'], false⟩
  | last {seg : Text} : '\n' ∉ seg → seg ≠ [] → InFile ⟨seg, true⟩

theorem textLines_inFile (text : Text) : ∀ line ∈ textLines [] text, line.InFile := by
  induction text using newline_induction with
  | last seg hseg =>
    rw [textLines_last hseg, nil_append]
    split
    · exact fun _ hline => nomatch hline
    next hne =>
      intro line hline
      rw [mem_singleton] at hline
      rw [hline]
      exact .last hseg hne
  | line seg rest hseg ih =>
    rw [textLines_newline hseg]
    intro line hline
    rcases mem_cons.mp hline with rfl | hline
    · exact .newline hseg
    · exact ih line hline

theorem FileLine.InFile.plain (h : line.InFile) : line.Plain := by
  cases h with
  | newline hseg =>
    unfold Plain
    rwa [dropLast_concat]
  | last hseg => exact fun hmem => hseg (dropLast_subset _ hmem)

theorem FileLine.InFile.whole (h : line.InFile) : line.Whole := by
  cases h with
  | newline => exact .inr (.inl getLast?_concat)
  | last => exact .inr (.inr rfl)

theorem FileLine.InFile.pieces_fits (h : line.InFile) (hfits : line.Fits) :
    line.pieces = [line] := by
  cases h with
  | @newline seg hseg => refine (fileLines_fits ?_ hseg).1; simpa [Fits] using hfits
  | @last seg hseg hne =>
    refine ((fileLines_fits ?_ hseg).2).trans (if_neg hne)
    simpa [Fits] using hfits

theorem FileLine.InFile.pieces_cut (h : line.InFile) (hfits : ¬ line.Fits) :
    ∃ piece more, line.pieces = piece :: more ∧ ¬ piece.Whole := by
  have hcut : ∀ seg behind : Text, '\n' ∉ seg → arkshMaxLine ≤ seg.length + 1 →
      ∃ piece more, fileLines arkshMaxLine [] (seg ++ behind) = piece :: more ∧ ¬ piece.Whole := by
    intro seg behind hseg hfull
    have hroom : ([] : Text).length + 1 < arkshMaxLine := by decide
    obtain ⟨chunk, more, heq, hne, hchunk⟩ :=
      fileLines_cut hroom (by simpa using hfull) not_mem_nil hseg behind
    refine ⟨_, more, heq, ?_⟩
    rintro (hnil | hnewline | hend)
    · exact hne hnil
    · exact hchunk (mem_of_getLast? hnewline)
    · exact Bool.false_ne_true hend
  cases h with
  | @newline seg hseg => refine hcut seg ['\n'] hseg ?_; simpa [Fits] using hfits
  | @last seg hseg hne =>
    obtain ⟨piece, more, heq, hpiece⟩ := hcut seg [] hseg (by simpa [Fits] using hfits)
    rw [append_nil] at heq
    exact ⟨piece, more, heq, hpiece⟩

theorem fileLines_plain (hroom : read.length + 1 < size) (hread : '\n' ∉ read) :
    ∀ piece ∈ fileLines size read text, piece.Plain ∧ piece.text.length < size := by
  induction text generalizing read with
  | nil =>
    rw [fileLines]
    split
    · exact fun _ hpiece => nomatch hpiece
    · intro piece hpiece
      rw [mem_singleton] at hpiece
      rw [hpiece]
      exact ⟨fun hmem => hread (dropLast_subset _ hmem), by simp only; omega⟩
  | cons c rest ih =>
    rw [fileLines]
    split
    · intro piece hpiece
      rcases mem_cons.mp hpiece with rfl | hpiece
      · refine ⟨?_, by simpa using hroom⟩
        unfold FileLine.Plain
        rwa [dropLast_concat]
      · exact ih (by simp; omega) not_mem_nil piece hpiece
    next hopen =>
      rw [not_or] at hopen
      refine ih (by simp; omega) ?_
      rw [mem_append, mem_singleton, not_or]
      exact ⟨hread, Ne.symm hopen.1⟩

end Lines

end Arksh
