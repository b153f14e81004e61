/-
  Subject: The scanning loops of the parser, one character after the other.

  The loops that look for operators, `?` and `:`, and commas pass over quotes and brackets in the
  same way. Here that is a machine with a state (`TopScan`): behind a closed text, where no quote
  and no bracket stays open, a loop looks at the rest of the line as if the text were not there.
-/
import Arksh.Parse.Value

namespace Arksh

open CText Scan List

structure TopScan where
  quote : Quote
  escape : Bool
  paren : Nat
  bracket : Nat
  deriving DecidableEq

namespace TopScan

/-- Outside of quotes and brackets. -/
def start : TopScan := ⟨.unquoted, false, 0, 0⟩

def next (s : TopScan) (c : Char) : TopScan :=
  match s.quote with
  | .single => if c = '\'' then { s with quote := .unquoted } else s
  | .double =>
    if s.escape then { s with escape := false }
    else if c = '"' then { s with quote := .unquoted }
    else if c = '\\' then { s with escape := true }
    else s
  | .unquoted =>
    if c = '"' then { s with quote := .double }
    else if c = '\'' then { s with quote := .single }
    else if c = '(' then { s with paren := s.paren + 1 }
    else if c = ')' ∧ s.paren > 0 then { s with paren := s.paren - 1 }
    else if c = '[' then { s with bracket := s.bracket + 1 }
    else if c = ']' ∧ s.bracket > 0 then { s with bracket := s.bracket - 1 }
    else s

/-- The loop looks at a character: it changes nothing, outside of quotes and brackets. -/
def looks (s : TopScan) (c : Char) : Bool := s = start && c ≠ '"' && c ≠ '\'' && c ≠ '(' && c ≠ '['

def marks (s : TopScan) : Text → List Bool
  | [] => []
  | c :: text => s.looks c :: (s.next c).marks text

def after (s : TopScan) (text : Text) : TopScan := text.foldl next s

end TopScan

variable {c : Char}

theorem topLevelChars_unquoted (hc : c ≠ '"' ∧ c ≠ '\'') (paren bracket : Nat) (text : Text) :
    topLevelChars ⟨false, false⟩ .unquoted paren 0 bracket (c :: text) =
      TopScan.looks ⟨.unquoted, false, paren, bracket⟩ c :: topLevelChars ⟨false, false⟩ .unquoted
          (TopScan.next ⟨.unquoted, false, paren, bracket⟩ c).paren 0
          (TopScan.next ⟨.unquoted, false, paren, bracket⟩ c).bracket text := by
  rw [topLevelChars, if_neg hc.1, if_neg hc.2]
  case x_7 => exact fun _ _ hescapes => nomatch hescapes
  unfold TopScan.looks TopScan.next TopScan.start
  by_cases h1 : c = '('
  · simp [h1]
  by_cases h2 : c = ')' ∧ paren > 0
  · have hpos : paren ≠ 0 := by omega
    simp [h2, hpos]
  by_cases h3 : c = '['
  · simp [h3]
  by_cases h4 : c = ']' ∧ bracket > 0
  · have hpos : bracket ≠ 0 := by omega
    simp [h4, hpos]
  · simp [h1, h2, h3, h4, hc.1, hc.2]

theorem TopScan.next_unquoted (hc : c ≠ '"' ∧ c ≠ '\'') (paren bracket : Nat) :
    (TopScan.mk .unquoted false paren bracket).next c =
      ⟨.unquoted, false, ((TopScan.mk .unquoted false paren bracket).next c).paren,
        ((TopScan.mk .unquoted false paren bracket).next c).bracket⟩ := by
  unfold TopScan.next
  dsimp only
  rw [if_neg hc.1, if_neg hc.2]
  split_ifs <;> rfl

/-- **The loops run the machine.** -/
theorem topLevelChars_eq (quote : Quote) (paren bracket : Nat) (text : Text) :
    topLevelChars ⟨false, false⟩ quote paren 0 bracket text =
      TopScan.marks ⟨quote, false, paren, bracket⟩ text := by
  -- an escape in double quotes takes two characters at once
  induction h : text.length using Nat.strongRecOn generalizing quote paren bracket text with
  | ind n ih =>
    subst h
    have hrest : ∀ (quote : Quote) (paren bracket : Nat) (rest : Text),
        rest.length < text.length → topLevelChars ⟨false, false⟩ quote paren 0 bracket rest =
          TopScan.marks ⟨quote, false, paren, bracket⟩ rest :=
      fun quote paren bracket rest hlt => ih rest.length hlt quote paren bracket rest rfl
    cases text with
    | nil => rw [topLevelChars, TopScan.marks]
    | cons c rest =>
      have hlt : rest.length < (c :: rest).length := Nat.lt_succ_self _
      cases quote with
      | single =>
        rw [topLevelChars, hrest _ _ _ rest hlt, TopScan.marks]
        by_cases hc : c = '\''
        · subst hc; rfl
        · simp [TopScan.next, TopScan.looks, TopScan.start, hc]
      | double =>
        rw [TopScan.marks]
        by_cases hquote : c = '"'
        · subst hquote; exact congrArg (false :: ·) (hrest _ _ _ rest hlt)
        by_cases hescape : c = '\\'
        · subst hescape
          cases rest with
          | nil => rfl
          | cons d rest =>
            -- a backslash and the character behind it
            have hlt : rest.length < ('\\' :: d :: rest).length :=
              (Nat.lt_succ_self _).trans (Nat.lt_succ_self _)
            exact congrArg (false :: false :: ·) (hrest .double paren bracket rest hlt)
        · have hread : topLevelChars ⟨false, false⟩ .double paren 0 bracket (c :: rest) =
              false :: topLevelChars ⟨false, false⟩ .double paren 0 bracket rest := by
            rw [topLevelChars, if_neg hquote]
            exact fun _ _ hc _ => hescape hc
          rw [hread, hrest _ _ _ rest hlt]
          simp [TopScan.next, TopScan.looks, TopScan.start, hquote, hescape]
      | unquoted =>
        rw [TopScan.marks]
        by_cases hdouble : c = '"'
        · subst hdouble
          rw [topLevelChars, if_pos rfl, hrest _ _ _ rest hlt]
          · simp [TopScan.next, TopScan.looks]
          · exact fun _ _ hescapes => nomatch hescapes
        by_cases hsingle : c = '\''
        · subst hsingle
          rw [topLevelChars, if_neg (by decide), if_pos rfl, hrest _ _ _ rest hlt]
          · simp [TopScan.next, TopScan.looks]
          · exact fun _ _ hescapes => nomatch hescapes
        · rw [topLevelChars_unquoted ⟨hdouble, hsingle⟩, hrest _ _ _ rest hlt,
            ← TopScan.next_unquoted ⟨hdouble, hsingle⟩]

namespace TopScan

theorem length_marks (s : TopScan) (text : Text) : (s.marks text).length = text.length := by
  induction text generalizing s with
  | nil => rfl
  | cons c text ih => rw [marks, length_cons, length_cons, ih]

theorem marks_append (s : TopScan) (a b : Text) :
    s.marks (a ++ b) = s.marks a ++ (s.after a).marks b := by
  induction a generalizing s with
  | nil => rfl
  | cons c a ih => rw [cons_append, marks, marks, ih, cons_append]; rfl

theorem after_append (s : TopScan) (a b : Text) : s.after (a ++ b) = (s.after a).after b :=
  foldl_append ..

def marked (s : TopScan) (text : Text) : List (Char × Bool) := text.zip (s.marks text)

theorem marked_cons (s : TopScan) (c : Char) (text : Text) :
    s.marked (c :: text) = (c, s.looks c) :: (s.next c).marked text := rfl

theorem marked_append (s : TopScan) (a b : Text) :
    s.marked (a ++ b) = s.marked a ++ (s.after a).marked b := by
  rw [marked, marks_append, zip_append (s.length_marks a).symm]
  rfl

theorem length_marked (s : TopScan) (text : Text) : (s.marked text).length = text.length := by
  rw [marked, length_zip, length_marks, Nat.min_self]

end TopScan

theorem markedChars_eq (text : Text) :
    markedChars ⟨false, false⟩ text = TopScan.start.marked text := by
  rw [markedChars, topLevelChars_eq]
  rfl

/-- No quote and no bracket of a text stays open. -/
def ClosedText (text : Text) : Prop := TopScan.start.after text = TopScan.start

instance : DecidablePred ClosedText := fun text => by
  unfold ClosedText
  infer_instance

/-- **What stands behind a closed text is scanned by itself.** -/
theorem markedChars_append {a : Text} (ha : ClosedText a) (b : Text) :
    markedChars ⟨false, false⟩ (a ++ b) =
      markedChars ⟨false, false⟩ a ++ markedChars ⟨false, false⟩ b := by
  rw [markedChars_eq, markedChars_eq, markedChars_eq, TopScan.marked_append,
    show TopScan.start.after a = TopScan.start from ha]

theorem ClosedText.append {a b : Text} (ha : ClosedText a) (hb : ClosedText b) : ClosedText (a ++ b) := by
  rw [ClosedText, TopScan.after_append, show TopScan.start.after a = TopScan.start from ha]
  exact hb

/-- Characters that are no quotation marks and no brackets. -/
def isPlainChar (c : Char) : Bool := c ≠ '"' && c ≠ '\'' && c ≠ '(' && c ≠ ')' && c ≠ '[' && c ≠ ']'

theorem TopScan.plain (hc : isPlainChar c = true) :
    start.next c = start ∧ start.looks c = true := by
  simp only [isPlainChar, Bool.and_eq_true, decide_eq_true_eq] at hc
  obtain ⟨⟨⟨⟨⟨h1, h2⟩, h3⟩, h4⟩, h5⟩, h6⟩ := hc
  simp [next, looks, start, h1, h2, h3, h4, h5, h6]

theorem closed_of_plain {text : Text} (h : ∀ c ∈ text, isPlainChar c = true) : ClosedText text := by
  induction text with
  | nil => rfl
  | cons c text ih =>
    have hc := (TopScan.plain (h c mem_cons_self)).1
    rw [ClosedText, TopScan.after, foldl_cons, hc]
    exact ih fun d hd => h d (mem_cons_of_mem _ hd)

theorem markedChars_of_plain {text : Text} (h : ∀ c ∈ text, isPlainChar c = true) :
    markedChars ⟨false, false⟩ text = text.map (·, true) := by
  rw [markedChars_eq]
  induction text with
  | nil => rfl
  | cons c text ih =>
    obtain ⟨hnext, hlooks⟩ := TopScan.plain (h c mem_cons_self)
    rw [TopScan.marked_cons, hnext, hlooks, ih fun d hd => h d (mem_cons_of_mem _ hd), map_cons]

end Arksh
