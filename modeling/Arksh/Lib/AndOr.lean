/-
  Subject: Lists of commands that are joined by `;`, `&`, `&&` and `||`.

  A list is a row of AND-OR lists, each in the foreground or in the background; an AND-OR list is
  a command, or an AND-OR list and a command that is run behind it if it succeeds or if it fails.
  So `&&` and `||` associate to the left and bind alike, and `;` and `&` end an AND-OR list.

  A shell may keep a list flat instead: every command with the condition under which it is run,
  and with a flag for the background.
-/
import Mathlib.Data.List.Basic

namespace AndOrLists

open List

variable {α : Type}

/-! ## 1. Lists and their pieces -/

/-- The operator behind a command; a line break, or the end, is a `;`. -/
inductive Separator where
  | sequence | background | andIf | orIf
  deriving DecidableEq

/-- The operator ends an AND-OR list. -/
def Separator.Ends (sep : Separator) : Prop := sep = .sequence ∨ sep = .background

inductive AndOr (α : Type) where
  | command (a : α)
  | andIf (left : AndOr α) (right : α)
  | orIf (left : AndOr α) (right : α)

def AndOr.Single : AndOr α → Prop
  | .command _ => True
  | _ => False

structure Item (α : Type) where
  andOr : AndOr α
  background : Bool

abbrev CommandList (α : Type) := List (Item α)

def AndOr.pieces : AndOr α → Separator → List (α × Separator)
  | .command a, sep => [(a, sep)]
  | .andIf left right, sep => left.pieces .andIf ++ [(right, sep)]
  | .orIf left right, sep => left.pieces .orIf ++ [(right, sep)]

def Item.separator (item : Item α) : Separator :=
  if item.background then .background else .sequence

def Item.pieces (item : Item α) : List (α × Separator) := item.andOr.pieces item.separator

def CommandList.pieces (l : CommandList α) : List (α × Separator) := l.flatMap Item.pieces

/-- The list that commands with operators make, behind the beginning of an AND-OR list and its
    operator. -/
def groupFrom : AndOr α → Separator → List (α × Separator) → CommandList α
  | andOr, .andIf, (a, sep) :: ps => groupFrom (.andIf andOr a) sep ps
  | andOr, .orIf, (a, sep) :: ps => groupFrom (.orIf andOr a) sep ps
  | andOr, .background, (a, sep) :: ps => ⟨andOr, true⟩ :: groupFrom (.command a) sep ps
  | andOr, .sequence, (a, sep) :: ps => ⟨andOr, false⟩ :: groupFrom (.command a) sep ps
  | andOr, .background, [] => [⟨andOr, true⟩]
  | andOr, _, [] => [⟨andOr, false⟩]

def group : List (α × Separator) → CommandList α
  | [] => []
  | (a, sep) :: ps => groupFrom (.command a) sep ps

def Complete (ps : List (α × Separator)) : Prop := ∀ p ∈ ps.getLast?, p.2.Ends


variable {a : α} {sep : Separator} {ps : List (α × Separator)}

theorem Complete.tail {p : α × Separator} (h : Complete ((a, sep) :: p :: ps)) :
    Complete (p :: ps) := by
  exact h

theorem Complete.append (h : Complete ps) (hsep : sep.Ends) (front : List (α × Separator)) :
    Complete (front ++ (a, sep) :: ps) := by
  intro p hp
  rw [getLast?_append] at hp
  cases ps with
  | nil => cases hp; exact hsep
  | cons q ps =>
    rw [getLast?_cons_cons] at hp
    refine h p ?_
    cases hlast : (q :: ps).getLast? with
    | none => cases getLast?_eq_none_iff.mp hlast
    | some r => rw [hlast] at hp; exact hp

theorem groupFrom_pieces :
    ∀ (andOr : AndOr α) {a : α} {sep : Separator}, Complete ((a, sep) :: ps) →
      (groupFrom andOr sep ps).pieces = andOr.pieces sep ++ ps := by
  induction ps with
  | nil => intro andOr a sep h; rcases h (a, sep) rfl with rfl | rfl <;> rfl
  | cons p ps ih =>
    intro andOr a sep h
    obtain ⟨b, sep'⟩ := p
    have hitem {background : Bool} :
        CommandList.pieces (⟨andOr, background⟩ :: groupFrom (.command b) sep' ps) =
          (Item.mk andOr background).pieces ++ (b, sep') :: ps := by
      show (Item.mk andOr background).pieces ++ CommandList.pieces _ = _
      rw [ih (.command b) h.tail]
      rfl
    cases sep with
    | sequence | background => exact hitem
    | andIf => rw [groupFrom, ih (.andIf andOr b) h.tail, AndOr.pieces, append_assoc]; rfl
    | orIf => rw [groupFrom, ih (.orIf andOr b) h.tail, AndOr.pieces, append_assoc]; rfl

theorem group_pieces (h : Complete ps) : (group ps).pieces = ps := by
  cases ps with
  | nil => rfl
  | cons p ps => exact groupFrom_pieces (.command p.1) h

theorem groupFrom_andOr (andOr : AndOr α) (sep : Separator) (ps : List (α × Separator)) :
    group (andOr.pieces sep ++ ps) = groupFrom andOr sep ps := by
  induction andOr generalizing sep ps with
  | command a => rfl
  | andIf left right ih | orIf left right ih => rw [AndOr.pieces, append_assoc, ih]; rfl

theorem AndOr.pieces_eq_append (andOr : AndOr α) (sep : Separator) :
    ∃ front a, andOr.pieces sep = front ++ [(a, sep)] := by
  cases andOr with
  | command a => exact ⟨[], a, rfl⟩
  | andIf left right | orIf left right => exact ⟨_, right, rfl⟩

theorem Item.separator_ends (item : Item α) : item.separator.Ends := by
  obtain ⟨andOr, background⟩ := item
  cases background with
  | false => exact Or.inl rfl
  | true => exact Or.inr rfl

theorem CommandList.pieces_complete (l : CommandList α) : Complete l.pieces := by
  induction l with
  | nil => exact fun p hp => nomatch hp
  | cons item l ih =>
    obtain ⟨front, a, hfront⟩ := item.andOr.pieces_eq_append item.separator
    show Complete (item.andOr.pieces item.separator ++ CommandList.pieces l)
    rw [hfront, append_assoc]
    exact ih.append item.separator_ends front

theorem groupFrom_item (andOr : AndOr α) (background : Bool) (ps : List (α × Separator)) :
    groupFrom andOr (Item.mk andOr background).separator ps = ⟨andOr, background⟩ :: group ps := by
  cases background with
  | false | true => cases ps <;> rfl

theorem group_of_pieces (l : CommandList α) : group l.pieces = l := by
  induction l with
  | nil => rfl
  | cons item l ih =>
    show group (item.andOr.pieces item.separator ++ CommandList.pieces l) = item :: l
    rw [groupFrom_andOr, groupFrom_item, ih]

/-! ## 2. What a list does -/

/-- A part of a list is done, with a status; the list goes on or ends here. -/
inductive Progress (S ω : Type) where
  | next (status : S) (out : ω)
  | stop (status : S) (out : ω)

/-- What the list comes to behind a part of it. -/
def Progress.andThen {S ω : Type} {m : Type → Type} [Monad m] (f : S → ω → m (S × ω)) :
    Progress S ω → m (S × ω)
  | .next status out => f status out
  | .stop status out => pure (status, out)

variable {l : CommandList α}

section Run

variable {S ω : Type} {m : Type → Type} [Monad m] (ok : S → Bool)
  (exec : Bool → Bool → α → ω → m (Progress S ω)) (join : AndOr α → α)

/-- The command behind `&&` or `||` is run, or not. -/
def runRight (due : S → Bool) (right : S → ω → m (Progress S ω)) :
    Progress S ω → m (Progress S ω)
  | .next status out => if due status then right status out else pure (.next status out)
  | .stop status out => pure (.stop status out)

/-- An AND-OR list. `exec tested background` runs a command, whose status an operator may test. -/
def AndOr.run (tested : Bool) : AndOr α → ω → m (Progress S ω)
  | .command a, out => exec tested false a out
  | .andIf left right, out =>
    left.run true out >>= runRight ok fun _ out => exec tested false right out
  | .orIf left right, out =>
    left.run true out >>= runRight (fun status => !ok status) fun _ out => exec tested false right out

def Item.run (item : Item α) (out : ω) : m (Progress S ω) :=
  if item.background then exec false true (join item.andOr) out
  else item.andOr.run ok exec false out

def CommandList.run : CommandList α → S → ω → m (S × ω)
  | [], status, out => pure (status, out)
  | item :: items, _, out => item.run ok exec join out >>= Progress.andThen (CommandList.run items)

/-! ## 3. The flat form -/

inductive Condition where
  | always | onSuccess | onFailure
  deriving DecidableEq

structure Entry (α : Type) where
  command : α
  condition : Condition
  background : Bool

/-- The entry is run behind this status. -/
def Condition.holds (status : S) : Condition → Bool
  | .always => true
  | .onSuccess => ok status
  | .onFailure => !ok status

def Separator.condition : Separator → Condition
  | .andIf => .onSuccess
  | .orIf => .onFailure
  | .sequence | .background => .always

/-- Every command takes its condition from the operator in front of it. -/
def entriesFrom : Condition → List (α × Separator) → List (Entry α)
  | _, [] => []
  | condition, (a, sep) :: ps => ⟨a, condition, sep = .background⟩ :: entriesFrom sep.condition ps

def CommandList.entries (l : CommandList α) : List (Entry α) := entriesFrom .always l.pieces

def isTested : List (Entry α) → Bool
  | [] => false
  | next :: _ => next.condition ≠ .always

def runEntries : List (Entry α) → S → ω → m (S × ω)
  | [], status, out => pure (status, out)
  | entry :: rest, status, out =>
    if entry.condition.holds ok status then
      exec (isTested rest) entry.background entry.command out >>= Progress.andThen (runEntries rest)
    else runEntries rest status out

variable {ok exec join} [LawfulMonad m]

theorem isTested_entriesFrom (h : Complete ((a, sep) :: ps)) :
    isTested (entriesFrom sep.condition ps) = (sep.condition ≠ .always : Bool) := by
  cases ps with
  | nil => rcases h (a, sep) rfl with rfl | rfl <;> rfl
  | cons p ps => rfl

theorem runEntries_right {c : Condition} (hsep : sep ≠ .background) (h : Complete ((a, sep) :: ps))
    (x : m (Progress S ω)) :
    x >>= Progress.andThen (runEntries ok exec (entriesFrom c ((a, sep) :: ps))) =
      (x >>= runRight (c.holds ok) fun _ out => exec (sep.condition ≠ .always : Bool) false a out) >>=
        Progress.andThen (runEntries ok exec (entriesFrom sep.condition ps)) := by
  rw [bind_assoc]
  refine congrArg (x >>= ·) (funext fun r => ?_)
  cases r with
  | stop status out =>
    show pure (status, out) = pure (Progress.stop status out) >>= _
    rw [pure_bind]
    rfl
  | next status out =>
    show runEntries ok exec (_ :: _) status out = (if _ then _ else _) >>= _
    rw [runEntries, isTested_entriesFrom h, decide_eq_false hsep]
    split
    · rfl
    · rw [pure_bind]; rfl

/-- **An AND-OR list in the foreground, in the flat form.** -/
theorem runEntries_andOr (andOr : AndOr α) {status : S} {out : ω} (hsep : sep ≠ .background)
    (h : ∀ a, Complete ((a, sep) :: ps)) :
    runEntries ok exec (entriesFrom .always (andOr.pieces sep ++ ps)) status out =
      andOr.run ok exec (sep.condition ≠ .always : Bool) out >>=
        Progress.andThen (runEntries ok exec (entriesFrom sep.condition ps)) := by
  induction andOr generalizing sep ps with
  | command a =>
    rw [AndOr.pieces, singleton_append, entriesFrom, runEntries, isTested_entriesFrom (h a),
      decide_eq_false hsep]
    rfl
  | andIf left right ih | orIf left right ih =>
    rw [AndOr.pieces, append_assoc, ih (by decide) fun a => ?_]
    · exact runEntries_right hsep (h right) _
    · exact h right

theorem runEntries_item (hjoin : ∀ a, join (.command a) = a) {item : Item α}
    (h : item.background = true → item.andOr.Single) (status : S) (out : ω) :
    runEntries ok exec (CommandList.entries (item :: l)) status out =
      item.run ok exec join out >>= Progress.andThen (runEntries ok exec (CommandList.entries l)) := by
  obtain ⟨andOr, background⟩ := item
  have hcomplete (a : α) {sep : Separator} (hsep : sep.Ends) :
      Complete ((a, sep) :: CommandList.pieces l) := (CommandList.pieces_complete l).append hsep []
  cases background with
  | false => exact runEntries_andOr andOr (fun h => nomatch h) fun a => hcomplete a (Or.inl rfl)
  | true =>
    cases andOr with
    | command a =>
      show runEntries ok exec (⟨a, .always, true⟩ :: CommandList.entries l) status out = _
      rw [runEntries, Item.run, if_pos rfl, hjoin]
      have htested : isTested (CommandList.entries l) = false :=
        isTested_entriesFrom (hcomplete a (Or.inr rfl))
      rw [htested]
      rfl
    | andIf left right | orIf left right => exact (h rfl).elim

/-- **The flat form of a list does what the list does**, if each item in the background is one
    command. -/
theorem runEntries_entries (hjoin : ∀ a, join (.command a) = a)
    (hl : ∀ item ∈ l, item.background = true → item.andOr.Single) :
    runEntries ok exec l.entries = CommandList.run ok exec join l := by
  induction l with
  | nil => rfl
  | cons item l ih =>
    have ih := ih fun item hitem => hl item (mem_cons_of_mem _ hitem)
    funext status out
    rw [runEntries_item hjoin (hl item mem_cons_self), CommandList.run, ih]

end Run

end AndOrLists
