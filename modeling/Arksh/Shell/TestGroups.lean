/-
  Subject: The trees over groups of words that `test` reads, `src/shell.c`.

  Between the operators the parser takes any words for a primary, up to fifteen; those that say
  nothing to `test_primary` are false. Its look-ahead is off by one: of a first word it looks at the
  third, not at the second, for an operator, and then takes the fourth, whatever that is.
-/
import Arksh.Shell.TestCommand
import Arksh.Lib.BoolTree

namespace Arksh

open CText BoolTree List Option

/-! ## 1. Groups of words -/

structure WordGroup where
  first : Text
  more : List Text
  first_notMem : first ∉ specialWords
  more_notMem : ∀ word ∈ more, word ∉ primaryEnd
  length_le : more.length ≤ 14

namespace WordGroup

def words (g : WordGroup) : List Text := g.first :: g.more

def status (host : TestHost) (g : WordGroup) : Nat := (testOperands host g.words []).1

def holds (host : TestHost) (g : WordGroup) : Bool := g.status host = 0

def Faulty (g : WordGroup) : Prop :=
  ∃ a relation b, g.words = [a, (BinaryPrimary.numeric relation).text, b] ∧
    (parseTestInteger a = none ∨ parseTestInteger b = none)

end WordGroup

def testWords : Words Text where
  not_ := "!".toList
  and_ := "-a".toList
  or_ := "-o".toList
  open_ := "(".toList
  close := ")".toList

def groupArgs (t : BoolTree.Tree WordGroup) : List Text := t.write testWords WordGroup.words

theorem groupArgs_conj (left right : BoolTree.Tree WordGroup) (rest : List Text) :
    groupArgs (.conj left right) ++ rest = groupArgs left ++ "-a".toList :: (groupArgs right ++ rest) :=
  BoolTree.Tree.write_conj_append testWords WordGroup.words left right rest

theorem groupArgs_disj (left right : BoolTree.Tree WordGroup) (rest : List Text) :
    groupArgs (.disj left right) ++ rest = groupArgs left ++ "-o".toList :: (groupArgs right ++ rest) :=
  BoolTree.Tree.write_disj_append testWords WordGroup.words left right rest

theorem groupArgs_group (t : BoolTree.Tree WordGroup) (rest : List Text) :
    groupArgs (.group t) ++ rest = "(".toList :: (groupArgs t ++ ")".toList :: rest) :=
  BoolTree.Tree.write_group_append testWords WordGroup.words t rest

/-! ### The look-ahead -/

def OperatorAhead : List Text → Prop
  | b :: op :: _ :: _ => b ∉ primaryEnd ∧ op ∈ lookAheadOperators
  | _ => False

def LooksAhead : Bool → List Text → Prop
  | _, [] => False
  | start, a :: args =>
    if a ∈ primaryEnd then LooksAhead (a ≠ ")".toList) args
    else if start = true ∧ (a = "!".toList ∨ a = "(".toList) then LooksAhead true args
    else start = true ∧ OperatorAhead args ∨ LooksAhead false args

def EndsPrimary (rest : List Text) : Prop := ∀ a ∈ rest.head?, a ∈ primaryEnd

section LookAhead

variable {a : Text} {args rest : List Text}

theorem looksAhead_end (h : a ∈ primaryEnd) (start : Bool) :
    LooksAhead start (a :: args) ↔ LooksAhead (a ≠ ")".toList) args := by
  rw [LooksAhead, if_pos h]

theorem looksAhead_open (h : a = "!".toList ∨ a = "(".toList) :
    LooksAhead true (a :: args) ↔ LooksAhead true args := by
  have hend : a ∉ primaryEnd := by
    rcases h with rfl | rfl <;> decide
  rw [LooksAhead, if_neg hend, if_pos ⟨rfl, h⟩]

theorem looksAhead_first (h : a ∉ specialWords) :
    LooksAhead true (a :: args) ↔ OperatorAhead args ∨ LooksAhead false args := by
  rw [mem_specialWords, not_or, not_or] at h
  rw [LooksAhead, if_neg h.2.2, if_neg fun hopen => hopen.2.elim h.1 h.2.1]
  exact or_congr_left (and_iff_right rfl)

theorem looksAhead_more (h : ∀ word ∈ args, word ∉ primaryEnd) :
    LooksAhead false (args ++ rest) ↔ LooksAhead false rest := by
  induction args with
  | nil => rfl
  | cons a args ih =>
    rw [forall_mem_cons] at h
    rw [cons_append, LooksAhead, if_neg h.1, if_neg fun hopen => Bool.false_ne_true hopen.1, ih h.2]
    exact or_iff_right fun hahead => Bool.false_ne_true hahead.1

theorem looksAhead_write (t : BoolTree.Tree WordGroup) (h : LooksAhead false rest) :
    LooksAhead true (groupArgs t ++ rest) := by
  induction t generalizing rest with
  | leaf g =>
    show LooksAhead true (g.first :: (g.more ++ rest))
    rw [looksAhead_first g.first_notMem]
    exact .inr ((looksAhead_more g.more_notMem).mpr h)
  | neg t ih => exact (looksAhead_open (.inl rfl)).mpr (ih h)
  | conj left right ihl ihr =>
    rw [groupArgs_conj]
    exact ihl ((looksAhead_end (by decide) false).mpr (ihr h))
  | disj left right ihl ihr =>
    rw [groupArgs_disj]
    exact ihl ((looksAhead_end (by decide) false).mpr (ihr h))
  | group t ih =>
    rw [groupArgs_group]
    exact (looksAhead_open (.inr rfl)).mpr (ih ((looksAhead_end (by decide) false).mpr h))

theorem collectPrimary_append_eq {prim : List Text} (hprim : 2 ≤ prim.length)
    (hlength : prim.length + args.length ≤ 15) (hargs : ∀ word ∈ args, word ∉ primaryEnd)
    (hrest : EndsPrimary rest) : collectPrimary prim (args ++ rest) = (prim ++ args, rest) := by
  induction args generalizing prim with
  | nil =>
    rw [nil_append, append_nil]
    cases rest with
    | nil => rfl
    | cons a rest => rw [collectPrimary, if_neg fun h => h.1 (hrest a rfl)]
  | cons a args ih =>
    rw [forall_mem_cons] at hargs
    rw [length_cons] at hlength
    rw [cons_append, collectPrimary, if_pos ⟨hargs.1, by omega⟩, if_neg fun h => by omega,
      ih (by rw [length_append]; omega)
        (by rw [length_append, length_singleton]; omega) hargs.2, append_assoc]
    rfl

theorem collectPrimary_second {b : Text} (hahead : ¬ OperatorAhead (b :: args)) (hb : b ∉ primaryEnd) :
    collectPrimary [a] (b :: args) = collectPrimary [a, b] args := by
  have hacts : ¬ (([a] : List Text).length = 1 ∧ (b :: args).length ≥ 3 ∧
      args.headD [] ∈ lookAheadOperators) := by
    intro ⟨_, hlength, hop⟩
    match args with
    | [] => simp at hlength
    | [_] => simp at hlength
    | op :: c :: args => exact hahead ⟨hb, hop⟩
  rw [collectPrimary, if_pos ⟨hb, by simp⟩, if_neg hacts]
  rfl

theorem collectPrimary_first (ha : a ∉ primaryEnd) :
    collectPrimary [] (a :: args) = collectPrimary [a] args := by
  rw [collectPrimary, if_pos ⟨ha, by simp⟩, if_neg fun h => by simp at h]
  rfl

theorem notMem_primaryEnd (h : a ∉ specialWords) : a ∉ primaryEnd := fun hend =>
  h (mem_specialWords.mpr (.inr (.inr hend)))

theorem collectPrimary_words (g : WordGroup) (hrest : EndsPrimary rest)
    (hahead : ¬ LooksAhead true (g.words ++ rest)) :
    collectPrimary [] (g.words ++ rest) = (g.words, rest) := by
  obtain ⟨a, more, hfirst, hmore, hlength⟩ := g
  change ¬ LooksAhead true (a :: (more ++ rest)) at hahead
  show collectPrimary [] (a :: (more ++ rest)) = (a :: more, rest)
  rw [looksAhead_first hfirst, not_or] at hahead
  rw [collectPrimary_first (notMem_primaryEnd hfirst)]
  cases more with
  | nil =>
    cases rest with
    | nil => rfl
    | cons b rest => rw [nil_append, collectPrimary, if_neg fun h => h.1 (hrest b rfl)]
  | cons b more =>
    rw [forall_mem_cons] at hmore
    rw [length_cons] at hlength
    have hsecond : ¬ OperatorAhead (b :: (more ++ rest)) := hahead.1
    rw [cons_append, collectPrimary_second hsecond hmore.1,
      collectPrimary_append_eq (by simp) (by simp; omega) hmore.2 hrest]
    rfl

theorem collectPrimary_split {prim : List Text} (hprim : 2 ≤ prim.length) (hlength : prim.length ≤ 15) :
    ∃ more, (collectPrimary prim args).1 = prim ++ more ∧
      args = more ++ (collectPrimary prim args).2 ∧ (∀ word ∈ more, word ∉ primaryEnd) ∧
      (prim ++ more).length ≤ 15 := by
  induction args generalizing prim with
  | nil => exact ⟨[], (append_nil _).symm, rfl, by simp, by simpa using hlength⟩
  | cons a args ih =>
    rw [collectPrimary]
    by_cases hcollect : a ∉ primaryEnd ∧ prim.length < 15
    · rw [if_pos hcollect, if_neg fun h => by omega]
      obtain ⟨more, hprim', hargs, hmore, hlength'⟩ := @ih (prim ++ [a])
        (by rw [length_append]; omega)
        (by rw [length_append, length_singleton]; omega)
      refine ⟨a :: more, ?_, ?_, forall_mem_cons.mpr ⟨hcollect.1, hmore⟩, ?_⟩
      · rw [hprim', append_assoc]; rfl
      · rw [cons_append, ← hargs]
      · rwa [append_assoc] at hlength'
    · rw [if_neg hcollect]; exact ⟨[], (append_nil _).symm, rfl, by simp, by simpa using hlength⟩

theorem exists_wordGroup (ha : a ∉ specialWords) (hahead : ¬ LooksAhead true (a :: args)) :
    ∃ g : WordGroup, a :: args = g.words ++ (collectPrimary [] (a :: args)).2 := by
  rw [looksAhead_first ha, not_or] at hahead
  rw [collectPrimary_first (notMem_primaryEnd ha)]
  have halone : a :: args = [a] ++ args := rfl
  cases args with
  | nil => exact ⟨⟨a, [], ha, by simp, by simp⟩, rfl⟩
  | cons b args =>
    by_cases hb : b ∈ primaryEnd
    · rw [collectPrimary, if_neg fun h => h.1 hb]; exact ⟨⟨a, [], ha, by simp, by simp⟩, halone⟩
    · rw [collectPrimary_second hahead.1 hb]
      obtain ⟨more, -, hargs, hmore, hlength⟩ :=
        @collectPrimary_split args [a, b] (by simp) (by simp)
      refine ⟨⟨a, b :: more, ha, forall_mem_cons.mpr ⟨hb, hmore⟩, ?_⟩, ?_⟩
      · simp only [length_append, length_cons, length_nil] at hlength
        rw [length_cons]
        omega
      · show a :: b :: args = a :: b :: (more ++ _); rw [← hargs]

end LookAhead

/-! ## 2. Every tree is read -/

/-- The status of two operands, of which the first error is left as it is. -/
def joinStatus (truth : Bool → Bool → Bool) (s s' : Nat) : Nat :=
  if s > 1 then s else if s' > 1 then s' else testStatus (truth (s = 0) (s' = 0))

/-- The exit status of a tree; an error is one of the first operand that is. -/
def treeStatus (host : TestHost) : BoolTree.Tree WordGroup → Nat
  | .leaf g => g.status host
  | .neg t => negate (treeStatus host t)
  | .conj left right => joinStatus and (treeStatus host left) (treeStatus host right)
  | .disj left right => joinStatus or (treeStatus host left) (treeStatus host right)
  | .group t => treeStatus host t

def LeavesArgs (r : TestResult) (status : Nat) (rest : List Text) : Prop :=
  r.status = status ∧ (status ≤ 1 → r.args = rest)

/-- What `test_eval_or` and `test_eval_and` do with their first operand. -/
def orNext (host : TestHost) (fuel : Nat) (r : TestResult) : Option TestResult :=
  if r.status > 1 then some r else testOrLoop host fuel r

def andNext (host : TestHost) (fuel : Nat) (r : TestResult) : Option TestResult :=
  if r.status > 1 then some r else testAndLoop host fuel r

def FactorRead (host : TestHost) (t : BoolTree.Tree WordGroup) : Prop :=
  ∀ rest fuel err, EndsPrimary rest → ¬ LooksAhead true (groupArgs t ++ rest) →
    4 * (groupArgs t ++ rest).length + 2 ≤ fuel →
    ∃ r, testEvalNot host fuel (groupArgs t ++ rest) err = some r ∧
      LeavesArgs r (treeStatus host t) rest

def TermRead (host : TestHost) (t : BoolTree.Tree WordGroup) : Prop :=
  ∀ rest fuel err, EndsPrimary rest → ¬ LooksAhead true (groupArgs t ++ rest) →
    4 * (groupArgs t ++ rest).length + 3 ≤ fuel →
    ∃ fuel' r, 4 * rest.length + 1 ≤ fuel' ∧ LeavesArgs r (treeStatus host t) rest ∧
      testEvalAnd host fuel (groupArgs t ++ rest) err = andNext host fuel' r

def AnyRead (host : TestHost) (t : BoolTree.Tree WordGroup) : Prop :=
  ∀ rest fuel err, EndsPrimary rest → rest.head? ≠ some "-a".toList →
    ¬ LooksAhead true (groupArgs t ++ rest) → 4 * (groupArgs t ++ rest).length + 4 ≤ fuel →
    ∃ fuel' r, 4 * rest.length + 1 ≤ fuel' ∧ LeavesArgs r (treeStatus host t) rest ∧
      testEvalOr host fuel (groupArgs t ++ rest) err = orNext host fuel' r

variable {s s' : Nat}

section Reading

variable {host : TestHost} {fuel : Nat} {r : TestResult} {t left right : BoolTree.Tree WordGroup}
  {rest args : List Text}

theorem endsPrimary_cons {a : Text} (h : a ∈ primaryEnd) (args : List Text) : EndsPrimary (a :: args) := by
  intro b hb
  cases hb
  exact h

theorem groupArgs_length_pos (t : BoolTree.Tree WordGroup) : 0 < (groupArgs t).length :=
  length_pos_iff.mpr (t.write_ne_nil fun _ => cons_ne_nil _ _)

theorem le_of_joinStatus {truth : Bool → Bool → Bool} (h : joinStatus truth s s' ≤ 1) :
    s ≤ 1 ∧ s' ≤ 1 := by
  unfold joinStatus at h
  split_ifs at h with hs hs'
  all_goals omega

theorem LeavesArgs.join {truth : Bool → Bool → Bool} {r' : TestResult} (h : LeavesArgs r s args)
    (h' : LeavesArgs r' s' rest) :
    LeavesArgs { r' with status := joinStatus truth r.status r'.status } (joinStatus truth s s') rest := by
  refine ⟨?_, fun hle => h'.2 (le_of_joinStatus hle).2⟩
  rw [h.1, h'.1]

theorem LeavesArgs.error {truth : Bool → Bool → Bool} {args : List Text} (h : LeavesArgs r s args)
    (hstatus : ¬ r.status ≤ 1) : LeavesArgs r (joinStatus truth s s') rest := by
  refine ⟨?_, fun hle => absurd (h.1.le.trans (le_of_joinStatus hle).1) hstatus⟩
  rw [joinStatus, ← h.1, if_pos (by omega)]

theorem andNext_stop (hhead : r.status ≤ 1 → r.args.head? ≠ some "-a".toList) :
    andNext host (fuel + 1) r = some r := by
  unfold andNext
  split_ifs with hstatus
  · rfl
  · rw [testAndLoop, if_neg (hhead (by omega))]

theorem orNext_stop (hhead : r.status ≤ 1 → r.args.head? ≠ some "-o".toList) :
    orNext host (fuel + 1) r = some r := by
  unfold orNext
  split_ifs with hstatus
  · rfl
  · rw [testOrLoop, if_neg (hhead (by omega))]

theorem andNext_step (hstatus : r.status ≤ 1) (hargs : r.args = "-a".toList :: args) :
    andNext host (fuel + 1) r = (testEvalNot host fuel args r.err).bind fun r' =>
      andNext host fuel { r' with status := joinStatus and r.status r'.status } := by
  have hjoin : ∀ s, joinStatus and r.status s =
      if s > 1 then s else testStatus (r.status = 0 && s = 0) := fun s => if_neg (by omega)
  rw [andNext, if_neg (by omega), testAndLoop, hargs, head?_cons, if_pos rfl, tail_cons]
  congr 1
  funext r'
  have htruth := testStatus_le_one (r.status = 0 && r'.status = 0)
  rw [andNext, hjoin]
  by_cases herror : r'.status > 1
  · simp only [if_pos herror]
  · simp only [if_neg herror]; rw [if_neg (by omega)]

theorem orNext_step (hstatus : r.status ≤ 1) (hargs : r.args = "-o".toList :: args) :
    orNext host (fuel + 1) r = (testEvalAnd host fuel args r.err).bind fun r' =>
      orNext host fuel { r' with status := joinStatus or r.status r'.status } := by
  have hjoin : ∀ s, joinStatus or r.status s =
      if s > 1 then s else testStatus (r.status = 0 || s = 0) := fun s => if_neg (by omega)
  rw [orNext, if_neg (by omega), testOrLoop, hargs, head?_cons, if_pos rfl, tail_cons]
  congr 1
  funext r'
  have htruth := testStatus_le_one (r.status = 0 || r'.status = 0)
  rw [orNext, hjoin]
  by_cases herror : r'.status > 1
  · simp only [if_pos herror]
  · simp only [if_neg herror]; rw [if_neg (by omega)]

theorem FactorRead.term (h : FactorRead host t) : TermRead host t := by
  intro rest fuel err hrest hahead hfuel
  rcases fuel with _ | fuel
  · omega
  obtain ⟨r, heval, hleaves⟩ := h rest fuel err hrest hahead (by omega)
  rw [length_append] at hfuel
  refine ⟨fuel, r, by omega, hleaves, ?_⟩
  rw [testEvalAnd, heval]
  rfl

theorem TermRead.any (h : TermRead host t) : AnyRead host t := by
  intro rest fuel err hrest hhead hahead hfuel
  rcases fuel with _ | fuel
  · omega
  obtain ⟨fuel', r, hfuel', hleaves, heval⟩ := h rest fuel err hrest hahead (by omega)
  rcases fuel' with _ | fuel'
  · omega
  have hstop : andNext host (fuel' + 1) r = some r :=
    andNext_stop fun hstatus => by rwa [hleaves.2 (hleaves.1 ▸ hstatus)]
  rw [length_append] at hfuel
  refine ⟨fuel, r, by omega, hleaves, ?_⟩
  rw [testEvalOr, heval, hstop]
  rfl

theorem TermRead.conj (hleft : TermRead host left) (hright : FactorRead host right) :
    TermRead host (.conj left right) := by
  intro rest fuel err hrest hahead hfuel
  rw [groupArgs_conj] at hahead hfuel ⊢
  obtain ⟨fuel₁, r, hfuel₁, hleaves, heval⟩ :=
    hleft _ fuel err (endsPrimary_cons (by decide) _) hahead hfuel
  rw [length_cons] at hfuel₁
  rw [heval]
  by_cases hstatus : r.status ≤ 1
  · rcases fuel₁ with _ | fuel₁
    · omega
    have hahead' : ¬ LooksAhead true (groupArgs right ++ rest) := fun hlook =>
      hahead (looksAhead_write left ((looksAhead_end (by decide) false).mpr hlook))
    obtain ⟨r', heval', hleaves'⟩ := hright rest fuel₁ r.err hrest hahead' (by omega)
    rw [andNext_step hstatus (hleaves.2 (hleaves.1 ▸ hstatus)), heval', bind_some]
    rw [length_append] at hfuel₁
    exact ⟨fuel₁, _, by omega, hleaves.join hleaves', rfl⟩
  · rw [length_append] at hfuel₁; exact ⟨fuel₁, r, by omega, hleaves.error hstatus, rfl⟩

theorem AnyRead.disj (hleft : AnyRead host left) (hright : TermRead host right) :
    AnyRead host (.disj left right) := by
  intro rest fuel err hrest hhead hahead hfuel
  rw [groupArgs_disj] at hahead hfuel ⊢
  obtain ⟨fuel₁, r, hfuel₁, hleaves, heval⟩ :=
    hleft _ fuel err (endsPrimary_cons (by decide) _) (head_ne (by decide) _) hahead hfuel
  rw [length_cons] at hfuel₁
  rw [heval]
  by_cases hstatus : r.status ≤ 1
  · rcases fuel₁ with _ | fuel₁
    · omega
    have hahead' : ¬ LooksAhead true (groupArgs right ++ rest) := fun hlook =>
      hahead (looksAhead_write left ((looksAhead_end (by decide) false).mpr hlook))
    obtain ⟨fuel₂, r', hfuel₂, hleaves', heval'⟩ := hright rest fuel₁ r.err hrest hahead' (by omega)
    rcases fuel₂ with _ | fuel₂
    · omega
    have hstop : andNext host (fuel₂ + 1) r' = some r' :=
      andNext_stop fun hstatus' => by rwa [hleaves'.2 (hleaves'.1 ▸ hstatus')]
    rw [orNext_step hstatus (hleaves.2 (hleaves.1 ▸ hstatus)), heval', hstop, bind_some]
    rw [length_append] at hfuel₁
    exact ⟨fuel₁, _, by omega, hleaves.join hleaves', rfl⟩
  · rw [length_append] at hfuel₁; exact ⟨fuel₁, r, by omega, hleaves.error hstatus, rfl⟩

theorem FactorRead.leaf (g : WordGroup) : FactorRead host (.leaf g) := by
  intro rest fuel err hrest hahead hfuel
  obtain ⟨fuel, rfl⟩ : ∃ n, fuel = n + 2 := ⟨fuel - 2, by omega⟩
  have hcollect := collectPrimary_words g hrest hahead
  have hnot : g.first ≠ "!".toList := fun h => g.first_notMem (by rw [h]; decide)
  have hopen : g.first ≠ "(".toList := fun h => g.first_notMem (by rw [h]; decide)
  have hargs : groupArgs (.leaf g) ++ rest = g.words ++ rest := rfl
  have hhead : (g.words ++ rest).head? = some g.first := rfl
  have hne : g.words ≠ [] := cons_ne_nil _ _
  refine ⟨⟨(testOperands host g.words err).1, rest, (testOperands host g.words err).2⟩, ?_,
    testOperands_status host _ err [], fun _ => rfl⟩
  rw [hargs, testEvalNot, hhead, if_neg fun h => hnot (Option.some.inj h),
    if_neg fun h => hopen (Option.some.inj h), hcollect]
  rw [if_neg hne, testPrimary, if_neg fun h => hnot (Option.some.inj h.2), map_some]

theorem FactorRead.neg (h : FactorRead host t) : FactorRead host (.neg t) := by
  intro rest fuel err hrest hahead hfuel
  have hargs : groupArgs (.neg t) ++ rest = "!".toList :: (groupArgs t ++ rest) := rfl
  rw [hargs] at hahead hfuel ⊢
  rw [length_cons] at hfuel
  rcases fuel with _ | fuel
  · omega
  obtain ⟨r, heval, hleaves⟩ := h rest fuel err hrest hahead (by omega)
  rw [testEvalNot, head?_cons, if_pos rfl, tail_cons, heval, map_some, treeStatus,
    ← hleaves.1, negate]
  refine ⟨_, rfl, ?_⟩
  by_cases hstatus : r.status > 1
  · rw [if_pos hstatus, if_pos hstatus]; exact ⟨rfl, fun hle => by omega⟩
  · rw [if_neg hstatus, if_neg hstatus]
    exact ⟨rfl, fun _ => hleaves.2 (by rw [← hleaves.1]; omega)⟩

theorem FactorRead.group (h : AnyRead host t) : FactorRead host (.group t) := by
  intro rest fuel err hrest hahead hfuel
  rw [groupArgs_group] at hahead hfuel ⊢
  rw [length_cons] at hfuel
  rcases fuel with _ | fuel
  · omega
  obtain ⟨fuel', r, hfuel', hleaves, heval⟩ :=
    h _ fuel err (endsPrimary_cons (by decide) rest) (head_ne (by decide) rest) hahead (by omega)
  rcases fuel' with _ | fuel'
  · omega
  have hclosed : r.status ≤ 1 → r.args = ")".toList :: rest := fun hstatus =>
    hleaves.2 (hleaves.1 ▸ hstatus)
  have hstop : orNext host (fuel' + 1) r = some r :=
    orNext_stop fun hstatus => by
      rw [hclosed hstatus]
      exact head_ne (by decide) rest
  rw [testEvalNot, head?_cons, if_neg (by decide), if_pos rfl, tail_cons, heval, hstop,
    map_some, treeStatus, ← hleaves.1]
  refine ⟨_, rfl, ?_⟩
  by_cases hstatus : r.status > 1
  · rw [if_pos hstatus]; exact ⟨rfl, fun hle => by omega⟩
  · have hargs' := hclosed (by omega)
    rw [if_neg hstatus, if_neg (by rw [hargs']; exact not_not_intro rfl), hargs']
    exact ⟨rfl, fun _ => rfl⟩

/-- **Every tree is read**, at the levels where it can stand. -/
theorem treeRead (host : TestHost) (t : BoolTree.Tree WordGroup) :
    (t.Respects .factor → FactorRead host t) ∧ (t.Respects .term → TermRead host t) ∧
      (t.Respects .any → AnyRead host t) :=
  BoolTree.Tree.level_rule FactorRead.leaf FactorRead.neg FactorRead.group FactorRead.term
    (fun _ => TermRead.conj) TermRead.any (fun _ => AnyRead.disj) t

end Reading

/-! ## 3. What is read is a tree -/

/-- The arguments are those of a tree, in front of what is left. -/
def ReadAs (level : Level) (args : List Text) (r : TestResult) : Prop :=
  ∃ t : BoolTree.Tree WordGroup, t.Respects level ∧ args = groupArgs t ++ r.args

/-- With so much fuel, a function of the parser that returns no error has read a tree; a loop has,
    with what is in front. -/
structure TestSound (host : TestHost) (fuel : Nat) : Prop where
  or_ : ∀ {args err r}, testEvalOr host fuel args err = some r → r.status ≤ 1 →
    ¬ LooksAhead true args → ReadAs .any args r
  orLoop : ∀ {result r left}, testOrLoop host fuel result = some r → r.status ≤ 1 →
    left.Respects .any → ¬ LooksAhead true (groupArgs left ++ result.args) →
    ReadAs .any (groupArgs left ++ result.args) r
  and_ : ∀ {args err r}, testEvalAnd host fuel args err = some r → r.status ≤ 1 →
    ¬ LooksAhead true args → ReadAs .term args r
  andLoop : ∀ {result r left}, testAndLoop host fuel result = some r → r.status ≤ 1 →
    left.Respects .term → ¬ LooksAhead true (groupArgs left ++ result.args) →
    ReadAs .term (groupArgs left ++ result.args) r
  not_ : ∀ {args err r}, testEvalNot host fuel args err = some r → r.status ≤ 1 →
    ¬ LooksAhead true args → ReadAs .factor args r

section Soundness

variable {host : TestHost} {fuel : Nat} {r : TestResult} {args rest : List Text}
  {operand : Option TestResult}

theorem exists_of_operand {next : TestResult → Option TestResult}
    (h : (operand.bind fun r => if r.status > 1 then some r else next r) = some r)
    (hstatus : r.status ≤ 1) : ∃ r', operand = some r' ∧ r'.status ≤ 1 ∧ next r' = some r := by
  obtain ⟨r', hoperand, hr⟩ := bind_eq_some_iff.mp h
  refine ⟨r', hoperand, ?_⟩
  by_cases herror : r'.status > 1
  · rw [if_pos herror] at hr
    rw [Option.some.inj hr] at herror
    omega
  · rw [if_neg herror] at hr; exact ⟨by omega, hr⟩

theorem exists_of_map {next : TestResult → TestResult}
    (h : (operand.map fun r => if r.status > 1 then r else next r) = some r)
    (hstatus : r.status ≤ 1) : ∃ r', operand = some r' ∧ r'.status ≤ 1 ∧ next r' = r := by
  obtain ⟨r', hoperand, hr⟩ := map_eq_some_iff.mp h
  refine ⟨r', hoperand, ?_⟩
  by_cases herror : r'.status > 1
  · rw [if_pos herror] at hr
    rw [hr] at herror
    omega
  · rw [if_neg herror] at hr; exact ⟨by omega, hr⟩

theorem not_looksAhead_right {left : BoolTree.Tree WordGroup} {a : Text} (ha : a ∈ primaryEnd)
    (hclose : a ≠ ")".toList) (h : ¬ LooksAhead true (groupArgs left ++ a :: rest)) :
    ¬ LooksAhead true rest := by
  intro hlook
  have hright : LooksAhead false (a :: rest) := by
    rw [looksAhead_end ha, decide_eq_true hclose]
    exact hlook
  exact h (looksAhead_write left hright)

theorem readAs_group (hnot : args.head? ≠ some "!".toList) (hopen : args.head? ≠ some "(".toList)
    (hprim : (collectPrimary [] args).1 ≠ []) (hahead : ¬ LooksAhead true args)
    (hr : r.args = (collectPrimary [] args).2) : ReadAs .factor args r := by
  cases args with
  | nil => exact absurd rfl hprim
  | cons a args =>
    have ha : a ∉ specialWords := by
      rw [mem_specialWords, not_or, not_or]
      refine ⟨fun h => hnot (by rw [h]; rfl), fun h => hopen (by rw [h]; rfl), fun h => hprim ?_⟩
      rw [collectPrimary, if_neg fun hcollect => hcollect.1 h]
    obtain ⟨g, hg⟩ := exists_wordGroup ha hahead
    rw [← hr] at hg
    exact ⟨.leaf g, trivial, hg⟩

theorem TestSound.not_step (ih : TestSound host fuel) {err : Text}
    (h : testEvalNot host (fuel + 1) args err = some r) (hstatus : r.status ≤ 1)
    (hahead : ¬ LooksAhead true args) : ReadAs .factor args r := by
  rw [testEvalNot] at h
  by_cases hnot : args.head? = some "!".toList
  · obtain ⟨rest, rfl⟩ := head?_eq_some_iff.mp hnot
    obtain ⟨val, heval, hval, rfl⟩ := exists_of_map h hstatus
    obtain ⟨t, ht, hargs⟩ := ih.not_ heval hval hahead
    exact ⟨.neg t, ht, congrArg (List.cons _) hargs⟩
  rw [if_neg hnot] at h
  by_cases hopen : args.head? = some "(".toList
  · obtain ⟨rest, rfl⟩ := head?_eq_some_iff.mp hopen
    rw [if_pos hopen, tail_cons] at h
    obtain ⟨grouped, heval, hgrouped, rfl⟩ := exists_of_map h hstatus
    obtain ⟨t, ht, hargs⟩ := ih.or_ heval hgrouped hahead
    by_cases hclosed : grouped.args.head? = some ")".toList
    · obtain ⟨more, hmore⟩ := head?_eq_some_iff.mp hclosed
      refine ⟨.group t, ht, ?_⟩
      rw [if_neg (not_not_intro hclosed), groupArgs_group, hargs, hmore]
      rfl
    · rw [if_pos hclosed] at hstatus; exact absurd hstatus (Nat.not_succ_le_self 1)
  rw [if_neg hopen] at h
  by_cases hprim : (collectPrimary [] args).1 = []
  · rw [if_pos hprim] at h
    rw [← Option.some.inj h] at hstatus
    exact absurd hstatus (Nat.not_succ_le_self 1)
  · rw [if_neg hprim] at h
    obtain ⟨primary, -, rfl⟩ := map_eq_some_iff.mp h
    exact readAs_group hnot hopen hprim hahead rfl

theorem TestSound.step (ih : TestSound host fuel) : TestSound host (fuel + 1) where
  or_ h hstatus hahead := by
    obtain ⟨result, heval, hresult, hloop⟩ := exists_of_operand h hstatus
    obtain ⟨left, hleft, rfl⟩ := ih.and_ heval hresult hahead
    exact ih.orLoop hloop hstatus hleft.any hahead
  orLoop {result r left} h hstatus hleft hahead := by
    rw [testOrLoop] at h
    by_cases hhead : result.args.head? = some "-o".toList
    · obtain ⟨rest, hargs⟩ := head?_eq_some_iff.mp hhead
      rw [if_pos hhead, hargs, tail_cons] at h
      rw [hargs] at hahead ⊢
      obtain ⟨right, heval, hright, hloop⟩ := exists_of_operand h hstatus
      obtain ⟨t, ht, rfl⟩ :=
        ih.and_ heval hright (not_looksAhead_right (by decide) (by decide) hahead)
      rw [← groupArgs_disj] at hahead ⊢
      have hdisj : (BoolTree.Tree.disj left t).Respects .any := ⟨rfl, hleft, ht⟩
      have hread := ih.orLoop hloop hstatus hdisj hahead
      exact hread
    · rw [if_neg hhead] at h
      rw [Option.some.inj h]
      exact ⟨left, hleft, rfl⟩
  and_ h hstatus hahead := by
    obtain ⟨result, heval, hresult, hloop⟩ := exists_of_operand h hstatus
    obtain ⟨left, hleft, rfl⟩ := ih.not_ heval hresult hahead
    exact ih.andLoop hloop hstatus hleft.mono hahead
  andLoop {result r left} h hstatus hleft hahead := by
    rw [testAndLoop] at h
    by_cases hhead : result.args.head? = some "-a".toList
    · obtain ⟨rest, hargs⟩ := head?_eq_some_iff.mp hhead
      rw [if_pos hhead, hargs, tail_cons] at h
      rw [hargs] at hahead ⊢
      obtain ⟨right, heval, hright, hloop⟩ := exists_of_operand h hstatus
      obtain ⟨t, ht, rfl⟩ :=
        ih.not_ heval hright (not_looksAhead_right (by decide) (by decide) hahead)
      rw [← groupArgs_conj] at hahead ⊢
      have hconj : (BoolTree.Tree.conj left t).Respects .term := ⟨by decide, hleft, ht⟩
      have hread := ih.andLoop hloop hstatus hconj hahead
      exact hread
    · rw [if_neg hhead] at h
      rw [Option.some.inj h]
      exact ⟨left, hleft, rfl⟩
  not_ h hstatus hahead := ih.not_step h hstatus hahead

/-- **What is read without an error is a tree.** -/
theorem testSound (host : TestHost) (fuel : Nat) : TestSound host fuel := by
  induction fuel with
  | zero => exact ⟨nofun, nofun, nofun, nofun, nofun⟩
  | succ fuel ih => exact ih.step

end Soundness

end Arksh
