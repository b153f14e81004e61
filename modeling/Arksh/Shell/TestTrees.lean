/-
  Subject: What `test` decides about trees, `src/shell.c`.

  What the command refuses is what is no tree over groups of words, and the comparison of numbers
  where an operand is none. A tree over primaries is one, if no operand is spelled like an operator.
-/
import Arksh.Shell.TestGroups

namespace Arksh

open CText BoolTree List Nat

/-! ## 1. The command -/

def testExit (host : TestHost) (args : List Text) : Option Nat := (commandTest host args).map Prod.fst

section Command

variable {host : TestHost} {t : BoolTree.Tree WordGroup} {g : WordGroup} {args : List Text}

theorem testExit_eq_some (host : TestHost) (args : List Text) : ∃ s, testExit host args = some s := by
  have hsome := commandTest_isSome host args
  obtain ⟨result, hresult⟩ := Option.isSome_iff_exists.mp hsome
  exact ⟨result.1, by rw [testExit, hresult]; rfl⟩

theorem testExit_tree (ht : t.Respects .any) (hahead : ¬ LooksAhead true (groupArgs t)) :
    testExit host (groupArgs t) = some (treeStatus host t) := by
  have hnil : groupArgs t ++ [] = groupArgs t := append_nil _
  obtain ⟨fuel, r, hfuel, hleaves, heval⟩ := (treeRead host t).2.2 ht [] (4 * (groupArgs t).length + 4) []
    (by simp [EndsPrimary]) (by simp) (by rwa [hnil]) (by rw [hnil])
  rcases fuel with _ | fuel
  · omega
  have hargs : r.status ≤ 1 → r.args = [] := fun h => hleaves.2 (hleaves.1 ▸ h)
  have hstop : orNext host (fuel + 1) r = some r := orNext_stop fun h => by rw [hargs h]; simp
  have hne : groupArgs t ≠ [] := ne_nil_of_length_pos (groupArgs_length_pos t)
  rw [hnil, hstop] at heval
  rw [testExit, commandTest, if_neg hne, heval, Option.map_some, if_neg fun h => h.2 (hargs h.1),
    hleaves.1]
  rfl

theorem exists_tree {s : Nat} (hne : args ≠ []) (hahead : ¬ LooksAhead true args)
    (h : testExit host args = some s) (hs : s ≤ 1) :
    ∃ t : BoolTree.Tree WordGroup, t.Respects .any ∧ args = groupArgs t := by
  rw [testExit, commandTest, if_neg hne, Option.map_map] at h
  obtain ⟨r, heval, hr⟩ := Option.map_eq_some_iff.mp h
  rw [Function.comp_apply] at hr
  by_cases hleft : r.status ≤ 1 ∧ r.args ≠ []
  · rw [if_pos hleft] at hr
    rw [← hr] at hs
    exact absurd hs (not_succ_le_self 1)
  · rw [if_neg hleft] at hr
    have hstatus : r.status ≤ 1 := (show r.status = s from hr).trans_le hs
    have hargs : r.args = [] := by by_contra hrest; exact hleft ⟨hstatus, hrest⟩
    obtain ⟨t, ht, htree⟩ := (testSound host _).or_ heval hstatus hahead
    rw [hargs, append_nil] at htree
    exact ⟨t, ht, htree⟩

/-! ### The status of a tree -/

theorem testStatus_eq_zero (b : Bool) : decide (testStatus b = 0) = b := by
  cases b <;> rfl

theorem eq_testStatus {s : Nat} (h : s ≤ 1) : s = testStatus (s = 0) := by
  by_cases hzero : s = 0
  · rw [hzero]; rfl
  · have hone : s = 1 := by omega
    rw [hone]
    rfl

theorem joinStatus_testStatus {truth : Bool → Bool → Bool} (b b' : Bool) :
    joinStatus truth (testStatus b) (testStatus b') = testStatus (truth b b') := by
  have hle := testStatus_le_one b
  have hle' := testStatus_le_one b'
  rw [joinStatus, if_neg (by omega), if_neg (by omega), testStatus_eq_zero, testStatus_eq_zero]

theorem negate_testStatus (b : Bool) : negate (testStatus b) = testStatus (!b) := by
  cases b <;> rfl

theorem treeStatus_eq (h : ∀ g ∈ t.leaves, g.status host ≤ 1) :
    treeStatus host t = testStatus (t.value (WordGroup.holds host)) := by
  induction t with
  | leaf g => exact eq_testStatus (h g (mem_singleton_self g))
  | neg t ih => rw [treeStatus, BoolTree.Tree.value, ih h, negate_testStatus]
  | conj left right ihl ihr | disj left right ihl ihr =>
    rw [treeStatus, BoolTree.Tree.value, ihl fun g hg => h g (mem_append_left _ hg),
      ihr fun g hg => h g (mem_append_right _ hg), joinStatus_testStatus]
  | group t ih => exact ih h

theorem numericOperators_lookup {op : Text} {relation : Int → Int → Bool}
    (h : numericOperators.lookup op = some relation) :
    ∃ r : NumericRelation, op = (BinaryPrimary.numeric r).text := by
  obtain ⟨front, behind, hsplit, -⟩ := List.lookup_eq_some_iff.mp h
  have hop : op ∈ numericOperators.map Prod.fst := by
    rw [hsplit, map_append, map_cons]
    exact mem_append_right _ mem_cons_self
  simp only [numericOperators, map_cons, map_nil, mem_cons, not_mem_nil, or_false] at hop
  rcases hop with rfl | rfl | rfl | rfl | rfl | rfl
  · exact ⟨.eq, rfl⟩
  · exact ⟨.ne, rfl⟩
  · exact ⟨.lt, rfl⟩
  · exact ⟨.le, rfl⟩
  · exact ⟨.gt, rfl⟩
  · exact ⟨.ge, rfl⟩

theorem testBinary_error {a op b err : Text} (h : (testBinary host a op b err).1 > 1) :
    ∃ relation, op = (BinaryPrimary.numeric relation).text ∧
      (parseTestInteger a = none ∨ parseTestInteger b = none) := by
  unfold testBinary at h
  cases hstring : (stringOperators a b).lookup op with
  | some holds =>
    simp only [hstring] at h
    have hle := testStatus_le_one holds
    omega
  | none =>
    simp only [hstring] at h
    cases hnumeric : numericOperators.lookup op with
    | none =>
      simp only [hnumeric] at h
      split at h
      · cases hl : host.stat a <;> cases hr : host.stat b <;> simp only [hl, hr] at h
        · omega
        · omega
        · omega
        · exact absurd h (by have hle := testStatus_le_one; grind)
      · omega
    | some relation =>
      simp only [hnumeric] at h
      obtain ⟨r, hop⟩ := numericOperators_lookup hnumeric
      refine ⟨r, hop, ?_⟩
      cases hl : parseTestInteger a with
      | none => exact .inl rfl
      | some x =>
        cases hr : parseTestInteger b with
        | none => exact .inr rfl
        | some y =>
          simp only [hl, hr] at h
          have hle := testStatus_le_one (relation x y)
          omega

/-- **A group is an error exactly if it is a comparison of numbers with an operand that is none.** -/
theorem WordGroup.status_iff : g.status host > 1 ↔ g.Faulty := by
  constructor
  · intro h
    obtain ⟨a, more, hfirst, hmore, hlength⟩ := g
    match more with
    | [] =>
      have hle := testStatus_le_one (a ≠ [])
      exact absurd (show testStatus (a ≠ []) > 1 from h) (by omega)
    | [b] =>
      have hle := testUnary_le_one host a b
      exact absurd (show testUnary host a b > 1 from h) (by omega)
    | [op, b] =>
      obtain ⟨relation, rfl, hnone⟩ := testBinary_error (show (testBinary host a op b []).1 > 1 from h)
      exact ⟨a, relation, b, rfl, hnone⟩
    | _ :: _ :: _ :: _ => exact absurd (show 1 > 1 from h) (by decide)
  · intro ⟨a, relation, b, hwords, hnone⟩
    have hstatus : g.status host = (BinaryPrimary.numeric relation).status host a b := by
      rw [WordGroup.status, hwords]
      exact testBinary_text host (.numeric relation) a b []
    rw [hstatus, BinaryPrimary.status]
    rcases hnone with ha | hb
    · rw [ha]; exact lt_succ_self 1
    · rw [hb]; cases parseTestInteger a <;> exact lt_succ_self 1

theorem WordGroup.status_le_two (g : WordGroup) : g.status host ≤ 2 := by
  by_cases h : g.status host > 1
  · obtain ⟨a, relation, b, hwords, -⟩ := WordGroup.status_iff.mp h
    have hstatus : g.status host = (BinaryPrimary.numeric relation).status host a b := by
      rw [WordGroup.status, hwords]
      exact testBinary_text host (.numeric relation) a b []
    rw [hstatus]
    exact BinaryPrimary.status_le_two
  · omega

theorem treeStatus_le_two (t : BoolTree.Tree WordGroup) : treeStatus host t ≤ 2 := by
  have hjoin : ∀ {truth s s'}, s ≤ 2 → s' ≤ 2 → joinStatus truth s s' ≤ 2 := by
    intro truth s s' hs hs'
    have hle := testStatus_le_one (truth (s = 0) (s' = 0))
    unfold joinStatus
    split_ifs <;> omega
  induction t with
  | leaf g => exact g.status_le_two
  | neg t ih =>
    have hle := testStatus_le_one (treeStatus host t ≠ 0)
    rw [treeStatus, negate]
    split_ifs <;> omega
  | conj left right ihl ihr | disj left right ihl ihr => exact hjoin ihl ihr
  | group t ih => exact ih

theorem treeStatus_error (h : ∃ g ∈ t.leaves, g.Faulty) : treeStatus host t = 2 := by
  obtain ⟨g, hg, hfaulty⟩ := h
  refine le_antisymm (treeStatus_le_two t) ?_
  induction t with
  | leaf g' => rw [mem_singleton.mp hg] at hfaulty; exact WordGroup.status_iff.mpr hfaulty
  | neg t ih =>
    have herror := ih hg
    rw [treeStatus, negate, if_pos (by omega)]
    exact herror
  | conj left right ihl ihr =>
    by_contra hle
    have hboth := @le_of_joinStatus (treeStatus host left) (treeStatus host right) and (by
      rw [treeStatus] at hle
      omega)
    rcases mem_append.mp hg with hl | hr
    · exact absurd (ihl hl) (by omega)
    · exact absurd (ihr hr) (by omega)
  | disj left right ihl ihr =>
    by_contra hle
    have hboth := @le_of_joinStatus (treeStatus host left) (treeStatus host right) or (by
      rw [treeStatus] at hle
      omega)
    rcases mem_append.mp hg with hl | hr
    · exact absurd (ihl hl) (by omega)
    · exact absurd (ihr hr) (by omega)
  | group t ih => exact ih hg

theorem treeStatus_le_one_iff : treeStatus host t ≤ 1 ↔ ∀ g ∈ t.leaves, ¬ g.Faulty := by
  constructor
  · intro hle g hg hfaulty
    have herror := @treeStatus_error host t ⟨g, hg, hfaulty⟩
    omega
  · intro h
    rw [treeStatus_eq fun g hg => Nat.le_of_not_lt fun herror => h g hg (WordGroup.status_iff.mp herror)]
    exact testStatus_le_one _

/-- **The arguments that are an error.** -/
theorem testExit_error (hne : args ≠ []) (hahead : ¬ LooksAhead true args) :
    (∃ s, testExit host args = some s ∧ 1 < s) ↔
      ∀ t : BoolTree.Tree WordGroup, t.Respects .any → groupArgs t = args → ∃ g ∈ t.leaves, g.Faulty := by
  constructor
  · intro ⟨s, hs, herror⟩ t ht hargs
    rw [← hargs] at hahead hs
    rw [testExit_tree ht hahead] at hs
    by_contra hfault
    have hle := (@treeStatus_le_one_iff host t).mpr fun g hg hfaulty =>
      hfault ⟨g, hg, hfaulty⟩
    have heq := Option.some.inj hs
    omega
  · intro h
    obtain ⟨s, hs⟩ := testExit_eq_some host args
    refine ⟨s, hs, Nat.lt_of_not_le fun hle => ?_⟩
    obtain ⟨t, ht, rfl⟩ := exists_tree hne hahead hs hle
    rw [testExit_tree ht hahead] at hs
    obtain ⟨g, hg, hfaulty⟩ := h t ht rfl
    exact treeStatus_le_one_iff.mp ((Option.some.inj hs).trans_le hle) g hg hfaulty

end Command

/-! ## 2. Trees over primaries -/

/-- A string that is not empty, and the operators. -/
inductive Primary where
  | word (a : Text)
  | unary (u : UnaryPrimary) (a : Text)
  | binary (a : Text) (op : BinaryPrimary) (b : Text)

def IsOperator (word : Text) : Prop :=
  word ∈ specialWords ∨ (∃ u : UnaryPrimary, word = u.text) ∨ ∃ op : BinaryPrimary, word = op.text

namespace Primary

def args : Primary → List Text
  | word a => [a]
  | unary u a => [u.text, a]
  | binary a op b => [a, op.text, b]

def operands : Primary → List Text
  | word a => [a]
  | unary _ a => [a]
  | binary a _ b => [a, b]

def holds (host : TestHost) : Primary → Bool
  | word a => a ≠ []
  | unary u a => u.holds host a
  | binary a op b => op.status host a b = 0

/-- A comparison of numbers with an operand that is none. -/
def Faulty : Primary → Prop
  | binary a (.numeric _) b => parseTestInteger a = none ∨ parseTestInteger b = none
  | _ => False

/-- The primary is about strings or integers. -/
def OfTexts : Primary → Prop
  | word _ => True
  | unary u _ => u = .nonzero ∨ u = .zero
  | binary _ op _ => op ≠ .newer ∧ op ≠ .older ∧ op ≠ .sameFile

end Primary

structure PlainPrimary where
  primary : Primary
  plain : ∀ operand ∈ primary.operands, ¬ IsOperator operand

def primaryArgs (t : BoolTree.Tree PlainPrimary) : List Text := t.write testWords fun p => p.primary.args

/-- Those with parentheses where precedence needs them. -/
def treeArgs (t : BoolTree.Tree PlainPrimary) : List Text := primaryArgs (t.bracket .any)

variable {t : BoolTree.Tree PlainPrimary}

section Primaries

variable {host : TestHost} {a : Text} {rest : List Text}

theorem notMem_of_not_isOperator (h : ¬ IsOperator a) : a ∉ specialWords := fun hmem => h (.inl hmem)

theorem isOperator_of_lookAhead (h : a ∈ lookAheadOperators) : IsOperator a := by
  simp only [lookAheadOperators, mem_cons, not_mem_nil, or_false] at h
  refine .inr (.inr ?_)
  rcases h with rfl | rfl | rfl | rfl | rfl | rfl | rfl | rfl | rfl | rfl | rfl | rfl | rfl
  · exact ⟨.numeric .eq, rfl⟩
  · exact ⟨.numeric .ne, rfl⟩
  · exact ⟨.numeric .lt, rfl⟩
  · exact ⟨.numeric .le, rfl⟩
  · exact ⟨.numeric .gt, rfl⟩
  · exact ⟨.numeric .ge, rfl⟩
  · exact ⟨.equal, rfl⟩
  · exact ⟨.different, rfl⟩
  · exact ⟨.before, rfl⟩
  · exact ⟨.after, rfl⟩
  · exact ⟨.newer, rfl⟩
  · exact ⟨.older, rfl⟩
  · exact ⟨.sameFile, rfl⟩

def PlainPrimary.group : PlainPrimary → WordGroup
  | ⟨.word a, plain⟩ => ⟨a, [], notMem_of_not_isOperator (plain a (by simp [Primary.operands])),
      by simp, by simp⟩
  | ⟨.unary u a, plain⟩ => ⟨u.text, [a], u.text_notMem,
      by simpa using notMem_primaryEnd (notMem_of_not_isOperator (plain a (by simp [Primary.operands]))),
      by simp⟩
  | ⟨.binary a op b, plain⟩ => ⟨a, [op.text, b],
      notMem_of_not_isOperator (plain a (by simp [Primary.operands])),
      by simpa using ⟨notMem_primaryEnd op.text_notMem,
        notMem_primaryEnd (notMem_of_not_isOperator (plain b (by simp [Primary.operands])))⟩,
      by simp⟩

theorem PlainPrimary.group_words (p : PlainPrimary) : p.group.words = p.primary.args := by
  obtain ⟨primary, plain⟩ := p
  cases primary <;> rfl

theorem groupArgs_map (t : BoolTree.Tree PlainPrimary) :
    groupArgs (t.map PlainPrimary.group) = primaryArgs t := by
  have htext : (fun p : PlainPrimary => p.group.words) = fun p => p.primary.args :=
    funext PlainPrimary.group_words
  rw [groupArgs, BoolTree.Tree.write_map, htext]
  rfl

theorem numeric_of_text {op : BinaryPrimary} {r : NumericRelation}
    (h : op.text = (BinaryPrimary.numeric r).text) : op = .numeric r := by
  cases op with
  | numeric r' =>
    cases r <;> cases r' <;> first | rfl | exact absurd h (by decide)
  | _ => cases r <;> exact absurd h (by decide)

section

variable (p : PlainPrimary)

theorem PlainPrimary.faulty_iff : p.group.Faulty ↔ p.primary.Faulty := by
  rw [WordGroup.Faulty, p.group_words]
  cases p.primary with
  | word a | unary u a => exact iff_of_false (fun ⟨_, _, _, h, _⟩ => by simp [Primary.args] at h) id
  | binary a op b =>
    constructor
    · intro ⟨a', r, b', hargs, hnone⟩
      simp only [Primary.args, cons.injEq, and_true] at hargs
      obtain ⟨rfl, hop, rfl⟩ := hargs
      rw [numeric_of_text hop]
      exact hnone
    · intro h
      cases op with
      | numeric r => exact ⟨a, r, b, rfl, h⟩
      | _ => exact h.elim

theorem PlainPrimary.holds_group : p.group.holds host = p.primary.holds host := by
  obtain ⟨primary, plain⟩ := p
  cases primary with
  | word a => exact testStatus_eq_zero (a ≠ [])
  | unary u a =>
    show decide (testUnary host u.text a = 0) = u.holds host a
    rw [testUnary_text, testStatus_eq_zero]
  | binary a op b =>
    show decide ((testBinary host a op.text b []).1 = 0) = decide (op.status host a b = 0)
    rw [testBinary_text]

theorem PlainPrimary.not_operatorAhead (hrest : EndsPrimary rest) :
    ¬ OperatorAhead (p.group.more ++ rest) := by
  have hdisjoint : ∀ a ∈ primaryEnd, a ∉ lookAheadOperators := by
    simp only [primaryEnd, mem_cons, not_mem_nil, or_false]
    rintro a (rfl | rfl | rfl) <;> decide
  obtain ⟨primary, plain⟩ := p
  cases primary with
  | word a =>
    rcases rest with - | ⟨b, - | ⟨c, - | ⟨d, rest⟩⟩⟩
    · exact id
    · exact id
    · exact id
    · exact fun h => h.1 (hrest b rfl)
  | unary u a =>
    rcases rest with - | ⟨op, - | ⟨b, rest⟩⟩
    · exact id
    · exact id
    · exact fun h => hdisjoint op (hrest op rfl) h.2
  | binary a op b =>
    have hb : b ∉ lookAheadOperators := fun h =>
      plain b (by simp [Primary.operands]) (isOperator_of_lookAhead h)
    cases rest with
    | nil => exact id
    | cons c rest => exact fun h => hb h.2

end

theorem not_looksAhead_tree (t : BoolTree.Tree PlainPrimary) (hrest : EndsPrimary rest)
    (hahead : ¬ LooksAhead false rest) :
    ¬ LooksAhead true (groupArgs (t.map PlainPrimary.group) ++ rest) := by
  have hend : ∀ {a : Text} {rest}, a ∈ primaryEnd → a ≠ ")".toList → ¬ LooksAhead true rest →
      ¬ LooksAhead false (a :: rest) := by
    intro a rest ha hclose h hlook
    rw [looksAhead_end ha, decide_eq_true hclose] at hlook
    exact h hlook
  induction t generalizing rest with
  | leaf p =>
    intro hlook
    rcases (looksAhead_first p.group.first_notMem).mp hlook with hacts | hmore
    · exact p.not_operatorAhead hrest hacts
    · exact hahead ((looksAhead_more p.group.more_notMem).mp hmore)
  | neg t ih => exact fun hlook => ih hrest hahead ((looksAhead_open (.inl rfl)).mp hlook)
  | conj left right ihl ihr =>
    rw [BoolTree.Tree.map, groupArgs_conj]
    exact ihl (endsPrimary_cons (by decide) _) (hend (by decide) (by decide) (ihr hrest hahead))
  | disj left right ihl ihr =>
    rw [BoolTree.Tree.map, groupArgs_disj]
    exact ihl (endsPrimary_cons (by decide) _) (hend (by decide) (by decide) (ihr hrest hahead))
  | group t ih =>
    rw [BoolTree.Tree.map, groupArgs_group]
    intro hlook
    have hinner : ¬ LooksAhead false (")".toList :: rest) := fun hclose =>
      hahead ((looksAhead_end (by decide) false).mp hclose)
    exact ih (endsPrimary_cons (by decide) rest) hinner ((looksAhead_open (.inr rfl)).mp hlook)

theorem testExit_treeArgs (t : BoolTree.Tree PlainPrimary) : testExit host (treeArgs t) =
      some (treeStatus host ((t.bracket .any).map PlainPrimary.group)) := by
  have hahead := @not_looksAhead_tree [] (t.bracket .any) (by simp [EndsPrimary]) id
  rw [append_nil] at hahead
  have hexit := @testExit_tree host _ (BoolTree.Tree.respects_map.mpr (t.bracket_respects .any)) hahead
  rwa [groupArgs_map] at hexit

theorem mem_leaves_group {P : WordGroup → Prop} :
    (∃ g ∈ ((t.bracket .any).map PlainPrimary.group).leaves, P g) ↔ ∃ p ∈ t.leaves, P p.group := by
  rw [BoolTree.Tree.leaves_map, BoolTree.Tree.leaves_bracket]
  simp only [mem_map, exists_exists_and_eq_and]

end Primaries

/-! ## 3. The law -/

structure TestTreeLaw (host : TestHost) : Prop where
  /-- The status is that of the value, where no comparison of numbers has an operand that is
      none, -/
  value : ∀ t : BoolTree.Tree PlainPrimary, (∀ p ∈ t.leaves, ¬ p.primary.Faulty) →
    testExit host (treeArgs t) = some (testStatus (t.value fun p => p.primary.holds host))
  /-- and an error where one has. -/
  fault : ∀ t : BoolTree.Tree PlainPrimary, (∃ p ∈ t.leaves, p.primary.Faulty) →
    testExit host (treeArgs t) = some 2
  /-- No arguments are false. -/
  nothing : testExit host [] = some 1
  /-- Others are an error if they are no tree over groups of words, or a group is one. -/
  error : ∀ args, args ≠ [] → ¬ LooksAhead true args →
    ((∃ s, testExit host args = some s ∧ 1 < s) ↔
      ∀ t : BoolTree.Tree WordGroup, t.Respects .any → groupArgs t = args → ∃ g ∈ t.leaves, g.Faulty)

/-- **What `test` decides.** -/
theorem testTreeLaw (host : TestHost) : TestTreeLaw host where
  value t h := by
    have hfaulty : ∀ g ∈ ((t.bracket .any).map PlainPrimary.group).leaves, ¬ g.Faulty := by
      intro g hg hfault
      obtain ⟨p, hp, hfault'⟩ := mem_leaves_group.mp ⟨g, hg, hfault⟩
      exact h p hp (p.faulty_iff.mp hfault')
    have hholds : (fun p : PlainPrimary => p.group.holds host) = fun p => p.primary.holds host :=
      funext fun p => p.holds_group
    rw [testExit_treeArgs, treeStatus_eq fun g hg => Nat.le_of_not_lt fun herror =>
      hfaulty g hg (WordGroup.status_iff.mp herror), BoolTree.Tree.value_map, BoolTree.Tree.value_bracket, hholds]
  fault t h := by
    obtain ⟨p, hp, hfault⟩ := h
    rw [testExit_treeArgs, treeStatus_error (mem_leaves_group.mpr ⟨p, hp, p.faulty_iff.mpr hfault⟩)]
  nothing := rfl
  error args hne hahead := testExit_error hne hahead

/-- The arguments are an error exactly if they are no tree, or a comparison of numbers in it has an
    operand that is none. -/
def TestErrorLaw (host : TestHost) (args : List Text) : Prop :=
  (∃ s, testExit host args = some s ∧ 1 < s) ↔
    ∀ t : BoolTree.Tree PlainPrimary, (∀ p ∈ t.leaves, p.primary.OfTexts) → t.Respects .any →
      primaryArgs t = args → ∃ p ∈ t.leaves, p.primary.Faulty

theorem leaf_of_primaryArgs (h : ∀ a ∈ primaryArgs t, a ∉ specialWords) : ∃ p, t = .leaf p := by
  have hspecial : ∀ a ∈ primaryArgs t, a ∈ specialWords → ∃ p, t = .leaf p := fun a ha hmem =>
    absurd hmem (h a ha)
  cases t with
  | leaf p => exact ⟨p, rfl⟩
  | neg t => exact hspecial "!".toList mem_cons_self (by decide)
  | conj left right =>
    exact hspecial "-a".toList (mem_append_right _ mem_cons_self) (by decide)
  | disj left right =>
    exact hspecial "-o".toList (mem_append_right _ mem_cons_self) (by decide)
  | group t => exact hspecial "(".toList mem_cons_self (by decide)

/-- `test` without arguments is false, as `test a b` is, and it knows files: `test -f x`. -/
theorem not_testErrorLaw : ¬ TestErrorLaw emptyHost [] ∧
    ¬ TestErrorLaw emptyHost ["a".toList, "b".toList] ∧
    ¬ TestErrorLaw emptyHost ["-f".toList, "x".toList] := by
  have hpair : ∀ {x y : Text}, x ∉ specialWords → y ∉ specialWords →
      (∀ u : UnaryPrimary, u.text = x → u ≠ .nonzero ∧ u ≠ .zero) →
      testExit emptyHost [x, y] = some 1 → ¬ TestErrorLaw emptyHost [x, y] := by
    intro x y hx hy hu hexit h
    obtain ⟨s, hs, herror⟩ := h.mpr fun t htexts _ hargs => by
      obtain ⟨⟨primary, plain⟩, rfl⟩ := leaf_of_primaryArgs (t := t) (by
        rw [hargs]
        simpa using ⟨hx, hy⟩)
      cases primary with
      | word a => simp [primaryArgs, BoolTree.Tree.write, Primary.args] at hargs
      | unary u a =>
        simp only [primaryArgs, BoolTree.Tree.write, Primary.args, cons.injEq] at hargs
        exact absurd (htexts _ (mem_singleton_self _)) (not_or.mpr (hu u hargs.1))
      | binary a op b => simp [primaryArgs, BoolTree.Tree.write, Primary.args] at hargs
    rw [hexit] at hs
    cases hs
    exact absurd herror (by decide)
  refine ⟨fun h => ?_, ?_, ?_⟩
  · obtain ⟨s, hs, herror⟩ := h.mpr fun t _ _ hargs => by
      refine absurd hargs (t.write_ne_nil fun p => ?_)
      cases p.primary <;> exact cons_ne_nil _ _
    cases hs
    exact absurd herror (by decide)
  · refine hpair (by decide) (by decide) (fun u hu => ?_) rfl
    cases u <;> exact absurd hu (by decide)
  · refine hpair (by decide) (by decide) (fun u hu => ?_) rfl
    cases u <;> first | exact absurd hu (by decide) | exact ⟨by simp, by simp⟩

end Arksh
