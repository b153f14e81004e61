/-
  Subject: The value that `evaluate_arith` gives for an expression, and the one that it has.

  The evaluator computes every operand, from the left, with the operations of C on a `long long`.
-/
import Arksh.Expand.ArithReads

namespace Arksh

open CText Scan List Option

/-! ## 1. Exact values -/

def Holds (getVar : Text → Option Text) (name : Text) (v : Int) : Prop :=
  getVar name = some (CText.decimal v)

variable {env : Text → Int} {e : ArithExpr}

theorem exact_congr {env' : Text → Int} (h : ∀ name ∈ e.names, env name = env' name) :
    e.exact env = e.exact env' ∧ (e.UndefinedInC env ↔ e.UndefinedInC env') := by
  induction e with
  | num n => exact ⟨rfl, Iff.rfl⟩
  | var dollar name =>
    have hname := h name.1 (by simp [ArithExpr.names])
    simp [ArithExpr.exact, ArithExpr.UndefinedInC, hname]
  | unary op e ih => have he := ih h; simp [ArithExpr.exact, ArithExpr.UndefinedInC, he]
  | pow a b iha ihb | binary op a b iha ihb =>
    have ha := iha fun name hname => h name (mem_append_left _ hname)
    have hb := ihb fun name hname => h name (mem_append_right _ hname)
    simp [ArithExpr.exact, ArithExpr.UndefinedInC, ha, hb]
  | cond c t f ihc iht ihf =>
    have hc := ihc fun name hname => h name (by simp [ArithExpr.names, hname])
    have ht := iht fun name hname => h name (by simp [ArithExpr.names, hname])
    have hf := ihf fun name hname => h name (by simp [ArithExpr.names, hname])
    simp [ArithExpr.exact, ArithExpr.UndefinedInC, hc, ht, hf]

variable {v : Int}

theorem inRange_names (h : e.exact env = some v) : ∀ name ∈ e.names, InRange (env name) := by
  induction e generalizing v with
  | num n => simp [ArithExpr.names]
  | var dollar name =>
    intro x hx
    obtain rfl : x = name.1 := by simpa [ArithExpr.names] using hx
    exact (fits_eq_some.mp h).1
  | unary op e ih => obtain ⟨w, hw, -⟩ := bind_eq_some_iff.mp h; exact ih hw
  | pow a b iha ihb | binary op a b iha ihb =>
    obtain ⟨w, hw, hrest⟩ := bind_eq_some_iff.mp h
    obtain ⟨u, hu, -⟩ := bind_eq_some_iff.mp hrest
    intro x hx
    exact (mem_append.mp hx).elim (iha hw x) (ihb hu x)
  | cond c t f ihc iht ihf =>
    obtain ⟨u, hu, hrest⟩ := bind_eq_some_iff.mp h
    obtain ⟨w, hw, hrest⟩ := bind_eq_some_iff.mp hrest
    obtain ⟨y, hy, -⟩ := map_eq_some_iff.mp hrest
    intro x hx
    rcases mem_append.mp hx with hx | hx
    · exact (mem_append.mp hx).elim (ihc hu x) (iht hw x)
    · exact ihf hy x hx

theorem readEnv_of_holds {getVar : Text → Option Text} {name : Text} (hholds : Holds getVar name v)
    (hv : InRange v) (hname : name.length < 128) : readEnv getVar name = v := by
  unfold readEnv
  rw [copyString_of_lt hname, hholds, arithVarValue, strtoll_decimal hv]
  rfl

/-- **The evaluator gives the exact value of a tree exactly where the tree is worth the same with
    every name cut to 127 characters and no operation of it is one that C leaves undefined.** -/
theorem evaluateArith_exact_iff {getVar : Text → Option Text} {env : Text → Int} {e : ArithExpr}
    {u s w : Text} {v : Int} (hu : Blank u) (hprints : Prints 13 e s) (hw : Blank w)
    (hholds : ∀ name ∈ e.names, Holds getVar name (env name)) (hexact : e.exact env = some v) :
    (evaluateArith getVar (u ++ (s ++ w)) = .ok v ↔
      e.exact (readEnv getVar) = some v ∧ ¬ e.UndefinedInC (readEnv getVar)) ∧
    ((∀ name ∈ e.names, name.length < 128) →
      (evaluateArith getVar (u ++ (s ++ w)) = .ok v ↔ ¬ e.UndefinedInC env)) := by
  have hread := evaluateArith_prints getVar hu hprints hw
  have hfit := literalsFit_of_exact hexact
  have hiff := strict_ok_iff (inRange_readEnv getVar) hfit v
  rw [hread]
  refine ⟨hiff, fun hshort => ?_⟩
  have hsame : ∀ name ∈ e.names, readEnv getVar name = env name := fun name hname =>
    readEnv_of_holds (hholds name hname) (inRange_names hexact name hname) (hshort name hname)
  rw [hiff, (exact_congr hsame).1, (exact_congr hsame).2]
  exact and_iff_right hexact

def sampleTree : ArithExpr :=
  .binary .add (.binary .mul (.var false ⟨"x".toList, rfl⟩) (.pow (.num 2) (.num 3)))
    (.unary .neg (.var true ⟨"y".toList, rfl⟩))

def sampleVar (name : Text) : Option Text :=
  if name = "x".toList then some "5".toList
  else if name = "y".toList then some "7".toList
  else none

def sampleEnv (name : Text) : Int := if name = "x".toList then 5 else 7

theorem evaluateArith_sample : evaluateArith sampleVar "x * 2 ** 3 + -$y".toList = .ok 33 := by
  have hprint : [] ++ (sampleTree.print 13 ++ []) = "x * 2 ** 3 + -$y".toList := by decide
  have hnames : sampleTree.names = ["x".toList, "y".toList] := by decide
  have hholds : ∀ name ∈ sampleTree.names, Holds sampleVar name (sampleEnv name) := by
    rw [hnames]
    intro name hname
    simp only [mem_cons, not_mem_nil, or_false] at hname
    rcases hname with rfl | rfl <;> rfl
  have hiff := evaluateArith_exact_iff blank_nil (prints_print sampleTree 13 le_rfl) blank_nil
    hholds (by decide : sampleTree.exact sampleEnv = some 33)
  rw [← hprint]
  refine (hiff.2 ?_).mpr ?_
  · rw [hnames]; decide
  · simp [sampleTree, ArithExpr.UndefinedInC, ArithOp.UndefinedInC]

/-- `(-9223372036854775807 - 1) % -1` is 0: the division by -1 that C computes for it is not. -/
theorem not_exact_remainder :
    (ArithExpr.binary .mod (.binary .sub (.unary .neg (.num 9223372036854775807)) (.num 1))
      (.unary .neg (.num 1))).exact (fun _ => 0) = some 0 ∧
    evaluateArith (fun _ => none) "(-9223372036854775807 - 1) % -1".toList ≠ .ok 0 := by
  have hnone : (evaluateArith (fun _ => none) "(-9223372036854775807 - 1) % -1".toList).toOption =
      none := by decide +kernel
  refine ⟨by decide, fun hok => ?_⟩
  rw [hok] at hnone
  cases hnone

/-! ## 2. Operands that are not needed -/

/-- The result of an operator that its left operand decides. -/
def ArithOp.shortCut (op : ArithOp) (left : Int) : Option Int :=
  match op with
  | logicalAnd => if left = 0 then some 0 else none
  | logicalOr => if left ≠ 0 then some 1 else none
  | _ => none

/-- The value of a tree by the operands that are needed alone. -/
def ArithExpr.lazy (env : Text → Int) : ArithExpr → Except ArithError Int
  | num n => .ok (clamp n)
  | var _ name => .ok (env name.1)
  | unary op e => (e.lazy env).bind op.apply
  | pow a b => (a.lazy env).bind fun v => (b.lazy env).bind fun w => arithPowInt v w
  | binary op a b =>
    (a.lazy env).bind fun v =>
      match op.shortCut v with
      | some r => .ok r
      | none => (b.lazy env).bind fun w => op.apply v w
  | cond c t f => (c.lazy env).bind fun u => if u ≠ 0 then t.lazy env else f.lazy env

/-- Computing a tree, all operands of it, raises no error. -/
def ArithExpr.Quiet (env : Text → Int) (e : ArithExpr) : Prop := ∃ v, e.strict env = .ok v

/-- No operand that is not needed raises an error: the right one of `&&` behind a zero, of `||`
    behind another number, the branch that is not selected. -/
def ArithExpr.UnneededQuiet (env : Text → Int) : ArithExpr → Prop
  | num _ => True
  | var _ _ => True
  | unary _ e => e.UnneededQuiet env
  | pow a b => a.UnneededQuiet env ∧ b.UnneededQuiet env
  | binary op a b => a.UnneededQuiet env ∧ ∀ v, a.lazy env = .ok v →
    if (op.shortCut v).isSome then b.Quiet env else b.UnneededQuiet env
  | cond c t f => c.UnneededQuiet env ∧ ∀ u, c.lazy env = .ok u →
    if u ≠ 0 then t.UnneededQuiet env ∧ f.Quiet env else f.UnneededQuiet env ∧ t.Quiet env

theorem ArithOp.apply_of_shortCut {op : ArithOp} {r : Int} (h : op.shortCut v = some r) (w : Int) :
    op.apply v w = .ok r := by
  cases op with
  | logicalAnd | logicalOr =>
    by_cases hv : v = 0 <;> simp_all [ArithOp.shortCut, ArithOp.apply, truth]
  | _ => cases h

theorem lazy_of_strict : ∀ {v}, e.strict env = .ok v → e.lazy env = .ok v := by
  induction e with
  | num n | var dollar name => exact id
  | unary op e ih =>
    intro v h
    obtain ⟨w, hw, hop⟩ := bind_ok.mp h
    exact bind_ok.mpr ⟨w, ih hw, hop⟩
  | pow a b iha ihb =>
    intro v h
    obtain ⟨x, hx, hrest⟩ := bind_ok.mp h
    obtain ⟨y, hy, hpow⟩ := bind_ok.mp hrest
    exact bind_ok.mpr ⟨x, iha hx, bind_ok.mpr ⟨y, ihb hy, hpow⟩⟩
  | binary op a b iha ihb =>
    intro v h
    obtain ⟨x, hx, hrest⟩ := bind_ok.mp h
    obtain ⟨y, hy, hop⟩ := bind_ok.mp hrest
    refine bind_ok.mpr ⟨x, iha hx, ?_⟩
    cases hcut : op.shortCut x with
    | none => exact bind_ok.mpr ⟨y, ihb hy, hop⟩
    | some r => rw [ArithOp.apply_of_shortCut hcut] at hop; exact hop
  | cond c t f ihc iht ihf =>
    intro v h
    obtain ⟨x, hx, hrest⟩ := bind_ok.mp h
    obtain ⟨y, hy, hrest⟩ := bind_ok.mp hrest
    obtain ⟨z, hz, hv⟩ := map_ok.mp hrest
    refine bind_ok.mpr ⟨x, ihc hx, ?_⟩
    by_cases hzero : x = 0
    · simp only [hzero, ne_eq, not_true_eq_false, if_false] at hv ⊢; rw [ihf hz, hv]
    · simp only [hzero, ne_eq, not_false_eq_true, if_true] at hv ⊢; rw [iht hy, hv]

theorem quiet_iff (h : e.lazy env = .ok v) : e.Quiet env ↔ e.strict env = .ok v := by
  constructor
  · intro ⟨w, hw⟩
    have hlazy := lazy_of_strict hw
    rw [h] at hlazy
    rw [hw, ← Except.ok.inj hlazy]
  · exact fun hstrict => ⟨v, hstrict⟩

/-- **Where every operand needed has a value, computing all raises no error exactly if the others
    raise none.** -/
theorem quiet_iff_unneeded : ∀ v, e.lazy env = .ok v → (e.Quiet env ↔ e.UnneededQuiet env) := by
  induction e with
  | num n | var dollar name =>
    intro v h
    simp [ArithExpr.Quiet, ArithExpr.strict, ArithExpr.UnneededQuiet]
  | unary op e ih =>
    intro v h
    obtain ⟨w, hw, hop⟩ := bind_ok.mp h
    rw [ArithExpr.UnneededQuiet, ← ih w hw, quiet_iff h, quiet_iff hw]
    constructor
    · intro hstrict
      obtain ⟨w', hw', -⟩ := bind_ok.mp hstrict
      exact (quiet_iff hw).mp ⟨w', hw'⟩
    · exact fun hstrict => bind_ok.mpr ⟨w, hstrict, hop⟩
  | pow a b iha ihb =>
    intro v h
    obtain ⟨x, hx, hrest⟩ := bind_ok.mp h
    obtain ⟨y, hy, hpow⟩ := bind_ok.mp hrest
    rw [ArithExpr.UnneededQuiet, ← iha x hx, ← ihb y hy, quiet_iff h]
    constructor
    · intro hstrict
      obtain ⟨x', hx', hrest'⟩ := bind_ok.mp hstrict
      obtain ⟨y', hy', -⟩ := bind_ok.mp hrest'
      exact ⟨⟨x', hx'⟩, ⟨y', hy'⟩⟩
    · rintro ⟨hxquiet, hyquiet⟩
      have hxstrict := (quiet_iff hx).mp hxquiet
      have hystrict := (quiet_iff hy).mp hyquiet
      exact bind_ok.mpr ⟨x, hxstrict, bind_ok.mpr ⟨y, hystrict, hpow⟩⟩
  | binary op a b iha ihb =>
    intro v h
    obtain ⟨x, hx, hrest⟩ := bind_ok.mp h
    have hunneeded : (ArithExpr.binary op a b).UnneededQuiet env ↔ a.Quiet env ∧ b.Quiet env := by
      rw [ArithExpr.UnneededQuiet, ← iha x hx, hx]
      refine and_congr_right fun _ => ?_
      cases hcut : op.shortCut x with
      | some r => simp [hcut]
      | none =>
        simp only [hcut] at hrest
        obtain ⟨y, hy, -⟩ := bind_ok.mp hrest
        simp [ihb y hy]
    rw [hunneeded]
    constructor
    · rintro ⟨w, hstrict⟩
      obtain ⟨x', hx', hrest'⟩ := bind_ok.mp hstrict
      obtain ⟨y', hy', -⟩ := bind_ok.mp hrest'
      exact ⟨⟨x', hx'⟩, ⟨y', hy'⟩⟩
    · rintro ⟨hxquiet, ⟨y, hy⟩⟩
      have hxstrict := (quiet_iff hx).mp hxquiet
      cases hcut : op.shortCut x with
      | some r =>
        have hop := ArithOp.apply_of_shortCut hcut y
        exact ⟨r, bind_ok.mpr ⟨x, hxstrict, bind_ok.mpr ⟨y, hy, hop⟩⟩⟩
      | none =>
        simp only [hcut] at hrest
        rw [lazy_of_strict hy] at hrest
        exact ⟨v, bind_ok.mpr ⟨x, hxstrict, bind_ok.mpr ⟨y, hy, hrest⟩⟩⟩
  | cond c t f ihc iht ihf =>
    intro v h
    obtain ⟨x, hx, hrest⟩ := bind_ok.mp h
    have hunneeded : (ArithExpr.cond c t f).UnneededQuiet env ↔
        c.Quiet env ∧ t.Quiet env ∧ f.Quiet env := by
      rw [ArithExpr.UnneededQuiet, ← ihc x hx, hx]
      refine and_congr_right fun _ => ?_
      by_cases hzero : x = 0
      · simp only [hzero, ne_eq, not_true_eq_false, if_false] at hrest
        simp [hzero, ihf v hrest, and_comm]
      · simp only [hzero, ne_eq, not_false_eq_true, if_true] at hrest; simp [hzero, iht v hrest]
    rw [hunneeded]
    constructor
    · rintro ⟨w, hstrict⟩
      obtain ⟨x', hx', hrest'⟩ := bind_ok.mp hstrict
      obtain ⟨y', hy', hrest'⟩ := bind_ok.mp hrest'
      obtain ⟨z', hz', -⟩ := map_ok.mp hrest'
      exact ⟨⟨x', hx'⟩, ⟨y', hy'⟩, ⟨z', hz'⟩⟩
    · rintro ⟨⟨x', hx'⟩, ⟨y, hy⟩, ⟨z, hz⟩⟩
      exact ⟨_, bind_ok.mpr ⟨x', hx', bind_ok.mpr ⟨y, hy, map_ok.mpr ⟨z, hz, rfl⟩⟩⟩⟩

/-- **The evaluator gives the value of a tree by its needed operands exactly where those that are
    not needed raise no error.** -/
theorem evaluateArith_lazy_iff {getVar : Text → Option Text} {e : ArithExpr} {u s w : Text} {v : Int}
    (hu : Blank u) (hprints : Prints 13 e s) (hw : Blank w)
    (hlazy : e.lazy (readEnv getVar) = .ok v) :
    evaluateArith getVar (u ++ (s ++ w)) = .ok v ↔ e.UnneededQuiet (readEnv getVar) := by
  rw [evaluateArith_prints getVar hu hprints hw, ← quiet_iff hlazy, quiet_iff_unneeded v hlazy]

def guardedQuotient (n : Nat) : ArithExpr :=
  .binary .logicalAnd (.num 0) (.binary .div (.num 1) (.num n))

theorem evaluateArith_guarded : evaluateArith (fun _ => none) "0 && 1 / 2".toList = .ok 0 := by
  have hprint : [] ++ ((guardedQuotient 2).print 13 ++ []) = "0 && 1 / 2".toList := by decide
  rw [← hprint]
  refine (evaluateArith_lazy_iff blank_nil (prints_print (guardedQuotient 2) 13 le_rfl)
    blank_nil rfl).mpr ⟨trivial, ?_⟩
  intro x hx
  obtain rfl : (0 : Int) = x := Except.ok.inj hx
  exact ⟨0, rfl⟩

/-- `0 && 1 / 0` is 0 without its right operand, and an error for the evaluator. -/
theorem not_lazy_quotient : (guardedQuotient 0).lazy (fun _ => 0) = .ok 0 ∧
    evaluateArith (fun _ => none) "0 && 1 / 0".toList = .error (.failed "division by zero") := by
  have hprint : [] ++ ((guardedQuotient 0).print 13 ++ []) = "0 && 1 / 0".toList := by decide
  refine ⟨rfl, ?_⟩
  rw [← hprint, evaluateArith_prints _ blank_nil (prints_print _ 13 le_rfl) blank_nil]
  rfl

end Arksh
