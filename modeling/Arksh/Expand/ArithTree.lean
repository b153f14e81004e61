/-
  Subject: Arithmetic expressions as trees: how they are printed, what they are worth, and what
           a computation of all of their operands from the left gives.

  The levels of precedence are numbered from the primaries, 0, to the conditional, 13.
-/
import Arksh.Expand.Arith
import Arksh.Lib.Decimal
import Arksh.Shell.Vars

namespace Arksh

open CText Scan Option Nat

/-! ## 1. Trees -/

deriving instance DecidableEq for ArithOp

inductive UnaryOp where
  | neg | pos | not | compl
  deriving DecidableEq

def UnaryOp.char : UnaryOp → Char
  | neg => '-'
  | pos => '+'
  | not => '!'
  | compl => '~'

abbrev ArithName := {name : Text // isValidIdentifier name = true}

inductive ArithExpr where
  | num (n : Nat)
  /-- A bare name, or one behind a dollar. -/
  | var (dollar : Bool) (name : ArithName)
  | unary (op : UnaryOp) (operand : ArithExpr)
  | pow (base exponent : ArithExpr)
  | binary (op : ArithOp) (left right : ArithExpr)
  | cond (condition yes no : ArithExpr)

def ArithExpr.names : ArithExpr → List Text
  | num _ => []
  | var _ name => [name.1]
  | unary _ e => e.names
  | pow a b => a.names ++ b.names
  | binary _ a b => a.names ++ b.names
  | cond c t f => c.names ++ t.names ++ f.names

/-! ## 2. Levels -/

def ArithOp.lexeme (op : ArithOp) : Text := op.operator.lexeme

def ArithOp.height : ArithOp → Nat
  | mul | div | mod => 3
  | add | sub => 4
  | shl | shr => 5
  | le | ge | lt | gt => 6
  | eq | ne => 7
  | bitAnd => 8
  | bitXor => 9
  | bitOr => 10
  | logicalAnd => 11
  | logicalOr => 12

def ArithExpr.height : ArithExpr → Nat
  | num _ | var _ _ => 0
  | unary _ _ => 1
  | pow _ _ => 2
  | binary op _ _ => op.height
  | cond _ _ _ => 13

theorem ArithOp.height_bounds (op : ArithOp) : 3 ≤ op.height ∧ op.height ≤ 12 := by
  cases op <;> decide

theorem ArithExpr.height_le (e : ArithExpr) : e.height ≤ 13 := by
  cases e with
  | binary op => exact op.height_bounds.2.trans (by decide)
  | _ => simp [ArithExpr.height]

/-! ## 3. Texts -/

/-- White space only. -/
def Blank (w : Text) : Prop := ∀ c ∈ w, isspace c = true

/-- Some white space. -/
def Gap (w : Text) : Prop := w ≠ [] ∧ Blank w

theorem blank_nil : Blank [] := by simp [Blank]

theorem gap_space : Gap [' '] := by simp [Gap, Blank, isspace]

/-- The texts of a tree at a level. The operators of a level group from the left, `**` from the
    right. -/
inductive Prints : Nat → ArithExpr → Text → Prop
  | num (n : Nat) : Prints 0 (.num n) (toDigits 10 n)
  | var (dollar : Bool) (name : ArithName) :
      Prints 0 (.var dollar name) ((if dollar then ['$'] else []) ++ name.1)
  | parens {e : ArithExpr} {v s w : Text} :
      Blank v → Prints 13 e s → Blank w → Prints 0 e ('(' :: (v ++ s ++ w ++ [')']))
  | unary {op : UnaryOp} {e : ArithExpr} {w s : Text} :
      Blank w → Prints 1 e s → Prints 1 (.unary op e) (op.char :: (w ++ s))
  | pow {a b : ArithExpr} {s v w t : Text} :
      Prints 1 a s → Gap v → Gap w → Prints 2 b t →
        Prints 2 (.pow a b) (s ++ (v ++ ('*' :: '*' :: (w ++ t))))
  | binary {op : ArithOp} {h : Nat} {a b : ArithExpr} {s v w t : Text} :
      op.height = h + 1 → Prints (h + 1) a s → Gap v → Gap w → Prints h b t →
        Prints (h + 1) (.binary op a b) (s ++ (v ++ (op.lexeme ++ (w ++ t))))
  | cond {c t f : ArithExpr} {s s₁ s₂ v v₁ w w₁ : Text} :
      Prints 12 c s → Gap v → Gap v₁ → Prints 12 t s₁ → Gap w → Gap w₁ → Prints 12 f s₂ →
        Prints 13 (.cond c t f)
          (s ++ (v ++ ('?' :: (v₁ ++ (s₁ ++ (w ++ (':' :: (w₁ ++ s₂))))))))
  | raise {h : Nat} {e : ArithExpr} {s : Text} : h < 13 → Prints h e s → Prints (h + 1) e s

variable {e : ArithExpr}

theorem Prints.mono {h k : Nat} {s : Text} (hp : Prints h e s) (hle : h ≤ k) (hk : k ≤ 13) :
    Prints k e s := by
  induction k, hle using le_induction with
  | base => exact hp
  | succ k hle ih => exact .raise (by omega) (ih (by omega))

/-- The text of a tree with single blanks, and with parentheses where they are needed only. -/
def ArithExpr.print (h : Nat) (e : ArithExpr) : Text :=
  let text : Text :=
    match e with
    | num n => toDigits 10 n
    | var dollar name => (if dollar then ['$'] else []) ++ name.1
    | unary op a => op.char :: a.print 1
    | pow a b => a.print 1 ++ ([' '] ++ ('*' :: '*' :: ([' '] ++ b.print 2)))
    | binary op a b =>
      a.print op.height ++ ([' '] ++ (op.lexeme ++ ([' '] ++ b.print (op.height - 1))))
    | cond c t f =>
      c.print 12 ++ ([' '] ++ ('?' :: ([' '] ++ (t.print 12 ++
        ([' '] ++ (':' :: ([' '] ++ f.print 12)))))))
  if e.height ≤ h then text else '(' :: (text ++ [')'])

theorem Prints.wrap {h : Nat} {s : Text} (hp : Prints e.height e s) (hh : h ≤ 13) :
    Prints h e (if e.height ≤ h then s else '(' :: (s ++ [')'])) := by
  split
  · rename_i hle; exact hp.mono hle hh
  · have hinner := hp.mono e.height_le le_rfl
    have hparens := Prints.parens blank_nil hinner blank_nil
    simp only [List.nil_append, List.append_nil] at hparens
    exact hparens.mono (zero_le h) hh

/-- **Every tree has a text.** -/
theorem prints_print (e : ArithExpr) : ∀ h ≤ 13, Prints h e (e.print h) := by
  induction e with
  | num n => intro h hh; exact Prints.wrap (.num n) hh
  | var dollar name => intro h hh; exact Prints.wrap (.var dollar name) hh
  | unary op a ih =>
    intro h hh
    have ha := ih 1 (by decide)
    exact Prints.wrap (@Prints.unary op a [] _ blank_nil ha) hh
  | pow a b iha ihb =>
    intro h hh
    have ha := iha 1 (by decide)
    have hb := ihb 2 (by decide)
    exact Prints.wrap (.pow ha gap_space gap_space hb) hh
  | binary op a b iha ihb =>
    intro h hh
    obtain ⟨hlow, hhigh⟩ := op.height_bounds
    obtain ⟨k, hk⟩ : ∃ k, op.height = k + 1 := ⟨op.height - 1, by omega⟩
    have ha := iha (k + 1) (by omega)
    have hb := ihb k (by omega)
    have hp := Prints.binary hk ha gap_space gap_space hb
    exact Prints.wrap (e := .binary op a b) (by simpa [ArithExpr.height, hk] using hp) hh
  | cond c t f ihc iht ihf =>
    intro h hh
    have hc := ihc 12 (by decide)
    have ht := iht 12 (by decide)
    have hf := ihf 12 (by decide)
    exact Prints.wrap (.cond hc gap_space gap_space ht gap_space gap_space hf) hh

/-! ## 4. The exact value -/

/-- A value, if 64 bits hold it. -/
def fits (v : Int) : Option Int := if InRange v then some v else none

def UnaryOp.exact (op : UnaryOp) (v : Int) : Int :=
  match op with
  | neg => -v
  | pos => v
  | not => truth (v = 0)
  | compl => -v - 1

/-- The result of an operation where it has one: quotients are cut towards zero, `>>` rounds down,
    bits are those of the two's complement. -/
def ArithOp.exact (op : ArithOp) (a b : Int) : Option Int :=
  match op with
  | mul => some (a * b)
  | div => if b = 0 then none else some (a.tdiv b)
  | mod => if b = 0 then none else some (a.tmod b)
  | add => some (a + b)
  | sub => some (a - b)
  | shl => if b < 0 then none else some (a * 2 ^ b.toNat)
  | shr => if b < 0 then none else some (a / 2 ^ b.toNat)
  | le => some (truth (a ≤ b))
  | ge => some (truth (a ≥ b))
  | lt => some (truth (a < b))
  | gt => some (truth (a > b))
  | eq => some (truth (a = b))
  | ne => some (truth (a ≠ b))
  | bitAnd => some (bitwise (· &&& ·) a b)
  | bitXor => some (bitwise (· ^^^ ·) a b)
  | bitOr => some (bitwise (· ||| ·) a b)
  | logicalAnd => some (truth (a ≠ 0 ∧ b ≠ 0))
  | logicalOr => some (truth (a ≠ 0 ∨ b ≠ 0))

def exactPow (a b : Int) : Option Int := if b < 0 then none else fits (a ^ b.toNat)

/-- The value of a tree, where every node of it has one that fits in 64 bits. -/
def ArithExpr.exact (env : Text → Int) : ArithExpr → Option Int
  | num n => fits n
  | var _ name => fits (env name.1)
  | unary op e => (e.exact env).bind fun v => fits (op.exact v)
  | pow a b => (a.exact env).bind fun v => (b.exact env).bind fun w => exactPow v w
  | binary op a b =>
    (a.exact env).bind fun v => (b.exact env).bind fun w => (op.exact v w).bind fits
  | cond c t f =>
    (c.exact env).bind fun u => (t.exact env).bind fun v => (f.exact env).map fun w =>
      if u ≠ 0 then v else w

/-- Operands for which C leaves an operation undefined although it has a value. -/
def ArithOp.UndefinedInC (op : ArithOp) (a b : Int) : Prop :=
  match op with
  | mod => a = -2 ^ 63 ∧ b = -1
  | shl => a < 0 ∨ 64 ≤ b
  | shr => 64 ≤ b
  | _ => False

/-- Some operation of a tree has such operands. -/
def ArithExpr.UndefinedInC (env : Text → Int) : ArithExpr → Prop
  | num _ => False
  | var _ _ => False
  | unary _ e => e.UndefinedInC env
  | pow a b => a.UndefinedInC env ∨ b.UndefinedInC env
  | binary op a b => a.UndefinedInC env ∨ b.UndefinedInC env ∨
    ∃ v w, a.exact env = some v ∧ b.exact env = some w ∧ op.UndefinedInC v w
  | cond c t f => c.UndefinedInC env ∨ t.UndefinedInC env ∨ f.UndefinedInC env

/-! ## 5. Every operand, from the left -/

def UnaryOp.apply (op : UnaryOp) (v : Int) : Except ArithError Int :=
  match op with
  | neg => representable (-v)
  | pos => .ok v
  | not => .ok (truth (v = 0))
  | compl => .ok (-v - 1)

/-- What a computation of all operands from the left gives. -/
def ArithExpr.strict (env : Text → Int) : ArithExpr → Except ArithError Int
  | num n => .ok (clamp n)
  | var _ name => .ok (env name.1)
  | unary op e => (e.strict env).bind op.apply
  | pow a b => (a.strict env).bind fun v => (b.strict env).bind fun w => arithPowInt v w
  | binary op a b => (a.strict env).bind fun v => (b.strict env).bind fun w => op.apply v w
  | cond c t f =>
    (c.strict env).bind fun u => (t.strict env).bind fun v => (f.strict env).map fun w =>
      if u ≠ 0 then v else w

variable {v w a b : Int}

theorem fits_eq_some : fits v = some w ↔ InRange v ∧ v = w := by
  unfold fits
  split <;> simp_all

theorem fits_of_inRange (h : InRange v) : fits v = some v := if_pos h

theorem representable_eq_ok : representable v = .ok w ↔ InRange v ∧ v = w := by
  unfold representable
  split <;> simp_all

theorem inRange_truth (p : Prop) [Decidable p] : InRange (truth p) := by
  unfold truth
  split <;> decide

theorem inRange_bitwise (f : BitVec 64 → BitVec 64 → BitVec 64) (a b : Int) :
    InRange (bitwise f a b) := by
  have hlow := BitVec.le_toInt (f (BitVec.ofInt 64 a) (BitVec.ofInt 64 b))
  have hhigh := BitVec.toInt_lt (x := f (BitVec.ofInt 64 a) (BitVec.ofInt 64 b))
  exact ⟨by simpa [bitwise] using hlow, by simpa [bitwise] using hhigh⟩

theorem inRange_tmod (ha : InRange a) : InRange (a.tmod b) := by
  have habs : (a.tmod b).natAbs ≤ a.natAbs := by rw [Int.natAbs_tmod]; exact mod_le _ _
  unfold InRange at *
  rcases le_total 0 a with hpos | hneg
  · have hsign := Int.tmod_nonneg b hpos; omega
  · have hsign := Int.tmod_nonneg b (Int.neg_nonneg.mpr hneg)
    rw [Int.neg_tmod] at hsign
    omega

theorem inRange_shr (ha : InRange a) (n : Nat) : InRange (a / 2 ^ n) := by
  have hpow : (0 : Int) < 2 ^ n := by positivity
  have habs := Int.natAbs_ediv_le_natAbs a (2 ^ n)
  unfold InRange at *
  rcases lt_or_ge a 0 with hneg | hpos
  · have hsign := Int.ediv_neg_of_neg_of_pos hneg hpow; omega
  · have hsign := Int.ediv_nonneg hpos hpow.le; omega

theorem ArithOp.apply_ok_iff {op : ArithOp} (ha : InRange a) :
    op.apply a b = .ok v ↔ (op.exact a b).bind fits = some v ∧ ¬ op.UndefinedInC a b := by
  have htruth (p : Prop) [Decidable p] := fits_of_inRange (inRange_truth p)
  have hbits (f : BitVec 64 → BitVec 64 → BitVec 64) := fits_of_inRange (inRange_bitwise f a b)
  cases op with
  | mul | add
  | sub => simp [ArithOp.apply, ArithOp.exact, ArithOp.UndefinedInC, representable_eq_ok, fits_eq_some]
  | div =>
    by_cases hb : b = 0
    · simp [ArithOp.apply, ArithOp.exact, hb]
    · simp [ArithOp.apply, ArithOp.exact, ArithOp.UndefinedInC, hb, representable_eq_ok, fits_eq_some]
  | mod =>
    by_cases hb : b = 0
    · simp [ArithOp.apply, ArithOp.exact, hb]
    · have hfits := fits_of_inRange (@inRange_tmod a b ha)
      by_cases hundef : a = -2 ^ 63 ∧ b = -1
      · simp [ArithOp.apply, ArithOp.UndefinedInC, hundef]
      · simp only [ArithOp.apply, ArithOp.exact, ArithOp.UndefinedInC, hb, hundef, if_false,
          bind_some, hfits]
        simp
  | shl =>
    by_cases hb : b < 0
    · simp [ArithOp.apply, ArithOp.exact, hb]
    · by_cases hundef : a < 0 ∨ 64 ≤ b
      · have hor : b < 0 ∨ 64 ≤ b ∨ a < 0 := by tauto
        simp [ArithOp.apply, ArithOp.UndefinedInC, hundef, hor]
      · have hor : ¬ (64 ≤ b ∨ a < 0) := by tauto
        simp [ArithOp.apply, ArithOp.exact, ArithOp.UndefinedInC, hb, hundef, hor,
          representable_eq_ok, fits_eq_some]
  | shr =>
    by_cases hb : b < 0
    · simp [ArithOp.apply, ArithOp.exact, hb]
    · by_cases hundef : 64 ≤ b
      · simp [ArithOp.apply, ArithOp.UndefinedInC, hundef]
      · have hfits := fits_of_inRange (inRange_shr ha b.toNat)
        simp [ArithOp.apply, ArithOp.exact, ArithOp.UndefinedInC, hb, hundef, hfits]
  | bitAnd | bitXor | bitOr => simp [ArithOp.apply, ArithOp.exact, ArithOp.UndefinedInC, hbits]
  | _ => simp only [ArithOp.apply, ArithOp.exact, ArithOp.UndefinedInC, bind_some, htruth]; simp

theorem inRange_pow_of_succ {n : Nat} (h : InRange (a ^ (n + 1))) : InRange (a ^ n) := by
  by_cases hsmall : a.natAbs ≤ 1
  · have hunit : (a ^ n).natAbs ≤ 1 := by rw [Int.natAbs_pow]; exact pow_le_one₀ (zero_le _) hsmall
    unfold InRange
    omega
  · have hdouble : 2 * (a ^ n).natAbs ≤ (a ^ (n + 1)).natAbs := by
      rw [pow_succ, Int.natAbs_mul, mul_comm]
      exact mul_le_mul_left _ (by omega)
    unfold InRange at *
    omega

theorem powLoop_eq (n : Nat) :
    ∀ k, InRange (a ^ k) → powLoop a n (a ^ k) = representable (a ^ (k + n)) := by
  induction n with
  | zero => intro k hk; exact (if_pos hk).symm
  | succ n ih =>
    intro k hk
    rw [powLoop, ← pow_succ]
    by_cases hnext : InRange (a ^ (k + 1))
    · have hrest := ih (k + 1) hnext
      have hindex : k + 1 + n = k + (n + 1) := by omega
      rw [representable, if_pos hnext, Except.bind, hrest, hindex]
    · have hlast : ¬ InRange (a ^ (k + (n + 1))) := by
        intro hin
        refine hnext ?_
        clear ih
        induction n with
        | zero => exact hin
        | succ n ih => exact ih (inRange_pow_of_succ hin)
      rw [representable, if_neg hnext, Except.bind, representable, if_neg hlast]

theorem arithPowInt_ok_iff : arithPowInt a b = .ok v ↔ exactPow a b = some v := by
  unfold arithPowInt exactPow
  by_cases hb : b < 0
  · simp [hb]
  · have hloop := @powLoop_eq a b.toNat 0 (by simp [InRange])
    rw [pow_zero, zero_add] at hloop
    rw [if_neg hb, if_neg hb, hloop, representable_eq_ok, fits_eq_some]

theorem UnaryOp.apply_ok_iff {op : UnaryOp} (ha : InRange a) :
    op.apply a = .ok v ↔ fits (op.exact a) = some v := by
  cases op with
  | neg => simp [UnaryOp.apply, UnaryOp.exact, representable_eq_ok, fits_eq_some]
  | pos => simp [UnaryOp.apply, UnaryOp.exact, fits_of_inRange ha]
  | not => simp [UnaryOp.apply, UnaryOp.exact, fits_of_inRange (inRange_truth _)]
  | compl =>
    have hfits : fits (-a - 1) = some (-a - 1) := fits_of_inRange (by unfold InRange at *; omega)
    simp [UnaryOp.apply, UnaryOp.exact, hfits]

variable {env : Text → Int}

theorem inRange_exact (h : e.exact env = some v) : InRange v := by
  have hfit {w : Int} (hw : fits w = some v) : InRange v := by
    obtain ⟨hin, rfl⟩ := fits_eq_some.mp hw
    exact hin
  induction e with
  | num n | var dollar name => exact hfit h
  | unary op e ih => obtain ⟨w, -, hw⟩ := bind_eq_some_iff.mp h; exact hfit hw
  | pow a b iha ihb =>
    obtain ⟨w, -, hw⟩ := bind_eq_some_iff.mp h
    obtain ⟨u, -, hu⟩ := bind_eq_some_iff.mp hw
    unfold exactPow at hu
    split at hu
    · cases hu
    · exact hfit hu
  | binary op a b iha ihb =>
    obtain ⟨w, -, hw⟩ := bind_eq_some_iff.mp h
    obtain ⟨u, -, hu⟩ := bind_eq_some_iff.mp hw
    obtain ⟨r, -, hr⟩ := bind_eq_some_iff.mp hu
    exact hfit hr
  | cond c t f ihc iht ihf =>
    obtain ⟨u, -, hu⟩ := bind_eq_some_iff.mp h
    obtain ⟨w, hw, hrest⟩ := bind_eq_some_iff.mp hu
    obtain ⟨x, hx, hv⟩ := map_eq_some_iff.mp hrest
    split at hv
    · exact iht (by rw [hw, hv])
    · exact ihf (by rw [hx, hv])

def ArithExpr.LiteralsFit : ArithExpr → Prop
  | num n => InRange n
  | var _ _ => True
  | unary _ e => e.LiteralsFit
  | pow a b => a.LiteralsFit ∧ b.LiteralsFit
  | binary _ a b => a.LiteralsFit ∧ b.LiteralsFit
  | cond c t f => c.LiteralsFit ∧ t.LiteralsFit ∧ f.LiteralsFit

theorem literalsFit_of_exact (h : e.exact env = some v) : e.LiteralsFit := by
  induction e generalizing v with
  | num n => exact (fits_eq_some.mp h).1
  | var dollar name => trivial
  | unary op e ih => obtain ⟨w, hw, -⟩ := bind_eq_some_iff.mp h; exact ih hw
  | pow a b iha ihb | binary op a b iha ihb =>
    obtain ⟨w, hw, hrest⟩ := bind_eq_some_iff.mp h
    obtain ⟨u, hu, -⟩ := bind_eq_some_iff.mp hrest
    exact ⟨iha hw, ihb hu⟩
  | cond c t f ihc iht ihf =>
    obtain ⟨u, hu, hrest⟩ := bind_eq_some_iff.mp h
    obtain ⟨w, hw, hrest⟩ := bind_eq_some_iff.mp hrest
    obtain ⟨x, hx, -⟩ := map_eq_some_iff.mp hrest
    exact ⟨ihc hu, iht hw, ihf hx⟩

/-- **A computation of all operands gives the exact value, unless C leaves an operation
    undefined.** -/
theorem strict_ok_iff (henv : ∀ name, InRange (env name)) (hfit : e.LiteralsFit) :
    ∀ v, e.strict env = .ok v ↔ e.exact env = some v ∧ ¬ e.UndefinedInC env := by
  induction e with
  | num n =>
    intro v
    have hn : InRange n := hfit
    simp [ArithExpr.strict, ArithExpr.exact, ArithExpr.UndefinedInC, clamp_of_inRange hn,
      fits_of_inRange hn]
  | var dollar name =>
    intro v
    simp [ArithExpr.strict, ArithExpr.exact, ArithExpr.UndefinedInC, fits_of_inRange (henv name.1)]
  | unary op e ih =>
    intro v
    simp only [ArithExpr.strict, ArithExpr.exact, ArithExpr.UndefinedInC, bind_ok,
      bind_eq_some_iff, ih hfit]
    constructor
    · intro ⟨w, ⟨hw, hdef⟩, hop⟩
      exact ⟨⟨w, hw, (UnaryOp.apply_ok_iff (inRange_exact hw)).mp hop⟩, hdef⟩
    · intro ⟨⟨w, hw, hop⟩, hdef⟩
      exact ⟨w, ⟨hw, hdef⟩, (UnaryOp.apply_ok_iff (inRange_exact hw)).mpr hop⟩
  | pow a b iha ihb =>
    intro v
    simp only [ArithExpr.strict, ArithExpr.exact, ArithExpr.UndefinedInC, bind_ok,
      bind_eq_some_iff, iha hfit.1, ihb hfit.2, arithPowInt_ok_iff, not_or]
    constructor
    · intro ⟨x, ⟨hx, hdefx⟩, y, ⟨hy, hdefy⟩, hpow⟩; exact ⟨⟨x, hx, y, hy, hpow⟩, hdefx, hdefy⟩
    · intro ⟨⟨x, hx, y, hy, hpow⟩, hdefx, hdefy⟩; exact ⟨x, ⟨hx, hdefx⟩, y, ⟨hy, hdefy⟩, hpow⟩
  | binary op a b iha ihb =>
    intro v
    simp only [ArithExpr.strict, ArithExpr.exact, ArithExpr.UndefinedInC, bind_ok,
      bind_eq_some_iff, iha hfit.1, ihb hfit.2, not_or]
    constructor
    · intro ⟨x, ⟨hx, hdefx⟩, y, ⟨hy, hdefy⟩, hop⟩
      obtain ⟨hexact, hdef⟩ := (ArithOp.apply_ok_iff (inRange_exact hx)).mp hop
      refine ⟨⟨x, hx, y, hy, bind_eq_some_iff.mp hexact⟩, hdefx, hdefy, ?_⟩
      intro ⟨x', y', hx', hy', hundef⟩
      obtain rfl := Option.some.inj (hx.symm.trans hx')
      obtain rfl := Option.some.inj (hy.symm.trans hy')
      exact hdef hundef
    · intro ⟨⟨x, hx, y, hy, hexact⟩, hdefx, hdefy, hdef⟩
      refine ⟨x, ⟨hx, hdefx⟩, y, ⟨hy, hdefy⟩, ?_⟩
      exact (ArithOp.apply_ok_iff (inRange_exact hx)).mpr
        ⟨bind_eq_some_iff.mpr hexact, fun hundef => hdef ⟨x, y, hx, hy, hundef⟩⟩
  | cond c t f ihc iht ihf =>
    intro v
    simp only [ArithExpr.strict, ArithExpr.exact, ArithExpr.UndefinedInC, bind_ok, map_ok,
      bind_eq_some_iff, map_eq_some_iff, ihc hfit.1, iht hfit.2.1, ihf hfit.2.2, not_or]
    constructor
    · intro ⟨x, ⟨hx, hdefx⟩, y, ⟨hy, hdefy⟩, z, ⟨hz, hdefz⟩, hv⟩
      exact ⟨⟨x, hx, y, hy, z, hz, hv⟩, hdefx, hdefy, hdefz⟩
    · intro ⟨⟨x, hx, y, hy, z, hz, hv⟩, hdefx, hdefy, hdefz⟩
      exact ⟨x, ⟨hx, hdefx⟩, y, ⟨hy, hdefy⟩, z, ⟨hz, hdefz⟩, hv⟩

end Arksh
