/-
  Subject: Chains `t0 op1 t1 ... opn tn` of number literals as value expressions: the parser of
           `src/parser.c` and the evaluator of `src/executor.c`.

  The evaluator collects all of `+ - * /`, the sign of the first literal and the signs of
  exponents too. The parser takes the last `+` or `-` for the operator of the expression, else the
  last `*` or `/`, and asks what is in front of it to be a number without a blank: so the operator
  has to be the first one of the chain.
-/
import Arksh.Exec.LineValue
import Arksh.Expand.Delimited
import Arksh.Parse.Split

namespace Arksh

open CText Scan Binary64 List Nat

/-! ## 1. Chains -/

/-- The characters that the scanners take for operators. -/
def isBinaryOp (c : Char) : Bool := c = '+' || c = '-' || c = '*' || c = '/'

def isAddSub (c : Char) : Bool := c = '+' || c = '-'

structure ChainLink where
  op : Char
  isOp : isBinaryOp op = true
  term : DecimalLiteral

/-- One blank on each side of the operator. -/
def ChainLink.text (l : ChainLink) : Text := ' ' :: l.op :: ' ' :: l.term.text

def linksText (links : List ChainLink) : Text := links.flatMap ChainLink.text

structure OperatorChain where
  sign : Option Char
  isSign : ∀ c ∈ sign, isAddSub c = true
  first : DecimalLiteral
  link : ChainLink
  links : List ChainLink

namespace OperatorChain

def allLinks (c : OperatorChain) : List ChainLink := c.link :: c.links

def terms (c : OperatorChain) : List DecimalLiteral := c.first :: c.allLinks.map ChainLink.term

def text (c : OperatorChain) : Text := c.sign.toList ++ (c.first.text ++ linksText c.allLinks)

/-- Where the operators stand behind the place `i`. -/
def linkPlaces : Nat → List ChainLink → List (Nat × Char)
  | _, [] => []
  | i, l :: links => (i + 1, l.op) :: linkPlaces (i + (3 + l.term.text.length)) links

def places (c : OperatorChain) : List (Nat × Char) :=
  linkPlaces (c.sign.toList.length + c.first.text.length) c.allLinks

def firstValue (c : OperatorChain) : Binary64 := c.first.signedValue (c.sign = some '-')

/-- The expression that a chain is: `*` and `/` bind tighter, and all associate to the left. -/
def tree (c : OperatorChain) : Precedence.Tree Binary64 Char :=
  Precedence.read isMulDiv none (.leaf c.firstValue) (c.allLinks.map fun l => (l.op, l.term.value))

theorem tree_iff (c : OperatorChain) (t : Precedence.Tree Binary64 Char) :
    t = c.tree ↔ t.Respects isMulDiv ∧ t.first = c.firstValue ∧
      t.rest = c.allLinks.map fun l => (l.op, l.term.value) :=
  Precedence.eq_read_iff

def value (c : OperatorChain) : Except String Binary64 := c.tree.eval realOperator

def CutAt (c : OperatorChain) (source : ArkshValueSourceNode) : Prop :=
  ∃ before l after, c.allLinks = before ++ l :: after ∧
    source.binaryLeft = c.sign.toList ++ (c.first.text ++ linksText before) ∧
    source.binaryOp = l.op ∧ source.binaryRight = l.term.text ++ linksText after

/-- A chain parses as a binary expression, cut at one of its operators, and evaluates to its
    value. -/
structure BinaryChainLaw {σ : Type} (S : ValueShell σ) (c : OperatorChain) : Prop where
  parsed : ∀ message, ∃ source, parseValueSourceText c.text message = .value source ∧
    source.kind = .binaryOp ∧ c.CutAt source
  operators : collectTopLevelBinaryOps c.text (maxBinopTerms - 1) = some c.places
  evaluated : ∃ enough, ∀ turns,
    evaluateLineValue S (enough + turns) c.text = c.value.map arkshValueSetNumber

/-- The exact condition. -/
structure BinaryChainFits (c : OperatorChain) : Prop where
  unsigned : c.sign = none
  exponents : ∀ t ∈ c.terms, ¬ t.SignedExponent
  order : c.links = [] ∨ isAddSub c.link.op = true ∧ ∀ l ∈ c.links, isMulDiv l.op = true
  count : c.allLinks.length < maxBinopTerms
  line : c.text.length < arkshMaxLine
  tokens : ∀ t ∈ c.terms, t.text.length < arkshMaxToken

end OperatorChain

/-! ## 2. What the scanners find -/

variable {c : Char}

theorem isBinaryOp_iff : isBinaryOp c = true ↔ c = '+' ∨ c = '-' ∨ c = '*' ∨ c = '/' := by
  simp [isBinaryOp, or_assoc]

theorem isBinaryOp_cases (h : isBinaryOp c = true) : isAddSub c = !isMulDiv c := by
  rcases isBinaryOp_iff.mp h with rfl | rfl | rfl | rfl <;> rfl

section Collect

variable (i : Nat) (rest : List (Char × Bool)) {c : Char}

theorem collectOps_hidden (c : Char) :
    collectOps i ((c, false) :: rest) = collectOps (i + 1) rest := by
  rw [collectOps.eq_def]
  rfl

theorem collectOps_other (h : isBinaryOp c = false) (top : Bool) :
    collectOps i ((c, top) :: rest) = collectOps (i + 1) rest := by
  have hc : c ≠ '+' ∧ c ≠ '-' ∧ c ≠ '*' ∧ c ≠ '/' := by simpa [isBinaryOp, and_assoc] using h
  rw [collectOps.eq_def]
  dsimp only
  have hop : ¬ (c = '+' ∨ c = '*' ∨ c = '/') := not_or.mpr ⟨hc.1, not_or.mpr hc.2.2⟩
  rw [if_neg hop, if_neg hc.2.1, ite_self]

theorem collectOps_op (h : isBinaryOp c = true) (hminus : c ≠ '-') :
    collectOps i ((c, true) :: rest) = (i, c) :: collectOps (i + 1) rest := by
  have hc : c = '+' ∨ c = '*' ∨ c = '/' := by
    rcases isBinaryOp_iff.mp h with hc | hc | hc | hc
    · exact .inl hc
    · exact (hminus hc).elim
    · exact .inr (.inl hc)
    · exact .inr (.inr hc)
  rw [collectOps.eq_def]
  dsimp only
  rw [if_neg (by decide), if_pos hc]

/-- `->` and `--` are passed over. -/
theorem collectOps_skip {d : Char} (h : d = '>' ∨ d = '-') (top : Bool) :
    collectOps i (('-', true) :: (d, top) :: rest) = collectOps (i + 2) rest := by
  rw [collectOps.eq_def]
  dsimp only
  rw [if_neg (by decide), if_neg (by decide), if_pos rfl, if_pos h]

theorem collectOps_minus (h : ∀ x ∈ rest.head?, x.1 ≠ '>' ∧ x.1 ≠ '-') :
    collectOps i (('-', true) :: rest) = (i, '-') :: collectOps (i + 1) rest := by
  cases rest with
  | nil => rfl
  | cons x rest => obtain ⟨hd, hd'⟩ := h _ rfl; exact if_neg (not_or.mpr ⟨hd, hd'⟩)

end Collect

/-- **The rule of induction for the scanners**: one or two characters passed over, or an
    operator. -/
theorem collectOps_induction {motive : Nat → List (Char × Bool) → Prop} (nil : ∀ i, motive i [])
    (pass : ∀ i x rest, (x.2 = false ∨ isBinaryOp x.1 = false) → motive (i + 1) rest →
      motive i (x :: rest)) (skip : ∀ i d top rest, (d = '>' ∨ d = '-') → motive (i + 2) rest →
      motive i (('-', true) :: (d, top) :: rest)) (op : ∀ i c rest, isBinaryOp c = true →
      (c = '-' → ∀ x ∈ rest.head?, x.1 ≠ '>' ∧ x.1 ≠ '-') → motive (i + 1) rest →
      motive i ((c, true) :: rest)) (i : Nat) (marked : List (Char × Bool)) : motive i marked := by
  induction h : marked.length using Nat.strongRecOn generalizing i marked with
  | ind n ih =>
    subst h
    cases marked with
    | nil => exact nil i
    | cons x rest =>
      obtain ⟨c, top⟩ := x
      have hrest : motive (i + 1) rest := ih rest.length (lt_succ_self _) (i + 1) rest rfl
      cases top with
      | false => exact pass i _ rest (.inl rfl) hrest
      | true =>
        cases hop : isBinaryOp c with
        | false => exact pass i _ rest (.inr hop) hrest
        | true =>
          by_cases hskip : c = '-' ∧ ∃ x ∈ rest.head?, x.1 = '>' ∨ x.1 = '-'
          · obtain ⟨rfl, ⟨d, top⟩, hhead, hd⟩ := hskip
            cases rest with
            | nil => cases hhead
            | cons y rest =>
              obtain rfl := Option.some.inj hhead
              refine skip i d top rest hd (ih rest.length ?_ (i + 2) rest rfl)
              exact lt_succ_of_lt (lt_succ_self _)
          · refine op i c rest hop (fun hc x hx => ?_) hrest
            have hnot := fun hx' => hskip ⟨hc, x, hx, hx'⟩
            exact not_or.mp hnot

variable {rest marked : List (Char × Bool)} {i : Nat} {x : Char × Bool}
  {found : Option (Nat × Char)} {d : Char} {t : Text} {message : String}

theorem collectOps_pass (h : x.2 = false ∨ isBinaryOp x.1 = false) :
    collectOps i (x :: rest) = collectOps (i + 1) rest := by
  obtain ⟨c, top⟩ := x
  rcases h with rfl | h
  · exact collectOps_hidden i rest c
  · exact collectOps_other i rest h top

theorem collectOps_found (h : isBinaryOp c = true)
    (hminus : c = '-' → ∀ x ∈ rest.head?, x.1 ≠ '>' ∧ x.1 ≠ '-') :
    collectOps i ((c, true) :: rest) = (i, c) :: collectOps (i + 1) rest := by
  by_cases hc : c = '-'
  · subst hc; exact collectOps_minus i rest (hminus rfl)
  · exact collectOps_op i rest h hc

theorem mem_collectOps {p : Nat} {op : Char} (h : (p, op) ∈ collectOps i marked) :
    i ≤ p ∧ (marked.map Prod.fst)[p - i]? = some op ∧ isBinaryOp op = true := by
  induction i, marked using collectOps_induction with
  | nil i => cases h
  | pass i x rest hx ih =>
    rw [collectOps_pass hx] at h
    obtain ⟨hle, hget, hop⟩ := ih h
    have hplace : p - i = (p - (i + 1)) + 1 := by omega
    refine ⟨by omega, ?_, hop⟩
    rw [hplace, map_cons, getElem?_cons_succ, hget]
  | skip i d top rest hd ih =>
    rw [collectOps_skip i rest hd] at h
    obtain ⟨hle, hget, hop⟩ := ih h
    have hplace : p - i = (p - (i + 2)) + 1 + 1 := by omega
    refine ⟨by omega, ?_, hop⟩
    rw [hplace, map_cons, map_cons, getElem?_cons_succ, getElem?_cons_succ, hget]
  | op i c rest hc hminus ih =>
    rw [collectOps_found hc hminus] at h
    rcases mem_cons.mp h with heq | h
    · obtain ⟨rfl, rfl⟩ := Prod.mk.inj heq
      refine ⟨Nat.le_refl _, ?_, hc⟩
      rw [Nat.sub_self]
      rfl
    · obtain ⟨hle, hget, hop⟩ := ih h
      have hplace : p - i = (p - (i + 1)) + 1 := by omega
      refine ⟨by omega, ?_, hop⟩
      rw [hplace, map_cons, getElem?_cons_succ, hget]

theorem lastAdditiveOp_pass (h : x.2 = false ∨ isAddSub x.1 = false) :
    lastAdditiveOp i found (x :: rest) = lastAdditiveOp (i + 1) found rest := by
  obtain ⟨c, top⟩ := x
  rw [lastAdditiveOp.eq_def]
  dsimp only
  rcases h with rfl | h
  · rfl
  · have hc : c ≠ '+' ∧ c ≠ '-' := by simpa [isAddSub] using h
    rw [if_neg hc.1, if_neg hc.2, ite_self]

theorem lastAdditiveOp_found (h : isAddSub c = true)
    (hminus : c = '-' → ∀ x ∈ rest.head?, x.1 ≠ '>' ∧ x.1 ≠ '-') :
    lastAdditiveOp i found ((c, true) :: rest) = lastAdditiveOp (i + 1) (some (i, c)) rest := by
  rw [lastAdditiveOp.eq_def]
  dsimp only
  rw [if_neg (by decide)]
  by_cases hplus : c = '+'
  · rw [if_pos hplus, hplus]
  · have hc : c = '-' := by simpa [isAddSub, hplus] using h
    rw [if_neg hplus, if_pos hc, hc]
    cases rest with
    | nil => rfl
    | cons x rest => obtain ⟨hd, hd'⟩ := hminus hc _ rfl; exact if_neg (not_or.mpr ⟨hd, hd'⟩)

variable {α σ : Type}

theorem getLast?_cons_or (x : α) (l : List α) (found : Option α) :
    ((x :: l).getLast?).or found = (l.getLast?).or (some x) := by
  cases l with
  | nil => rfl
  | cons y l =>
    rw [getLast?_cons_cons, getLast?_cons, Option.some_or, Option.some_or]

/-- **What the parser looks for, of what the evaluator collects**: the last `+` or `-`. -/
theorem lastAdditiveOp_eq (i : Nat) (found : Option (Nat × Char)) (marked : List (Char × Bool)) :
    lastAdditiveOp i found marked =
      (((collectOps i marked).filter fun x => isAddSub x.2).getLast?).or found := by
  induction i, marked using collectOps_induction generalizing found with
  | nil i => rfl
  | pass i x rest hx ih =>
    have hx' : x.2 = false ∨ isAddSub x.1 = false := by
      refine hx.imp_right fun hop => ?_
      simp only [isBinaryOp, Bool.or_eq_false_iff] at hop
      simp only [isAddSub, hop.1.1.1, hop.1.1.2, Bool.or_false]
    rw [collectOps_pass hx, lastAdditiveOp_pass hx', ih]
  | skip i d top rest hd ih =>
    rw [collectOps_skip i rest hd, ← ih, lastAdditiveOp.eq_def]
    dsimp only
    rw [if_neg (by decide), if_neg (by decide), if_pos rfl, if_pos hd]
  | op i c rest hc hminus ih =>
    rw [collectOps_found hc hminus]
    cases hadd : isAddSub c with
    | true =>
      rw [filter_cons_of_pos (p := fun x : Nat × Char => isAddSub x.2) hadd, lastAdditiveOp_found hadd hminus, ih, getLast?_cons_or]
    | false =>
      rw [filter_cons_of_neg (by rw [hadd]; exact Bool.false_ne_true),
        lastAdditiveOp_pass (.inr hadd), ih]

theorem lastMultiplicativeOp_eq (i : Nat) (found : Option (Nat × Char))
    (marked : List (Char × Bool)) : lastMultiplicativeOp i found marked =
      (((collectOps i marked).filter fun x => isMulDiv x.2).getLast?).or found := by
  induction i, marked using collectOps_induction generalizing found with
  | nil i => rfl
  | pass i x rest hx ih =>
    obtain ⟨c, top⟩ := x
    rw [collectOps_pass hx, lastMultiplicativeOp, if_neg, ih]
    rintro ⟨htop, hop⟩
    rcases hx with hfalse | hother
    · rw [show top = false from hfalse] at htop; cases htop
    · rcases hop with rfl | rfl <;> cases hother
  | skip i d top rest hd ih =>
    rw [collectOps_skip i rest hd, lastMultiplicativeOp, if_neg (by decide), lastMultiplicativeOp,
      if_neg, ih]
    rintro ⟨-, hop⟩
    rcases hd with rfl | rfl <;> exact absurd hop (by decide)
  | op i c rest hc hminus ih =>
    rw [collectOps_found hc hminus, lastMultiplicativeOp]
    cases hmul : isMulDiv c with
    | true =>
      have hop : true = true ∧ (c = '*' ∨ c = '/') := ⟨rfl, by simpa [isMulDiv] using hmul⟩
      rw [filter_cons_of_pos (p := fun x : Nat × Char => isMulDiv x.2) hmul, if_pos hop, ih, getLast?_cons_or]
    | false =>
      have hop : ¬ (true = true ∧ (c = '*' ∨ c = '/')) := by simpa [isMulDiv] using hmul
      rw [filter_cons_of_neg (by rw [hmul]; exact Bool.false_ne_true), if_neg hop, ih]

theorem findTopLevelBinaryOp_eq (text : Text) : findTopLevelBinaryOp text =
      (((collectOps 0 (markedChars ⟨false, false⟩ text)).filter fun x => isAddSub x.2).getLast?).or
        ((collectOps 0 (markedChars ⟨false, false⟩ text)).filter fun x => isMulDiv x.2).getLast? := by
  rw [findTopLevelBinaryOp, lastAdditiveOp_eq, lastMultiplicativeOp_eq, Option.or_none, Option.or_none]
  cases ((collectOps 0 (markedChars ⟨false, false⟩ text)).filter fun x => isAddSub x.2).getLast? <;>
    rfl

/-! ## 3. What is collected of a chain -/

theorem collectOps_append (i : Nat) {a : List (Char × Bool)} (b : List (Char × Bool))
    (h : ∀ x ∈ a.getLast?, x.1 ≠ '-') :
    collectOps i (a ++ b) = collectOps i a ++ collectOps (i + a.length) b := by
  induction i, a using collectOps_induction with
  | nil i => rfl
  | pass i x rest hx ih =>
    have hrest : ∀ y ∈ rest.getLast?, y.1 ≠ '-' := by
      intro y hy
      cases rest with
      | nil => cases hy
      | cons z rest => exact h y (by rwa [getLast?_cons_cons])
    rw [cons_append, collectOps_pass hx, collectOps_pass hx, ih hrest, length_cons,
      add_assoc, add_comm 1]
  | skip i d top rest hd ih =>
    have hrest : ∀ y ∈ rest.getLast?, y.1 ≠ '-' := by
      intro y hy
      cases rest with
      | nil => cases hy
      | cons z rest => exact h y (by rwa [getLast?_cons_cons, getLast?_cons_cons])
    rw [cons_append, cons_append, collectOps_skip i _ hd, collectOps_skip i _ hd, ih hrest,
      length_cons, length_cons, add_assoc, add_comm 2]
  | op i c rest hc hminus ih =>
    have hrest : ∀ y ∈ rest.getLast?, y.1 ≠ '-' := by
      intro y hy
      cases rest with
      | nil => cases hy
      | cons z rest => exact h y (by rwa [getLast?_cons_cons])
    have hminus' : c = '-' → ∀ x ∈ (rest ++ b).head?, x.1 ≠ '>' ∧ x.1 ≠ '-' := by
      intro heq
      cases rest with
      | nil => exact (h _ rfl heq).elim
      | cons z rest => exact hminus heq
    rw [cons_append, collectOps_found hc hminus', collectOps_found hc hminus, ih hrest,
      cons_append, length_cons, add_assoc, add_comm 1]

theorem collectOps_none (h : ∀ x ∈ marked, isBinaryOp x.1 = false) : collectOps i marked = [] := by
  induction marked generalizing i with
  | nil => rfl
  | cons x rest ih =>
    rw [collectOps_pass (.inr (h x mem_cons_self))]
    exact ih fun y hy => h y (mem_cons_of_mem _ hy)

def allMarked (text : Text) : List (Char × Bool) := text.map (·, true)

theorem allMarked_append (a b : Text) : allMarked (a ++ b) = allMarked a ++ allMarked b :=
  map_append

theorem isBinaryOp_numeral (h : isNumeralWordChar c = true) : isBinaryOp c = false := by
  cases hop : isBinaryOp c with
  | false => rfl
  | true =>
    rcases isBinaryOp_iff.mp hop with rfl | rfl | rfl | rfl <;> cases h

theorem isNumeralWordChar_of_parts (h : isdigit c = true ∨ c ∈ ['.', 'e', 'E']) :
    isNumeralWordChar c = true := by
  rcases h with h | h
  · simp [isNumeralWordChar, h]
  · simp only [mem_cons, not_mem_nil, or_false] at h; rcases h with rfl | rfl | rfl <;> decide

theorem getLast?_literal (n : DecimalLiteral) :
    ∀ c ∈ n.text.getLast?, isNumeralWordChar c = true := by
  intro c hc
  rcases n.text_cases with ⟨-, hall⟩ | ⟨-, front, sign, digits, htext, -, hne, hdigits, -, -⟩
  · exact isNumeralWordChar_of_parts (hall c (mem_of_getLast? hc))
  · rw [htext, getLast?_append_of_ne_nil _ (cons_ne_nil _ _)] at hc
    obtain ⟨d, ds, rfl⟩ := exists_cons_of_ne_nil hne
    exact isNumeralWordChar_of_parts (.inl (hdigits c (mem_of_getLast? hc)))

theorem collectOps_literal (i : Nat) (n : DecimalLiteral) :
    collectOps i (allMarked n.text) = [] ↔ ¬ n.SignedExponent := by
  rcases n.text_cases with ⟨hunsigned, hall⟩ |
    ⟨hsigned, front, sign, digits, htext, hsign, -, hdigits, -, hfront⟩
  · refine iff_of_true (collectOps_none ?_) hunsigned
    intro x hx
    obtain ⟨c, hc, rfl⟩ := mem_map.mp hx
    exact isBinaryOp_numeral (isNumeralWordChar_of_parts (hall c hc))
  · refine iff_of_false (fun hnil => ?_) fun h => h hsigned
    have hop : isBinaryOp sign = true := by rcases hsign with rfl | rfl <;> rfl
    have hdigit : ∀ c ∈ digits, c ≠ '>' ∧ c ≠ '-' := by
      intro c hc
      have := hdigits c hc
      constructor <;> rintro rfl <;> exact absurd this (by decide)
    rw [htext, allMarked_append, collectOps_append] at hnil
    · have hfound : collectOps (i + (allMarked front).length) (allMarked (sign :: digits)) = _ :=
        collectOps_found hop fun _ x hx => by
          obtain ⟨c, hc, rfl⟩ := mem_map.mp (mem_of_head? hx)
          exact hdigit c hc
      rw [hfound] at hnil
      exact cons_ne_nil _ _ (append_eq_nil_iff.mp hnil).2
    · intro x hx
      obtain ⟨c, hc, rfl⟩ := mem_map.mp (mem_of_getLast? hx)
      exact ne_of_isNumeralWordChar (isNumeralWordChar_of_parts (hfront c hc)) (by decide)

theorem getLast?_allMarked_literal (n : DecimalLiteral) :
    ∀ x ∈ (allMarked n.text).getLast?, x.1 ≠ '-' := by
  intro x hx
  rw [allMarked, getLast?_map] at hx
  obtain ⟨c, hc, rfl⟩ := Option.map_eq_some_iff.mp hx
  exact ne_of_isNumeralWordChar (getLast?_literal n c hc) (by decide)

theorem collectOps_link (i : Nat) (l : ChainLink) (rest : List (Char × Bool)) :
    collectOps i (allMarked l.text ++ rest) =
      (i + 1, l.op) :: (collectOps (i + 3) (allMarked l.term.text) ++
        collectOps (i + (3 + l.term.text.length)) rest) := by
  have htext : allMarked l.text ++ rest =
      (' ', true) :: (l.op, true) :: (' ', true) :: (allMarked l.term.text ++ rest) := rfl
  have hlen : (allMarked l.term.text).length = l.term.text.length := length_map _
  have hblank : ∀ x ∈ ((' ', true) :: (allMarked l.term.text ++ rest)).head?,
      x.1 ≠ '>' ∧ x.1 ≠ '-' := by
    intro x hx
    obtain rfl := Option.some.inj hx
    exact ⟨by decide, by decide⟩
  rw [htext, collectOps_pass (.inr rfl), collectOps_found l.isOp fun _ => hblank,
    collectOps_pass (.inr rfl), collectOps_append _ _ (getLast?_allMarked_literal l.term), hlen,
    add_assoc i 1 1, add_assoc i 2 1, add_assoc i 3]

variable {links : List ChainLink}

namespace OperatorChain

/-- What is collected of a chain behind its first literal: the operators, if no exponent has a
    sign, and else more. -/
theorem collectOps_links (i : Nat) (links : List ChainLink) :
    links.length ≤ (collectOps i (allMarked (linksText links))).length ∧
      ((collectOps i (allMarked (linksText links))).length = links.length ↔
        ∀ l ∈ links, ¬ l.term.SignedExponent) ∧ ((∀ l ∈ links, ¬ l.term.SignedExponent) →
        collectOps i (allMarked (linksText links)) = linkPlaces i links) := by
  induction links generalizing i with
  | nil => exact ⟨Nat.le_refl _, iff_of_true rfl fun l hl => (nomatch hl), fun _ => rfl⟩
  | cons l links ih =>
    obtain ⟨hle, hiff, hplaces⟩ := ih (i + (3 + l.term.text.length))
    have hterm := collectOps_literal (i + 3) l.term
    have hcollect : collectOps i (allMarked (linksText (l :: links))) =
        (i + 1, l.op) :: (collectOps (i + 3) (allMarked l.term.text) ++
          collectOps (i + (3 + l.term.text.length)) (allMarked (linksText links))) := by
      rw [linksText, flatMap_cons, allMarked_append]
      exact collectOps_link i l _
    rw [hcollect, length_cons, length_cons, length_append, forall_mem_cons,
      ← hterm, ← hiff, ← length_eq_zero_iff]
    refine ⟨by omega, by omega, fun ⟨hnil, hrest⟩ => ?_⟩
    rw [length_eq_zero_iff.mp hnil, hplaces (hiff.mp hrest)]
    rfl

theorem collectOps_first (i : Nat) (c : OperatorChain) :
    collectOps i (allMarked (c.first.text ++ linksText c.allLinks)) =
      collectOps i (allMarked c.first.text) ++
        collectOps (i + c.first.text.length) (allMarked (linksText c.allLinks)) := by
  have hlen : (allMarked c.first.text).length = c.first.text.length := length_map _
  rw [allMarked_append, collectOps_append _ _ (getLast?_allMarked_literal c.first), hlen]

/-- **The evaluator collects just the operators of a chain exactly where no literal has a sign.** -/
theorem collectOps_text (c : OperatorChain) :
    (collectOps 0 (allMarked c.text)).length = c.allLinks.length ↔
      c.sign = none ∧ ∀ t ∈ c.terms, ¬ t.SignedExponent := by
  have hterms : (∀ t ∈ c.terms, ¬ t.SignedExponent) ↔
      ¬ c.first.SignedExponent ∧ ∀ l ∈ c.allLinks, ¬ l.term.SignedExponent := by
    rw [terms, forall_mem_cons, forall_mem_map]
  rw [text, hterms]
  cases hsign : c.sign with
  | none =>
    obtain ⟨hle, hiff, -⟩ := collectOps_links (0 + c.first.text.length) c.allLinks
    rw [Option.toList_none, nil_append, collectOps_first, length_append,
      ← collectOps_literal 0, ← hiff, ← length_eq_zero_iff]
    constructor
    · intro hlen; exact ⟨rfl, by omega, by omega⟩
    · rintro ⟨-, hfirst, hrest⟩; omega
  | some s =>
    refine iff_of_false (fun hlen => ?_) fun h => nomatch h.1
    obtain ⟨hle, -, -⟩ := collectOps_links (0 + 1 + c.first.text.length) c.allLinks
    obtain ⟨d, t, hfirst, hd⟩ := c.first.exists_digit
    have hop : isBinaryOp s = true := by
      have hadd := c.isSign s hsign
      simp only [isAddSub, Bool.or_eq_true, decide_eq_true_eq] at hadd
      rcases hadd with rfl | rfl <;> rfl
    have hdigit : ∀ x ∈ (allMarked (c.first.text ++ linksText c.allLinks)).head?,
        x.1 ≠ '>' ∧ x.1 ≠ '-' := by
      intro x hx
      rw [hfirst] at hx
      obtain rfl := Option.some.inj hx
      constructor <;> rintro rfl <;> exact absurd hd (by decide)
    have hcollect : collectOps 0 (allMarked (s :: (c.first.text ++ linksText c.allLinks))) =
        (0, s) :: collectOps (0 + 1) (allMarked (c.first.text ++ linksText c.allLinks)) :=
      collectOps_found hop fun _ => hdigit
    rw [Option.toList_some, singleton_append, hcollect, length_cons, collectOps_first,
      length_append] at hlen
    omega

theorem collectOps_places {c : OperatorChain} (hsign : c.sign = none)
    (h : ∀ t ∈ c.terms, ¬ t.SignedExponent) : collectOps 0 (allMarked c.text) = c.places := by
  rw [terms, forall_mem_cons, forall_mem_map] at h
  obtain ⟨-, -, hplaces⟩ := collectOps_links (0 + c.first.text.length) c.allLinks
  rw [text, places, hsign, Option.toList_none, nil_append, collectOps_first,
    (collectOps_literal 0 c.first).mpr h.1, hplaces h.2]
  rfl

def isChainChar (c : Char) : Bool := isNumeralWordChar c || isBinaryOp c || c = ' '

variable {c : Char}

theorem ne_of_isChainChar {d : Char} (hc : isChainChar c = true) (hd : isChainChar d = false) :
    c ≠ d := by
  rintro rfl
  rw [hc] at hd
  cases hd

theorem isChainChar_literal {n : DecimalLiteral} (h : c ∈ n.text) : isChainChar c = true := by
  rcases DecimalLiteral.mem_text h with hdigit | hother
  · simp [isChainChar, isNumeralWordChar, hdigit]
  · simp only [mem_cons, not_mem_nil, or_false] at hother
    rcases hother with rfl | rfl | rfl | rfl | rfl <;> rfl

theorem isChainChar_links (h : c ∈ linksText links) : isChainChar c = true := by
  obtain ⟨l, -, hc⟩ := mem_flatMap.mp h
  simp only [ChainLink.text, mem_cons] at hc
  rcases hc with rfl | rfl | rfl | hc
  · rfl
  · simp [isChainChar, l.isOp]
  · rfl
  · exact isChainChar_literal hc

theorem isChainChar_text {c : OperatorChain} {d : Char} (h : d ∈ c.text) :
    isChainChar d = true := by
  rcases mem_append.mp h with h | h
  · have hadd := c.isSign d (Option.mem_toList.mp h)
    simp only [isAddSub, Bool.or_eq_true, decide_eq_true_eq] at hadd
    rcases hadd with rfl | rfl <;> rfl
  rcases mem_append.mp h with h | h
  · exact isChainChar_literal h
  · exact isChainChar_links h

theorem markedChars_chain {text : Text} (h : ∀ c ∈ text, isChainChar c = true) :
    markedChars ⟨false, false⟩ text = allMarked text := by
  refine markedChars_of_plain fun c hc => ?_
  have hne : ∀ d, isChainChar d = false → c ≠ d := fun d hd => ne_of_isChainChar (h c hc) hd
  simp [isPlainChar, hne '"' rfl, hne '\'' rfl, hne '(' rfl, hne ')' rfl, hne '[' rfl, hne ']' rfl]

theorem length_linkPlaces (i : Nat) (links : List ChainLink) :
    (linkPlaces i links).length = links.length := by
  induction links generalizing i with
  | nil => rfl
  | cons l links ih => rw [linkPlaces, length_cons, length_cons, ih]

end OperatorChain

/-! ## 4. The parser on a chain -/

open OperatorChain

theorem parseBlockLiteralText_digit (h : isdigit d = true) :
    parseBlockLiteralText (d :: t) = .error none := by
  rw [parseBlockLiteralText]
  rw [if_pos]
  refine .inr (.inl fun hbracket => ?_)
  have hhead : (trimText (d :: t)).head? = some '[' := by
    rwa [trimCopy, copyString, head?_take, if_neg (by decide)] at hbracket
  have hfront := trimText_head? hhead
  rw [dropWhile_cons_of_neg (by rw [isspace_of_isdigit h]; exact Bool.false_ne_true)] at hfront
  obtain rfl := Option.some.inj hfront
  exact absurd h (by decide)

variable {line trimmed : Text}

theorem parseValueSourceTextEx_chain (htrim : trimCopy arkshMaxLine line = d :: t)
    (hd : isdigit d = true) (hchars : ∀ c ∈ d :: t, isChainChar c = true) (allow : Bool)
    (message : String) :
    parseValueSourceTextEx line allow message =
      match binaryExpression (d :: t) with
      | some source => .value source
      | none => parseOtherValueSource line (d :: t) message := by
  have hbool : ¬ (d :: t = "true".toList ∨ d :: t = "false".toList) := by
    rintro (heq | heq)
    · rw [(cons.inj heq).1] at hd; exact absurd hd (by decide)
    · rw [(cons.inj heq).1] at hd; exact absurd hd (by decide)
  have hidentifier : ¬ (allow = true ∧ isIdentifierText (d :: t) = true) := by
    rw [isIdentifierText_of_isdigit hd]
    exact fun hboth => Bool.false_ne_true hboth.2
  have hternary : findTopLevelTernaryOperator (d :: t) = none := by
    have hnone : (markedChars ⟨false, false⟩ (d :: t)).findIdx? (· = ('?', true)) = none := by
      rw [findIdx?_eq_none_iff]
      intro x hx
      refine decide_eq_false ?_
      rintro rfl
      exact ne_of_isChainChar (hchars _ (of_mem_zip hx).1) rfl rfl
    rw [findTopLevelTernaryOperator, hnone]
    rfl
  unfold parseValueSourceTextEx
  rw [htrim, if_neg (cons_ne_nil _ _), parseBlockLiteralText_digit hd]
  dsimp only
  rw [if_neg hbool, if_neg hidentifier, hternary]
  rfl

theorem unaryCalls_kind {name : String} {kind : ArkshValueSourceKind}
    (h : unaryCalls.lookup name = some kind) : kind ≠ .binaryOp := by
  have hcalls : ∀ call ∈ unaryCalls, call.2 ≠ .binaryOp := by decide
  obtain ⟨front, behind, hsplit, -⟩ := lookup_eq_some_iff.mp h
  refine hcalls (name, kind) ?_
  rw [hsplit]
  exact mem_append_right _ mem_cons_self

theorem parseValueSourceCallText_kind {text : Text} {source : ArkshValueSourceNode}
    (h : parseValueSourceCallText text message = .value source) : source.kind ≠ .binaryOp := by
  unfold parseValueSourceCallText at h
  dsimp only at h
  split at h
  · cases h
  split at h
  · cases h
  split at h
  · cases h
  split at h
  · cases h
  split at h
  · cases h
  split at h
  · cases h
  split at h
  · rename_i kind hlookup
    split at h
    · cases h; exact unaryCalls_kind hlookup
    · cases h
  · cases h
    split <;> exact fun hkind => nomatch hkind

theorem parseNonObjectValueSourceTokens_kind {stream : ArkshTokenStream}
    {source : ArkshValueSourceNode}
    (h : parseNonObjectValueSourceTokens stream message = .value source) :
    source.kind ≠ .binaryOp := by
  unfold parseNonObjectValueSourceTokens at h
  split at h
  · split at h
    · cases h; exact fun hkind => nomatch hkind
    split at h
    · cases h
    split at h
    · cases h; exact fun hkind => nomatch hkind
    split at h
    · cases h; exact fun hkind => nomatch hkind
    · cases h
  · cases h

theorem parseOtherValueSource_kind {source : ArkshValueSourceNode}
    (h : parseOtherValueSource line trimmed message = .value source) : source.kind ≠ .binaryOp := by
  unfold parseOtherValueSource at h
  split at h
  · cases h; exact fun hkind => nomatch hkind
  · split at h
    · split at h
      · cases h
      · exact parseNonObjectValueSourceTokens_kind h
    · exact parseValueSourceCallText_kind h

/-! ## 5. The operator of the expression -/

namespace OperatorChain

def behindFirst (c : OperatorChain) : Text := c.link.term.text ++ linksText c.links

variable {c : OperatorChain} {op : Char} {e : String}

theorem text_eq (hsign : c.sign = none) :
    c.text = c.first.text ++ (' ' :: c.link.op :: ' ' :: c.behindFirst) := by
  rw [text, hsign]
  rfl

theorem getLast?_links (h : links ≠ []) :
    ∀ d ∈ (linksText links).getLast?, isNumeralWordChar d = true := by
  induction links with
  | nil => exact (h rfl).elim
  | cons l links ih =>
    intro d hd
    have htext : linksText (l :: links) = l.text ++ linksText links := flatMap_cons
    rw [htext] at hd
    by_cases hlinks : links = []
    · rw [hlinks] at hd
      have hlast : l.text.getLast? = l.term.text.getLast? :=
        getLast?_append_of_ne_nil [' ', l.op, ' '] l.term.text_ne_nil
      rw [linksText, flatMap_nil, append_nil, hlast] at hd
      exact getLast?_literal l.term d hd
    · have hne : linksText links ≠ [] := by
        obtain ⟨l', links', rfl⟩ := exists_cons_of_ne_nil hlinks
        exact append_ne_nil_of_left_ne_nil (cons_ne_nil _ _) _
      rw [getLast?_append_of_ne_nil _ hne] at hd
      exact ih hlinks d hd

theorem trimText_links (n : DecimalLiteral) (links : List ChainLink) :
    trimText (n.text ++ linksText links) = n.text ++ linksText links := by
  rw [trimText_self_iff]
  obtain ⟨d, t, hfirst, hd⟩ := n.exists_digit
  refine ⟨fun e he => ?_, fun e he => ?_⟩
  · rw [hfirst] at he
    obtain rfl := Option.some.inj he
    exact isspace_of_isdigit hd
  · refine isspace_of_isNumeralWordChar ?_
    cases links with
    | nil => rw [linksText, flatMap_nil, append_nil] at he; exact getLast?_literal n e he
    | cons l links =>
      have hne : linksText (l :: links) ≠ [] := cons_ne_nil _ _
      rw [getLast?_append_of_ne_nil _ hne] at he
      exact getLast?_links (cons_ne_nil _ _) e he

section

variable (hsign : c.sign = none)
include hsign

theorem trimText_text : trimText c.text = c.text := by
  rw [text, hsign]
  exact trimText_links c.first c.allLinks

theorem trimText_take_first (hunsigned : ¬ c.first.SignedExponent) :
    trimText (c.text.take (c.first.text.length + 1)) = c.first.text := by
  have htake : c.text.take (c.first.text.length + 1) = c.first.text ++ [' '] := by
    rw [text_eq hsign, take_length_add_append]
    rfl
  rw [htake, trimText_concat_blank, trimText_numeral (isNumeralWord_literal hunsigned)]

theorem drop_first : c.text.drop (c.first.text.length + 1 + 1) = ' ' :: c.behindFirst := by
  rw [text_eq hsign, add_assoc, drop_length_add_append]
  rfl

end

theorem not_mem_of_leftIsValue {left : Text} (hchars : ∀ d ∈ left, isChainChar d = true)
    (h : leftIsValue left = true) : ' ' ∉ left := by
  have hne : ∀ d, isChainChar d = false → d ∉ left :=
    fun d hd hmem => ne_of_isChainChar (hchars d hmem) hd rfl
  have hhead : ∀ d, isChainChar d = false → left.head? ≠ some d :=
    fun d hd hmem => hne d hd (mem_of_head? hmem)
  rw [leftIsValue, if_neg (hne '(' rfl), if_neg fun hquote => hhead '"' rfl hquote.1,
    if_neg fun hquote => hhead '\'' rfl hquote.1, Bool.and_eq_true] at h
  simpa using h.2

theorem place_of_leftIsValue (hsign : c.sign = none) (hunsigned : ¬ c.first.SignedExponent)
    {n p : Nat} (hn : n < arkshMaxLine)
    (hfind : findTopLevelBinaryOp (c.text.take n) = some (p, op))
    (hleft : leftIsValue (copyTrimmedSlice (c.text.take n) 0 p) = true) :
    p = c.first.text.length + 1 ∧ op = c.link.op ∧ p < (c.text.take n).length ∧
      copyTrimmedSlice (c.text.take n) 0 p = c.first.text := by
  have hchars : ∀ d ∈ c.text.take n, isChainChar d = true :=
    fun d hd => isChainChar_text (mem_of_mem_take hd)
  have hword := isNumeralWord_literal hunsigned
  -- an operator stands at the place
  have hmem : (p, op) ∈ collectOps 0 (allMarked (c.text.take n)) := by
    rw [findTopLevelBinaryOp_eq, markedChars_chain hchars, Option.or_eq_some_iff] at hfind
    rcases hfind with hlast | ⟨-, hlast⟩ <;> exact (mem_filter.mp (mem_of_getLast? hlast)).1
  obtain ⟨-, hget, hop⟩ := mem_collectOps hmem
  rw [allMarked, map_map, Nat.sub_zero] at hget
  have hid : (c.text.take n).map (Prod.fst ∘ fun x => (x, true)) = c.text.take n := map_id _
  rw [hid] at hget
  obtain ⟨hlt, -⟩ := List.getElem?_eq_some_iff.mp hget
  have hlt' := hlt
  rw [length_take] at hlt'
  rw [getElem?_take_of_lt (by omega), text_eq hsign] at hget
  have hge : c.first.text.length + 1 ≤ p := by
    by_contra hshort
    rcases lt_or_ge p c.first.text.length with hin | hout
    · rw [getElem?_append_left hin] at hget
      have hnumeral := hword op (mem_of_getElem? hget)
      rw [isBinaryOp_numeral hnumeral] at hop
      cases hop
    · obtain rfl : p = c.first.text.length := by omega
      rw [getElem?_append_right (Nat.le_refl _), Nat.sub_self] at hget
      obtain rfl := Option.some.inj hget
      cases hop
  have hfits : (c.text.take n).length < arkshMaxLine := by rw [length_take]; omega
  have hslice : copyTrimmedSlice (c.text.take n) 0 p = trimText (c.text.take p) := by
    rw [copyTrimmedSlice_eq hfits hlt.le, drop_zero, Nat.sub_zero, take_take,
      min_eq_left (by omega)]
  rw [hslice] at hleft ⊢
  obtain ⟨d, t, hfirst, hd⟩ := c.first.exists_digit
  have hplace : p = c.first.text.length + 1 := by
    by_contra hother
    -- the text in front reaches behind the first operator, which is not white space
    have htake : c.text.take p = c.first.text ++ (' ' :: c.link.op ::
        (' ' :: c.behindFirst).take (p - (c.first.text.length + 2))) := by
      have hsplit : p = c.first.text.length + ((p - (c.first.text.length + 2)) + 1 + 1) := by omega
      rw [text_eq hsign]
      conv => lhs; rw [hsplit, take_length_add_append, take_succ_cons, take_succ_cons]
    obtain ⟨front, back, hsplit, hfront, hback⟩ := trimText_split (c.text.take p)
    have hnofront : front = [] := by
      cases front with
      | nil => rfl
      | cons e front =>
        rw [htake, hfirst] at hsplit
        have hspace := hfront e mem_cons_self
        rw [← (cons.inj hsplit).1, isspace_of_isdigit hd] at hspace
        cases hspace
    rw [hnofront, nil_append] at hsplit
    have hlong : c.first.text.length + 1 < (trimText (c.text.take p)).length := by
      by_contra hshort
      have hopat : (c.text.take p)[c.first.text.length + 1]? = some c.link.op := by
        rw [htake, getElem?_append_right (by omega), Nat.add_sub_cancel_left]
        rfl
      rw [hsplit, getElem?_append_right (by omega)] at hopat
      have hspace := hback _ (mem_of_getElem? hopat)
      rcases isBinaryOp_iff.mp c.link.isOp with heq | heq | heq | heq <;> rw [heq] at hspace <;>
        cases hspace
    have hblank : (trimText (c.text.take p))[c.first.text.length]? = some ' ' := by
      have hat : (c.text.take p)[c.first.text.length]? = some ' ' := by
        rw [htake, getElem?_append_right (Nat.le_refl _), Nat.sub_self]
        rfl
      rw [hsplit, getElem?_append_left (by omega)] at hat
      exact hat
    refine not_mem_of_leftIsValue (fun e he => ?_) hleft (mem_of_getElem? hblank)
    refine @isChainChar_text c e (mem_of_mem_take (i := p) ?_)
    rw [hsplit]
    exact mem_append_left _ he
  subst hplace
  rw [getElem?_append_right (by omega), Nat.add_sub_cancel_left] at hget
  exact ⟨rfl, (Option.some.inj hget).symm, hlt, trimText_take_first hsign hunsigned⟩

/-! ## 6. The operators in order -/

/-- The evaluator collects the operators alone exactly where no literal has a sign, and they are
    few. -/
theorem collectTopLevelBinaryOps_iff (c : OperatorChain) :
    collectTopLevelBinaryOps c.text (maxBinopTerms - 1) = some c.places ↔
      (c.sign = none ∧ ∀ t ∈ c.terms, ¬ t.SignedExponent) ∧ c.allLinks.length < maxBinopTerms := by
  have hmax : maxBinopTerms = 32 := rfl
  have hlength : c.places.length = c.allLinks.length := length_linkPlaces _ _
  rw [collectTopLevelBinaryOps, markedChars_chain fun _ => isChainChar_text]
  constructor
  · intro h
    split at h
    · cases h
    · rename_i hfew
      have hplaces := Option.some.inj h
      rw [hplaces, hlength] at hfew
      refine ⟨c.collectOps_text.mp ?_, by omega⟩
      rw [hplaces, hlength]
  · rintro ⟨⟨hsign, hexps⟩, hfew⟩; rw [collectOps_places hsign hexps, if_neg (by omega)]

theorem map_snd_linkPlaces (i : Nat) (links : List ChainLink) :
    (linkPlaces i links).map Prod.snd = links.map ChainLink.op := by
  induction links generalizing i with
  | nil => rfl
  | cons l links ih => rw [linkPlaces, map_cons, map_cons, ih]

theorem lt_of_mem_linkPlaces {i : Nat} {x : Nat × Char} (h : x ∈ linkPlaces i links) : i < x.1 := by
  induction links generalizing i with
  | nil => cases h
  | cons l links ih =>
    rcases mem_cons.mp h with rfl | h
    · exact lt_succ_self i
    · have := ih h; omega

/-- The last one of a kind, else of the other kind, is the first of all exactly where there is no
    other, or it is the only one of its kind. -/
theorem getLast?_or_eq_head {p q : α → Bool} {x : α} {xs : List α} (hx : x ∉ xs)
    (hkinds : ∀ y ∈ x :: xs, p y = !q y) :
    (((x :: xs).filter p).getLast?).or ((x :: xs).filter q).getLast? = some x ↔
      xs = [] ∨ p x = true ∧ ∀ y ∈ xs, q y = true := by
  have hrest : xs.filter p = [] ↔ ∀ y ∈ xs, q y = true := by
    rw [filter_eq_nil_iff]
    refine forall₂_congr fun y hy => ?_
    rw [hkinds y (mem_cons_of_mem _ hy)]
    simp
  -- what is found is among the others, where one of them is of the kind
  have hlast : ∀ {ys : List α}, (x :: ys).getLast? = some x → ys ⊆ xs → ys = [] := by
    intro ys h hsub
    cases ys with
    | nil => rfl
    | cons y ys =>
      exact (hx (hsub (mem_of_getLast? h))).elim
  cases hp : p x with
  | true =>
    rw [filter_cons_of_pos hp, getLast?_cons, Option.some_or, ← getLast?_cons]
    constructor
    · intro h; exact .inr ⟨rfl, hrest.mp (hlast h (filter_sublist.subset))⟩
    · intro h
      have hnone : xs.filter p = [] := by
        rcases h with rfl | ⟨-, hall⟩
        · rfl
        · exact hrest.mpr hall
      rw [hnone]
      rfl
  | false =>
    have hq : q x = true := by
      have := hkinds x mem_cons_self
      rw [hp] at this
      simpa using this.symm
    rw [filter_cons_of_neg (by rw [hp]; exact Bool.false_ne_true), filter_cons_of_pos hq]
    constructor
    · intro h
      rcases Option.or_eq_some_iff.mp h with hfound | ⟨hnone, hfound⟩
      · exact (hx (mem_of_mem_filter (mem_of_getLast? hfound))).elim
      · have hall := hrest.mp (getLast?_eq_none_iff.mp hnone)
        rw [filter_eq_self.mpr hall] at hfound
        exact .inl (hlast hfound (List.Subset.refl xs))
    · rintro (rfl | ⟨hfalse, -⟩)
      · rfl
      · cases hfalse

/-- **The parser's operator is the first one** where it is the only one, or the only one that is
    not tight. -/
theorem findTopLevelBinaryOp_first (hsign : c.sign = none)
    (hexps : ∀ t ∈ c.terms, ¬ t.SignedExponent) :
    findTopLevelBinaryOp c.text = some (c.first.text.length + 1, c.link.op) ↔
      c.links = [] ∨ isAddSub c.link.op = true ∧ ∀ l ∈ c.links, isMulDiv l.op = true := by
  have hplaces : c.places = (c.first.text.length + 1, c.link.op) ::
      linkPlaces (c.first.text.length + (3 + c.link.term.text.length)) c.links := by
    rw [places, hsign, Option.toList_none, length_nil, zero_add]
    rfl
  have hops : ∀ x ∈ c.places, isAddSub x.2 = !isMulDiv x.2 := by
    intro x hx
    have hmem : x.2 ∈ c.places.map Prod.snd := mem_map_of_mem hx
    rw [places, map_snd_linkPlaces] at hmem
    obtain ⟨l, -, hop⟩ := mem_map.mp hmem
    rw [← hop]
    exact isBinaryOp_cases l.isOp
  have hfirst : (c.first.text.length + 1, c.link.op) ∉
      linkPlaces (c.first.text.length + (3 + c.link.term.text.length)) c.links := by
    intro hmem
    have := lt_of_mem_linkPlaces hmem
    omega
  have hnil : linkPlaces (c.first.text.length + (3 + c.link.term.text.length)) c.links = [] ↔
      c.links = [] := by
    rw [← length_eq_zero_iff, length_linkPlaces, length_eq_zero_iff]
  have hall : (∀ x ∈ linkPlaces (c.first.text.length + (3 + c.link.term.text.length)) c.links,
      isMulDiv x.2 = true) ↔ ∀ l ∈ c.links, isMulDiv l.op = true := by
    rw [← forall_mem_map (f := Prod.snd) (P := fun op => isMulDiv op = true),
      map_snd_linkPlaces, forall_mem_map]
  rw [findTopLevelBinaryOp_eq, markedChars_chain fun _ => isChainChar_text,
    collectOps_places hsign hexps]
  rw [hplaces] at hops ⊢
  rw [getLast?_or_eq_head (p := fun x : Nat × Char => isAddSub x.2)
    (q := fun x : Nat × Char => isMulDiv x.2) hfirst hops, hnil, hall]

/-! ## 7. Where a chain is a binary expression -/

theorem binaryExpression_some {source : ArkshValueSourceNode}
    (h : binaryExpression trimmed = some source) :
    ∃ place, findTopLevelBinaryOp trimmed = some (place, source.binaryOp) ∧
      source.binaryLeft = copyTrimmedSlice trimmed 0 place ∧
      source.binaryRight = copyTrimmedSlice trimmed (place + 1) trimmed.length ∧
      leftIsValue source.binaryLeft = true := by
  obtain ⟨⟨place, op⟩, hfind, h⟩ := Option.bind_eq_some_iff.mp h
  dsimp only at h
  split at h
  · rename_i hvalue
    obtain rfl := Option.some.inj h
    exact ⟨place, hfind, rfl, rfl, hvalue.2.2⟩
  · cases h

section

variable (hsign : c.sign = none)
include hsign

theorem exists_digit_take : ∃ d t, c.text.take (arkshMaxLine - 1) = d :: t ∧ isdigit d = true := by
  obtain ⟨d, t, hfirst, hd⟩ := c.first.exists_digit
  rw [text_eq hsign, hfirst, cons_append]
  exact ⟨d, _, rfl, hd⟩

theorem parseValueSourceTextEx_text (allow : Bool) (message : String) :
    parseValueSourceTextEx c.text allow message =
      match binaryExpression (c.text.take (arkshMaxLine - 1)) with
      | some source => .value source
      | none => parseOtherValueSource c.text (c.text.take (arkshMaxLine - 1)) message := by
  have htrim : trimCopy arkshMaxLine c.text = c.text.take (arkshMaxLine - 1) := by
    rw [trimCopy, trimText_text hsign]
    rfl
  have hchars : ∀ d ∈ c.text.take (arkshMaxLine - 1), isChainChar d = true :=
    fun d hd => isChainChar_text (mem_of_mem_take hd)
  obtain ⟨d, t, htake, hd⟩ := exists_digit_take hsign
  rw [htake] at htrim hchars ⊢
  exact parseValueSourceTextEx_chain htrim hd hchars allow message

theorem binaryExpression_of_parsed {message : String} {source : ArkshValueSourceNode}
    (h : parseValueSourceText c.text message = .value source) (hkind : source.kind = .binaryOp) :
    binaryExpression (c.text.take (arkshMaxLine - 1)) = some source := by
  rw [parseValueSourceText, parseValueSourceTextEx_text hsign] at h
  cases hbinary : binaryExpression (c.text.take (arkshMaxLine - 1)) with
  | some source' =>
    rw [hbinary] at h
    cases h
    rfl
  | none => rw [hbinary] at h; exact (parseOtherValueSource_kind h hkind).elim

end

theorem CutAt.first {source : ArkshValueSourceNode} (h : c.CutAt source) (hsign : c.sign = none)
    (hleft : source.binaryLeft = c.first.text) : source.binaryRight = c.behindFirst := by
  obtain ⟨before, l, after, hlinks, hfront, -, hright⟩ := h
  rw [hsign, Option.toList_none, nil_append, hleft] at hfront
  have hnil : linksText before = [] := self_eq_append_right.mp hfront
  cases before with
  | nil => obtain ⟨rfl, rfl⟩ := cons.inj hlinks; exact hright
  | cons l' before => exact absurd hnil (cons_ne_nil _ _)

/-- **A chain that is cut at one of its operators** fits the parser's buffer, and is cut at the
    first one. -/
theorem first_of_cut (hsign : c.sign = none) (hunsigned : ¬ c.first.SignedExponent)
    {source : ArkshValueSourceNode}
    (h : binaryExpression (c.text.take (arkshMaxLine - 1)) = some source) (hcut : c.CutAt source) :
    c.text.length < arkshMaxLine ∧
      findTopLevelBinaryOp c.text = some (c.first.text.length + 1, c.link.op) := by
  have hmax : arkshMaxLine = 2048 := rfl
  obtain ⟨place, hfind, hleft, hright, hvalue⟩ := binaryExpression_some h
  rw [hleft] at hvalue
  obtain ⟨rfl, hop, hlt, hslice⟩ := place_of_leftIsValue hsign hunsigned (by omega) hfind hvalue
  rw [hslice] at hleft
  have hbehind := hcut.first hsign hleft
  have hfits : (c.text.take (arkshMaxLine - 1)).length < arkshMaxLine := by rw [length_take]; omega
  rw [hbehind, copyTrimmedSlice_eq hfits le_rfl,
    take_of_length_le (by rw [length_drop]), drop_take, drop_first hsign] at hright
  have hlength : c.text.length = c.first.text.length + (c.behindFirst.length + 3) := by
    rw [text_eq hsign, length_append, length_cons, length_cons, length_cons]
  -- behind the operator nothing is cut off but the blank
  have hline : c.text.length < arkshMaxLine := by
    have hcut := congrArg List.length hright
    have hpos : 0 < c.behindFirst.length := by
      rw [behindFirst, length_append]
      have := length_pos_iff.mpr c.link.term.text_ne_nil
      omega
    cases hroom : arkshMaxLine - 1 - (c.first.text.length + 1 + 1) with
    | zero =>
      rw [hroom] at hcut
      have hzero : (trimText ((' ' :: c.behindFirst).take 0)).length = 0 := rfl
      omega
    | succ k =>
      rw [hroom, take_succ_cons] at hcut
      have hblank := length_trimText_blank (c.behindFirst.take k)
      rw [length_take] at hblank
      omega
  refine ⟨hline, ?_⟩
  rwa [take_of_length_le (by omega), hop] at hfind

def source (c : OperatorChain) : ArkshValueSourceNode :=
  { kind := .binaryOp, text := c.text, rawText := c.text, binaryLeft := c.first.text
    binaryRight := c.behindFirst, binaryOp := c.link.op }

theorem leftIsValue_literal {n : DecimalLiteral} (h : ¬ n.SignedExponent) :
    leftIsValue n.text = true := by
  have hword := isNumeralWord_literal h
  obtain ⟨d, t, htext, hd⟩ := n.exists_digit
  have hhead : ∀ q, isdigit q = false → n.text.head? ≠ some q := by
    intro q hq hsome
    rw [htext] at hsome
    rw [Option.some.inj hsome, hq] at hd
    cases hd
  have hblank : n.text.contains ' ' = false := by
    simpa using hword.not_mem (d := ' ') (by decide)
  have hdigit : n.text.head?.any isdigit = true := by rw [htext]; exact hd
  rw [leftIsValue, if_neg (hword.not_mem (by decide)),
    if_neg fun hquote => hhead '"' (by decide) hquote.1,
    if_neg fun hquote => hhead '\'' (by decide) hquote.1, hdigit, hblank]
  rfl

theorem binaryExpression_text (hsign : c.sign = none) (hunsigned : ¬ c.first.SignedExponent)
    (hline : c.text.length < arkshMaxLine)
    (hfind : findTopLevelBinaryOp c.text = some (c.first.text.length + 1, c.link.op)) :
    binaryExpression c.text = some c.source := by
  have hlength : c.text.length = c.first.text.length + (c.behindFirst.length + 3) := by
    rw [text_eq hsign, length_append, length_cons, length_cons, length_cons]
  have hleft : copyTrimmedSlice c.text 0 (c.first.text.length + 1) = c.first.text := by
    rw [copyTrimmedSlice_eq hline (by omega), drop_zero, Nat.sub_zero,
      trimText_take_first hsign hunsigned]
  have hright : copyTrimmedSlice c.text (c.first.text.length + 1 + 1) c.text.length =
      c.behindFirst := by
    rw [copyTrimmedSlice_eq hline le_rfl, take_of_length_le (by rw [length_drop]),
      drop_first hsign, trimText_cons_blank]
    exact trimText_links c.link.term c.links
  have hne : c.behindFirst ≠ [] := append_ne_nil_of_left_ne_nil c.link.term.text_ne_nil _
  rw [binaryExpression, hfind]
  show (if copyTrimmedSlice c.text 0 (c.first.text.length + 1) ≠ [] ∧ _ then _ else _) = _
  rw [hleft, hright, if_pos ⟨c.first.text_ne_nil, hne, leftIsValue_literal hunsigned⟩]
  rfl

/-! ## 8. The value of a chain -/

theorem binarySegments_links {front segment : Text}
    (hline : line = front ++ (segment ++ linksText links)) (hfits : line.length < arkshMaxLine)
    (hunsigned : ∀ l ∈ links, ¬ l.term.SignedExponent) :
    binarySegments line front.length (linkPlaces (front.length + segment.length) links) =
      trimText segment :: links.map fun l => l.term.text := by
  have hrange : ∀ {start stop}, stop ≤ line.length → copyTrimmedRange line start stop =
      trimText ((line.drop start).take (stop - start)) := copyTrimmedSlice_eq hfits
  have hdrop : line.drop front.length = segment ++ linksText links := by
    rw [hline, drop_left]
  induction links generalizing front segment with
  | nil =>
    rw [linksText, flatMap_nil, append_nil] at hdrop hline
    rw [linkPlaces, binarySegments, hrange le_rfl, hdrop, hline, length_append,
      Nat.add_sub_cancel_left, take_length]
    rfl
  | cons l links ih =>
    have hlength := congrArg List.length hline
    rw [length_append, length_append] at hlength
    have hlink : (linksText (l :: links)).length = 3 + l.term.text.length + (linksText links).length := by
      show (' ' :: l.op :: ' ' :: (l.term.text ++ linksText links)).length = _
      rw [length_cons, length_cons, length_cons, length_append]
      omega
    have hnext : line = (front ++ (segment ++ [' ', l.op])) ++
        ((' ' :: l.term.text) ++ linksText links) := by
      rw [hline]
      simp [linksText, ChainLink.text]
    have hfrontLength : (front ++ (segment ++ [' ', l.op])).length =
        front.length + segment.length + 1 + 1 := by
      rw [length_append, length_append, length_cons, length_singleton]
      omega
    have hrest := ih hnext (fun l' hl' => hunsigned l' (mem_cons_of_mem _ hl'))
      (by rw [hnext, drop_left])
    have hplace : front.length + segment.length + 1 + 1 + (' ' :: l.term.text).length =
        front.length + segment.length + (3 + l.term.text.length) := by
      rw [length_cons]
      omega
    have hterm : trimText (' ' :: l.term.text) = l.term.text := by
      rw [trimText_cons_blank, trimText_numeral (isNumeralWord_literal (hunsigned l mem_cons_self))]
    rw [hfrontLength, hplace, hterm] at hrest
    have hwidth : front.length + segment.length + 1 - front.length = segment.length + 1 := by omega
    have htake : (segment ++ linksText (l :: links)).take (segment.length + 1) =
        segment ++ [' '] := take_length_add_append 1
    rw [linkPlaces, binarySegments, hrest, hrange (by omega), hdrop, hwidth, htake,
      trimText_concat_blank]
    rfl

/-- **The operands of a chain are its literals.** -/
theorem binarySegments_text (hsign : c.sign = none) (hexps : ∀ t ∈ c.terms, ¬ t.SignedExponent)
    (hline : c.text.length < arkshMaxLine) :
    binarySegments c.text 0 c.places = c.terms.map DecimalLiteral.text := by
  rw [terms, forall_mem_cons, forall_mem_map] at hexps
  have htext : c.text = [] ++ (c.first.text ++ linksText c.allLinks) := by rw [text, hsign]; rfl
  have hsegments := binarySegments_links htext hline hexps.2
  rw [trimText_numeral (isNumeralWord_literal hexps.1)] at hsegments
  rw [terms, map_cons, map_map, places, hsign]
  exact hsegments

theorem evaluateSegments_literals (S : ValueShell σ) (turns : Nat) {literals : List DecimalLiteral}
    (hexps : ∀ t ∈ literals, ¬ t.SignedExponent)
    (hfits : ∀ t ∈ literals, t.text.length < arkshMaxLine) :
    evaluateSegments (evaluateLineValue S (turns + 1)) (literals.map DecimalLiteral.text) =
      if ∀ t ∈ literals, t.text.length < arkshMaxToken then
        .ok (literals.map fun t => arkshValueSetNumber t.value)
      else .error "raw token too long" := by
  induction literals with
  | nil => rfl
  | cons t literals ih =>
    rw [forall_mem_cons] at hexps hfits
    rw [map_cons, evaluateSegments, evaluateLineValue_literal S turns hexps.1 hfits.1]
    simp only [forall_mem_cons]
    by_cases htoken : t.text.length < arkshMaxToken
    · rw [if_pos htoken]
      show (evaluateSegments _ (literals.map DecimalLiteral.text)).map _ = _
      rw [ih hexps.2 hfits.2]
      by_cases hrest : ∀ t ∈ literals, t.text.length < arkshMaxToken
      · rw [if_pos hrest, if_pos ⟨htoken, hrest⟩]; rfl
      · rw [if_neg hrest, if_neg fun h => hrest h.2]; rfl
    · rw [if_neg htoken, if_neg fun h => htoken h.1]; rfl

theorem length_term_le {t : DecimalLiteral} (h : t ∈ c.terms) : t.text.length ≤ c.text.length := by
  rw [text, length_append, length_append]
  rcases mem_cons.mp h with rfl | h
  · omega
  · obtain ⟨l, hl, rfl⟩ := mem_map.mp h
    have hlink : l.text.Sublist (linksText c.allLinks) := sublist_flatten_of_mem (mem_map_of_mem hl)
    have hle := hlink.length_le
    have hterm : l.text.length = l.term.text.length + 3 := rfl
    omega

theorem realOperator_error (h : isBinaryOp op = true) {a b : Binary64}
    (herror : realOperator op a b = .error e) : e = "division by zero" := by
  rcases isBinaryOp_iff.mp h with rfl | rfl | rfl | rfl
  · cases herror
  · cases herror
  · cases herror
  · change (if b.isZero then _ else _) = _ at herror
    split at herror
    · cases herror; rfl
    · cases herror

section

variable (S : ValueShell σ)

theorem passes_setNumber (v : Binary64) (rest : List (Char × Binary64)) :
    Precedence.passes isMulDiv (applyBinaryOp S.invokeExtension) (arkshValueSetNumber v)
        (rest.map fun p => (p.1, arkshValueSetNumber p.2)) =
      (Precedence.passes isMulDiv realOperator v rest).map arkshValueSetNumber := by
  have hnumbers : ∀ op a b, applyBinaryOp S.invokeExtension op (arkshValueSetNumber a)
      (arkshValueSetNumber b) = (realOperator op a b).map arkshValueSetNumber := fun _ _ _ => rfl
  exact Precedence.passes_map hnumbers v rest

theorem passes_terms (hsign : c.sign = none) :
    Precedence.passes isMulDiv (applyBinaryOp S.invokeExtension) (arkshValueSetNumber c.first.value)
        (c.allLinks.map fun l => (l.op, arkshValueSetNumber l.term.value)) =
      c.value.map arkshValueSetNumber := by
  have hfirst : c.firstValue = c.first.value := by rw [firstValue, hsign]; rfl
  obtain ⟨hshape, hhead, hrest⟩ := (c.tree_iff c.tree).mp rfl
  have hmap : c.allLinks.map (fun l => (l.op, arkshValueSetNumber l.term.value)) =
      c.tree.rest.map fun p => (p.1, arkshValueSetNumber p.2) := by
    rw [hrest, map_map]
    rfl
  have hfails : ∀ op ∈ c.tree.rest.map Prod.fst, ∀ a b e, realOperator op a b = .error e →
      e = "division by zero" := by
    intro op hop a b e herror
    rw [hrest, map_map] at hop
    obtain ⟨l, -, rfl⟩ := mem_map.mp hop
    exact realOperator_error l.isOp herror
  rw [hmap, ← hfirst, ← hhead, passes_setNumber S, Precedence.passes_eq_eval hshape hfails]
  rfl

theorem evaluateLineValue_text (turns : Nat) (hsign : c.sign = none)
    (hexps : ∀ t ∈ c.terms, ¬ t.SignedExponent) (hcount : c.allLinks.length < maxBinopTerms)
    (hline : c.text.length < arkshMaxLine)
    (hfind : findTopLevelBinaryOp c.text = some (c.first.text.length + 1, c.link.op)) :
    evaluateLineValue S (turns + 2) c.text =
      if ∀ t ∈ c.terms, t.text.length < arkshMaxToken then c.value.map arkshValueSetNumber
      else .error "raw token too long" := by
  have hunsigned := hexps c.first mem_cons_self
  obtain ⟨d, t, htext, hd⟩ := exists_digit_take hsign
  rw [take_of_length_le (by omega)] at htext
  have hnone := S.getBinding_none c.text (by
    rw [htext]
    exact isIdentifierText_of_isdigit hd)
  have hne : c.text ≠ [] := by rw [htext]; exact cons_ne_nil _ _
  have hparse : parseValueSourceTextEx c.text true "" = .value c.source := by
    rw [parseValueSourceTextEx_text hsign, take_of_length_le (by omega),
      binaryExpression_text hsign hunsigned hline hfind]
  have hcollect := (collectTopLevelBinaryOps_iff c).mpr ⟨⟨hsign, hexps⟩, hcount⟩
  have hplaces : c.places ≠ [] := cons_ne_nil _ _
  have hlong : ∀ t ∈ c.terms, t.text.length < arkshMaxLine :=
    fun t ht => (length_term_le ht).trans_lt hline
  have hsegments := evaluateSegments_literals S turns hexps hlong
  rw [← binarySegments_text hsign hexps hline] at hsegments
  rw [evaluateLineValue, copyString_of_lt hline, trimText_text hsign, if_neg hne, hnone.1, hnone.2, hparse]
  show evaluateBinaryExprIterative (evaluateLineValue S (turns + 1)) _ c.text = _
  by_cases htokens : ∀ t ∈ c.terms, t.text.length < arkshMaxToken
  · rw [if_pos htokens] at hsegments ⊢
    rw [evaluateBinaryExprIterative_ok hcollect hplaces hsegments, places, map_snd_linkPlaces]
    rw [← passes_terms S hsign, map_map, zip_map']
    rfl
  · rw [if_neg htokens] at hsegments ⊢
    exact evaluateBinaryExprIterative_error hcollect hplaces hsegments

end

theorem value_error (h : c.value = .error e) : e = "division by zero" := by
  obtain ⟨op, hop, a, b, herror⟩ := Precedence.Tree.eval_error h
  rw [((c.tree_iff c.tree).mp rfl).2.2, map_map] at hop
  obtain ⟨l, -, rfl⟩ := mem_map.mp hop
  exact realOperator_error l.isOp herror

/-- **A chain of number literals parses as a binary expression with its value exactly where** no
    literal has a sign, the first operator is the only one or the only `+` or `-`, and chain and
    literals fit. -/
theorem binaryChainLaw_iff {σ : Type} (S : ValueShell σ) (c : OperatorChain) :
    BinaryChainLaw S c ↔ BinaryChainFits c := by
  constructor
  · rintro ⟨hparsed, hoperators, enough, hevaluated⟩
    obtain ⟨⟨hsign, hexps⟩, hcount⟩ := (collectTopLevelBinaryOps_iff c).mp hoperators
    obtain ⟨source, hparse, hkind, hcut⟩ := hparsed ""
    obtain ⟨hline, hfind⟩ := first_of_cut hsign (hexps c.first mem_cons_self)
      (binaryExpression_of_parsed hsign hparse hkind) hcut
    refine ⟨hsign, hexps, (findTopLevelBinaryOp_first hsign hexps).mp hfind, hcount, hline, ?_⟩
    by_contra htokens
    -- the evaluator reports a literal that is too long, and a chain fails in another way
    have hvalue := hevaluated 2
    rw [evaluateLineValue_text S enough hsign hexps hcount hline hfind, if_neg htokens] at hvalue
    cases hc : c.value with
    | ok v => rw [hc] at hvalue; cases hvalue
    | error e =>
      rw [hc, value_error hc] at hvalue
      exact absurd (Except.error.inj hvalue) (by decide)
  · rintro ⟨hsign, hexps, horder, hcount, hline, htokens⟩
    have hunsigned := hexps c.first mem_cons_self
    have hfind := (findTopLevelBinaryOp_first hsign hexps).mpr horder
    have hbinary := binaryExpression_text hsign hunsigned hline hfind
    refine ⟨fun message => ⟨c.source, ?_, rfl, [], c.link, c.links, rfl, ?_, rfl, rfl⟩, ?_, 2,
      fun turns => ?_⟩
    · rw [parseValueSourceText, parseValueSourceTextEx_text hsign,
        take_of_length_le (by omega), hbinary]
    · rw [hsign]; exact (append_nil _).symm
    · exact (collectTopLevelBinaryOps_iff c).mpr ⟨⟨hsign, hexps⟩, hcount⟩
    · rw [add_comm, evaluateLineValue_text S turns hsign hexps hcount hline hfind, if_pos htokens]

def blankValueShell : ValueShell Unit where
  view := blankView
  shell := ()
  getBinding _ := none
  findClass _ := none
  bindingNames _ h := nomatch h
  classNames _ h := nomatch h
  evaluateSource _ := .error ""
  evaluatePipeline _ := .error ""
  invokeExtension _ _ _ := .error ""
  expandMessage _ := ""

def digitLiteral (d : Char) (h : isdigit d = true) : DecimalLiteral where
  int := [d]
  frac := []
  exp := none
  intDigits c hc := by rwa [List.mem_singleton.mp hc]
  intNonempty := List.cons_ne_nil _ _
  fracDigits := Rfc8259.isdigit_of_mem_nil

def sumOfThree : OperatorChain where
  sign := none
  isSign _ h := nomatch h
  first := digitLiteral '1' (by decide)
  link := ⟨'+', by decide, digitLiteral '2' (by decide)⟩
  links := [⟨'+', by decide, digitLiteral '3' (by decide)⟩]

/-- **`1 + 2 + 3` is no binary expression**: what is in front of its last `+` has blanks. -/
theorem not_binaryChainLaw_sum :
    sumOfThree.text = "1 + 2 + 3".toList ∧ ¬ BinaryChainLaw blankValueShell sumOfThree := by
  refine ⟨rfl, fun h => ?_⟩
  obtain ⟨source, hparse, hkind, -⟩ := h.parsed ""
  have hbinary := binaryExpression_of_parsed rfl hparse hkind
  cases hbinary

end OperatorChain

end Arksh
