/-
  Subject: Successive calls of `getopts` against the option scan of POSIX.

  The scan goes over the arguments as a whole; the builtin finds its place again in every call.
-/
import Arksh.Exec.Getopts

namespace Arksh

open CText List Option Nat

/-! ## 1. The scan -/

/-- What a call shows. -/
structure GetoptsEvent where
  name : Text
  optarg : Text
  optind : Nat
  status : Nat
  deriving DecidableEq

/-- The end of the options, in front of the argument with the number `i`. -/
def endEvent (i : Nat) : GetoptsEvent := ⟨"?".toList, [], i, 1⟩

section Reference

variable (silent : Bool) (scan : Text)

def isOptionChar (c : Char) : Bool := c ≠ ':' && scan.contains c

/-- The option is followed by a colon. -/
def takesArgument (c : Char) : Bool := (scan.dropWhile (· ≠ c)).tail.head? = some ':'

def unknownEvent (c : Char) (i : Nat) : GetoptsEvent :=
  ⟨"?".toList, if silent then [c] else [], i, 0⟩

def missingEvent (c : Char) (i : Nat) : GetoptsEvent :=
  ⟨if silent then ":".toList else "?".toList, if silent then [c] else [], i, 0⟩

/-- The options of the argument `i`, which has `next` behind it, and whether they take that one
    too. -/
def scanBundle (i : Nat) (next : Option Text) : Text → List GetoptsEvent × Bool
  | [] => ([], false)
  | c :: cs =>
    let after := if cs = [] then i + 1 else i
    let more := scanBundle i next cs
    if isOptionChar scan c = false then (unknownEvent silent c after :: more.1, more.2)
    else if takesArgument scan c = false then (⟨[c], [], after, 0⟩ :: more.1, more.2)
    else if cs ≠ [] then ([⟨[c], cs, i + 1, 0⟩], false)
    else
      match next with
      | some arg => ([⟨[c], arg, i + 2, 0⟩], true)
      | none => ([missingEvent silent c (i + 1)], false)

/-- The scan of the arguments from the number `i` on. -/
def referenceScan (i : Nat) : List Text → List GetoptsEvent
  | [] => [endEvent i]
  | [arg] =>
    if arg = "--".toList then [endEvent (i + 1)]
    else if arg.head? = some '-' ∧ arg.tail ≠ [] then
      (scanBundle silent scan i none arg.tail).1 ++ [endEvent (i + 1)]
    else [endEvent i]
  | arg :: next :: more =>
    if arg = "--".toList then [endEvent (i + 1)]
    else if arg.head? = some '-' ∧ arg.tail ≠ [] then
      let bundle := scanBundle silent scan i (some next) arg.tail
      bundle.1 ++
        if bundle.2 then referenceScan (i + 2) more else referenceScan (i + 1) (next :: more)
    else [endEvent i]

def bundleThen (i : Nat) (cs : Text) (rest : List Text) : List GetoptsEvent :=
  let bundle := scanBundle silent scan i rest.head? cs
  bundle.1 ++
    if bundle.2 then referenceScan silent scan (i + 2) rest.tail
    else referenceScan silent scan (i + 1) rest

/-- The scan from the index `sub` of the first of the arguments on. -/
def scanFrom (i sub : Nat) (args : List Text) : List GetoptsEvent :=
  if sub ≤ 1 then referenceScan silent scan i args
  else
    match args with
    | [] => referenceScan silent scan i []
    | arg :: rest => bundleThen silent scan i (arg.drop sub) rest

end Reference

def optionChars (args : List Text) : Nat :=
  (args.map fun arg => if arg.head? = some '-' then arg.tail.length else 0).sum

section Scan

variable {silent : Bool} {scan : Text} {i sub : Nat} {arg : Text} {rest : List Text}

theorem scanBundle_cons (i : Nat) (next : Option Text) (c : Char) (cs : Text) :
    scanBundle silent scan i next (c :: cs) =
      let after := if cs = [] then i + 1 else i
      let more := scanBundle silent scan i next cs
      if isOptionChar scan c = false then (unknownEvent silent c after :: more.1, more.2)
      else if takesArgument scan c = false then (⟨[c], [], after, 0⟩ :: more.1, more.2)
      else if cs ≠ [] then ([⟨[c], cs, i + 1, 0⟩], false)
      else
        match next with
        | some arg => ([⟨[c], arg, i + 2, 0⟩], true)
        | none => ([missingEvent silent c (i + 1)], false) := rfl

theorem scanBundle_none (cs : Text) : (scanBundle silent scan i none cs).2 = false := by
  induction cs with
  | nil => rfl
  | cons c cs ih =>
    rw [scanBundle_cons]
    dsimp only
    split
    · exact ih
    · split
      · exact ih
      · split <;> rfl

theorem referenceScan_cons (i : Nat) (arg : Text) (rest : List Text) :
    referenceScan silent scan i (arg :: rest) =
      if arg = "--".toList then [endEvent (i + 1)]
      else if arg.head? = some '-' ∧ arg.tail ≠ [] then bundleThen silent scan i arg.tail rest
      else [endEvent i] := by
  cases rest with
  | nil => rw [bundleThen, head?_nil, scanBundle_none, if_neg Bool.false_ne_true]; rfl
  | cons next more => rfl

theorem referenceScan_end (rest : List Text) :
    referenceScan silent scan i ("--".toList :: rest) = [endEvent (i + 1)] := by
  rw [referenceScan_cons, if_pos rfl]

theorem referenceScan_option (hend : arg ≠ "--".toList) (hdash : arg.head? = some '-')
    (htail : arg.tail ≠ []) :
    referenceScan silent scan i (arg :: rest) = bundleThen silent scan i arg.tail rest := by
  rw [referenceScan_cons, if_neg hend, if_pos ⟨hdash, htail⟩]

theorem referenceScan_stop (hend : arg ≠ "--".toList)
    (hstop : ¬ (arg.head? = some '-' ∧ arg.tail ≠ [])) :
    referenceScan silent scan i (arg :: rest) = [endEvent i] := by
  rw [referenceScan_cons, if_neg hend, if_neg hstop]

theorem scanFrom_first (hsub : sub ≤ 1) (args : List Text) :
    scanFrom silent scan i sub args = referenceScan silent scan i args := if_pos hsub

theorem scanFrom_inside (hsub : 1 < sub) (arg : Text) (rest : List Text) :
    scanFrom silent scan i sub (arg :: rest) = bundleThen silent scan i (arg.drop sub) rest :=
  if_neg (not_le.mpr hsub)

theorem bundleThen_nil (rest : List Text) :
    bundleThen silent scan i [] rest = referenceScan silent scan (i + 1) rest := rfl

theorem bundleThen_cons (c : Char) (cs : Text) (rest : List Text) :
    bundleThen silent scan i (c :: cs) rest =
      if isOptionChar scan c = false then
        unknownEvent silent c (if cs = [] then i + 1 else i) :: bundleThen silent scan i cs rest
      else if takesArgument scan c = false then
        ⟨[c], [], if cs = [] then i + 1 else i, 0⟩ :: bundleThen silent scan i cs rest
      else if cs ≠ [] then ⟨[c], cs, i + 1, 0⟩ :: referenceScan silent scan (i + 1) rest
      else
        match rest with
        | next :: more => ⟨[c], next, i + 2, 0⟩ :: referenceScan silent scan (i + 2) more
        | [] => missingEvent silent c (i + 1) :: referenceScan silent scan (i + 1) [] := by
  unfold bundleThen
  rw [scanBundle_cons]
  dsimp only
  split
  · rfl
  · split
    · rfl
    · split
      · rfl
      · cases rest with
        | nil | cons next more => rfl

theorem length_scanBundle (next : Option Text) (cs : Text) :
    (scanBundle silent scan i next cs).1.length ≤ cs.length := by
  induction cs with
  | nil => exact le_refl 0
  | cons c cs ih =>
    rw [scanBundle_cons]
    dsimp only
    split
    · exact succ_le_succ ih
    · split
      · exact succ_le_succ ih
      · split
        · exact succ_le_succ (zero_le _)
        · split <;> exact succ_le_succ (zero_le _)

theorem optionChars_cons (arg : Text) (rest : List Text) : optionChars (arg :: rest) =
    (if arg.head? = some '-' then arg.tail.length else 0) + optionChars rest := by
  rfl

/-- **The scan has an event for each option character at most, and its end.** -/
theorem length_referenceScan (silent : Bool) (scan : Text) (i : Nat) (args : List Text) :
    (referenceScan silent scan i args).length ≤ optionChars args + 1 := by
  induction hn : args.length using Nat.strongRecOn generalizing i args with
  | ind n ih =>
    cases args with
    | nil => exact le_refl 1
    | cons arg rest =>
      rw [length_cons] at hn
      have hchars := optionChars_cons arg rest
      by_cases hend : arg = "--".toList
      · rw [hend, referenceScan_end]; exact succ_le_succ (zero_le _)
      · by_cases hopt : arg.head? = some '-' ∧ arg.tail ≠ []
        · rw [referenceScan_option hend hopt.1 hopt.2, bundleThen]
          rw [if_pos hopt.1] at hchars
          have hbundle := @length_scanBundle silent scan i rest.head? arg.tail
          rw [length_append]
          split
          · have hmore := ih rest.tail.length (by rw [length_tail]; omega) (i + 2) rest.tail rfl
            have htail : optionChars rest.tail ≤ optionChars rest := by
              cases rest with
              | nil => exact le_refl _
              | cons next more =>
                exact le_add_left _ _
            omega
          · have hmore := ih rest.length (by omega) (i + 1) rest rfl; omega
        · rw [referenceScan_stop hend hopt]; exact succ_le_succ (zero_le _)

end Scan

/-! ## 2. A call does one step of the scan -/

def GetoptsStep.event (step : GetoptsStep) : GetoptsEvent :=
  ⟨step.name, step.optarg, step.optind, step.status⟩

def IsArgument (arg : Text) : Prop := '\x00' ∉ arg ∧ arg.length < arkshMaxVarValue

section Step

variable {behind : Text → Text} {silent : Bool} {scan arg : Text} {i : Nat}

theorem argChar_of_lt (hi : i < arg.length) : argChar behind arg i = arg[i] := by
  rw [argChar, argCells, getD_eq_getElem?_getD, getElem?_append_left hi,
    getElem?_eq_getElem hi, getD_some]

theorem argChar_eq_nul_iff (harg : '\x00' ∉ arg) (hi : i ≤ arg.length) :
    argChar behind arg i = '\x00' ↔ arg.drop i = [] := by
  rw [drop_eq_nil_iff]
  constructor
  · intro h
    by_contra hlt
    rw [not_le] at hlt
    rw [argChar_of_lt hlt] at h
    exact harg (h ▸ getElem_mem hlt)
  · intro h
    rw [le_antisymm hi h]
    exact argChar_length behind arg

theorem argFrom_eq (harg : '\x00' ∉ arg) (hi : i ≤ arg.length) :
    argFrom behind arg i = arg.drop i := by
  have hnul : ∀ c ∈ arg.drop i, decide (c ≠ '\x00') = true := by
    intro c hc
    refine decide_eq_true fun h => harg ?_
    rw [← h]
    exact mem_of_mem_drop hc
  rw [argFrom, argCells, drop_append_of_le_length hi, takeWhile_append_of_pos hnul,
    takeWhile_cons_of_neg (by decide), append_nil]

theorem argChar_front (harg : '\x00' ∉ arg) :
    (argChar behind arg 0 ≠ '-' ∨ argChar behind arg 1 = '\x00') ↔
      ¬ (arg.head? = some '-' ∧ arg.tail ≠ []) := by
  cases arg with
  | nil =>
    refine iff_of_true (.inl ?_) fun h => h.2 rfl
    rw [show argChar behind [] 0 = '\x00' from rfl]
    decide
  | cons c arg =>
    have hnul := @argChar_eq_nul_iff behind _ 1 harg (succ_le_succ (zero_le _))
    rw [show argChar behind (c :: arg) 0 = c from rfl, hnul, head?_cons, some_inj,
      not_and_or, not_not]
    rfl

theorem found_iff (scan : Text) (ch : Char) :
    (scan.dropWhile (· ≠ ch) = [] ∨ ch = ':') ↔ isOptionChar scan ch = false := by
  have hfound : scan.dropWhile (· ≠ ch) = [] ↔ ch ∉ scan := by
    rw [dropWhile_eq_nil_iff]
    constructor
    · intro h hmem; exact absurd rfl (of_decide_eq_true (h ch hmem))
    · intro h c hc; exact decide_eq_true fun heq => h (heq ▸ hc)
  rw [hfound, isOptionChar, Bool.and_eq_false_iff, ← contains_iff_mem, Bool.not_eq_true,
    decide_eq_false_iff_not, not_not, or_comm]

/-- The step shows the first of the events, and the others are those of the scan from where it
    leaves the place. -/
structure StepsTo (silent : Bool) (scan : Text) (i : Nat) (args : List Text)
    (events : List GetoptsEvent) (step : GetoptsStep) : Prop where
  event : events = step.event ::
    if step.status = 0 then
      scanFrom silent scan step.optind step.subindex (args.drop (step.optind - i))
    else []
  front : i ≤ step.optind
  inside : ∀ arg ∈ (args.drop (step.optind - i)).head?,
    step.subindex ≤ 1 ∨ step.subindex ≤ arg.length
  subindex : 1 ≤ step.subindex ∧ step.subindex ≤ arkshMaxVarValue
  optind : step.optind ≤ i + args.length
  optarg : step.optarg.length < arkshMaxVarValue
  name : step.name.length < arkshMaxVarValue

section Option

variable {sub : Nat} {more : List Text} {step : GetoptsStep} {e : GetoptsEvent}

theorem stepsTo_next (harg : arg.length < arkshMaxVarValue) (hlt : sub < arg.length)
    (hevent : step.event = e) (hstatus : step.status = 0)
    (hoptind : step.optind = if arg.drop (sub + 1) = [] then i + 1 else i)
    (hsub : step.subindex = if arg.drop (sub + 1) = [] then 1 else sub + 1)
    (hpos : 1 ≤ sub) (hoptarg : step.optarg.length < arkshMaxVarValue)
    (hname : step.name.length < arkshMaxVarValue) : StepsTo silent scan i (arg :: more)
      (e :: bundleThen silent scan i (arg.drop (sub + 1)) more) step := by
  by_cases hlast : arg.drop (sub + 1) = []
  · rw [if_pos hlast] at hoptind hsub
    have hrest : (arg :: more).drop (step.optind - i) = more := by
      rw [hoptind, Nat.add_sub_cancel_left]
      rfl
    refine ⟨?_, by omega, fun _ _ => .inl (le_of_eq hsub), ?_, ?_, hoptarg, hname⟩
    · rw [hevent, if_pos hstatus, hrest, hlast, bundleThen_nil,
        scanFrom_first (le_of_eq hsub), hoptind]
    · rw [hsub]; exact ⟨le_refl 1, by decide⟩
    · rw [hoptind, length_cons]; omega
  · rw [if_neg hlast] at hoptind hsub
    have hrest : (arg :: more).drop (step.optind - i) = arg :: more := by
      rw [hoptind, Nat.sub_self]
      rfl
    refine ⟨?_, by omega, ?_, by omega, by omega, hoptarg, hname⟩
    · rw [hevent, if_pos hstatus, hrest, scanFrom_inside (by omega), hoptind, hsub]
    · rw [hrest]
      intro a ha
      obtain rfl := mem_some_iff.mp ha
      exact .inr (by omega)

theorem stepsTo_argument {k : Nat} (hevent : step.event = e) (hstatus : step.status = 0)
    (hoptind : step.optind = i + (k + 1)) (hsub : step.subindex = 1) (hk : k ≤ more.length)
    (hoptarg : step.optarg.length < arkshMaxVarValue)
    (hname : step.name.length < arkshMaxVarValue) : StepsTo silent scan i (arg :: more)
      (e :: referenceScan silent scan (i + (k + 1)) (more.drop k)) step := by
  have hrest : (arg :: more).drop (step.optind - i) = more.drop k := by
    rw [hoptind, Nat.add_sub_cancel_left]
    rfl
  refine ⟨?_, by omega, fun _ _ => .inl (le_of_eq hsub), ?_, ?_, hoptarg, hname⟩
  · rw [hevent, if_pos hstatus, hrest, scanFrom_first (le_of_eq hsub), hoptind]
  · rw [hsub]; exact ⟨le_refl 1, by decide⟩
  · rw [hoptind, length_cons]; omega

theorem getoptsOption_stepsTo {ch : Char} (hargs : ∀ a ∈ arg :: more, IsArgument a)
    (hpos : 1 ≤ sub) (hlt : sub < arg.length) (hch : arg[sub] = ch) :
    StepsTo silent scan i (arg :: more) (bundleThen silent scan i (arg.drop sub) more)
      (getoptsOption behind silent scan i sub arg more ch) := by
  obtain ⟨hnul, hfit⟩ := hargs arg mem_cons_self
  have hdrop : arg.drop sub = ch :: arg.drop (sub + 1) := by
    rw [← hch]
    exact drop_eq_getElem_cons hlt
  have hlast := @argChar_eq_nul_iff behind _ (sub + 1) hnul hlt
  have hone : ∀ c : Char, [c].length < arkshMaxVarValue := fun c => by
    rw [length_singleton]
    decide
  have hquiet : (if silent then [ch] else []).length < arkshMaxVarValue := by
    split
    · exact hone ch
    · decide
  rw [hdrop, bundleThen_cons]
  unfold getoptsOption
  simp only [found_iff, hlast]
  by_cases hoption : isOptionChar scan ch = false
  · rw [if_pos hoption, if_pos hoption]
    exact stepsTo_next hfit hlt rfl rfl rfl rfl hpos hquiet (hone '?')
  · rw [if_neg hoption, if_neg hoption]
    by_cases htakes : takesArgument scan ch = false
    · have hcolon : ¬ (scan.dropWhile (· ≠ ch)).tail.head? = some ':' := of_decide_eq_false htakes
      rw [if_pos htakes, if_neg hcolon]
      exact stepsTo_next hfit hlt rfl rfl rfl rfl hpos (zero_lt_succ _) (hone ch)
    · have hcolon : (scan.dropWhile (· ≠ ch)).tail.head? = some ':' := by
        rw [Bool.not_eq_false] at htakes
        exact of_decide_eq_true htakes
      rw [if_neg htakes, if_pos hcolon]
      by_cases hattached : arg.drop (sub + 1) = []
      · rw [if_neg (not_not.mpr hattached), if_neg (not_not.mpr hattached)]
        cases more with
        | nil =>
          cases silent with
          | true =>
            exact stepsTo_argument (k := 0) rfl rfl rfl rfl (le_refl 0) (hone ch) (hone ':')
          | false =>
            exact stepsTo_argument (k := 0) rfl rfl rfl rfl (le_refl 0) (zero_lt_succ _)
              (hone '?')
        | cons next more =>
          obtain ⟨hnul', hfit'⟩ := hargs next (mem_cons_of_mem _ mem_cons_self)
          dsimp only
          rw [argFrom_eq hnul' (zero_le _), drop_zero]
          exact stepsTo_argument (k := 1) rfl rfl rfl rfl (succ_le_succ (zero_le _)) hfit'
            (hone ch)
      · rw [if_pos hattached, if_pos hattached, argFrom_eq hnul hlt]
        refine stepsTo_argument (k := 0) rfl rfl rfl rfl (zero_le _) ?_ (hone ch)
        exact lt_of_le_of_lt (drop_sublist _ _).length_le hfit

end Option

section Loop

variable {sub : Nat} {more args : List Text} {events : List GetoptsEvent} {step : GetoptsStep}

theorem StepsTo.look (h : StepsTo silent scan i args events step) (examined : List (Text × Nat)) :
    StepsTo silent scan i args events { step with examined := examined } :=
  ⟨h.event, h.front, h.inside, h.subindex, h.optind, h.optarg, h.name⟩

theorem StepsTo.later (h : StepsTo silent scan (i + 1) more events step) (arg : Text) :
    StepsTo silent scan i (arg :: more) events step := by
  have hfront := h.front
  have hdrop : (arg :: more).drop (step.optind - i) = more.drop (step.optind - (i + 1)) := by
    rw [show step.optind - i = step.optind - (i + 1) + 1 by omega, drop_succ_cons]
  have hoptind := h.optind
  refine ⟨?_, by omega, ?_, h.subindex, ?_, h.optarg, h.name⟩
  · rw [hdrop]; exact h.event
  · rw [hdrop]; exact h.inside
  · rw [length_cons]; omega

theorem stepsTo_end {j : Nat} (hfront : i ≤ j) (hj : j ≤ i + args.length)
    (examined : List (Text × Nat)) :
    StepsTo silent scan i args [endEvent j] (getoptsEnd j examined) := by
  have hone : 1 < arkshMaxVarValue := by decide
  exact ⟨rfl, hfront, fun _ _ => .inl (le_refl 1), ⟨le_refl 1, le_of_lt hone⟩, hj,
    zero_lt_succ _, hone⟩

theorem getoptsScan_stepsTo {args : List Text} (hargs : ∀ a ∈ args, IsArgument a) (hpos : 1 ≤ sub)
    (hinside : ∀ a ∈ args.head?, sub ≤ 1 ∨ sub ≤ a.length) (examined : List (Text × Nat)) :
    StepsTo silent scan i args (scanFrom silent scan i sub args)
      (getoptsScan behind silent scan i sub examined args) := by
  induction args generalizing i sub examined with
  | nil =>
    have hevents : scanFrom silent scan i sub [] = [endEvent i] := by
      unfold scanFrom
      split <;> rfl
    rw [hevents]
    exact stepsTo_end (le_refl i) (le_refl _) examined
  | cons arg more ih =>
    obtain ⟨hnul, -⟩ := hargs arg mem_cons_self
    have hmax : max 1 sub = sub := by omega
    unfold getoptsScan
    rw [hmax]
    by_cases hsub : sub ≤ 1
    · obtain rfl : sub = 1 := by omega
      rw [if_pos hsub, scanFrom_first hsub]
      by_cases hend : arg = "--".toList
      · rw [if_pos ⟨hsub, hend⟩, hend, referenceScan_end]
        exact stepsTo_end (le_succ i) (by rw [length_cons]; omega) _
      · rw [if_neg fun h => hend h.2]
        by_cases hopt : arg.head? = some '-' ∧ arg.tail ≠ []
        · have hbehind : arg.drop 1 ≠ [] := by rw [drop_one]; exact hopt.2
          have hlt : 1 < arg.length := by rw [Ne, drop_eq_nil_iff] at hbehind; omega
          have hch := @argChar_eq_nul_iff behind _ _ hnul (le_of_lt hlt)
          rw [if_neg fun h => (argChar_front hnul).mp h.2 hopt, if_neg fun h => hbehind (hch.mp h),
            referenceScan_option hend hopt.1 hopt.2, ← drop_one]
          exact (getoptsOption_stepsTo hargs (le_refl 1) hlt (argChar_of_lt hlt).symm).look _
        · rw [if_pos ⟨hsub, (argChar_front hnul).mpr hopt⟩, referenceScan_stop hend hopt]
          exact stepsTo_end (le_refl i) (le_add_right _ _) _
    · have hle : sub ≤ arg.length := (hinside arg rfl).resolve_left hsub
      have hch := @argChar_eq_nul_iff behind _ _ hnul hle
      rw [if_neg hsub, if_neg fun h => hsub h.1, if_neg fun h => hsub h.1,
        scanFrom_inside (Nat.lt_of_not_le hsub)]
      by_cases hnone : arg.drop sub = []
      · -- the bundle is at its end, and the loop goes on to the next argument
        rw [if_pos (hch.mpr hnone), hnone, bundleThen_nil, ← scanFrom_first (le_refl 1)]
        exact (ih (fun a ha => hargs a (mem_cons_of_mem _ ha)) (le_refl 1)
          (fun _ _ => .inl (le_refl 1)) _).later arg
      · have hlt : sub < arg.length := by rw [drop_eq_nil_iff] at hnone; omega
        rw [if_neg fun h => hnone (hch.mp h)]
        exact (getoptsOption_stepsTo hargs hpos hlt (argChar_of_lt hlt).symm).look _

end Loop

end Step

/-! ## 3. The shell between the calls -/

/-- The variables that `getopts` sets. -/
def getoptsNames (varname : Text) : List Text :=
  [varname, optargName, optindName, subindexName, lastOptindName]

/-- The values that the calls of `arksh_shell_set_var` get. -/
def GetoptsStep.pairs (step : GetoptsStep) (varname : Text) : List (Text × Text) :=
  step.assigned varname ++ [(optindName, CText.decimal step.optind),
    (subindexName, CText.decimal step.subindex), (lastOptindName, CText.decimal step.optind)]

section Shell

variable {behind : Text → Text} {sh : VarStore} {optstring varname : Text} {params : List Text}
  {step : GetoptsStep}

section

variable (step : GetoptsStep)

theorem pairs_perm (varname : Text) :
    (getoptsNames varname).Perm ((step.pairs varname).map Prod.fst) := by
  unfold GetoptsStep.pairs GetoptsStep.assigned getoptsNames
  split
  · exact .swap _ _ _
  · exact .refl _

theorem mem_pairs (varname : Text) :
    (varname, step.name) ∈ step.pairs varname ∧ (optargName, step.optarg) ∈ step.pairs varname := by
  unfold GetoptsStep.pairs GetoptsStep.assigned
  split
  · exact ⟨mem_cons_of_mem _ mem_cons_self, mem_cons_self⟩
  · exact ⟨mem_cons_self, mem_cons_of_mem _ mem_cons_self⟩

theorem mem_pairs_state (varname : Text) :
    (optindName, CText.decimal step.optind) ∈ step.pairs varname ∧
      (subindexName, CText.decimal step.subindex) ∈ step.pairs varname ∧
      (lastOptindName, CText.decimal step.optind) ∈ step.pairs varname :=
  ⟨mem_append_right _ mem_cons_self,
    mem_append_right _ (mem_cons_of_mem _ mem_cons_self),
    mem_append_right _ (mem_cons_of_mem _ (mem_cons_of_mem _ mem_cons_self))⟩

end

theorem getoptsStoreState_eq (h : Assignable sh [optindName, subindexName, lastOptindName])
    (optind subindex : Nat) : getoptsStoreState sh optind subindex =
      assignAll sh [(optindName, CText.decimal optind), (subindexName, CText.decimal subindex),
        (lastOptindName, CText.decimal optind)] := by
  have hfirst := setVar_status (v := CText.decimal optind) (e := false).mpr h.head
  have hnext := h.tail (CText.decimal optind)
  have hsecond := setVar_status (v := CText.decimal subindex) (e := false).mpr hnext.head
  unfold getoptsStoreState
  rw [if_neg (not_not.mpr hfirst), if_neg (not_not.mpr hsecond)]
  rfl

theorem assignAll_append (sh : VarStore) (pairs more : List (Text × Text)) :
    assignAll sh (pairs ++ more) = assignAll (assignAll sh pairs) more := foldl_append

theorem commandGetopts_shell (h : Assignable sh (getoptsNames varname)) :
    (commandGetopts behind sh (optstring :: varname :: params)).2.2 =
      assignAll sh ((getoptsStep behind sh optstring params).pairs varname) := by
  have hstate : Assignable (assignAll sh ((getoptsStep behind sh optstring params).assigned varname))
      [optindName, subindexName, lastOptindName] := by
    have hagain := assignable_assignAll h fun pair (hpair : pair ∈
        (getoptsStep behind sh optstring params).assigned varname) =>
      (pairs_perm _ varname).mem_iff.mpr (mem_map_of_mem (mem_append_left _ hpair))
    exact hagain.sublist (.cons _ (.cons _ (.refl _)))
  rw [GetoptsStep.pairs, assignAll_append, ← getoptsStoreState_eq hstate]
  rfl

theorem positionalParams_assignAll (pairs : List (Text × Text)) :
    (assignAll sh pairs).positionalParams = sh.positionalParams := by
  induction pairs generalizing sh with
  | nil => rfl
  | cons pair pairs ih => exact ih.trans (positionalParams_setVar sh pair.1 pair.2 false)

theorem getoptsCurrent_decimal {name : Text} {n : Nat} (hpos : 1 ≤ n) (hn : n < 2 ^ 31)
    (h : arkshShellGetVar sh name = some (CText.decimal n)) : getoptsCurrent sh name = n := by
  have hread := atoiSigned_decimal hn
  unfold getoptsCurrent
  rw [h]
  split
  next heq => cases heq
  next heq =>
    rw [Option.some.inj heq] at hread
    have hzero : atoiSigned [] = 0 := by decide
    omega
  next text _ heq =>
    rw [← Option.some.inj heq, hread, if_neg (by omega), Int.toNat_natCast]

theorem one_le_getoptsCurrent (sh : VarStore) (name : Text) : 1 ≤ getoptsCurrent sh name := by
  unfold getoptsCurrent
  split
  · exact le_refl 1
  · exact le_refl 1
  · split
    · exact le_refl 1
    · omega

end Shell

/-! ## 4. Runs -/

/-- What a call leaves in the variables, and its status. -/
structure GetoptsOutcome where
  name : Option Text
  optarg : Option Text
  optind : Option Text
  status : Nat
  deriving DecidableEq

def GetoptsEvent.outcome (e : GetoptsEvent) : GetoptsOutcome :=
  ⟨some e.name, some e.optarg, some (CText.decimal e.optind), e.status⟩

/-- At most so many calls, the last of them the first that fails. -/
def getoptsRun (behind : Text → Text) (optstring varname : Text) (params : List Text) :
    Nat → VarStore → List GetoptsOutcome
  | 0, _ => []
  | calls + 1, sh =>
    let call := commandGetopts behind sh (optstring :: varname :: params)
    ⟨arkshShellGetVar call.2.2 varname, arkshShellGetVar call.2.2 optargName,
      arkshShellGetVar call.2.2 optindName, call.1⟩ ::
      if call.1 = 0 then getoptsRun behind optstring varname params calls call.2.2 else []

def isSilent (optstring : Text) : Bool := optstring.head? = some ':'

/-- The characters of the options. -/
def scanOf (optstring : Text) : Text := if isSilent optstring then optstring.tail else optstring

def eventsOf (sh : VarStore) (optstring : Text) (params : List Text) : List GetoptsEvent :=
  scanFrom (isSilent optstring) (scanOf optstring) (getoptsCurrent sh optindName) (startSubindex sh)
    ((getoptsParams sh params).drop (getoptsCurrent sh optindName - 1))

/-- The variables can be set, the arguments are texts of the shell, and a call starts inside of
    them. -/
structure GetoptsReady (sh : VarStore) (varname : Text) (params : List Text) : Prop where
  names : Assignable sh (getoptsNames varname)
  args : ∀ arg ∈ getoptsParams sh params, IsArgument arg
  count : (getoptsParams sh params).length + 1 < 2 ^ 31
  optind : getoptsCurrent sh optindName ≤ (getoptsParams sh params).length + 1
  inside : ∀ arg ∈ ((getoptsParams sh params).drop (getoptsCurrent sh optindName - 1)).head?,
    startSubindex sh ≤ 1 ∨ startSubindex sh ≤ arg.length

section Runs

variable {behind : Text → Text} {sh : VarStore} {optstring varname : Text} {params : List Text}

theorem length_decimal {n : Nat} (hn : n < 2 ^ 31) :
    (CText.decimal n).length < arkshMaxVarValue := by
  have htext : CText.decimal n = toDigits 10 n := by
    rw [CText.decimal, if_neg (by omega), nil_append, Int.natAbs_natCast]
  have hlength := (length_toDigits_le_iff (b := 10) (n := n) (k := 10) (by decide)
    (by decide)).mpr (by omega)
  have hsize : arkshMaxVarValue = 1024 := rfl
  rw [htext]
  omega

theorem pairs_fit {step : GetoptsStep} (hname : step.name.length < arkshMaxVarValue)
    (hoptarg : step.optarg.length < arkshMaxVarValue) (hoptind : step.optind < 2 ^ 31)
    (hsub : step.subindex < 2 ^ 31) :
    ∀ pair ∈ step.pairs varname, pair.2.length < arkshMaxVarValue := by
  have hassigned : ∀ pair ∈ step.assigned varname, pair.2.length < arkshMaxVarValue := by
    unfold GetoptsStep.assigned
    split
    · rw [forall_mem_cons, forall_mem_singleton]; exact ⟨hoptarg, hname⟩
    · rw [forall_mem_cons, forall_mem_singleton]; exact ⟨hname, hoptarg⟩
  rw [GetoptsStep.pairs, forall_mem_append, forall_mem_cons, forall_mem_cons, forall_mem_singleton]
  exact ⟨hassigned, length_decimal hoptind, length_decimal hsub, length_decimal hoptind⟩

theorem getoptsStep_eq (behind : Text → Text) (sh : VarStore) (optstring : Text)
    (params : List Text) : getoptsStep behind sh optstring params =
      getoptsScan behind (isSilent optstring) (scanOf optstring) (getoptsCurrent sh optindName)
        (startSubindex sh) []
        ((getoptsParams sh params).drop (getoptsCurrent sh optindName - 1)) := by
  unfold getoptsStep scanOf isSilent
  simp only [decide_eq_true_eq]

/-- **A call shows the next event, and the next call starts behind it.** -/
theorem getopts_step (h : GetoptsReady sh varname params) :
    let call := commandGetopts behind sh (optstring :: varname :: params)
    ∃ e : GetoptsEvent, eventsOf sh optstring params =
        e :: (if e.status = 0 then eventsOf call.2.2 optstring params else []) ∧
      ⟨arkshShellGetVar call.2.2 varname, arkshShellGetVar call.2.2 optargName,
        arkshShellGetVar call.2.2 optindName, call.1⟩ = e.outcome ∧
      call.1 = e.status ∧ GetoptsReady call.2.2 varname params := by
  intro call
  have hpos := one_le_getoptsCurrent sh optindName
  have hsub : 1 ≤ startSubindex sh := by
    unfold startSubindex
    split
    · exact le_refl 1
    · exact one_le_getoptsCurrent sh subindexName
  have hstep := @getoptsScan_stepsTo behind (isSilent optstring) (scanOf optstring)
    (getoptsCurrent sh optindName) _ _ (fun a ha => h.args a (mem_of_mem_drop ha)) hsub h.inside []
  rw [← getoptsStep_eq] at hstep
  have hstatus : call.1 = (getoptsStep behind sh optstring params).status := rfl
  have hshell : call.2.2 = assignAll sh ((getoptsStep behind sh optstring params).pairs varname) :=
    commandGetopts_shell h.names
  generalize getoptsStep behind sh optstring params = step at hstep hstatus hshell
  generalize call.1 = status at hstatus
  generalize call.2.2 = sh' at hshell
  have hcount := h.count
  have hoptind := hstep.optind
  have hfront := hstep.front
  have hstart := h.optind
  have hsize : arkshMaxVarValue = 1024 := rfl
  rw [length_drop] at hoptind
  -- the variables behind the call
  have hshown := getVar_assignAll (h.names.perm (pairs_perm step varname))
    (pairs_fit hstep.name hstep.optarg (by omega) (by have := hstep.subindex.2; omega))
  rw [← hshell] at hshown
  obtain ⟨hname, hoptarg⟩ := mem_pairs step varname
  obtain ⟨hindex, hinner, hlast⟩ := mem_pairs_state step varname
  have hparams : getoptsParams sh' params = getoptsParams sh params := by
    unfold getoptsParams
    rw [hshell, positionalParams_assignAll]
  have hcurrent : getoptsCurrent sh' optindName = step.optind :=
    getoptsCurrent_decimal (by omega) (by omega) (hshown _ hindex)
  have hcurrentLast : getoptsCurrent sh' lastOptindName = step.optind :=
    getoptsCurrent_decimal (by omega) (by omega) (hshown _ hlast)
  have hcurrentSub : startSubindex sh' = step.subindex := by
    unfold startSubindex
    rw [hcurrent, hcurrentLast, if_neg (not_not.mpr rfl)]
    exact getoptsCurrent_decimal hstep.subindex.1 (by have := hstep.subindex.2; omega)
      (hshown _ hinner)
  have hrest : ((getoptsParams sh params).drop (getoptsCurrent sh optindName - 1)).drop
      (step.optind - getoptsCurrent sh optindName) =
        (getoptsParams sh' params).drop (getoptsCurrent sh' optindName - 1) := by
    rw [drop_drop, hparams, hcurrent]
    congr 1
    omega
  have hevent := hstep.event
  have hinside := hstep.inside
  rw [hrest, ← hcurrent, ← hcurrentSub] at hevent
  rw [hrest, ← hcurrentSub] at hinside
  refine ⟨step.event, hevent, ?_, hstatus, ?_⟩
  · rw [hshown _ hname, hshown _ hoptarg, hshown _ hindex, hstatus]; rfl
  · refine ⟨?_, ?_, ?_, ?_, hinside⟩
    · rw [hshell]
      exact assignable_assignAll h.names fun pair hpair =>
        (pairs_perm step varname).mem_iff.mpr (mem_map_of_mem hpair)
    · rw [hparams]; exact h.args
    · rw [hparams]; exact hcount
    · rw [hparams, hcurrent]; omega

/-- **A run of calls shows the scan from where the first one starts.** -/
theorem getoptsRun_events (calls : Nat) (h : GetoptsReady sh varname params) :
    getoptsRun behind optstring varname params calls sh =
      ((eventsOf sh optstring params).take calls).map GetoptsEvent.outcome := by
  induction calls generalizing sh with
  | zero => rfl
  | succ calls ih =>
    obtain ⟨e, hevents, houtcome, hstatus, hready⟩ := getopts_step h
    rw [getoptsRun, houtcome, hstatus, hevents, take_succ_cons, map_cons]
    by_cases hzero : e.status = 0
    · rw [if_pos hzero, if_pos hzero, ih hready]
    · rw [if_neg hzero, if_neg hzero, take_nil, map_nil]

end Runs

/-! ## 5. The law -/

/-- From OPTIND=1 on the calls show the scan of all the arguments, and are no more than option
    characters and one. -/
def GetoptsLaw (behind : Text → Text) (sh : VarStore) (optstring varname : Text)
    (params : List Text) : Prop :=
  getoptsCurrent sh optindName = 1 →
    ∀ calls, optionChars (getoptsParams sh params) + 1 ≤ calls →
      getoptsRun behind optstring varname params calls sh =
        (referenceScan (isSilent optstring) (scanOf optstring) 1 (getoptsParams sh params)).map
          GetoptsEvent.outcome

theorem outcome_injective : Function.Injective GetoptsEvent.outcome := by
  intro e e' h
  obtain ⟨name, optarg, optind, status⟩ := e
  obtain ⟨name', optarg', optind', status'⟩ := e'
  simp only [GetoptsEvent.outcome, GetoptsOutcome.mk.injEq, some_inj] at h
  obtain ⟨rfl, rfl, hoptind, rfl⟩ := h
  have hdigits : ∀ n : Nat, digitsValue 10 (CText.decimal n) = n := by
    intro n
    rw [CText.decimal, if_neg (by omega), nil_append, Int.natAbs_natCast, digitsValue_toDigits]
  have hsame := hdigits optind
  rw [hoptind, hdigits] at hsame
  rw [hsame]

/-- **The calls show the scan of all arguments exactly if the scan from an index that an earlier one
    left shows the same.** -/
theorem getoptsLaw_iff (behind : Text → Text) {sh : VarStore} (optstring : Text) {varname : Text}
    {params : List Text} (h : GetoptsReady sh varname params) :
    GetoptsLaw behind sh optstring varname params ↔ (getoptsCurrent sh optindName = 1 →
        scanFrom (isSilent optstring) (scanOf optstring) 1 (startSubindex sh)
            (getoptsParams sh params) =
          referenceScan (isSilent optstring) (scanOf optstring) 1 (getoptsParams sh params)) := by
  refine forall_congr' fun hone => ?_
  have hevents : eventsOf sh optstring params = scanFrom (isSilent optstring) (scanOf optstring) 1
      (startSubindex sh) (getoptsParams sh params) := by
    rw [eventsOf, hone]
    rfl
  have hbound := length_referenceScan (isSilent optstring) (scanOf optstring) 1
    (getoptsParams sh params)
  rw [← hevents]
  constructor
  · intro hlaw
    have hrun := hlaw (max (optionChars (getoptsParams sh params) + 1)
      (eventsOf sh optstring params).length) (le_max_left _ _)
    rw [getoptsRun_events _ h, take_of_length_le (le_max_right _ _)] at hrun
    exact map_injective_iff.mpr outcome_injective hrun
  · intro hsame calls hcalls
    rw [getoptsRun_events calls h, hsame, take_of_length_le (hbound.trans hcalls)]

/-- The first loop of the test fixture, in a new shell. -/
theorem getoptsLaw_start : GetoptsLaw (fun _ => []) (startStore "/".toList noEnv) ":ab:".toList
    "opt".toList ["-abvalue".toList, "-x".toList] := by
  have hready : GetoptsReady (startStore "/".toList noEnv) "opt".toList
      ["-abvalue".toList, "-x".toList] := by
    refine ⟨⟨by decide, by decide, by decide, by decide⟩, ?_, by decide, by decide, by decide⟩
    intro arg harg
    rw [show getoptsParams (startStore "/".toList noEnv) ["-abvalue".toList, "-x".toList] =
      ["-abvalue".toList, "-x".toList] from rfl] at harg
    rcases mem_cons.mp harg with rfl | harg
    · exact ⟨by decide, by decide⟩
    · obtain rfl := mem_singleton.mp harg; exact ⟨by decide, by decide⟩
  exact (getoptsLaw_iff _ _ hready).mpr fun _ => scanFrom_first (by decide) _

def leftInside : VarStore :=
  (arkshShellSetVar (commandGetopts (fun _ => []) (startStore "/".toList noEnv)
    ["ab".toList, "o".toList, "-ab".toList]).2.2 optindName "1".toList false).2

/-- The next loop starts with the second option. -/
theorem not_getoptsLaw : ¬ ∀ behind sh optstring varname params,
    GetoptsLaw behind sh optstring varname params := by
  intro h
  have hrun := h (fun _ => []) leftInside "ab".toList "o".toList ["-ab".toList] (by decide) 3
    (by decide)
  revert hrun
  decide

end Arksh
