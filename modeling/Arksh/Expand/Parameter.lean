/-
  Subject: `resolve_variable` of `src/expand.c`: `$name`, `$?`, `${name:-word}` and the like.

  What stands behind the dollar is read first (`readParameter`), then its value is computed from
  the shell (`Parameter.value`); in the source both are one function, which looks at the shell
  only behind the last character it reads.
-/
import Arksh.Expand.Arith

namespace Arksh

open CText Scan List

/-! ## 1. Errors -/

inductive DelimiterError where
  | quotedToken | danglingAtEnd | danglingInDouble | danglingInCommand
  | commandSubstitution | arithmeticExpansion | unmatchedParen | parameterExpansion
  deriving DecidableEq

inductive ExpandError where
  | delimiter (error : DelimiterError)
  | refused (message : String)
  /-- An arithmetic operation that C leaves undefined. -/
  | undefined
  /-- A loop that does not end. -/
  | endless

def ArithError.expand : ArithError → ExpandError
  | unterminated => .delimiter .arithmeticExpansion
  | undefined => .undefined
  | e => .refused e.message

def tooLong (label : String) : ExpandError := .refused (label ++ " too long")

/-! ## 2. The shell -/

structure ShellView (σ : Type) where
  lastStatus : σ → Int
  shellPid : σ → Int
  lastBgPid : σ → Int
  parentPid : σ → Int
  /-- `getpid()` -/
  processId : σ → Int
  /-- `metadata->current_source_line`, 0 where there is none. -/
  currentSourceLine : σ → Nat
  /-- The top of `metadata->function_name_stack`. -/
  functionName : σ → Option Text
  currentSourcePath : σ → Text
  programPath : σ → Text
  optNounset : σ → Bool
  /-- `arksh_shell_get_positional` below `arksh_shell_get_positional_count`. -/
  positional : σ → List Text
  /-- `arksh_shell_get_var` -/
  getVar : σ → Text → Option Text
  /-- `arksh_shell_set_var` with the flag 0; the expander ignores its result. -/
  setVar : σ → Text → Text → σ
  /-- The entries of a binding of kind DICT, each with its rendered value if it has one. -/
  assocBinding : σ → Text → Option (List (Text × Option Text))
  /-- `execute_command_substitution`, where it succeeds. -/
  executeCommand : σ → Text → Text × σ

variable {σ : Type} {t rest : Text}

def decimal (n : Int) : Text := (toString n).toList

def expandPositionalList (params : List Text) : Text :=
  params.zipIdx.foldl (fun out (param, j) =>
    let out := if j > 0 ∧ out.length + 1 < arkshMaxOutput then out ++ [' '] else out
    if out.length + param.length < arkshMaxOutput then out ++ param else out) []

/-- `atoi` of a run of digits: a `long`, cut to an `int`. -/
def atoi (ds : Text) : Int := (BitVec.ofInt 32 (min (digitsValue 10 ds : Int) (2 ^ 63 - 1))).toInt

def resolveSpecialName (view : ShellView σ) (s : σ) (name : Text) : Option Text :=
  match name with
  | ['?'] => some (decimal (view.lastStatus s))
  | ['#'] => some (decimal (view.positional s).length)
  | ['$'] => some (decimal (view.shellPid s))
  | ['!'] => some (if view.lastBgPid s ≥ 0 then decimal (view.lastBgPid s) else [])
  | ['-'] => some []
  | ['@'] => some (expandPositionalList (view.positional s))
  | ['*'] => some (expandPositionalList (view.positional s))
  | name =>
    if name = "PPID".toList then some (decimal (view.parentPid s))
    else if name = "BASHPID".toList then some (decimal (view.processId s))
    else if name = "LINENO".toList then
      some (decimal (if view.currentSourceLine s > 0 then view.currentSourceLine s else 1))
    else if name = "FUNCNAME".toList then some ((view.functionName s).getD [])
    else if name = "BASH_SOURCE".toList then
      some (if view.currentSourcePath s ≠ [] then view.currentSourcePath s else view.programPath s)
    else if name ≠ [] ∧ name.all isdigit then
      let idx := atoi name
      if idx = 0 then some (view.programPath s)
      else if idx ≥ 1 then some ((view.positional s).getD (idx.toNat - 1) [])
      else some []
    else none

def arkshNamerefPrefix : Text := "__ARKSH_NAMEREF__".toList

/-- `lookup_var_value_depth`; `hops` bounds the chain of namerefs. -/
def lookupVarValueDepth (view : ShellView σ) (s : σ) : Nat → Text → Option Text
  | 0, _ => none
  | hops + 1, name =>
    match resolveSpecialName view s name with
    | some v => some v
    | none =>
      match view.getVar s name with
      | none => none
      | some v =>
        if arkshNamerefPrefix.isPrefixOf v then
          let target := v.drop arkshNamerefPrefix.length
          if target = [] ∨ 128 ≤ target.length then none
          else lookupVarValueDepth view s hops target
        else some (copyString arkshMaxOutput v)

def lookupVarValue (view : ShellView σ) (s : σ) (name : Text) : Option Text :=
  lookupVarValueDepth view s 33 name

/-! ## 3. Patterns -/

def downFrom {β : Type} (f : Nat → Option β) : Nat → Option β
  | 0 => f 0
  | n + 1 => (f (n + 1)).or (downFrom f n)

/-- `glob_match_prefix`: how many characters the pattern takes, `none` for -1. -/
def globMatchPrefix : Text → Text → Option Nat
  | [], _ => some 0
  | '*' :: pat, str => downFrom (fun k => (globMatchPrefix pat (str.drop k)).map (k + ·)) str.length
  | '?' :: pat, str =>
    match str with
    | [] => none
    | _ :: str => (globMatchPrefix pat str).map (1 + ·)
  | '\\' :: p :: pat, str =>
    match str with
    | [] => none
    | c :: str => if p = c then (globMatchPrefix pat str).map (1 + ·) else none
  | p :: pat, str =>
    match str with
    | [] => none
    | c :: str => if p = c then (globMatchPrefix pat str).map (1 + ·) else none

def globMatchFull : Text → Text → Bool
  | [], str => str.isEmpty
  | '*' :: pat, str => str.tails.any (globMatchFull pat)
  | '?' :: pat, str =>
    match str with
    | [] => false
    | _ :: str => globMatchFull pat str
  | '\\' :: p :: pat, str =>
    match str with
    | [] => false
    | c :: str => p = c && globMatchFull pat str
  | p :: pat, str =>
    match str with
    | [] => false
    | c :: str => p = c && globMatchFull pat str

/-- The loop of `apply_pattern_subst`; `none` where it does not end: with an empty pattern and the
    global flag it goes round for ever at the end of the value. -/
def patternSubstLoop (pat repl : Text) (global : Bool) : Nat → Text → Text → Option Text
  | 0, _, _ => none
  | fuel + 1, val, out =>
    match (if val ≠ [] ∨ pat = [] then globMatchPrefix pat val else none) with
    | none =>
      match val with
      | [] => some out
      | c :: val => patternSubstLoop pat repl global fuel val (copyString arkshMaxOutput (out ++ [c]))
    | some matchLen =>
      let out := copyString arkshMaxOutput (out ++ repl)
      let (out, val') :=
        match val with
        | c :: val =>
          if matchLen = 0 then (copyString arkshMaxOutput (out ++ [c]), val)
          else (out, (c :: val).drop matchLen)
        | [] => (out, [])
      if global then
        if val = [] then none else patternSubstLoop pat repl global fuel val' out
      else some (copyString arkshMaxOutput (out ++ val'))

/-- `apply_pattern_subst`; every turn reads a character, so that many turns are enough. -/
def applyPatternSubst (val pat repl : Text) (global : Bool) : Option Text :=
  patternSubstLoop pat repl global (val.length + 1) val []

def applySuffixTrim (val pat : Text) (longest : Bool) : Text :=
  let cuts := if longest then List.range (val.length + 1) else (List.range (val.length + 1)).reverse
  match cuts.find? fun k => globMatchFull pat (val.drop k) with
  | some k => copyString arkshMaxOutput (val.take k)
  | none => copyString arkshMaxOutput val

def applyPrefixTrim (val pat : Text) (longest : Bool) : Text :=
  let cuts := if longest then (List.range (val.length + 1)).reverse else List.range (val.length + 1)
  match cuts.find? fun k => globMatchFull pat (copyString arkshMaxOutput (val.take k)) with
  | some k => copyString arkshMaxOutput (val.drop k)
  | none => copyString arkshMaxOutput val

/-! ## 4. Between the braces -/

/-- The operators `- = + ? % # /`. -/
inductive ParameterOp where
  | useDefault | assignDefault | useAlternative | indicateError
  | trimSuffix | trimPrefix | substitute
  deriving DecidableEq

structure BraceOp where
  op : ParameterOp
  colonPrefix : Bool := false
  doubled : Bool := false

/-- What `${...}` says. -/
structure Braces where
  lengthMode : Bool
  assocKeyMode : Bool
  varName : Text
  assocSubscript : Option Text
  op : Option BraceOp
  operand : Text

def isSpecialParameter (c : Char) : Bool :=
  c = '?' || c = '#' || c = '$' || c = '!' || c = '-' || c = '@' || c = '*'

/-- `${#var}`, but not `${#}`. -/
def lengthPrefix (t : Text) : Bool × Text :=
  match t with
  | '#' :: next :: t =>
    if isalpha next || next = '_' || isdigit next || next = '@' || next = '*' || next = '?'
        || next = '!' || next = '-' || next = '$' then (true, next :: t)
    else (false, '#' :: next :: t)
  | t => (false, t)

/-- `${!name[...]}` -/
def keyPrefix (t : Text) : Bool × Text :=
  match t with
  | '!' :: next :: t =>
    if isalpha next || next = '_' then (true, next :: t) else (false, '!' :: next :: t)
  | t => (false, t)

/-- The name, before its length is looked at. -/
def braceName (t : Text) : Text × Text :=
  match t with
  | [] => ([], [])
  | c :: rest =>
    if isalpha c || c = '_' then (t.takeWhile isNameChar, t.dropWhile isNameChar)
    else if isdigit c then (t.takeWhile isdigit, t.dropWhile isdigit)
    else if isSpecialParameter c then ([c], rest)
    else ([], t)

def braceHead (t : Text) : Bool × Bool × Text × Text :=
  let (lengthMode, t) := lengthPrefix t
  let (keyMode, t) := keyPrefix t
  let (name, t) := braceName t
  (lengthMode, keyMode, name, t)

def stripAssocKeyQuotes (raw : Text) : Text :=
  if raw.length ≥ 2 ∧ ((raw.head? = some '"' ∧ raw.getLast? = some '"') ∨
      (raw.head? = some '\'' ∧ raw.getLast? = some '\'')) then
    (raw.drop 1).dropLast
  else raw

def braceSubscript (name t : Text) : Except ExpandError (Option Text × Text) :=
  match t with
  | '[' :: t =>
    if name = [] then .ok (none, '[' :: t)
    else
      let subscript := t.takeWhile (· ≠ ']')
      if subscript.length ≥ arkshMaxName then
        .error (.refused "associative array key too long in $\x7b...\x7d")
      else
        match t.dropWhile (· ≠ ']') with
        | [] => .error (.refused "unterminated associative array subscript in $\x7b...\x7d")
        | _ :: t => .ok (some (stripAssocKeyQuotes subscript), t)
  | t => .ok (none, t)

def plainOp (c : Char) : Option ParameterOp :=
  if c = '-' then some .useDefault
  else if c = '=' then some .assignDefault
  else if c = '+' then some .useAlternative
  else if c = '?' then some .indicateError
  else none

def doubleOp (op : ParameterOp) (c : Char) (t : Text) : Option BraceOp × Text :=
  match t with
  | d :: t => if d = c then (some { op, doubled := true }, t) else (some { op }, d :: t)
  | [] => (some { op }, [])

/-- The operator behind the name. -/
def braceOp (lengthMode : Bool) (t : Text) : Option BraceOp × Text :=
  match t with
  | [] => (none, [])
  | c :: t =>
    if c = ':' then
      match t with
      | d :: t' =>
        match plainOp d with
        | some op => (some { op, colonPrefix := true }, t')
        | none => (none, c :: t)
      | [] => (none, [c])
    else
      match plainOp c with
      | some op => (some { op }, t)
      | none =>
        if c = '%' then doubleOp .trimSuffix '%' t
        else if c = '#' ∧ !lengthMode then doubleOp .trimPrefix '#' t
        else if c = '/' then doubleOp .substitute '/' t
        else (none, c :: t)

/-- The part of `resolve_variable` that reads `${...}`, behind the brace. -/
def parseBraces (t : Text) : Except ExpandError (Braces × Text) :=
  let (lengthMode, assocKeyMode, varName, t) := braceHead t
  if varName.length ≥ 128 then .error (.refused "variable name too long in $\x7b...\x7d")
  else
    (braceSubscript varName t).bind fun (assocSubscript, t) =>
      let (op, t) := braceOp lengthMode t
      let operand := t.takeWhile (· ≠ '}')
      if operand.length ≥ arkshMaxOutput then .error (tooLong "parameter expansion operand")
      else
        match t.dropWhile (· ≠ '}') with
        | [] => .error (.delimiter .parameterExpansion)
        | _ :: t => .ok (⟨lengthMode, assocKeyMode, varName, assocSubscript, op, operand⟩, t)

/-! ## 5. Values -/

def joinAssoc (texts : List Text) : Text := copyString arkshMaxOutput ([' '].intercalate texts)

def allElements (subscript : Text) : Bool := subscript = ['@'] || subscript = ['*']

def renderAssocValue (entries : List (Text × Option Text)) (subscript : Text) (keyMode : Bool) :
    Except ExpandError (Option Text × Nat) :=
  if allElements subscript then
    let texts := if keyMode then entries.map (·.1) else entries.map fun e => e.2.getD []
    .ok (some (joinAssoc texts), entries.length)
  else if keyMode then .ok (none, 0)
  else
    match entries.find? fun e => e.1 = subscript with
    | none => .ok (none, 0)
    | some (_, some text) => .ok (some text, 1)
    | some (_, none) => .error (.refused "unable to render associative array expansion")

def Braces.lookup (view : ShellView σ) (s : σ) (b : Braces) :
    Except ExpandError (Option Text × Nat) :=
  if b.assocSubscript.isSome || b.assocKeyMode then
    match (if b.varName = [] then none else view.assocBinding s b.varName) with
    | none => .ok (none, 0)
    | some entries =>
      match b.assocSubscript with
      | none => .error (.refused ("unsupported associative expansion: $\x7b!"
          ++ String.ofList b.varName ++ "\x7d"))
      | some subscript => renderAssocValue entries subscript b.assocKeyMode
  else .ok (lookupVarValue view s b.varName, 0)

/-- The pattern and the replacement of `${var/pat/repl}`. -/
def splitSubstitution (operand : Text) : Text × Text :=
  (operand.takeWhile (· ≠ '/'), (operand.dropWhile (· ≠ '/')).drop 1)

/-- The part of `resolve_variable` behind the closing brace. -/
def Braces.value (view : ShellView σ) (s : σ) (b : Braces) : Except ExpandError (Text × σ) :=
  (b.lookup view s).bind fun (found, count) =>
    let val := found.getD []
    if b.lengthMode then
      if b.assocSubscript.any allElements then .ok (decimal count, s) else .ok (decimal val.length, s)
    else
      match b.op with
      | none =>
        if view.optNounset s && found.isNone && b.varName.head? ≠ some '@'
            && b.varName.head? ≠ some '*' && b.varName.head? ≠ some '#' then
          .error (.refused (String.ofList b.varName ++ ": unbound variable"))
        else .ok (val, s)
      | some ⟨op, colonPrefix, doubled⟩ =>
        let trigger := found.isNone || (colonPrefix && val.isEmpty)
        match op with
        | .useDefault => .ok (if trigger then b.operand else val, s)
        | .assignDefault =>
          if trigger then .ok (b.operand, view.setVar s b.varName b.operand) else .ok (val, s)
        | .useAlternative => .ok (if trigger then [] else b.operand, s)
        | .indicateError =>
          if trigger then
            .error (.refused ((if b.varName ≠ [] then String.ofList b.varName else "parameter")
              ++ ": " ++
              (if b.operand ≠ [] then String.ofList b.operand else "parameter null or not set")))
          else .ok (val, s)
        | .trimSuffix => .ok (applySuffixTrim val b.operand doubled, s)
        | .trimPrefix => .ok (applyPrefixTrim val b.operand doubled, s)
        | .substitute =>
          let (pat, repl) := splitSubstitution b.operand
          match applyPatternSubst val pat repl doubled with
          | some out => .ok (out, s)
          | none => .error .endless

/-! ## 6. Behind a dollar -/

inductive Parameter where
  /-- One of the special parameters, or one digit. -/
  | single (c : Char)
  | name (name : Text)
  | braces (b : Braces)
  /-- Nothing that has a value: the dollar stands for itself. -/
  | dollar

def readParameter (t : Text) : Except ExpandError (Parameter × Text) :=
  match t with
  | [] => .ok (.dollar, [])
  | c :: rest =>
    if isSpecialParameter c || isdigit c then .ok (.single c, rest)
    else if c = '{' then (parseBraces rest).map fun (b, rest) => (.braces b, rest)
    else if isalpha c || c = '_' then
      let name := t.takeWhile isNameChar
      if name.length ≥ 128 then .error (tooLong "environment variable name")
      else .ok (.name name, t.dropWhile isNameChar)
    else .ok (.dollar, t)

/-- The other half. -/
def Parameter.value (view : ShellView σ) (s : σ) : Parameter → Except ExpandError (Text × σ)
  | .single c => .ok ((resolveSpecialName view s [c]).getD [], s)
  | .name varName =>
    match lookupVarValue view s varName with
    | some v => .ok (v, s)
    | none =>
      if view.optNounset s then .error (.refused (String.ofList varName ++ ": unbound variable"))
      else .ok ([], s)
  | .braces b => b.value view s
  | .dollar => .ok (['$'], s)

/-! ## 7. Where the braces end -/

def EndsAt (c : Char) (t rest : Text) : Prop := ∃ front, c ∉ front ∧ t = front ++ c :: rest

variable {c : Char}

theorem endsAt_iff : EndsAt c t rest ↔ t.dropWhile (· ≠ c) = c :: rest := by
  constructor
  · intro ⟨front, hfront, ht⟩
    have hpos : ∀ d ∈ front, decide (d ≠ c) = true := by
      intro d hd
      rw [decide_eq_true_eq]
      rintro rfl
      exact hfront hd
    rw [ht, dropWhile_append_of_pos hpos]
    exact dropWhile_cons_of_neg (by simp)
  · intro h
    refine ⟨t.takeWhile (· ≠ c), ?_, ?_⟩
    · intro hmem
      have := mem_takeWhile_imp hmem
      simp at this
    · rw [← h, takeWhile_append_dropWhile]

theorem endsAt_skip {seg : Text} (h : c ∉ seg) : EndsAt c (seg ++ t) rest ↔ EndsAt c t rest := by
  rw [endsAt_iff, endsAt_iff, dropWhile_append_of_pos]
  intro d hd
  rw [decide_eq_true_eq]
  rintro rfl
  exact h hd

theorem dropWhile_ne :
    t.dropWhile (· ≠ c) = [] ∨ ∃ rest, EndsAt c t rest ∧ t.dropWhile (· ≠ c) = c :: rest := by
  cases h : t.dropWhile (· ≠ c) with
  | nil => exact Or.inl rfl
  | cons d rest =>
    have hd := head?_dropWhile_not (· ≠ c) t
    rw [h] at hd
    obtain rfl : d = c := by simpa using hd
    exact Or.inr ⟨rest, endsAt_iff.mpr h, rfl⟩

/-- The text behind `${` has its closing brace in front of `rest`. A subscript may hold braces
    of its own. -/
inductive BracesEnd (t rest : Text) : Prop where
  | plain (hname : (braceHead t).2.2.1 = [] ∨ (braceHead t).2.2.2.head? ≠ some '[')
      (hend : EndsAt '}' (braceHead t).2.2.2 rest)
  | subscript {u v : Text} (hname : (braceHead t).2.2.1 ≠ [])
      (hopen : (braceHead t).2.2.2 = '[' :: u) (hclose : EndsAt ']' u v) (hend : EndsAt '}' v rest)

theorem plainOp_ne_brace {op : ParameterOp} (h : plainOp c = some op) : c ≠ '}' := by
  intro hc
  have hnone : plainOp '}' = none := by decide
  rw [hc, hnone] at h
  cases h

theorem doubleOp_reads (op : ParameterOp) (hc : c ≠ '}') (t : Text) :
    ∃ seg, '}' ∉ seg ∧ t = seg ++ (doubleOp op c t).2 := by
  unfold doubleOp
  split
  · split
    · rename_i d t hd
      refine ⟨[d], ?_, rfl⟩
      rw [mem_singleton, hd]
      exact hc.symm
    · exact ⟨[], not_mem_nil, rfl⟩
  · exact ⟨[], not_mem_nil, rfl⟩

theorem braceOp_reads (lengthMode : Bool) (t : Text) :
    ∃ seg, '}' ∉ seg ∧ t = seg ++ (braceOp lengthMode t).2 := by
  have hdouble : ∀ (op : ParameterOp) (c : Char) (t : Text), c ≠ '}' →
      ∃ seg, '}' ∉ seg ∧ c :: t = seg ++ (doubleOp op c t).2 := by
    intro op c t hc
    obtain ⟨seg, hseg, ht⟩ := doubleOp_reads op hc t
    refine ⟨c :: seg, ?_, congrArg (c :: ·) ht⟩
    rw [mem_cons, not_or]
    exact ⟨hc.symm, hseg⟩
  unfold braceOp
  split
  · exact ⟨[], not_mem_nil, rfl⟩
  rename_i c t
  split
  · rename_i hc
    split
    · rename_i d t
      split
      · rename_i hop
        refine ⟨[c, d], ?_, rfl⟩
        have hd := plainOp_ne_brace hop
        rw [hc]
        simpa using hd.symm
      · exact ⟨[], not_mem_nil, rfl⟩
    · rw [hc]; exact ⟨[], not_mem_nil, rfl⟩
  split
  · rename_i hop; exact ⟨[c], by simpa using (plainOp_ne_brace hop).symm, rfl⟩
  split
  · rename_i hc
    rw [hc]
    exact hdouble .trimSuffix '%' t (by decide)
  split
  · rename_i hc
    rw [hc.1]
    exact hdouble .trimPrefix '#' t (by decide)
  split
  · rename_i hc
    rw [hc]
    exact hdouble .substitute '/' t (by decide)
  · exact ⟨[], not_mem_nil, rfl⟩

theorem EndsAt.suffix (h : EndsAt c t rest) : c :: rest <:+ t := by
  obtain ⟨front, -, rfl⟩ := h
  exact suffix_append _ _

theorem braceHead_suffix (t : Text) : (braceHead t).2.2.2 <:+ t := by
  have hlength : ∀ t, (lengthPrefix t).2 <:+ t := by
    intro t
    unfold lengthPrefix
    split
    · split
      · exact suffix_cons _ _
      · exact suffix_rfl
    · exact suffix_rfl
  have hkey : ∀ t, (keyPrefix t).2 <:+ t := by
    intro t
    unfold keyPrefix
    split
    · split
      · exact suffix_cons _ _
      · exact suffix_rfl
    · exact suffix_rfl
  have hname : ∀ t, (braceName t).2 <:+ t := by
    intro t
    unfold braceName
    split
    · exact suffix_rfl
    split
    · exact dropWhile_suffix _
    split
    · exact dropWhile_suffix _
    split
    · exact suffix_cons _ _
    · exact suffix_rfl
  exact (hname _).trans ((hkey _).trans (hlength t))

theorem BracesEnd.length_lt (h : BracesEnd t rest) : rest.length < t.length := by
  have hhead := (braceHead_suffix t).length_le
  cases h with
  | plain _ hend =>
    have hle := hend.suffix.length_le
    rw [length_cons] at hle
    omega
  | subscript _ hopen hclose hend =>
    have hu := hclose.suffix.length_le
    have hv := hend.suffix.length_le
    rw [hopen] at hhead
    rw [length_cons] at hhead hu hv
    omega

theorem parseBraces_reads {b : Braces} (h : parseBraces t = .ok (b, rest)) : BracesEnd t rest := by
  unfold parseBraces at h
  dsimp only at h
  split at h
  · cases h
  obtain ⟨⟨subscript, u⟩, hsub, h⟩ := bind_ok.mp h
  split at h
  · cases h
  -- behind the subscript: the operator and the operand
  have hend : EndsAt '}' u rest := by
    obtain ⟨seg, hseg, hu⟩ := braceOp_reads (braceHead t).1 u
    rw [hu, endsAt_skip hseg]
    split at h
    · cases h
    · rename_i d w hdrop
      cases h
      rcases dropWhile_ne (c := '}') (t := (braceOp (braceHead t).1 u).2) with hnil | ⟨v, hv, heq⟩
      · rw [hnil] at hdrop; cases hdrop
      · rw [heq] at hdrop
        cases hdrop
        exact hv
  unfold braceSubscript at hsub
  split at hsub
  · rename_i w hopen
    split at hsub
    · rename_i hname
      cases hsub
      refine .plain (Or.inl hname) ?_
      rw [hopen]
      exact hend
    · rename_i hname
      dsimp only at hsub
      split at hsub
      · cases hsub
      split at hsub
      · cases hsub
      · rename_i d v hdrop
        cases hsub
        rcases dropWhile_ne (c := ']') (t := w) with hnil | ⟨v', hv, heq⟩
        · rw [hnil] at hdrop; cases hdrop
        · rw [heq] at hdrop
          cases hdrop
          exact .subscript hname hopen hv hend
  · rename_i hopen
    cases hsub
    refine .plain (Or.inr ?_) hend
    intro hhead
    obtain ⟨w, hw⟩ := head?_eq_some_iff.mp hhead
    exact hopen w hw

theorem parseBraces_of_end (h : BracesEnd t rest) :
    (∃ b, parseBraces t = .ok (b, rest)) ∨ ∃ message, parseBraces t = .error (.refused message) := by
  -- behind a subscript that is read, the end is found or the operand is too long
  have hbehind : ∀ {subscript : Option Text} {u : Text},
      braceSubscript (braceHead t).2.2.1 (braceHead t).2.2.2 = .ok (subscript, u) →
      EndsAt '}' u rest →
      (∃ b, parseBraces t = .ok (b, rest)) ∨
        ∃ message, parseBraces t = .error (.refused message) := by
    intro subscript u hsub hend
    obtain ⟨seg, hseg, hu⟩ := braceOp_reads (braceHead t).1 u
    have hdrop : (braceOp (braceHead t).1 u).2.dropWhile (· ≠ '}') = '}' :: rest := by
      rw [← endsAt_iff, ← endsAt_skip hseg, ← hu]
      exact hend
    unfold parseBraces
    dsimp only
    split
    · exact Or.inr ⟨_, rfl⟩
    rw [hsub]
    dsimp only [Except.bind]
    split
    · exact Or.inr ⟨_, rfl⟩
    · rw [hdrop]; exact Or.inl ⟨_, rfl⟩
  cases h with
  | plain hname hend =>
    refine @hbehind none _ ?_ hend
    unfold braceSubscript
    split
    · rename_i w hopen
      rcases hname with hname | hhead
      · rw [if_pos hname, hopen]
      · rw [hopen] at hhead; exact absurd rfl hhead
    · rfl
  | @subscript u v hname hopen hclose hend =>
    have hdrop := endsAt_iff.mp hclose
    by_cases hlong : (u.takeWhile (· ≠ ']')).length ≥ arkshMaxName
    · right
      unfold parseBraces
      dsimp only
      split
      · exact ⟨_, rfl⟩
      · refine ⟨"associative array key too long in ${...}", ?_⟩
        rw [hopen, braceSubscript, if_neg hname]
        rw [if_pos hlong]
        rfl
    · refine @hbehind (some (stripAssocKeyQuotes (u.takeWhile (· ≠ ']')))) v ?_ hend
      rw [hopen, braceSubscript, if_neg hname]
      rw [if_neg hlong, hdrop]

end Arksh
