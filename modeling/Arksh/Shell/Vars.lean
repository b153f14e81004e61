/-
  Subject: The variable tables of `src/shell.c`: the root table, the stack of scope frames, and
           the process environment that mirrors the exported variables.

  A name is looked up in the frames from the innermost on, then in the root table, then (where
  the caller asks for it) in the environment. A frame hides a name by an entry marked deleted.
  A write goes to the innermost frame, or to the root table where there is none.

  `setenv` and `unsetenv` are taken to succeed, as is every allocation.
-/
import Arksh.Lib.NameTable
import Arksh.Object.Value

namespace Arksh

open CText Tables List

/-! ## 1. The tables -/

def arkshMaxVarName : Nat := 64
def arkshMaxVarValue : Nat := 1024
def arkshMaxShellVars : Nat := 64
def arkshMaxValueBindings : Nat := 64

instance : NeZero arkshMaxVarName := ⟨by decide⟩

structure ArkshShellVar where
  value : Text
  exported : Bool
  deriving DecidableEq

structure ArkshScopedVar where
  value : Text
  exported : Bool
  deleted : Bool
  deriving DecidableEq

structure ArkshScopedBinding where
  value : ArkshValue
  deleted : Bool

abbrev VarTable (E : Type) := NameTable arkshMaxVarName arkshMaxShellVars E

/-- `positional` is `none` where `has_positional` is not set. -/
structure ArkshScopeFrame where
  vars : VarTable ArkshScopedVar
  bindings : NameTable arkshMaxVarName arkshMaxValueBindings ArkshScopedBinding
  positional : Option (List Text)

/-- What `calloc` leaves in a new frame. -/
def emptyFrame : ArkshScopeFrame := ⟨.empty, .empty, none⟩

/-- The process environment. -/
abbrev Env := Text → Option Text

def setProcessEnv (env : Env) (name value : Text) : Env := Function.update env name (some value)

def unsetProcessEnv (env : Env) (name : Text) : Env := Function.update env name none

/-- The tables of an `ArkshShell` for variables, bindings and positional parameters, with the
    environment. The first of `frames` is `shell->scope_frame`. -/
structure VarStore where
  vars : VarTable ArkshShellVar
  bindings : NameTable arkshMaxVarName arkshMaxValueBindings ArkshValue
  positional : List Text
  frames : List ArkshScopeFrame
  env : Env

def isValidIdentifier (name : Text) : Bool :=
  match name with
  | [] => false
  | c :: rest => (isalpha c || c = '_') && rest.all fun c => isalnum c || c = '_'

/-- What `lookup_visible_var` reports. -/
structure VisibleVar where
  value : Option Text
  exported : Bool
  found : Bool
  deriving DecidableEq

def lookupVisibleVar (sh : VarStore) (start : List ArkshScopeFrame) (name : Text)
    (includeProcessEnv : Bool) : VisibleVar :=
  match start.findSome? (·.vars.find name) with
  | some entry =>
    if entry.deleted then ⟨none, false, true⟩ else ⟨some entry.value, entry.exported, true⟩
  | none =>
    match sh.vars.find name with
    | some entry => ⟨some entry.value, entry.exported, true⟩
    | none =>
      match (if includeProcessEnv then sh.env name else none) with
      | some value => ⟨some value, true, true⟩
      | none => ⟨none, false, false⟩

def arkshShellGetVar (sh : VarStore) (name : Text) : Option Text :=
  if name = [] then none
  else
    let visible := lookupVisibleVar sh sh.frames name true
    if visible.found then visible.value else none

def syncVisibleVarEnv (sh : VarStore) (name : Text) : VarStore :=
  let visible := lookupVisibleVar sh sh.frames name false
  match visible.value with
  | some value =>
    if visible.found && visible.exported then { sh with env := setProcessEnv sh.env name value }
    else { sh with env := unsetProcessEnv sh.env name }
  | none => { sh with env := unsetProcessEnv sh.env name }

def arkshShellPushScopeFrame (sh : VarStore) : VarStore :=
  { sh with frames := emptyFrame :: sh.frames }

def arkshShellPopScopeFrame (sh : VarStore) : VarStore :=
  match sh.frames with
  | [] => sh
  | frame :: previous =>
    frame.vars.names.foldl syncVisibleVarEnv { sh with frames := previous }

def arkshShellSetVar (sh : VarStore) (name value : Text) (exported : Bool) : Nat × VarStore :=
  if ¬ isValidIdentifier name then (1, sh)
  else
    let stored := copyString arkshMaxVarValue value
    match sh.frames with
    | frame :: previous =>
      let visible := lookupVisibleVar sh previous name false
      let effectiveExported (entry : Option ArkshScopedVar) : Bool :=
        exported || entry.any (·.exported) || (visible.found && visible.exported)
      match frame.vars.store name fun entry => ⟨stored, effectiveExported entry, false⟩ with
      | none => (1, sh)
      | some vars =>
        (0, { sh with
          frames := { frame with vars := vars } :: previous
          env := if effectiveExported (frame.vars.find name) then setProcessEnv sh.env name stored
            else sh.env })
    | [] =>
      let effectiveExported (entry : Option ArkshShellVar) : Bool :=
        exported || entry.any (·.exported)
      match sh.vars.store name fun entry => ⟨stored, effectiveExported entry⟩ with
      | none => (1, sh)
      | some vars =>
        (0, { sh with
          vars := vars
          env := if effectiveExported (sh.vars.find name) then setProcessEnv sh.env name stored
            else sh.env })

def arkshShellUnsetVar (sh : VarStore) (name : Text) : Nat × VarStore :=
  if ¬ isValidIdentifier name then (1, sh)
  else
    match sh.frames with
    | frame :: previous =>
      match frame.vars.store name fun _ => ⟨[], false, true⟩ with
      | none => (1, sh)
      | some vars =>
        (0, syncVisibleVarEnv { sh with frames := { frame with vars := vars } :: previous } name)
    | [] => (0, { sh with vars := sh.vars.remove name, env := unsetProcessEnv sh.env name })

def initializeDefaultVariables (cwd : Text) (sh : VarStore) : VarStore :=
  let sh := (arkshShellSetVar sh "PWD".toList cwd true).2
  let sh :=
    match sh.env "HOME".toList with
    | none | some [] => sh
    | some home => (arkshShellSetVar sh "HOME".toList home true).2
  let sh :=
    match sh.env "PATH".toList with
    | none | some [] => sh
    | some path => (arkshShellSetVar sh "PATH".toList path true).2
  let sh := (arkshShellSetVar sh "IFS".toList " \t\n".toList false).2
  (arkshShellSetVar sh "PS4".toList "+ ".toList false).2

def startStore (cwd : Text) (env : Env) : VarStore :=
  initializeDefaultVariables cwd ⟨.empty, .empty, [], [], env⟩

/-! ## 2. What a call reads and changes -/

/-- The names of the table a write goes to. -/
def VarStore.topNames (sh : VarStore) : List Text :=
  match sh.frames with
  | frame :: _ => frame.vars.names
  | [] => sh.vars.names

def VarStore.Accepts (sh : VarStore) (name : Text) : Prop :=
  isValidIdentifier name = true ∧ Tables.Accepts arkshMaxShellVars sh.topNames name

instance (sh : VarStore) (name : Text) : Decidable (sh.Accepts name) := by
  unfold VarStore.Accepts
  infer_instance

/-- The flag a write leaves: it raises that of the entry, and in a frame the one visible outside. -/
def VarStore.effectiveExported (sh : VarStore) (name : Text) (exported : Bool) : Bool :=
  match sh.frames with
  | frame :: previous =>
    let visible := lookupVisibleVar sh previous name false
    exported || (frame.vars.find name).any (·.exported) || (visible.found && visible.exported)
  | [] => exported || (sh.vars.find name).any (·.exported)

variable {sh : VarStore} {n m v : Text} {e : Bool}

theorem setVar_cases (sh : VarStore) (n v : Text) (e : Bool) :
    (¬ sh.Accepts n ∧ arkshShellSetVar sh n v e = (1, sh)) ∨
    (sh.Accepts n ∧ ∃ frame previous vars update, sh.frames = frame :: previous ∧
      frame.vars.store n update = some vars ∧
      update (frame.vars.find n) =
        ⟨copyString arkshMaxVarValue v, sh.effectiveExported n e, false⟩ ∧
      arkshShellSetVar sh n v e = (0, { sh with
        frames := { frame with vars := vars } :: previous
        env := if sh.effectiveExported n e then
            setProcessEnv sh.env n (copyString arkshMaxVarValue v) else sh.env })) ∨
    (sh.Accepts n ∧ ∃ vars update, sh.frames = [] ∧ sh.vars.store n update = some vars ∧
      update (sh.vars.find n) = ⟨copyString arkshMaxVarValue v, sh.effectiveExported n e⟩ ∧
      arkshShellSetVar sh n v e = (0, { sh with
        vars := vars
        env := if sh.effectiveExported n e then
            setProcessEnv sh.env n (copyString arkshMaxVarValue v) else sh.env })) := by
  unfold arkshShellSetVar VarStore.Accepts VarStore.topNames VarStore.effectiveExported
  by_cases hn : isValidIdentifier n = true
  · rw [if_neg fun h => h hn]
    cases hf : sh.frames with
    | cons frame previous =>
      dsimp only
      split
      · rename_i hs
        left
        exact ⟨fun h => NameTable.store_eq_none.mp hs h.2, rfl⟩
      · rename_i vars hs
        right
        left
        exact ⟨⟨hn, NameTable.accepts_of_store hs⟩, frame, previous, vars, _, rfl, hs, rfl, rfl⟩
    | nil =>
      dsimp only
      split
      · rename_i hs
        left
        exact ⟨fun h => NameTable.store_eq_none.mp hs h.2, rfl⟩
      · rename_i vars hs
        right
        right
        exact ⟨⟨hn, NameTable.accepts_of_store hs⟩, vars, _, rfl, hs, rfl, rfl⟩
  · rw [if_pos hn]
    left
    exact ⟨fun h => hn h.1, rfl⟩

theorem setVar_of_not_accepts (h : ¬ sh.Accepts n) : arkshShellSetVar sh n v e = (1, sh) := by
  rcases setVar_cases sh n v e with ⟨_, hr⟩ | ⟨hacc, _⟩ | ⟨hacc, _⟩
  · exact hr
  · exact absurd hacc h
  · exact absurd hacc h

theorem setVar_status : (arkshShellSetVar sh n v e).1 = 0 ↔ sh.Accepts n := by
  rcases setVar_cases sh n v e with ⟨hno, hr⟩ | ⟨hacc, _, _, _, _, _, _, _, hr⟩ |
    ⟨hacc, _, _, _, _, _, hr⟩
  · rw [hr]; exact ⟨fun h => absurd h Nat.one_ne_zero, fun h => absurd h hno⟩
  · rw [hr]; exact ⟨fun _ => hacc, fun _ => rfl⟩
  · rw [hr]; exact ⟨fun _ => hacc, fun _ => rfl⟩

theorem setVar_env : (arkshShellSetVar sh n v e).2.env =
      if sh.Accepts n ∧ sh.effectiveExported n e = true then
        setProcessEnv sh.env n (copyString arkshMaxVarValue v) else sh.env := by
  rcases setVar_cases sh n v e with ⟨hno, hr⟩ | ⟨hacc, _, _, _, _, _, _, _, hr⟩ |
    ⟨hacc, _, _, _, _, _, hr⟩
  · rw [hr, if_neg fun h => hno h.1]
  · simp only [hr, hacc, true_and]
  · simp only [hr, hacc, true_and]

theorem setVar_env_of_ne (h : m ≠ n) : (arkshShellSetVar sh n v e).2.env m = sh.env m := by
  rw [setVar_env]
  split
  · exact Function.update_of_ne h _ _
  · rfl

theorem lookup_of_le {start : List ArkshScopeFrame} (h : arkshMaxVarName ≤ n.length) :
    lookupVisibleVar sh start n false = ⟨none, false, false⟩ := by
  have hframes : start.findSome? (·.vars.find n) = none :=
    findSome?_eq_none_iff.mpr fun frame _ => NameTable.find_of_le h
  have hvars : sh.vars.find n = none := NameTable.find_of_le h
  unfold lookupVisibleVar
  rw [hframes, hvars]
  rfl

theorem effectiveExported_of_le (h : arkshMaxVarName ≤ n.length) :
    sh.effectiveExported n e = e := by
  unfold VarStore.effectiveExported
  split
  · rename_i frame previous _
    have hfind : frame.vars.find n = none := NameTable.find_of_le h
    simp [lookup_of_le h, hfind]
  · have hfind : sh.vars.find n = none := NameTable.find_of_le h; simp [hfind]

/-- **A successful write of a name that fits is what is visible under it.** -/
theorem setVar_lookup_self {b : Bool} (h : sh.Accepts n) (hn : n.length < arkshMaxVarName) :
    lookupVisibleVar (arkshShellSetVar sh n v e).2 (arkshShellSetVar sh n v e).2.frames n b =
      ⟨some (copyString arkshMaxVarValue v), sh.effectiveExported n e, true⟩ := by
  rcases setVar_cases sh n v e with ⟨hno, _⟩ | ⟨_, frame, previous, vars, update, _, hs, hup, hr⟩ |
    ⟨_, vars, update, hf, hs, hup, hr⟩
  · exact absurd h hno
  · have hfind := NameTable.find_store_self hs hn
    rw [hup] at hfind
    rw [hr]
    simp [lookupVisibleVar, hfind]
  · have hfind := NameTable.find_store_self hs hn
    rw [hup] at hfind
    rw [hr]
    simp [lookupVisibleVar, hf, hfind]

theorem setVar_lookup_of_ne {b : Bool} (hm : m ≠ n)
    (hcut : m ≠ copyString arkshMaxVarName n ∨ m ∈ sh.topNames) :
    lookupVisibleVar (arkshShellSetVar sh n v e).2 (arkshShellSetVar sh n v e).2.frames m b =
      lookupVisibleVar sh sh.frames m b := by
  have henv : (arkshShellSetVar sh n v e).2.env m = sh.env m := setVar_env_of_ne hm
  rcases setVar_cases sh n v e with ⟨_, hr⟩ | ⟨_, frame, previous, vars, update, hf, hs, _, hr⟩ |
    ⟨_, vars, update, hf, hs, _, hr⟩
  · rw [hr]
  · rw [VarStore.topNames, hf] at hcut
    have hfind := NameTable.find_store_of_ne hs hm hcut
    rw [hr] at henv ⊢
    dsimp only at henv ⊢
    unfold lookupVisibleVar
    dsimp only
    rw [hf, findSome?_cons, findSome?_cons, hfind, henv]
  · rw [VarStore.topNames, hf] at hcut
    have hfind := NameTable.find_store_of_ne hs hm hcut
    rw [hr] at henv ⊢
    dsimp only at henv ⊢
    unfold lookupVisibleVar
    dsimp only
    rw [hf, hfind, henv]

/-- What the environment of a child should hold for a name: the visible value, where it is
    exported. -/
def VarStore.exportedValue (sh : VarStore) (start : List ArkshScopeFrame) (name : Text) :
    Option Text :=
  let visible := lookupVisibleVar sh start name false
  if visible.found && visible.exported then visible.value else none

theorem syncVisibleVarEnv_eq (sh : VarStore) (n : Text) :
    syncVisibleVarEnv sh n =
      { sh with env := Function.update sh.env n (sh.exportedValue sh.frames n) } := by
  unfold syncVisibleVarEnv VarStore.exportedValue
  dsimp only
  cases (lookupVisibleVar sh sh.frames n false).value with
  | none => simp only [ite_self]; rfl
  | some value =>
    dsimp only
    split <;> rfl

/-- An unset is refused, marks the name deleted in the innermost frame, or takes it out of the root
    table. -/
theorem unsetVar_cases (sh : VarStore) (n : Text) :
    ((isValidIdentifier n = false ∨ sh.frames ≠ [] ∧ ¬ sh.Accepts n) ∧
      arkshShellUnsetVar sh n = (1, sh)) ∨
    (sh.Accepts n ∧ ∃ frame previous vars, sh.frames = frame :: previous ∧
      frame.vars.store n (fun _ => ⟨[], false, true⟩) = some vars ∧
      arkshShellUnsetVar sh n =
        (0, syncVisibleVarEnv { sh with frames := { frame with vars := vars } :: previous } n)) ∨
    (isValidIdentifier n = true ∧ sh.frames = [] ∧
      arkshShellUnsetVar sh n =
        (0, { sh with vars := sh.vars.remove n, env := unsetProcessEnv sh.env n })) := by
  unfold arkshShellUnsetVar VarStore.Accepts VarStore.topNames
  by_cases hn : isValidIdentifier n = true
  · rw [if_neg fun h => h hn]
    cases hf : sh.frames with
    | cons frame previous =>
      dsimp only
      split
      · rename_i hs
        left
        exact ⟨Or.inr ⟨cons_ne_nil _ _, fun h => NameTable.store_eq_none.mp hs h.2⟩, rfl⟩
      · rename_i vars hs
        right
        left
        exact ⟨⟨hn, NameTable.accepts_of_store hs⟩, frame, previous, vars, rfl, hs, rfl⟩
    | nil =>
      right
      right
      exact ⟨hn, rfl, rfl⟩
  · rw [if_pos hn]
    left
    exact ⟨Or.inl (by simpa using hn), rfl⟩

variable {frame : ArkshScopeFrame} {previous : List ArkshScopeFrame}

theorem popScopeFrame_cons (h : sh.frames = frame :: previous) :
    arkshShellPopScopeFrame sh =
      frame.vars.names.foldl syncVisibleVarEnv { sh with frames := previous } := by
  unfold arkshShellPopScopeFrame
  rw [h]

theorem exportedValue_env (sh : VarStore) (env : Env) (start : List ArkshScopeFrame) (n : Text) :
    VarStore.exportedValue { sh with env := env } start n = sh.exportedValue start n := rfl

/-- The loop of a pop writes the environment entries of the names it goes through, and nothing
    else. -/
theorem sync_all (names : List Text) : ∀ sh : VarStore,
    names.foldl syncVisibleVarEnv sh =
      { sh with env := fun m =>
          if m ∈ names then sh.exportedValue sh.frames m else sh.env m } := by
  induction names with
  | nil => intro sh; simp
  | cons n names ih =>
    intro sh
    rw [foldl_cons, ih, syncVisibleVarEnv_eq]
    dsimp only
    congr 1
    funext m
    rw [exportedValue_env]
    by_cases hm : m ∈ names
    · rw [if_pos hm, if_pos (mem_cons_of_mem n hm)]
    · rw [if_neg hm]
      by_cases hmn : m = n
      · rw [hmn, Function.update_self, if_pos mem_cons_self]
      · rw [Function.update_of_ne hmn, if_neg fun h => (mem_cons.mp h).elim hmn hm]

/-- **A pop gives the tables back and sets the environment entry of every name of the frame.** -/
theorem popScopeFrame_eq (h : sh.frames = frame :: previous) :
    arkshShellPopScopeFrame sh =
      { sh with
        frames := previous
        env := fun m =>
          if m ∈ frame.vars.names then sh.exportedValue previous m else sh.env m } := by
  rw [popScopeFrame_cons h, sync_all]
  rfl

/-! ## 3. No name twice in a table -/

/-- No table holds two entries under one name. -/
def VarStore.Distinct (sh : VarStore) : Prop :=
  sh.vars.names.Nodup ∧ ∀ frame ∈ sh.frames, frame.vars.names.Nodup

section

variable (h : sh.Distinct)
include h

theorem setVar_distinct (hn : sh.Accepts n → n.length < arkshMaxVarName) :
    (arkshShellSetVar sh n v e).2.Distinct := by
  rcases setVar_cases sh n v e with ⟨_, hr⟩ | ⟨hacc, frame, previous, vars, _, hf, hs, _, hr⟩ |
    ⟨hacc, vars, _, hf, hs, _, hr⟩
  · rw [hr]; exact h
  · rw [hr]
    obtain ⟨hroot, hframes⟩ := h
    rw [hf] at hframes
    refine ⟨hroot, ?_⟩
    intro fr hfr
    rcases mem_cons.mp hfr with rfl | hfr
    · show vars.names.Nodup
      rw [NameTable.names_store hs]
      exact nodup_enter (hn hacc) (hframes frame mem_cons_self)
    · exact hframes fr (mem_cons_of_mem frame hfr)
  · rw [hr]
    refine ⟨?_, h.2⟩
    show vars.names.Nodup
    rw [NameTable.names_store hs]
    exact nodup_enter (hn hacc) h.1

theorem unsetVar_distinct (hn : sh.Accepts n → n.length < arkshMaxVarName) :
    (arkshShellUnsetVar sh n).2.Distinct := by
  rcases unsetVar_cases sh n with ⟨_, hr⟩ | ⟨hacc, frame, previous, vars, hf, hs, hr⟩ |
    ⟨_, hf, hr⟩
  · rw [hr]; exact h
  · rw [hr, syncVisibleVarEnv_eq]
    obtain ⟨hroot, hframes⟩ := h
    rw [hf] at hframes
    refine ⟨hroot, ?_⟩
    intro fr hfr
    rcases mem_cons.mp hfr with rfl | hfr
    · show vars.names.Nodup
      rw [NameTable.names_store hs]
      exact nodup_enter (hn hacc) (hframes frame mem_cons_self)
    · exact hframes fr (mem_cons_of_mem frame hfr)
  · rw [hr]
    refine ⟨?_, h.2⟩
    show (sh.vars.remove n).names.Nodup
    rw [NameTable.names_remove]
    exact h.1.erase n

theorem pushScopeFrame_distinct : (arkshShellPushScopeFrame sh).Distinct := by
  refine ⟨h.1, ?_⟩
  intro frame hframe
  rcases mem_cons.mp hframe with rfl | hframe
  · exact nodup_nil
  · exact h.2 frame hframe

theorem popScopeFrame_distinct : (arkshShellPopScopeFrame sh).Distinct := by
  cases hf : sh.frames with
  | nil =>
    unfold arkshShellPopScopeFrame
    rw [hf]
    exact h
  | cons frame previous =>
    rw [popScopeFrame_eq hf]
    refine ⟨h.1, ?_⟩
    intro fr hfr
    apply h.2
    rw [hf]
    exact mem_cons_of_mem frame hfr

end

/-! ## 4. Runs of calls, and the law of a store -/

inductive VarCall where
  | set (name value : Text) (exported : Bool)
  | unset (name : Text)
  | push
  | pop

def VarCall.run : VarCall → VarStore → VarStore
  | .set name value exported, sh => (arkshShellSetVar sh name value exported).2
  | .unset name, sh => (arkshShellUnsetVar sh name).2
  | .push, sh => arkshShellPushScopeFrame sh
  | .pop, sh => arkshShellPopScopeFrame sh

inductive VarStore.Reachable (cwd : Text) (env : Env) : VarStore → Prop where
  | start : Reachable cwd env (startStore cwd env)
  | call (sh : VarStore) (c : VarCall) (h : Reachable cwd env sh) : Reachable cwd env (c.run sh)

def VarCall.Fits (sh : VarStore) : VarCall → Prop
  | .set name value _ =>
    sh.Accepts name → name.length < arkshMaxVarName ∧ value.length < arkshMaxVarValue
  | .unset name => sh.Accepts name → name.length < arkshMaxVarName
  | .push => True
  | .pop => True

inductive VarStore.FittingRun (cwd : Text) (env : Env) : VarStore → Prop where
  | start : FittingRun cwd env (startStore cwd env)
  | call (sh : VarStore) (c : VarCall) (h : FittingRun cwd env sh) (hfits : c.Fits sh) :
      FittingRun cwd env (c.run sh)

/-- The law of a store, for one write: what was written is read back and nothing else changes; an
    exported name is in the environment; no name is held twice; a failed write changes nothing. -/
structure SetVarLaw (sh : VarStore) (name value : Text) (exported : Bool) : Prop where
  readBack : (arkshShellSetVar sh name value exported).1 = 0 →
    arkshShellGetVar (arkshShellSetVar sh name value exported).2 name = some value
  others : (arkshShellSetVar sh name value exported).1 = 0 → ∀ m, m ≠ name →
    let sh' := (arkshShellSetVar sh name value exported).2
    lookupVisibleVar sh' sh'.frames m true = lookupVisibleVar sh sh.frames m true
  environment : (arkshShellSetVar sh name value exported).1 = 0 →
    let sh' := (arkshShellSetVar sh name value exported).2
    (lookupVisibleVar sh' sh'.frames name false).exported = true → sh'.env name = some value
  distinct : (arkshShellSetVar sh name value exported).1 = 0 →
    (arkshShellSetVar sh name value exported).2.Distinct
  failed : (arkshShellSetVar sh name value exported).1 ≠ 0 →
    (arkshShellSetVar sh name value exported).2 = sh

theorem call_distinct {c : VarCall} (h : sh.Distinct) (hfits : c.Fits sh) :
    (c.run sh).Distinct := by
  cases c with
  | set name value exported => exact setVar_distinct h fun hacc => (hfits hacc).1
  | unset name => exact unsetVar_distinct h hfits
  | push => exact pushScopeFrame_distinct h
  | pop => exact popScopeFrame_distinct h

theorem startStore_distinct (cwd : Text) (env : Env) : (startStore cwd env).Distinct := by
  have hset : ∀ (sh : VarStore) (name value : Text) (exported : Bool), sh.Distinct →
      name.length < arkshMaxVarName → (arkshShellSetVar sh name value exported).2.Distinct :=
    fun sh name value exported h hn => setVar_distinct h fun _ => hn
  apply hset _ _ _ _ _ (by decide)
  apply hset _ _ _ _ _ (by decide)
  have hroot : VarStore.Distinct ⟨.empty, .empty, [], [], env⟩ :=
    ⟨nodup_nil, fun _ h => absurd h not_mem_nil⟩
  have hpwd := hset _ "PWD".toList cwd true hroot (by decide)
  split
  · split
    · exact hpwd
    · exact hpwd
    · exact hset _ _ _ _ hpwd (by decide)
  · split
    · exact hpwd
    · exact hpwd
    · exact hset _ _ _ _ hpwd (by decide)
  · split
    · exact hset _ _ _ _ hpwd (by decide)
    · exact hset _ _ _ _ hpwd (by decide)
    · exact hset _ _ _ _ (hset _ _ _ _ hpwd (by decide)) (by decide)

/-- **The invariant of a run whose calls fit.** -/
theorem VarStore.FittingRun.distinct {cwd : Text} {env : Env} (h : FittingRun cwd env sh) :
    sh.Distinct := by
  induction h with
  | start => exact startStore_distinct cwd env
  | call sh c _ hfits ih => exact call_distinct ih hfits

theorem getVar_of_lookup {value : Text} {exported : Bool} (hn : n ≠ [])
    (h : lookupVisibleVar sh sh.frames n true = ⟨some value, exported, true⟩) :
    arkshShellGetVar sh n = some value := by
  unfold arkshShellGetVar
  rw [if_neg hn, h]
  rfl

theorem ne_nil_of_valid (h : isValidIdentifier n = true) : n ≠ [] := by
  intro he
  rw [he] at h
  cases h

theorem setVarLaw_of_fits (hd : sh.Distinct)
    (hfits : sh.Accepts n → n.length < arkshMaxVarName ∧ v.length < arkshMaxVarValue) :
    SetVarLaw sh n v e where
  readBack h := by
    have hacc := setVar_status.mp h
    obtain ⟨hn, hv⟩ := hfits hacc
    have hlook := @setVar_lookup_self sh n v e true hacc hn
    rw [copyString_of_lt hv] at hlook
    exact getVar_of_lookup (ne_nil_of_valid hacc.1) hlook
  others h m hm := by
    obtain ⟨hn, _⟩ := hfits (setVar_status.mp h)
    apply setVar_lookup_of_ne hm
    rw [copyString_of_lt hn]
    exact Or.inl hm
  environment h := by
    have hacc := setVar_status.mp h
    obtain ⟨hn, hv⟩ := hfits hacc
    intro sh' hexp
    rw [setVar_lookup_self hacc hn] at hexp
    show (arkshShellSetVar sh n v e).2.env n = some v
    rw [setVar_env, if_pos ⟨hacc, hexp⟩, copyString_of_lt hv]
    exact Function.update_self n (some v) sh.env
  distinct h := setVar_distinct hd fun hacc => (hfits hacc).1
  failed h := by
    rw [setVar_of_not_accepts fun hacc => h (setVar_status.mpr hacc)]

/-- **In every run from start-up whose calls fit, a write that fits obeys the law of a store.** -/
theorem setVarLaw_run {cwd : Text} {env : Env} (hrun : VarStore.FittingRun cwd env sh)
    (hfits : (VarCall.set n v e).Fits sh) : SetVarLaw sh n v e :=
  setVarLaw_of_fits hrun.distinct hfits

/-- A process environment that holds nothing. -/
def noEnv : Env := fun _ => none

theorem setVarLaw_first_write :
    SetVarLaw (startStore "/".toList noEnv) "A".toList "1".toList true :=
  setVarLaw_run .start fun _ => ⟨by decide, by decide⟩

theorem not_setVarLaw_of_value (hacc : sh.Accepts n) (hn : n.length < arkshMaxVarName)
    (hv : arkshMaxVarValue ≤ v.length) : ¬ SetVarLaw sh n v e := by
  intro hlaw
  have hread := hlaw.readBack (setVar_status.mpr hacc)
  rw [getVar_of_lookup (ne_nil_of_valid hacc.1) (setVar_lookup_self hacc hn)] at hread
  exact copyString_ne (by decide) hv (Option.some.inj hread)

theorem not_setVarLaw_of_name (hacc : sh.Accepts n) (hn : arkshMaxVarName ≤ n.length)
    (henv : sh.env n = none) : ¬ SetVarLaw sh n v false := by
  intro hlaw
  have hread := hlaw.readBack (setVar_status.mpr hacc)
  have henv' : (arkshShellSetVar sh n v false).2.env n = none := by
    rw [setVar_env, effectiveExported_of_le hn, if_neg fun h => Bool.false_ne_true h.2, henv]
  have hlook := @lookup_of_le (arkshShellSetVar sh n v false).2 n
    (arkshShellSetVar sh n v false).2.frames hn
  unfold arkshShellGetVar at hread
  rw [if_neg (ne_nil_of_valid hacc.1)] at hread
  unfold lookupVisibleVar at hread hlook
  rw [henv'] at hread
  simp only [Bool.false_eq_true, if_false, ite_self] at hread hlook
  rw [hlook] at hread
  cases hread

/-- The law fails in the store of start-up: a value of 1024 bytes, a name of 64 bytes. -/
theorem not_setVarLaw_long :
    let sh := startStore "/".toList noEnv
    sh.Reachable "/".toList noEnv ∧
    ¬ SetVarLaw sh "A".toList (List.replicate 1024 'x') false ∧
    ¬ SetVarLaw sh (List.replicate 64 'a') "1".toList false := by
  intro sh
  refine ⟨.start, ?_, ?_⟩
  · have hacc : sh.Accepts "A".toList := by decide
    exact not_setVarLaw_of_value hacc (by decide) (by rw [length_replicate]; decide)
  · have hacc : sh.Accepts (List.replicate 64 'a') := by decide
    exact not_setVarLaw_of_name hacc (by rw [length_replicate]; decide) (by decide)

end Arksh
