/-
  Subject: `${name=word}` of `resolve_variable` in `src/expand.c`: what `${name}` is afterwards.

  The word is written with one call of `arksh_shell_set_var`, whose status nobody looks at. It is
  read back through the names that are special, through namerefs, or from an array; so it comes
  back only where all of these lead to the entry that was written.
-/
import Arksh.Exec.Builtins
import Arksh.Lib.Chain

namespace Arksh

open CText Tables Chain Option List Bool

/-! ## 1. The shell -/

/-- What the expander reads from an `ArkshShell` and from its process. -/
structure ExpandShell where
  store : VarStore
  lastStatus : Int
  shellPid : Int
  lastBgPid : Int
  parentPid : Int
  processId : Int
  currentSourceLine : Nat
  functionName : Option Text
  currentSourcePath : Text
  programPath : Text
  optNounset : Bool

/-- The positional parameters of the nearest frame that has any, or else those of the shell. -/
def VarStore.positionalParams (sh : VarStore) : List Text :=
  (sh.frames.findSome? (·.positional)).getD sh.positional

section

variable (render : ArkshValueItem → Option Text)
  (execute : ExpandShell → Text → Text × ExpandShell)

def arrayEntries (binding : ArkshValue) : Option (List (Text × Option Text)) :=
  if binding.kind = .dict then some (binding.map.map fun e => (e.key.1, render e.value)) else none

/-- How the expander sees a shell; `render` is `arksh_value_item_render`, `execute` runs a
    command. -/
def shellView : ShellView ExpandShell where
  lastStatus s := s.lastStatus
  shellPid s := s.shellPid
  lastBgPid s := s.lastBgPid
  parentPid s := s.parentPid
  processId s := s.processId
  currentSourceLine s := s.currentSourceLine
  functionName s := s.functionName
  currentSourcePath s := s.currentSourcePath
  programPath s := s.programPath
  optNounset s := s.optNounset
  positional s := s.store.positionalParams
  getVar s := arkshShellGetVar s.store
  setVar s name value := { s with store := (arkshShellSetVar s.store name value false).2 }
  assocBinding s name := (arkshShellGetBinding s.store name).bind (arrayEntries render)
  executeCommand := execute

end

/-! ## 2. What a write shows -/

variable {sh : VarStore} {n m v : Text}

/-- The name under which a write of `n` is visible: one that does not fit is cut. -/
def entryWritten (sh : VarStore) (n : Text) : Option Text :=
  if sh.Accepts n ∧
      (n.length < arkshMaxVarName ∨ copyString arkshMaxVarName n ∉ sh.topNames) then
    some (copyString arkshMaxVarName n)
  else none

theorem setVar_kept (sh : VarStore) (n v : Text) (e : Bool) :
    (arkshShellSetVar sh n v e).2.bindings = sh.bindings ∧
    (arkshShellSetVar sh n v e).2.positional = sh.positional ∧
    (arkshShellSetVar sh n v e).2.frames.map (fun f => (f.bindings, f.positional)) =
      sh.frames.map fun f => (f.bindings, f.positional) := by
  rcases setVar_cases sh n v e with ⟨_, hr⟩ | ⟨_, frame, previous, vars, _, hf, _, _, hr⟩ |
    ⟨_, vars, _, hf, _, _, hr⟩
  · rw [hr]; exact ⟨rfl, rfl, rfl⟩
  · rw [hr, hf]; exact ⟨rfl, rfl, rfl⟩
  · rw [hr]; exact ⟨rfl, rfl, rfl⟩

theorem getVar_of_le (hn : arkshMaxVarName ≤ n.length) : arkshShellGetVar sh n = sh.env n := by
  have hne : n ≠ [] := by rintro rfl; exact absurd hn (by decide)
  have hframes : sh.frames.findSome? (·.vars.find n) = none :=
    findSome?_eq_none_iff.mpr fun frame _ => NameTable.find_of_le hn
  have hvars : sh.vars.find n = none := NameTable.find_of_le hn
  unfold arkshShellGetVar lookupVisibleVar
  rw [if_neg hne, hframes, hvars]
  cases sh.env n <;> rfl

theorem setVar_lookup_cut (h : sh.Accepts n) (hn : arkshMaxVarName ≤ n.length)
    (hcut : copyString arkshMaxVarName n ∉ sh.topNames) :
    lookupVisibleVar (arkshShellSetVar sh n v false).2 (arkshShellSetVar sh n v false).2.frames
      (copyString arkshMaxVarName n) true =
      ⟨some (copyString arkshMaxVarValue v), false, true⟩ := by
  have hflag := @effectiveExported_of_le sh n false hn
  rcases setVar_cases sh n v false with ⟨hno, _⟩ |
    ⟨_, frame, previous, vars, update, hf, hs, hup, hr⟩ | ⟨_, vars, update, hf, hs, hup, hr⟩
  · exact absurd h hno
  · rw [VarStore.topNames, hf] at hcut
    have hfind := NameTable.find_store_cut hs (NameTable.not_mem_of_le hn) hcut
    rw [NameTable.find_of_le hn] at hup
    rw [hup, hflag] at hfind
    rw [hr]
    simp [lookupVisibleVar, hfind]
  · rw [VarStore.topNames, hf] at hcut
    have hfind := NameTable.find_store_cut hs (NameTable.not_mem_of_le hn) hcut
    rw [NameTable.find_of_le hn] at hup
    rw [hup, hflag] at hfind
    rw [hr]
    simp [lookupVisibleVar, hf, hfind]

/-- **A write shows its value under one name at most, and nothing else.** -/
theorem getVar_setVar (sh : VarStore) (n v m : Text) :
    arkshShellGetVar (arkshShellSetVar sh n v false).2 m =
      if entryWritten sh n = some m then some (copyString arkshMaxVarValue v)
      else arkshShellGetVar sh m := by
  by_cases hacc : sh.Accepts n
  swap
  · have hentry : entryWritten sh n = none := if_neg fun h => hacc h.1
    rw [setVar_of_not_accepts hacc, hentry, if_neg (some_ne_none m).symm]
  have hne := ne_nil_of_valid hacc.1
  have hcutNe : copyString arkshMaxVarName n ≠ [] := by
    intro h
    have hlength := congrArg List.length h
    rw [copyString, length_take, length_nil] at hlength
    have hpos := length_pos_iff.mpr hne
    have hmax : 0 < arkshMaxVarName - 1 := by decide
    omega
  -- a name that shows what it showed
  have hother : m ≠ n → (m ≠ copyString arkshMaxVarName n ∨ m ∈ sh.topNames) →
      arkshShellGetVar (arkshShellSetVar sh n v false).2 m = arkshShellGetVar sh m := by
    intro hm hcut
    rw [arkshShellGetVar, arkshShellGetVar, setVar_lookup_of_ne hm hcut]
  by_cases hn : n.length < arkshMaxVarName
  · have hentry : entryWritten sh n = some n := by
      rw [entryWritten, if_pos ⟨hacc, .inl hn⟩, copyString_of_lt hn]
    rw [hentry]
    split
    · rename_i heq
      cases heq
      exact getVar_of_lookup hne (setVar_lookup_self hacc hn)
    · rename_i hm
      refine hother (fun h => hm (by rw [h])) (.inl fun h => hm ?_)
      rw [h, copyString_of_lt hn]
  · have hle := Nat.not_lt.mp hn
    have hself : m = n → arkshShellGetVar (arkshShellSetVar sh n v false).2 m =
        arkshShellGetVar sh m := by
      rintro rfl
      rw [getVar_of_le hle, getVar_of_le hle, setVar_env, effectiveExported_of_le hle,
        if_neg fun h => Bool.false_ne_true h.2]
    by_cases hcut : copyString arkshMaxVarName n ∈ sh.topNames
    · have hentry : entryWritten sh n = none := if_neg fun h => h.2.elim hn fun hno => hno hcut
      rw [hentry, if_neg (some_ne_none m).symm]
      by_cases hm : m = n
      · exact hself hm
      · refine hother hm ?_
        by_cases hmc : m = copyString arkshMaxVarName n
        · exact .inr (hmc ▸ hcut)
        · exact .inl hmc
    · have hentry : entryWritten sh n = some (copyString arkshMaxVarName n) :=
        if_pos ⟨hacc, .inr hcut⟩
      rw [hentry]
      split
      · rename_i heq
        cases heq
        exact getVar_of_lookup hcutNe (setVar_lookup_cut hacc hle hcut)
      · rename_i hmc
        by_cases hm : m = n
        · exact hself hm
        · exact hother hm (.inl fun h => hmc (by rw [h]))

theorem positionalParams_setVar (sh : VarStore) (n v : Text) (e : Bool) :
    (arkshShellSetVar sh n v e).2.positionalParams = sh.positionalParams := by
  obtain ⟨-, hpositional, hframes⟩ := setVar_kept sh n v e
  have hfind : ∀ l : List ArkshScopeFrame,
      l.findSome? (·.positional) = (l.map fun f => (f.bindings, f.positional)).findSome? (·.2) := by
    intro l
    rw [findSome?_map]
    rfl
  rw [VarStore.positionalParams, VarStore.positionalParams, hfind, hfind, hframes, hpositional]

theorem lookupVisibleBinding_setVar (sh : VarStore) (n v : Text) (e : Bool) (m : Text) :
    lookupVisibleBinding (arkshShellSetVar sh n v e).2 m = lookupVisibleBinding sh m := by
  obtain ⟨hbindings, -, hframes⟩ := setVar_kept sh n v e
  have hfind : ∀ l : List ArkshScopeFrame, l.findSome? (·.bindings.find m) =
      (l.map fun f => (f.bindings, f.positional)).findSome? (·.1.find m) := by
    intro l
    rw [findSome?_map]
    rfl
  rw [lookupVisibleBinding, lookupVisibleBinding, hfind, hfind, hframes, hbindings]

/-! ## 3. Variables, through references -/

variable {c m t : Text}

section Variables

variable {σ : Type} {view : ShellView σ} {s s' : σ} {entry : Option Text} {stored : Text}

/-- The name that a value refers to, when read; one that is too long leads nowhere. -/
def referent (value : Text) : Option Text :=
  if arkshNamerefPrefix.isPrefixOf value then
    let target := value.drop arkshNamerefPrefix.length
    some (if 128 ≤ target.length then [] else target)
  else none

def readNext (view : ShellView σ) (s : σ) (n : Text) : Option Text :=
  if (resolveSpecialName view s n).isSome then none else (view.getVar s n).bind referent

def readLast (view : ShellView σ) (s : σ) (n : Text) : Option Text :=
  (resolveSpecialName view s n).or ((view.getVar s n).map (copyString arkshMaxOutput))

theorem resolveSpecialName_nil : resolveSpecialName view s [] = none := by
  simp [resolveSpecialName]

/-- **A variable is read at the end of its chain.** -/
theorem lookupVarValueDepth_eq (hnil : view.getVar s [] = none) (k : Nat) : ∀ n : Text,
    lookupVarValueDepth view s k n = (last (readNext view s) k n).bind (readLast view s) := by
  have hnowhere : ∀ k, (last (readNext view s) k []).bind (readLast view s) = none := by
    intro k
    cases k with
    | zero => rfl
    | succ k => simp [last, readNext, readLast, resolveSpecialName_nil, hnil]
  induction k with
  | zero => intro n; rfl
  | succ k ih =>
    intro n
    rw [lookupVarValueDepth, last]
    cases hspecial : resolveSpecialName view s n with
    | some v => simp [readNext, readLast, hspecial]
    | none =>
      cases hvar : view.getVar s n with
      | none => simp [readNext, readLast, hspecial, hvar]
      | some v =>
        by_cases hmarked : arkshNamerefPrefix.isPrefixOf v = true
        · have hnext : readNext view s n = referent v := by
            simp [readNext, hspecial, hvar]
          rw [hnext, referent]
          simp only [hmarked, if_true]
          by_cases hlong : 128 ≤ (v.drop arkshNamerefPrefix.length).length
          · rw [if_pos (.inr hlong), if_pos hlong, hnowhere]
          · rw [if_neg hlong]
            by_cases hempty : v.drop arkshNamerefPrefix.length = []
            · rw [if_pos (.inl hempty), hempty, hnowhere]
            · rw [if_neg fun h => h.elim hempty hlong, ih]
        · have hnext : readNext view s n = none := by
            simp [readNext, hspecial, hvar, referent, hmarked]
          simp [hnext, readLast, hspecial, hvar, hmarked]

/-- A write has been made: the variables show what they showed, but for the one entry that was
    written. -/
structure Wrote (view : ShellView σ) (s s' : σ) (entry : Option Text) (stored : Text) : Prop where
  special : ∀ m, resolveSpecialName view s' m = resolveSpecialName view s m
  shown : ∀ m, view.getVar s' m = if entry = some m then some stored else view.getVar s m
  nil : view.getVar s [] = none
  nil' : view.getVar s' [] = none
  fits : stored.length < arkshMaxOutput

def entryRead (view : ShellView σ) (s : σ) (entry : Option Text) : Option Text :=
  entry.filter fun c => (resolveSpecialName view s c).isNone

theorem entryRead_eq_some :
    entryRead view s entry = some c ↔ entry = some c ∧ resolveSpecialName view s c = none := by
  simp [entryRead, filter_eq_some_iff]

theorem Wrote.shown_of_special (h : Wrote view s s' entry stored)
    (hm : resolveSpecialName view s m = none) : view.getVar s' m =
      if entryRead view s entry = some m then some stored else view.getVar s m := by
  have hiff : entryRead view s entry = some m ↔ entry = some m := by
    rw [entryRead_eq_some]
    exact and_iff_left hm
  simp only [hiff]
  exact h.shown m

theorem entryRead_ne {w : Text} (hm : resolveSpecialName view s m = some w) :
    entryRead view s entry ≠ some m := by
  intro h
  rw [(entryRead_eq_some.mp h).2] at hm
  cases hm

section

variable (h : Wrote view s s' entry stored)
include h

theorem Wrote.readNext_of_none (hentry : entryRead view s entry = none) :
    readNext view s' = readNext view s := by
  funext m
  cases hspecial : resolveSpecialName view s m with
  | some w => simp [readNext, h.special, hspecial]
  | none => simp [readNext, h.special, h.shown_of_special hspecial, hentry]

theorem Wrote.readNext_of_some (hentry : entryRead view s entry = some c) :
    readNext view s' = Function.update (readNext view s) c (referent stored) := by
  funext m
  cases hspecial : resolveSpecialName view s m with
  | some w =>
    have hmc : m ≠ c := by rintro rfl; exact entryRead_ne hspecial hentry
    simp [readNext, h.special, hspecial, hmc]
  | none =>
    by_cases hmc : m = c
    · subst hmc; simp [readNext, h.special, h.shown_of_special hspecial, hspecial, hentry]
    · have hne : c ≠ m := fun e => hmc e.symm
      simp [readNext, h.special, h.shown_of_special hspecial, hentry, hmc, hne]

theorem Wrote.readLast (m : Text) : readLast view s' m =
      if entryRead view s entry = some m then some stored else readLast view s m := by
  unfold Arksh.readLast
  rw [h.special]
  cases hspecial : resolveSpecialName view s m with
  | some w => rw [if_neg (entryRead_ne hspecial)]; rfl
  | none =>
    rw [h.shown_of_special hspecial]
    split
    · rw [none_or, map_some, copyString_of_lt h.fits]
    · rfl

end

/-- Where a name is read from the entry that was written: the name of the entry, and how many hops
    are left. -/
def readsThrough (view : ShellView σ) (s : σ) (entry : Option Text) (n : Text) :
    Option (Text × Nat) :=
  (entryRead view s entry).bind fun c => (arrive (readNext view s) c 33 n).map fun j => (c, j)

/-- A reference that was written leads to a value, on a chain that does not come back to it. -/
def refersTo (view : ShellView σ) (s : σ) (c : Text) (j : Nat) (t : Text) : Option Text :=
  if (arrive (readNext view s) c (j - 1) t).isSome then none
  else lookupVarValueDepth view s (j - 1) t

/-- **A variable after a write.** -/
theorem Wrote.lookupVarValue (h : Wrote view s s' entry stored) (n : Text) :
    lookupVarValue view s' n =
      match readsThrough view s entry n with
      | none => lookupVarValue view s n
      | some (c, j) =>
        match referent stored with
        | none => some stored
        | some t => refersTo view s c j t := by
  unfold Arksh.lookupVarValue
  rw [lookupVarValueDepth_eq h.nil', lookupVarValueDepth_eq h.nil]
  cases hentry : entryRead view s entry with
  | none => simp [readsThrough, hentry, h.readLast, h.readNext_of_none hentry]
  | some c =>
    rw [h.readNext_of_some hentry]
    -- at the end of a chain that does not come to the entry
    have hend : ∀ {k : Nat} {m : Text}, arrive (readNext view s) c k m = none →
        (last (readNext view s) k m).bind (Arksh.readLast view s') =
          (last (readNext view s) k m).bind (Arksh.readLast view s) := by
      intro k m hnone
      cases hlast : last (readNext view s) k m with
      | none => rfl
      | some e => have hne := (last_ne hnone hlast).symm; simp [h.readLast, hentry, hne]
    cases harrive : arrive (readNext view s) c 33 n with
    | none => simp [readsThrough, hentry, harrive, last_update_of_none _ harrive, hend harrive]
    | some j =>
      simp only [readsThrough, hentry, harrive, bind_some, map_some]
      cases href : referent stored with
      | none => simp [last_update_none harrive, h.readLast, hentry]
      | some t =>
        simp only [last_update_some harrive, refersTo]
        split
        · rfl
        · rename_i hback
          rw [not_isSome_iff_eq_none] at hback
          rw [hend hback, lookupVarValueDepth_eq h.nil]

end Variables

theorem setVar_wrote (render : ArkshValueItem → Option Text)
    (execute : ExpandShell → Text → Text × ExpandShell) (s : ExpandShell) (n v : Text) :
    Wrote (shellView render execute) s ((shellView render execute).setVar s n v)
      (entryWritten s.store n) (copyString arkshMaxVarValue v) where
  special m := by
    have hpositional : (shellView render execute).positional
        ((shellView render execute).setVar s n v) = (shellView render execute).positional s :=
      positionalParams_setVar s.store n v false
    unfold resolveSpecialName
    rw [hpositional]
    rfl
  shown m := getVar_setVar s.store n v m
  nil := rfl
  nil' := rfl
  fits := (copyString_length_lt (by decide) v).trans (by decide)

/-! ## 4. Arrays, through references -/

/-- The name that an array is looked up under in place of a name. -/
def bindNext (sh : VarStore) (n : Text) : Option Text := (arkshShellGetVar sh n).bind namerefTarget

theorem followNameref_eq (sh : VarStore) (k : Nat) : ∀ n,
    followNameref sh k n = last (bindNext sh) k n := by
  induction k with
  | zero => intro n; rfl
  | succ k ih =>
    intro n
    rw [followNameref, last, bindNext]
    cases (arkshShellGetVar sh n).bind namerefTarget with
    | none => rfl
    | some t => exact ih t

/-- **An array that a name does not hold itself is the one at the end of its chain.** -/
theorem getBinding_eq (hn : n ≠ []) (hown : lookupVisibleBinding sh n = none) :
    arkshShellGetBinding sh n = (last (bindNext sh) 33 n).bind (lookupVisibleBinding sh) := by
  rw [arkshShellGetBinding, if_neg hn, hown, none_or, arkshShellResolveNameref, last, bindNext]
  cases (arkshShellGetVar sh n).bind namerefTarget with
  | none => simp [hown]
  | some t => simp [followNameref_eq]

theorem bindNext_setVar (sh : VarStore) (n v : Text) :
    bindNext (arkshShellSetVar sh n v false).2 =
      match entryWritten sh n with
      | none => bindNext sh
      | some c =>
        Function.update (bindNext sh) c (namerefTarget (copyString arkshMaxVarValue v)) := by
  funext m
  rw [bindNext, getVar_setVar]
  cases hentry : entryWritten sh n with
  | none => rfl
  | some c =>
    by_cases hmc : m = c
    · simp [hmc]
    · have hne : c ≠ m := fun e => hmc e.symm; simp [hmc, hne, bindNext]

def arrayBehind (sh : VarStore) (n v : Text) : Option (Option ArkshValue) :=
  if (lookupVisibleBinding sh n).isSome then none
  else
    (entryWritten sh n).bind fun c =>
      (arrive (bindNext sh) c 33 n).map fun j =>
        match namerefTarget (copyString arkshMaxVarValue v) with
        | none => lookupVisibleBinding sh c
        | some t =>
          if (arrive (bindNext sh) c (j - 1) t).isSome then none
          else (last (bindNext sh) (j - 1) t).bind (lookupVisibleBinding sh)

/-- **An array after a write of a variable.** -/
theorem getBinding_setVar (hn : n ≠ []) (v : Text) :
    arkshShellGetBinding (arkshShellSetVar sh n v false).2 n =
      (arrayBehind sh n v).getD (arkshShellGetBinding sh n) := by
  have hbinding :
      lookupVisibleBinding (arkshShellSetVar sh n v false).2 = lookupVisibleBinding sh :=
    funext (lookupVisibleBinding_setVar sh n v false)
  cases hown : lookupVisibleBinding sh n with
  | some binding => simp [arkshShellGetBinding, hn, arrayBehind, hbinding, hown]
  | none =>
    rw [getBinding_eq hn (by rw [hbinding, hown]), getBinding_eq hn hown, hbinding, bindNext_setVar]
    cases hentry : entryWritten sh n with
    | none => simp [arrayBehind, hown, hentry]
    | some c =>
      cases harrive : arrive (bindNext sh) c 33 n with
      | none => simp [arrayBehind, hown, hentry, harrive, last_update_of_none _ harrive]
      | some j =>
        simp only [arrayBehind, hown, hentry, harrive, isSome_none, false_eq_true,
          if_false, bind_some, map_some, getD_some]
        cases href : namerefTarget (copyString arkshMaxVarValue v) with
        | none => simp [last_update_none harrive]
        | some t =>
          simp only [last_update_some harrive]
          split <;> rfl

/-! ## 5. The law -/

/-- `${name}`, without an operator. -/
def Braces.bare (b : Braces) : Braces := { b with op := none, operand := [] }

section Law

variable {σ : Type} {view : ShellView σ} {s s' : σ} {b : Braces}

structure AssignsDefault (view : ShellView σ) (s : σ) (b : Braces) : Prop where
  lengthMode : b.lengthMode = false
  op : ∃ colonPrefix doubled, b.op = some ⟨.assignDefault, colonPrefix, doubled⟩ ∧
    ∃ found count, b.lookup view s = .ok (found, count) ∧
      (found = none ∨ colonPrefix = true ∧ found = some [])

/-- The law: where the default is assigned, `${name}` afterwards is the word. -/
def AssignDefaultLaw (view : ShellView σ) (s : σ) (b : Braces) : Prop :=
  AssignsDefault view s b → ∀ text s', b.value view s = .ok (text, s') →
    b.bare.value view s' = .ok (b.operand, s')

def refusesUnset (view : ShellView σ) (s : σ) (b : Braces) : Bool :=
  view.optNounset s && b.varName.head? ≠ some '@' && b.varName.head? ≠ some '*' &&
    b.varName.head? ≠ some '#'

theorem AssignsDefault.value (h : AssignsDefault view s b) :
    b.value view s = .ok (b.operand, view.setVar s b.varName b.operand) := by
  obtain ⟨hlength, colonPrefix, doubled, hop, found, count, hlookup, htrigger⟩ := h
  have htrue : (found.isNone || (colonPrefix && (found.getD []).isEmpty)) = true := by
    rcases htrigger with rfl | ⟨rfl, rfl⟩ <;> rfl
  rw [Braces.value, hlookup]
  simp only [Except.bind, hlength, hop, htrue, false_eq_true, if_false, if_true]

theorem bare_value_iff (hlength : b.lengthMode = false) {word : Text} :
    b.bare.value view s = .ok (word, s) ↔ ∃ found count, b.lookup view s = .ok (found, count) ∧
        (found = some word ∨ found = none ∧ word = [] ∧ refusesUnset view s b = false) := by
  have hbare : b.bare.lookup view s = b.lookup view s := rfl
  have hmode : b.bare.lengthMode = false := hlength
  have hname : b.bare.varName = b.varName := rfl
  have hop : b.bare.op = none := rfl
  rw [Braces.value, hbare]
  cases hlookup : b.lookup view s with
  | error e => simp [Except.bind]
  | ok r =>
    obtain ⟨found, count⟩ := r
    simp only [Except.bind, hmode, hop, hname, false_eq_true, if_false]
    cases found with
    | some text => simp
    | none =>
      have hif : (view.optNounset s && Option.isNone (none : Option Text) &&
          b.varName.head? ≠ some '@' && b.varName.head? ≠ some '*' &&
          b.varName.head? ≠ some '#') = refusesUnset view s b := by
        rw [isNone_none, Bool.and_true]
        rfl
      rw [hif]
      cases refusesUnset view s b with
      | true => simp
      | false => simp [eq_comm]

/-- The name still shows nothing, and the word is empty. -/
def StaysEmpty (view : ShellView σ) (s : σ) (b : Braces) : Prop :=
  b.operand = [] ∧
    (refusesUnset view s b = false ∨ ∃ text count, b.lookup view s = .ok (some text, count))

theorem AssignsDefault.staysEmpty (h : AssignsDefault view s b)
    (hrefuses : refusesUnset view s' b = refusesUnset view s b)
    (hlookup : b.lookup view s' = b.lookup view s) :
    b.bare.value view s' = .ok (b.operand, s') ↔ StaysEmpty view s b := by
  rw [bare_value_iff h.lengthMode, hlookup, hrefuses]
  obtain ⟨colonPrefix, doubled, -, found, count, hfound, htrigger⟩ := h.op
  rw [StaysEmpty, hfound]
  rcases htrigger with rfl | ⟨-, rfl⟩
  · constructor
    · intro ⟨_, _, heq, h⟩
      cases heq
      rcases h with h | ⟨-, hword, hunset⟩
      · cases h
      · exact ⟨hword, .inl hunset⟩
    · rintro ⟨hword, hunset | ⟨_, _, heq⟩⟩
      · exact ⟨_, _, rfl, .inr ⟨rfl, hword, hunset⟩⟩
      · cases heq
  · constructor
    · intro ⟨_, _, heq, h⟩
      cases heq
      rcases h with h | ⟨h, -⟩
      · exact ⟨(Option.some.inj h).symm, .inr ⟨_, _, rfl⟩⟩
      · cases h
    · intro ⟨hword, _⟩; exact ⟨_, _, rfl, .inl (by rw [hword])⟩

def elementOf (b : Braces) (entries : Option (List (Text × Option Text))) :
    Except ExpandError (Option Text × Nat) :=
  match entries with
  | none => .ok (none, 0)
  | some entries =>
    match b.assocSubscript with
    | none => .error (.refused ("unsupported associative expansion: $\x7b!"
        ++ String.ofList b.varName ++ "\x7d"))
    | some subscript => renderAssocValue entries subscript b.assocKeyMode

theorem lookup_element (h : (b.assocSubscript.isSome || b.assocKeyMode) = true) : b.lookup view s =
      elementOf b (if b.varName = [] then none else view.assocBinding s b.varName) := by
  rw [Braces.lookup, if_pos h]
  rfl

theorem lookup_variable (h : ¬ (b.assocSubscript.isSome || b.assocKeyMode) = true) :
    b.lookup view s = .ok (lookupVarValue view s b.varName, 0) := by
  rw [Braces.lookup, if_neg h]

end Law

section WordReadBack

variable {render : ArkshValueItem → Option Text} {execute : ExpandShell → Text → Text × ExpandShell}
  {s : ExpandShell} {b : Braces}

/-- **The condition.** A variable is read from the entry that is written, and the word fits there
    and is no reference, unless to its own text; an array is read in place of the word, and holds
    it; or the word is empty. -/
def WordReadBack (render : ArkshValueItem → Option Text)
    (execute : ExpandShell → Text → Text × ExpandShell) (s : ExpandShell) (b : Braces) : Prop :=
  let view := shellView render execute
  if b.assocSubscript.isSome || b.assocKeyMode then
    match arrayBehind s.store b.varName b.operand with
    | none => StaysEmpty view s b
    | some array => ∃ found count,
        elementOf b (array.bind (arrayEntries render)) = .ok (found, count) ∧
          (found = some b.operand ∨ found = none ∧ b.operand = [] ∧ refusesUnset view s b = false)
  else
    match readsThrough view s (entryWritten s.store b.varName) b.varName with
    | none => StaysEmpty view s b
    | some (c, j) => b.operand.length < arkshMaxVarValue ∧
        ∀ t, referent b.operand = some t → refersTo view s c j t = some b.operand

theorem referent_cut {word : Text} (hlong : arkshMaxVarValue ≤ word.length)
    (h : referent (copyString arkshMaxVarValue word) = some t) : t = [] := by
  unfold referent at h
  split at h
  · have hlength :
        128 ≤ ((copyString arkshMaxVarValue word).drop arkshNamerefPrefix.length).length := by
      have hmarked : arkshNamerefPrefix.length = 17 := by decide
      have hmax : arkshMaxVarValue = 1024 := rfl
      rw [length_drop, copyString, length_take, hmarked]
      omega
    simp only [if_pos hlength] at h
    exact (Option.some.inj h).symm
  · cases h

theorem refersTo_nil (c : Text) (j : Nat) :
    refersTo (shellView render execute) s c j [] = none := by
  unfold refersTo
  split
  · rfl
  · cases j - 1 with
    | zero => rfl
    | succ k => simp [lookupVarValueDepth, resolveSpecialName_nil, shellView, arkshShellGetVar]

theorem ne_nil_of_referent {word : Text} (h : referent (copyString arkshMaxVarValue word) = some t) :
    word ≠ [] := by
  rintro rfl
  cases h

theorem readsBack_entry {word : Text} (c : Text) (j : Nat) (refuses : Bool) :
    ((match referent (copyString arkshMaxVarValue word) with
        | none => some (copyString arkshMaxVarValue word)
        | some t => refersTo (shellView render execute) s c j t) = some word ∨
      (match referent (copyString arkshMaxVarValue word) with
        | none => some (copyString arkshMaxVarValue word)
        | some t => refersTo (shellView render execute) s c j t) = none ∧ word = [] ∧
          refuses = false) ↔
      word.length < arkshMaxVarValue ∧
        ∀ t, referent word = some t → refersTo (shellView render execute) s c j t = some word := by
  cases href : referent (copyString arkshMaxVarValue word) with
  | none =>
    constructor
    · rintro (h | ⟨h, -⟩)
      · have heq := Option.some.inj h
        have hlt : word.length < arkshMaxVarValue := by
          by_contra hle
          exact copyString_ne (by decide) (Nat.not_lt.mp hle) heq
        refine ⟨hlt, fun t ht => ?_⟩
        rw [heq, ht] at href
        cases href
      · cases h
    · intro ⟨hlt, _⟩; exact .inl (congrArg some (copyString_of_lt hlt))
  | some t =>
    constructor
    · rintro (h | ⟨-, hempty, -⟩)
      · have hlt : word.length < arkshMaxVarValue := by
          by_contra hle
          dsimp only at h
          rw [referent_cut (Nat.not_lt.mp hle) href, refersTo_nil] at h
          cases h
        rw [copyString_of_lt hlt] at href
        refine ⟨hlt, fun t' ht' => ?_⟩
        rw [href] at ht'
        cases ht'
        exact h
      · exact absurd hempty (ne_nil_of_referent href)
    · intro ⟨hlt, h⟩
      rw [copyString_of_lt hlt] at href
      exact .inl (h t href)

theorem entryWritten_nil (sh : VarStore) : entryWritten sh [] = none :=
  if_neg fun h => ne_nil_of_valid h.1.1 rfl

theorem bare_value_setVar (h : AssignsDefault (shellView render execute) s b) :
    b.bare.value (shellView render execute)
        ((shellView render execute).setVar s b.varName b.operand) =
      .ok (b.operand, (shellView render execute).setVar s b.varName b.operand) ↔
    WordReadBack render execute s b := by
  have hrefuses : refusesUnset (shellView render execute)
      ((shellView render execute).setVar s b.varName b.operand) b =
      refusesUnset (shellView render execute) s b := rfl
  unfold WordReadBack
  dsimp only
  split
  next helement =>
    have harray : b.varName ≠ [] → (shellView render execute).assocBinding
        ((shellView render execute).setVar s b.varName b.operand) b.varName =
        ((arrayBehind s.store b.varName b.operand).getD
          (arkshShellGetBinding s.store b.varName)).bind (arrayEntries render) :=
      fun hn => congrArg (·.bind (arrayEntries render)) (getBinding_setVar hn b.operand)
    split
    next hbehind =>
      refine h.staysEmpty hrefuses ?_
      rw [lookup_element helement, lookup_element helement]
      split
      · rfl
      · rename_i hn
        rw [harray hn, hbehind]
        rfl
    next array hbehind =>
      have hn : b.varName ≠ [] := by
        intro hn
        rw [hn, arrayBehind, entryWritten_nil] at hbehind
        split at hbehind <;> cases hbehind
      rw [bare_value_iff h.lengthMode, lookup_element helement, if_neg hn, harray hn, hbehind,
        hrefuses]
      rfl
  next hvariable =>
    have hlookup := (setVar_wrote render execute s b.varName b.operand).lookupVarValue b.varName
    split
    next hthrough =>
      refine h.staysEmpty hrefuses ?_
      rw [lookup_variable hvariable, lookup_variable hvariable, hlookup, hthrough]
    next c j hthrough =>
      rw [hthrough] at hlookup
      rw [bare_value_iff h.lengthMode, lookup_variable hvariable, hlookup, hrefuses,
        ← @readsBack_entry render execute s b.operand c j
          (refusesUnset (shellView render execute) s b)]
      simp

/-- **The law holds exactly where no default is assigned, or the condition is met.** -/
theorem assignDefaultLaw_iff : AssignDefaultLaw (shellView render execute) s b ↔
    (AssignsDefault (shellView render execute) s b → WordReadBack render execute s b) := by
  constructor
  · intro hlaw h; exact (bare_value_setVar h).mp (hlaw h _ _ h.value)
  · intro hback h text s' hvalue
    rw [h.value] at hvalue
    cases hvalue
    exact (bare_value_setVar h).mpr (hback h)

end WordReadBack

def startShell : ExpandShell :=
  ⟨startStore "/".toList noEnv, 0, 1, -1, 0, 1, 0, none, [], "arksh".toList, false⟩

/-- `${1:=x}` and `${m[k]:=x}` yield the word, and `${1}` and `${m[k]}` are empty afterwards: the
    word goes to no positional parameter, and to a variable `m`. -/
theorem not_assignDefaultLaw_positional : ∃ b b', parseBraces "1:=x\x7d".toList = .ok (b, []) ∧
      parseBraces "m[k]:=x\x7d".toList = .ok (b', []) ∧
      ¬ AssignDefaultLaw (shellView (fun _ => none) fun s _ => ([], s)) startShell b ∧
      ¬ AssignDefaultLaw (shellView (fun _ => none) fun s _ => ([], s)) startShell b' := by
  refine ⟨_, _, rfl, rfl, ?_, ?_⟩
  · intro hlaw
    have h := hlaw ⟨rfl, true, false, rfl, _, _, rfl, .inr ⟨rfl, rfl⟩⟩ _ _ rfl
    cases h
  · intro hlaw
    have h := hlaw ⟨rfl, true, false, rfl, _, _, rfl, .inl rfl⟩ _ _ rfl
    cases h

end Arksh
