/-
  Subject: `VAR=value … command`: the assignments in front of a command, as
           `execute_simple_command` saves, makes and restores them around it.

  Each assignment saves what `arksh_shell_get_var` shows, in a buffer of a token, and sets the
  variable with its flag raised; after the command the saved values are written back, in the same
  order, by the same setter, which never lowers a flag.
-/
import Arksh.Shell.Scope

namespace Arksh

open CText Tables List Option

/-! ## 1. The assignments -/

structure PosixAssignment where
  name : Text
  value : Text
  valid : isValidIdentifier name = true

def isNameByte (c : Char) : Bool := isalnum c || c = '_'

theorem valid_of_word {c : Char} {word : Text} (hc : (isalpha c || c = '_') = true)
    (hword : word.all isNameByte = true) : isValidIdentifier (c :: word) = true := by
  unfold isValidIdentifier
  rw [Bool.and_eq_true]
  exact ⟨hc, hword⟩

def splitPosixAssignment (size : Nat) (s : Text) : Option PosixAssignment :=
  match s with
  | [] => none
  | c :: rest =>
    if hc : (isalpha c || c = '_') = true then
      match rest.dropWhile isNameByte with
      | '=' :: value =>
        if size ≤ (c :: rest.takeWhile isNameByte).length then none
        else some ⟨c :: rest.takeWhile isNameByte, value,
          valid_of_word hc (List.all_takeWhile)⟩
      | _ => none
    else none

def splitArgv : List Text → List PosixAssignment × List Text
  | [] => ([], [])
  | word :: rest =>
    match splitPosixAssignment arkshMaxToken word with
    | none => ([], word :: rest)
    | some assignment =>
      let (assignments, command) := splitArgv rest
      (assignment :: assignments, command)

def saveAndAssign (s : VarStore × List (Text × Option Text)) (p : PosixAssignment) :
    VarStore × List (Text × Option Text) :=
  ((arkshShellSetVar s.1 p.name p.value true).2,
    s.2 ++ [(p.name, (arkshShellGetVar s.1 p.name).map (copyString arkshMaxToken))])

def applyAssignments (sh : VarStore) (assignments : List PosixAssignment) :
    VarStore × List (Text × Option Text) :=
  assignments.foldl saveAndAssign (sh, [])

def restoreOne (sh : VarStore) (saved : Text × Option Text) : VarStore :=
  match saved.2 with
  | some value => (arkshShellSetVar sh saved.1 value false).2
  | none => (arkshShellUnsetVar sh saved.1).2

def withTemporaries (assignments : List PosixAssignment) (command : VarStore → VarStore)
    (sh : VarStore) : VarStore :=
  let (applied, saves) := applyAssignments sh assignments
  saves.foldl restoreOne (command applied)

/-! ## 2. What is to be left as it was -/

def VarStore.shown (sh : VarStore) (name : Text) : Option (Text × Bool) :=
  let visible := lookupVisibleVar sh sh.frames name false
  visible.value.map (·, visible.exported)

def valuesOf (name : Text) (assignments : List PosixAssignment) : List Text :=
  (assignments.filter (·.name = name)).map PosixAssignment.value

def namesOf (assignments : List PosixAssignment) : List Text := assignments.map PosixAssignment.name

/-- **The law of temporary assignments**: the command sees each name with its last value; then
    the names are as before, variable and environment, and the others as the command left them. -/
structure TemporaryLaw (sh : VarStore) (assignments : List PosixAssignment)
    (command : VarStore → VarStore) : Prop where
  during : ∀ n ∈ namesOf assignments,
    ((applyAssignments sh assignments).1.shown n).map Prod.fst =
      (valuesOf n assignments).getLast?
  after : ∀ n ∈ namesOf assignments,
    (withTemporaries assignments command sh).shown n = sh.shown n ∧
    (withTemporaries assignments command sh).env n = sh.env n
  others : ∀ n, n ∉ namesOf assignments →
    (withTemporaries assignments command sh).shown n =
      (command (applyAssignments sh assignments).1).shown n ∧
    (withTemporaries assignments command sh).env n =
      (command (applyAssignments sh assignments).1).env n

/-- The command does not itself assign these names: their entries and environment are as before, and
    no frame is left. -/
structure LeavesNames (names : List Text) (sh sh' : VarStore) : Prop where
  root : ∀ n ∈ names, sh'.vars.under n = sh.vars.under n
  frames : ∀ n ∈ names,
    sh'.frames.map (fun frame => frame.vars.under n) =
      sh.frames.map fun frame => frame.vars.under n
  env : ∀ n ∈ names, sh'.env n = sh.env n
  entries : sh.frames ≠ [] → sh.topNames.length ≤ sh'.topNames.length

/-! ## 3. One write, one unset -/

section Step

variable {sh : VarStore} {n m v : Text} {e : Bool}

theorem shown_of_le (h : arkshMaxVarName ≤ n.length) : sh.shown n = none := by
  unfold VarStore.shown
  rw [lookup_of_le h]
  rfl

theorem setVar_topNames (hm : isValidIdentifier m = true) : (arkshShellSetVar sh m v e).2.topNames =
      enter arkshMaxVarName arkshMaxShellVars sh.topNames m := by
  rcases setVar_cases sh m v e with ⟨hno, hr⟩ | ⟨_, frame, previous, vars, _, hf, hs, _, hr⟩ |
    ⟨_, vars, _, hf, hs, _, hr⟩
  · rw [hr, enter_of_not_accepts fun h => hno ⟨hm, h⟩]
  · rw [hr]
    unfold VarStore.topNames
    rw [hf]
    exact NameTable.names_store hs
  · rw [hr]
    unfold VarStore.topNames
    rw [hf]
    exact NameTable.names_store hs

theorem setVar_frames_nil : (arkshShellSetVar sh m v e).2.frames = [] ↔ sh.frames = [] := by
  rcases setVar_cases sh m v e with ⟨_, hr⟩ | ⟨_, _, _, _, _, hf, _, _, hr⟩ | ⟨_, _, _, _, _, _, hr⟩
  · rw [hr]
  · rw [hr, hf]; simp
  · rw [hr]

theorem setVar_shown_self (h : sh.Accepts n) (hn : n.length < arkshMaxVarName) :
    (arkshShellSetVar sh n v e).2.shown n =
      some (copyString arkshMaxVarValue v, sh.effectiveExported n e) := by
  unfold VarStore.shown
  rw [setVar_lookup_self h hn]
  rfl

theorem setVar_shown_of_ne (hm : m.length < arkshMaxVarName) (hnm : n ≠ m) :
    (arkshShellSetVar sh m v e).2.shown n = sh.shown n := by
  unfold VarStore.shown
  rw [setVar_lookup_of_ne hnm (Or.inl (by rwa [copyString_of_lt hm]))]

theorem setVar_effective_self (h : sh.Accepts n) (hn : n.length < arkshMaxVarName) :
    (arkshShellSetVar sh n v e).2.effectiveExported n false = sh.effectiveExported n e := by
  rcases setVar_cases sh n v e with ⟨hno, _⟩ | ⟨_, frame, previous, vars, _, hf, hs, hup, hr⟩ |
    ⟨_, vars, _, hf, hs, hup, hr⟩
  · exact absurd h hno
  · have hfind := NameTable.find_store_self hs hn
    rw [hup] at hfind
    rw [hr]
    unfold VarStore.effectiveExported at hfind ⊢
    dsimp only
    rw [hf] at hfind ⊢
    rw [hfind]
    show (_ || _ || _) = _
    simp only [any_some, Bool.false_or, lookupVisibleVar]
    cases e <;> simp
  · have hfind := NameTable.find_store_self hs hn
    rw [hup] at hfind
    rw [hr]
    unfold VarStore.effectiveExported at hfind ⊢
    rw [hf] at hfind ⊢
    rw [hfind]
    simp

theorem setVar_effective_of_ne (hm : m.length < arkshMaxVarName) (hnm : n ≠ m) :
    (arkshShellSetVar sh m v e).2.effectiveExported n false = sh.effectiveExported n false := by
  have hcut : n ≠ copyString arkshMaxVarName m := by rwa [copyString_of_lt hm]
  rcases setVar_cases sh m v e with ⟨_, hr⟩ | ⟨_, frame, previous, vars, _, hf, hs, _, hr⟩ |
    ⟨_, vars, _, hf, hs, _, hr⟩
  · rw [hr]
  · rw [hr]
    unfold VarStore.effectiveExported
    dsimp only
    rw [hf]
    rw [NameTable.find_store_of_ne hs hnm (Or.inl hcut)]
    rfl
  · rw [hr]
    unfold VarStore.effectiveExported
    rw [hf]
    rw [NameTable.find_store_of_ne hs hnm (Or.inl hcut)]

theorem unsetVar_frames_nil : (arkshShellUnsetVar sh m).2.frames = [] ↔ sh.frames = [] := by
  rcases unsetVar_cases sh m with ⟨_, hr⟩ | ⟨_, _, _, _, hf, _, hr⟩ | ⟨_, _, hr⟩
  · rw [hr]
  · rw [hr, hf, syncVisibleVarEnv_eq]; simp
  · rw [hr]

theorem unsetVar_self (h : sh.Accepts n) (hn : n.length < arkshMaxVarName)
    (honce : sh.frames = [] → sh.topNames.count n ≤ 1) :
    (arkshShellUnsetVar sh n).2.shown n = none ∧ (arkshShellUnsetVar sh n).2.env n = none := by
  rcases unsetVar_cases sh n with ⟨hno, _⟩ | ⟨_, frame, previous, vars, hf, hs, hr⟩ | ⟨_, hf, hr⟩
  · rcases hno with hno | ⟨_, hno⟩
    · rw [h.1] at hno; cases hno
    · exact absurd h hno
  · have hfind := NameTable.find_store_self hs hn
    rw [hr, syncVisibleVarEnv_eq]
    constructor
    · simp [VarStore.shown, lookupVisibleVar, hfind]
    · simp [VarStore.exportedValue, lookupVisibleVar, hfind]
  · have hcount := honce hf
    unfold VarStore.topNames at hcount
    rw [hf] at hcount
    dsimp only at hcount
    have hfind : (sh.vars.remove n).find n = none := by
      rw [NameTable.find_eq_none, NameTable.names_remove, ← count_eq_zero, count_erase_self]
      omega
    rw [hr]
    constructor
    · simp [VarStore.shown, lookupVisibleVar, hf, hfind]
    · exact Function.update_self n none sh.env

theorem unsetVar_topNames (hm : isValidIdentifier m = true) : (arkshShellUnsetVar sh m).2.topNames =
      if sh.frames = [] then sh.topNames.erase m
      else enter arkshMaxVarName arkshMaxShellVars sh.topNames m := by
  rcases unsetVar_cases sh m with ⟨hno, hr⟩ | ⟨_, frame, previous, vars, hf, hs, hr⟩ | ⟨_, hf, hr⟩
  · rcases hno with hno | ⟨hf, hno⟩
    · rw [hm] at hno; cases hno
    · rw [hr, if_neg hf, enter_of_not_accepts fun h => hno ⟨hm, h⟩]
  · rw [hr, syncVisibleVarEnv_eq]
    unfold VarStore.topNames
    rw [hf, if_neg (cons_ne_nil _ _)]
    exact NameTable.names_store hs
  · rw [hr, if_pos hf]
    unfold VarStore.topNames
    rw [hf]
    exact NameTable.names_remove sh.vars m

theorem unsetVar_of_ne (hm : m.length < arkshMaxVarName) (hnm : n ≠ m) :
    (arkshShellUnsetVar sh m).2.shown n = sh.shown n ∧
    (arkshShellUnsetVar sh m).2.effectiveExported n false = sh.effectiveExported n false := by
  have hcut : n ≠ copyString arkshMaxVarName m := by rwa [copyString_of_lt hm]
  rcases unsetVar_cases sh m with ⟨_, hr⟩ | ⟨_, frame, previous, vars, hf, hs, hr⟩ | ⟨_, hf, hr⟩
  · rw [hr]; exact ⟨rfl, rfl⟩
  · have hfind := NameTable.find_store_of_ne hs hnm (Or.inl hcut)
    rw [hr, syncVisibleVarEnv_eq]
    constructor
    · unfold VarStore.shown lookupVisibleVar
      rw [hf]
      simp only [findSome?_cons, hfind]
      rfl
    · unfold VarStore.effectiveExported
      rw [hf]
      simp only [hfind]
      rfl
  · have hfind := @NameTable.find_remove_of_ne _ _ _ m n sh.vars hnm
    rw [hr]
    constructor
    · unfold VarStore.shown lookupVisibleVar
      simp only [hf, hfind]
      rfl
    · unfold VarStore.effectiveExported; simp only [hf, hfind]

theorem setVar_getVar_of_ne (hm : m.length < arkshMaxVarName) (hnm : n ≠ m) :
    arkshShellGetVar (arkshShellSetVar sh m v e).2 n = arkshShellGetVar sh n := by
  unfold arkshShellGetVar
  rw [setVar_lookup_of_ne hnm (Or.inl (by rwa [copyString_of_lt hm]))]

theorem getVar_of_shown {x : Bool} (hn : n ≠ []) (h : sh.shown n = some (v, x)) :
    arkshShellGetVar sh n = some v := by
  unfold VarStore.shown lookupVisibleVar at h
  unfold arkshShellGetVar lookupVisibleVar
  rw [if_neg hn]
  split at h
  · split at h
    · cases h
    · cases h
      rename_i hdel
      rw [if_neg hdel]
      rfl
  · split at h
    · cases h; rfl
    · cases h

theorem shown_of_getVar_none (hn : n ≠ []) (h : arkshShellGetVar sh n = none) :
    sh.shown n = none := by
  cases hs : sh.shown n with
  | none => rfl
  | some p => rw [getVar_of_shown hn hs] at h; cases h

theorem effectiveExported_true : sh.effectiveExported n true = true := by
  unfold VarStore.effectiveExported
  split <;> simp

theorem shown_of_root (hf : sh.frames = []) (h : n ∉ sh.topNames) : sh.shown n = none := by
  unfold VarStore.topNames at h
  rw [hf] at h
  simp [VarStore.shown, lookupVisibleVar, hf, NameTable.find_eq_none.mpr h]

end Step

/-! ## 4. What the command sees -/

def VarStore.namesAfter (sh : VarStore) (assignments : List PosixAssignment) : List Text :=
  (namesOf assignments).foldl (enter arkshMaxVarName arkshMaxShellVars) sh.topNames

section Apply

variable {sh : VarStore} {l l₁ l₂ : List PosixAssignment} {p : PosixAssignment} {n v : Text}

theorem apply_concat (sh : VarStore) (l : List PosixAssignment) (p : PosixAssignment) :
    applyAssignments sh (l ++ [p]) = saveAndAssign (applyAssignments sh l) p := by
  unfold applyAssignments
  rw [foldl_append]
  rfl

theorem namesAfter_concat (sh : VarStore) (l : List PosixAssignment) (p : PosixAssignment) :
    sh.namesAfter (l ++ [p]) =
      enter arkshMaxVarName arkshMaxShellVars (sh.namesAfter l) p.name := by
  unfold VarStore.namesAfter namesOf
  rw [map_append, foldl_append]
  rfl

theorem namesOf_append (l₁ l₂ : List PosixAssignment) :
    namesOf (l₁ ++ l₂) = namesOf l₁ ++ namesOf l₂ := map_append

theorem applied_topNames (sh : VarStore) (l : List PosixAssignment) :
    (applyAssignments sh l).1.topNames = sh.namesAfter l := by
  induction l using List.reverseRecOn with
  | nil => rfl
  | append_singleton l p ih =>
    rw [apply_concat, namesAfter_concat, ← ih]
    exact setVar_topNames p.valid

theorem applied_frames_nil (sh : VarStore) (l : List PosixAssignment) :
    (applyAssignments sh l).1.frames = [] ↔ sh.frames = [] := by
  induction l using List.reverseRecOn with
  | nil => exact Iff.rfl
  | append_singleton l p ih => rw [apply_concat, ← ih]; exact setVar_frames_nil

theorem valuesOf_concat_self (l : List PosixAssignment) (p : PosixAssignment) :
    valuesOf p.name (l ++ [p]) = valuesOf p.name l ++ [p.value] := by
  simp [valuesOf]

theorem valuesOf_concat_of_ne (h : p.name ≠ n) : valuesOf n (l ++ [p]) = valuesOf n l := by
  simp [valuesOf, h]

theorem accepts_of_enter {names : List Text} (hn : n ∈ enter arkshMaxVarName arkshMaxShellVars
    names n) : Tables.Accepts arkshMaxShellVars names n := by
  by_contra hno
  rw [enter_of_not_accepts hno] at hn
  exact hno (Or.inl hn)

/-- **A name that has an entry in the end shows its last value, exported.** -/
theorem applied_shown (hshort : ∀ m ∈ namesOf l, m.length < arkshMaxVarName)
    (hn : n ∈ sh.namesAfter l) (hv : (valuesOf n l).getLast? = some v) :
    (applyAssignments sh l).1.shown n = some (copyString arkshMaxVarValue v, true) ∧
    (applyAssignments sh l).1.env n = some (copyString arkshMaxVarValue v) ∧
    (applyAssignments sh l).1.effectiveExported n false = true := by
  induction l using List.reverseRecOn with
  | nil => cases hv
  | append_singleton l p ih =>
    have hp : p.name.length < arkshMaxVarName := hshort p.name (by simp [namesOf])
    rw [namesAfter_concat] at hn
    rw [apply_concat]
    unfold saveAndAssign
    by_cases hname : p.name = n
    · subst hname
      rw [valuesOf_concat_self, getLast?_concat] at hv
      cases hv
      have hacc : (applyAssignments sh l).1.Accepts p.name :=
        ⟨p.valid, by rw [applied_topNames]; exact accepts_of_enter hn⟩
      refine ⟨?_, ?_, ?_⟩
      · rw [setVar_shown_self hacc hp, effectiveExported_true]
      · rw [setVar_env, if_pos ⟨hacc, effectiveExported_true⟩]; exact Function.update_self _ _ _
      · rw [setVar_effective_self hacc hp, effectiveExported_true]
    · rw [valuesOf_concat_of_ne hname] at hv
      have hmem : n ∈ sh.namesAfter l := by
        rcases mem_enter hn with h | h
        · exact h
        · rw [copyString_of_lt hp] at h; exact absurd h.symm hname
      have hne : n ≠ p.name := fun h => hname h.symm
      rw [setVar_shown_of_ne hp hne, setVar_env_of_ne hne, setVar_effective_of_ne hp hne]
      exact ih (fun m hm => hshort m (by
        rw [namesOf_append]
        exact mem_append_left _ hm)) hmem hv

theorem applied_of_not_mem (hshort : ∀ m ∈ namesOf l, m.length < arkshMaxVarName)
    (hn : n ∉ sh.namesAfter l ∨ n ∉ namesOf l) : (applyAssignments sh l).1.shown n = sh.shown n ∧
    (applyAssignments sh l).1.env n = sh.env n ∧
    arkshShellGetVar (applyAssignments sh l).1 n = arkshShellGetVar sh n := by
  induction l using List.reverseRecOn with
  | nil => exact ⟨rfl, rfl, rfl⟩
  | append_singleton l p ih =>
    have hp : p.name.length < arkshMaxVarName := hshort p.name (by simp [namesOf])
    have hrest : ∀ m ∈ namesOf l, m.length < arkshMaxVarName := fun m hm => hshort m (by
      rw [namesOf_append]
      exact mem_append_left _ hm)
    rw [namesAfter_concat] at hn
    have hbefore : n ∉ sh.namesAfter l ∨ n ∉ namesOf l := by
      rcases hn with hn | hn
      · exact Or.inl fun h => hn (mem_enter_of_mem h)
      · exact Or.inr fun h => hn (by
          rw [namesOf_append]
          exact mem_append_left _ h)
    obtain ⟨hs, he, hg⟩ := ih hrest hbefore
    rw [apply_concat]
    unfold saveAndAssign
    by_cases hname : p.name = n
    · subst hname
      have hno : ¬ (applyAssignments sh l).1.Accepts p.name := by
        intro hacc
        rcases hn with hn | hn
        · have hacc' := hacc.2
          rw [applied_topNames] at hacc'
          exact hn (mem_enter_self hacc' hp)
        · exact hn (by simp [namesOf])
      rw [setVar_of_not_accepts hno]
      exact ⟨hs, he, hg⟩
    · have hne : n ≠ p.name := fun h => hname h.symm
      rw [setVar_shown_of_ne hp hne, setVar_env_of_ne hne, setVar_getVar_of_ne hp hne]
      exact ⟨hs, he, hg⟩

theorem applied_saves_names (sh : VarStore) (l : List PosixAssignment) :
    (applyAssignments sh l).2.map Prod.fst = namesOf l := by
  induction l using List.reverseRecOn with
  | nil => rfl
  | append_singleton l p ih =>
    rw [apply_concat]
    unfold saveAndAssign
    rw [map_append, ih, namesOf_append]
    rfl

theorem applied_saves_append (sh : VarStore) (l₁ l₂ : List PosixAssignment) :
    ∃ saves, (applyAssignments sh (l₁ ++ l₂)).2 = (applyAssignments sh l₁).2 ++ saves ∧
      saves.map Prod.fst = namesOf l₂ := by
  induction l₂ using List.reverseRecOn with
  | nil => exact ⟨[], by rw [append_nil, append_nil], rfl⟩
  | append_singleton l p ih =>
    obtain ⟨saves, hs, hnames⟩ := ih
    refine ⟨saves ++ [(p.name, (arkshShellGetVar (applyAssignments sh (l₁ ++ l)).1 p.name).map
      (copyString arkshMaxToken))], ?_, ?_⟩
    · rw [← append_assoc, apply_concat]
      unfold saveAndAssign
      rw [hs, append_assoc]
    · rw [map_append, hnames, namesOf_append]; rfl

theorem namesAfter_append_of_full (hfull : arkshMaxShellVars ≤ (sh.namesAfter l₁).length)
    (hlen : (sh.namesAfter l₁).length ≤ arkshMaxShellVars) :
    sh.namesAfter (l₁ ++ l₂) = sh.namesAfter l₁ := by
  induction l₂ using List.reverseRecOn with
  | nil => rw [append_nil]
  | append_singleton l p ih =>
    rw [← append_assoc, namesAfter_concat, ih]
    unfold enter
    rw [if_neg (by omega : ¬ (sh.namesAfter l₁).length < arkshMaxShellVars)]
    split <;> rfl

theorem topNames_length_le (sh : VarStore) : sh.topNames.length ≤ arkshMaxShellVars := by
  unfold VarStore.topNames
  split <;> exact NameTable.length_le _

theorem namesAfter_length_le (sh : VarStore) (l : List PosixAssignment) :
    (sh.namesAfter l).length ≤ arkshMaxShellVars := by
  rw [← applied_topNames]
  exact topNames_length_le _

theorem namesAfter_full (hshort : ∀ m ∈ namesOf l, m.length < arkshMaxVarName)
    (hn : n ∈ namesOf l) (hno : n ∉ sh.namesAfter l) :
    arkshMaxShellVars ≤ (sh.namesAfter l).length := by
  induction l using List.reverseRecOn with
  | nil => exact absurd hn not_mem_nil
  | append_singleton l p ih =>
    have hp : p.name.length < arkshMaxVarName := hshort p.name (by simp [namesOf])
    rw [namesAfter_concat] at hno ⊢
    by_cases hfull : arkshMaxShellVars ≤ (sh.namesAfter l).length
    · unfold enter
      split
      · exact hfull
      · split
        · omega
        · exact hfull
    · have hmem : n ∈ namesOf l := by
        rw [namesOf_append] at hn
        rcases mem_append.mp hn with h | h
        · exact h
        · have hpn : n = p.name := mem_singleton.mp h
          rw [hpn] at hno
          exact absurd (mem_enter_self (Or.inr (Nat.lt_of_not_le hfull)) hp) hno
      refine absurd (ih (fun m hm => hshort m ?_) hmem fun h => hno (mem_enter_of_mem h)) hfull
      rw [namesOf_append]
      exact mem_append_left _ hm

/-- The copy that is saved last under a name: of its value before the assignments, or of the last
    but one of the values they give it. -/
def previousValue (sh : VarStore) (assignments : List PosixAssignment) (name : Text) :
    Option Text :=
  match (valuesOf name assignments).dropLast.getLast? with
  | some value => some (copyString arkshMaxToken (copyString arkshMaxVarValue value))
  | none => (arkshShellGetVar sh name).map (copyString arkshMaxToken)

theorem valuesOf_eq_nil : valuesOf n l = [] ↔ n ∉ namesOf l := by
  simp [valuesOf, namesOf, filter_eq_nil_iff]

theorem split_last (hn : n ∈ namesOf l) :
    ∃ l₁ p l₂, l = l₁ ++ p :: l₂ ∧ p.name = n ∧ n ∉ namesOf l₂ ∧
      valuesOf n l = valuesOf n l₁ ++ [p.value] := by
  induction l using List.reverseRecOn with
  | nil => exact absurd hn not_mem_nil
  | append_singleton l p ih =>
    by_cases hname : p.name = n
    · refine ⟨l, p, [], rfl, hname, not_mem_nil, ?_⟩; rw [← hname, valuesOf_concat_self]
    · have hmem : n ∈ namesOf l := by
        rw [namesOf_append] at hn
        rcases mem_append.mp hn with h | h
        · exact h
        · exact absurd (mem_singleton.mp h : n = p.name).symm hname
      obtain ⟨l₁, q, l₂, rfl, hq, hnot, hvals⟩ := ih hmem
      refine ⟨l₁, q, l₂ ++ [p], by simp, hq, ?_, ?_⟩
      · intro h
        rw [namesOf_append] at h
        rcases mem_append.mp h with h | h
        · exact hnot h
        · exact hname (mem_singleton.mp h : n = p.name).symm
      · rw [valuesOf_concat_of_ne hname, hvals]

/-- **What is saved last under a name that gets an entry.** -/
theorem previousValue_eq (hshort : ∀ m ∈ namesOf l, m.length < arkshMaxVarName)
    (hl : l = l₁ ++ p :: l₂) (hp : p.name = n)
    (hvals : valuesOf n l = valuesOf n l₁ ++ [p.value]) (hn : n ∈ sh.namesAfter l) :
    (arkshShellGetVar (applyAssignments sh l₁).1 n).map (copyString arkshMaxToken) =
      previousValue sh l n := by
  have hshort₁ : ∀ m ∈ namesOf l₁, m.length < arkshMaxVarName := fun m hm => hshort m (by
    rw [hl, namesOf_append]
    exact mem_append_left _ hm)
  unfold previousValue
  rw [hvals, dropLast_concat]
  by_cases hmem : n ∈ namesOf l₁
  · have hin : n ∈ sh.namesAfter l₁ := by
      by_contra hno
      have hfull := namesAfter_full hshort₁ hmem hno
      rw [hl, namesAfter_append_of_full hfull (namesAfter_length_le sh l₁)] at hn
      exact hno hn
    cases hv : (valuesOf n l₁).getLast? with
    | none => exact absurd (getLast?_eq_none_iff.mp hv) fun h => valuesOf_eq_nil.mp h hmem
    | some v =>
      obtain ⟨hs, _, _⟩ := applied_shown hshort₁ hin hv
      rw [getVar_of_shown (hp ▸ ne_nil_of_valid p.valid) hs]
      rfl
  · rw [valuesOf_eq_nil.mpr hmem]
    obtain ⟨_, _, hg⟩ := @applied_of_not_mem sh l₁ n hshort₁ (Or.inr hmem)
    rw [hg]
    rfl

end Apply

/-! ## 5. What is restored -/

section Restore

variable {sh : VarStore} {saves rest : List (Text × Option Text)} {n : Text}

def Restores (saves : List (Text × Option Text)) : Prop :=
  ∀ q ∈ saves, isValidIdentifier q.1 = true ∧ q.1.length < arkshMaxVarName

theorem Restores.left (h : Restores (saves ++ rest)) : Restores saves :=
  fun q hq => h q (mem_append_left _ hq)

theorem Restores.right (h : Restores (saves ++ rest)) : Restores rest :=
  fun q hq => h q (mem_append_right _ hq)

theorem restore_concat (sh : VarStore) (saves : List (Text × Option Text))
    (q : Text × Option Text) :
    (saves ++ [q]).foldl restoreOne sh = restoreOne (saves.foldl restoreOne sh) q :=
  foldl_concat ..

variable {q : Text × Option Text}

theorem restoreOne_of_ne (hq : q.1.length < arkshMaxVarName) (hne : n ≠ q.1) :
    (restoreOne sh q).shown n = sh.shown n ∧ (restoreOne sh q).env n = sh.env n ∧
    (restoreOne sh q).effectiveExported n false = sh.effectiveExported n false := by
  unfold restoreOne
  split
  · exact ⟨setVar_shown_of_ne hq hne, setVar_env_of_ne hne, setVar_effective_of_ne hq hne⟩
  · exact ⟨(unsetVar_of_ne hq hne).1, unsetVar_env_of_ne hne, (unsetVar_of_ne hq hne).2⟩

theorem restoreOne_frames_nil : (restoreOne sh q).frames = [] ↔ sh.frames = [] := by
  unfold restoreOne
  split
  · exact setVar_frames_nil
  · exact unsetVar_frames_nil

theorem restored_frames_nil (saves : List (Text × Option Text)) (sh : VarStore) :
    (saves.foldl restoreOne sh).frames = [] ↔ sh.frames = [] := by
  induction saves using List.reverseRecOn with
  | nil => exact Iff.rfl
  | append_singleton saves q ih => rw [restore_concat, restoreOne_frames_nil, ih]

theorem restored_of_not_mem (hr : Restores saves) (hn : n ∉ saves.map Prod.fst) :
    (saves.foldl restoreOne sh).shown n = sh.shown n ∧
    (saves.foldl restoreOne sh).env n = sh.env n := by
  induction saves using List.reverseRecOn with
  | nil => exact ⟨rfl, rfl⟩
  | append_singleton saves q ih =>
    rw [map_append, mem_append, not_or] at hn
    obtain ⟨hs, he⟩ := ih hr.left hn.1
    obtain ⟨hs', he', _⟩ := @restoreOne_of_ne (saves.foldl restoreOne sh) n q
      (hr q (by simp)).2 fun h => hn.2 (by simp [h])
    rw [restore_concat, hs', he', hs, he]
    exact ⟨rfl, rfl⟩

theorem restoreOne_topNames (hvalid : isValidIdentifier q.1 = true) :
    (restoreOne sh q).topNames = enter arkshMaxVarName arkshMaxShellVars sh.topNames q.1 ∨
    sh.frames = [] ∧ (restoreOne sh q).topNames = sh.topNames.erase q.1 := by
  unfold restoreOne
  split
  · exact Or.inl (setVar_topNames hvalid)
  · rw [unsetVar_topNames hvalid]
    split
    · rename_i hf; exact Or.inr ⟨hf, rfl⟩
    · exact Or.inl rfl

theorem enter_subperm {names start : List Text} {m : Text} (hsub : names.Subperm start)
    (hm : m ∈ start) (hlen : m.length < arkshMaxVarName) :
    (enter arkshMaxVarName arkshMaxShellVars names m).Subperm start := by
  unfold enter
  split
  · exact hsub
  · rename_i hnot
    split
    · rw [copyString_of_lt hlen, subperm_ext_iff]
      intro k _
      rw [count_append, count_singleton]
      by_cases hk : k = m
      · rw [hk, count_eq_zero.mpr hnot]; simpa using count_pos_iff.mpr hm
      · have hbeq : (m == k) = false := by simpa using fun h => hk h.symm
        rw [hbeq]
        simpa using hsub.count_le k
    · exact hsub

theorem restored_frame_names (hr : Restores saves) (hf : sh.frames ≠ []) (hn : n ∈ sh.topNames) :
    n ∈ (saves.foldl restoreOne sh).topNames := by
  induction saves using List.reverseRecOn with
  | nil => exact hn
  | append_singleton saves q ih =>
    have hmem := ih hr.left
    rw [restore_concat]
    rcases @restoreOne_topNames (saves.foldl restoreOne sh) q (hr q (by simp)).1 with h | ⟨h, _⟩
    · rw [h]; exact mem_enter_of_mem hmem
    · exact absurd ((restored_frames_nil saves sh).mp h) hf

theorem restored_root_names (hr : Restores saves) (hin : ∀ q ∈ saves, q.1 ∈ sh.topNames) :
    (saves.foldl restoreOne sh).topNames.Subperm sh.topNames := by
  induction saves using List.reverseRecOn with
  | nil => exact List.Subperm.refl _
  | append_singleton saves q ih =>
    have hsub := ih hr.left fun q hq => hin q (mem_append_left _ hq)
    obtain ⟨hvalid, hq⟩ := hr q (by simp)
    rw [restore_concat]
    rcases @restoreOne_topNames (saves.foldl restoreOne sh) q hvalid with h | ⟨_, h⟩
    · rw [h]; exact enter_subperm hsub (hin q (by simp)) hq
    · rw [h]; exact erase_sublist.subperm.trans hsub

theorem restored_accepts (hr : Restores saves)
    (hin : sh.frames = [] → ∀ q ∈ saves, q.1 ∈ sh.topNames) (hvalid : isValidIdentifier n = true)
    (hn : n ∈ sh.topNames) : (saves.foldl restoreOne sh).Accepts n := by
  refine ⟨hvalid, ?_⟩
  by_cases hf : sh.frames = []
  · have hsub := restored_root_names hr (hin hf)
    by_cases hmem : n ∈ (saves.foldl restoreOne sh).topNames
    · exact Or.inl hmem
    · refine Or.inr (Nat.lt_of_le_of_ne (topNames_length_le _) ?_)
      intro hlen
      have hperm := hsub.perm_of_length_le (by rw [hlen]; exact topNames_length_le sh)
      exact hmem (hperm.mem_iff.mpr hn)
  · exact Or.inl (restored_frame_names hr hf hn)

theorem restoreOne_effective (hq : q.1.length < arkshMaxVarName) (hsome : q.1 = n → q.2 ≠ none)
    (he : sh.effectiveExported n false = true) :
    (restoreOne sh q).effectiveExported n false = true := by
  by_cases hname : q.1 = n
  · subst hname
    unfold restoreOne
    split
    · by_cases hacc : sh.Accepts q.1
      · rw [setVar_effective_self hacc hq]; exact he
      · rw [setVar_of_not_accepts hacc]; exact he
    · rename_i hnone; exact absurd hnone (hsome rfl)
  · rw [(restoreOne_of_ne hq fun h => hname h.symm).2.2]; exact he

theorem restored_effective (hr : Restores saves)
    (hsome : ∀ q ∈ saves, q.1 = n → q.2 ≠ none) (he : sh.effectiveExported n false = true) :
    (saves.foldl restoreOne sh).effectiveExported n false = true := by
  induction saves using List.reverseRecOn with
  | nil => exact he
  | append_singleton saves q ih =>
    have hbefore := ih hr.left fun q hq => hsome q (mem_append_left _ hq)
    rw [restore_concat]
    exact restoreOne_effective (hr q (by simp)).2 (hsome q (by simp)) hbefore

/-- **What the last value saved under a name leaves**: the value, with the flag the entry had. -/
theorem restored_value {g : Text} (hr : Restores (saves ++ (n, some g) :: rest))
    (hin : sh.frames = [] → ∀ q ∈ saves, q.1 ∈ sh.topNames) (hn : n ∈ sh.topNames)
    (hrest : n ∉ rest.map Prod.fst) :
    let flag := (saves.foldl restoreOne sh).effectiveExported n false
    ((saves ++ (n, some g) :: rest).foldl restoreOne sh).shown n =
      some (copyString arkshMaxVarValue g, flag) ∧
    (flag = true → ((saves ++ (n, some g) :: rest).foldl restoreOne sh).env n =
      some (copyString arkshMaxVarValue g)) := by
  intro flag
  obtain ⟨hvalid, hlen⟩ := hr (n, some g) (by simp)
  have hacc := restored_accepts hr.left hin hvalid hn
  obtain ⟨hs, he⟩ := @restored_of_not_mem (restoreOne (saves.foldl restoreOne sh) (n, some g))
    rest n (fun q hq => hr.right q (mem_cons_of_mem _ hq)) hrest
  rw [foldl_append, foldl_cons, hs, he]
  constructor
  · exact setVar_shown_self hacc hlen
  · intro hflag
    show (arkshShellSetVar _ n g false).2.env n = _
    rw [setVar_env, if_pos ⟨hacc, hflag⟩]
    exact Function.update_self _ _ _

/-- **A name that was not there before is taken away**, if the loop meets it once. -/
theorem restored_none (hr : Restores (saves ++ (n, none) :: rest))
    (hin : sh.frames = [] → ∀ q ∈ saves, q.1 ∈ sh.topNames) (hn : n ∈ sh.topNames)
    (honce : sh.frames = [] → sh.topNames.count n ≤ 1) (hrest : n ∉ rest.map Prod.fst) :
    ((saves ++ (n, none) :: rest).foldl restoreOne sh).shown n = none ∧
    ((saves ++ (n, none) :: rest).foldl restoreOne sh).env n = none := by
  obtain ⟨hvalid, hlen⟩ := hr (n, none) (by simp)
  have hacc := restored_accepts hr.left hin hvalid hn
  obtain ⟨hs, he⟩ := @restored_of_not_mem (restoreOne (saves.foldl restoreOne sh) (n, none))
    rest n (fun q hq => hr.right q (mem_cons_of_mem _ hq)) hrest
  rw [foldl_append, foldl_cons, hs, he]
  refine unsetVar_self hacc hlen ?_
  intro hf
  have hroot := (restored_frames_nil saves sh).mp hf
  exact ((restored_root_names hr.left (hin hroot)).count_le n).trans (honce hroot)

theorem restoreOne_refused (hf : sh.frames ≠ []) (hno : ¬ sh.Accepts q.1) :
    restoreOne sh q = sh := by
  unfold restoreOne
  split
  · rw [setVar_of_not_accepts hno]
  · rcases unsetVar_cases sh q.1 with ⟨_, h⟩ | ⟨hacc, _⟩ | ⟨_, h, _⟩
    · rw [h]
    · exact absurd hacc hno
    · exact absurd h hf

theorem restored_full (hr : Restores saves) (hf : sh.frames ≠ [])
    (hfull : arkshMaxShellVars ≤ sh.topNames.length) (hn : n ∉ sh.topNames) :
    (saves.foldl restoreOne sh).topNames = sh.topNames ∧
    (saves.foldl restoreOne sh).shown n = sh.shown n ∧
    (saves.foldl restoreOne sh).env n = sh.env n := by
  induction saves using List.reverseRecOn with
  | nil => exact ⟨rfl, rfl, rfl⟩
  | append_singleton saves q ih =>
    obtain ⟨hnames, hs, he⟩ := ih hr.left
    obtain ⟨hvalid, hq⟩ := hr q (by simp)
    have hf' : (saves.foldl restoreOne sh).frames ≠ [] := fun h =>
      hf ((restored_frames_nil saves sh).mp h)
    rw [restore_concat]
    refine ⟨?_, ?_⟩
    · rcases @restoreOne_topNames (saves.foldl restoreOne sh) q hvalid with h | ⟨h, _⟩
      · rw [h, hnames]
        unfold enter
        rw [if_neg (by omega : ¬ sh.topNames.length < arkshMaxShellVars)]
        split <;> rfl
      · exact absurd h hf'
    · by_cases hname : q.1 = n
      · subst hname
        rw [restoreOne_refused hf' ?_]
        · exact ⟨hs, he⟩
        · intro hacc
          have hacc' := hacc.2
          rw [hnames] at hacc'
          rcases hacc' with h | h
          · exact hn h
          · omega
      · obtain ⟨hs', he', _⟩ := @restoreOne_of_ne (saves.foldl restoreOne sh) n q hq
          fun h => hname h.symm
        rw [hs', he', hs, he]
        exact ⟨rfl, rfl⟩

end Restore

/-! ## 6. The command -/

section Command

variable {sh sh' : VarStore} {names : List Text} {n : Text}

theorem LeavesNames.frames_nil (h : LeavesNames names sh sh') (hn : n ∈ names) :
    sh'.frames = [] ↔ sh.frames = [] := by
  have hlen := congrArg List.length (h.frames n hn)
  rw [length_map, length_map] at hlen
  rw [← length_eq_zero_iff, ← length_eq_zero_iff, hlen]

theorem findSome_under (frames : List ArkshScopeFrame) (n : Text) :
    frames.findSome? (·.vars.find n) =
      (frames.map fun frame => frame.vars.under n).findSome? (·.head?.map Prod.snd) := by
  rw [findSome?_map]
  congr 1
  funext frame
  exact NameTable.find_eq_under frame.vars n

section

variable (h : LeavesNames names sh sh') (hn : n ∈ names)
include h hn

theorem LeavesNames.shown : sh'.shown n = sh.shown n := by
  unfold VarStore.shown lookupVisibleVar
  rw [findSome_under, findSome_under, h.frames n hn, NameTable.find_eq_under,
    NameTable.find_eq_under sh.vars, h.root n hn]
  rfl

theorem LeavesNames.topNames : sh'.topNames.count n = sh.topNames.count n := by
  have hframes := h.frames n hn
  unfold VarStore.topNames
  cases hf : sh.frames with
  | nil =>
    rw [(h.frames_nil hn).mpr hf]
    rw [NameTable.count_eq_under, NameTable.count_eq_under, h.root n hn]
  | cons frame previous =>
    cases hf' : sh'.frames with
    | nil => exact absurd ((h.frames_nil hn).mp hf') (by rw [hf]; exact cons_ne_nil _ _)
    | cons frame' previous' =>
      rw [hf, hf', map_cons, map_cons] at hframes
      rw [NameTable.count_eq_under, NameTable.count_eq_under, (cons.inj hframes).1]

theorem LeavesNames.mem_topNames : n ∈ sh'.topNames ↔ n ∈ sh.topNames := by
  rw [← count_pos_iff, ← count_pos_iff, h.topNames hn]

theorem LeavesNames.effective : sh'.effectiveExported n false = sh.effectiveExported n false := by
  have hframes := h.frames n hn
  unfold VarStore.effectiveExported
  cases hf : sh.frames with
  | nil =>
    rw [(h.frames_nil hn).mpr hf]
    rw [NameTable.find_eq_under, NameTable.find_eq_under sh.vars, h.root n hn]
  | cons frame previous =>
    cases hf' : sh'.frames with
    | nil => exact absurd ((h.frames_nil hn).mp hf') (by rw [hf]; exact cons_ne_nil _ _)
    | cons frame' previous' =>
      rw [hf, hf', map_cons, map_cons] at hframes
      obtain ⟨htop, hrest⟩ := cons.inj hframes
      dsimp only
      unfold lookupVisibleVar
      rw [NameTable.find_eq_under, NameTable.find_eq_under frame.vars, htop, findSome_under,
        findSome_under previous, hrest, NameTable.find_eq_under, NameTable.find_eq_under sh.vars,
        h.root n hn]
      rfl

end

end Command

/-! ## 7. When the names are as before -/

/-- A name is restored: it fits its field; where it gets an entry, its last value fits, and what is
    saved last is what was exported before (or there was nothing); where it finds no room, it had
    its last value before. -/
def Restorable (sh : VarStore) (assignments : List PosixAssignment) (n : Text) : Prop :=
  n.length < arkshMaxVarName ∧
    if n ∈ sh.namesAfter assignments then
      (∀ v ∈ (valuesOf n assignments).getLast?, v.length < arkshMaxVarValue) ∧
      match previousValue sh assignments n with
      | none => sh.env n = none
      | some g => sh.shown n = some (g, true) ∧ sh.env n = some g
    else (sh.shown n).map Prod.fst = (valuesOf n assignments).getLast?

section Law

variable {sh : VarStore} {l l₁ l₂ : List PosixAssignment} {p : PosixAssignment}
  {command : VarStore → VarStore} {n : Text}

section

variable (hshort : ∀ m ∈ namesOf l, m.length < arkshMaxVarName)
include hshort

theorem saves_some (hget : arkshShellGetVar sh n ≠ none) :
    ∀ q ∈ (applyAssignments sh l).2, q.1 = n → q.2 ≠ none := by
  induction l using List.reverseRecOn with
  | nil => intro q hq; exact absurd hq not_mem_nil
  | append_singleton l p ih =>
    have hrest : ∀ m ∈ namesOf l, m.length < arkshMaxVarName := fun m hm => hshort m (by
      rw [namesOf_append]
      exact mem_append_left _ hm)
    intro q hq hname
    rw [apply_concat] at hq
    rcases mem_append.mp hq with hq | hq
    · exact ih hrest q hq hname
    · rw [mem_singleton.mp hq] at hname ⊢
      dsimp only at hname ⊢
      rw [ne_eq, map_eq_none_iff, hname]
      by_cases hin : n ∈ sh.namesAfter l ∧ n ∈ namesOf l
      · obtain ⟨v, hv⟩ := isSome_iff_exists.mp
          (getLast?_isSome.mpr fun h => valuesOf_eq_nil.mp h hin.2)
        rw [getVar_of_shown (hname ▸ ne_nil_of_valid p.valid) (applied_shown hrest hin.1 hv).1]
        exact some_ne_none _
      · rw [(applied_of_not_mem hrest (not_and_or.mp hin)).2.2]; exact hget

theorem count_namesAfter (hn : n ∉ sh.topNames) : (sh.namesAfter l).count n ≤ 1 := by
  induction l using List.reverseRecOn with
  | nil =>
    show sh.topNames.count n ≤ 1
    rw [count_eq_zero.mpr hn]
    exact Nat.zero_le 1
  | append_singleton l p ih =>
    have hp : p.name.length < arkshMaxVarName := hshort p.name (by simp [namesOf])
    have hcount := ih fun m hm => hshort m (by
      rw [namesOf_append]
      exact mem_append_left _ hm)
    rw [namesAfter_concat]
    unfold enter
    split
    · exact hcount
    · rename_i hnot
      split
      · rw [copyString_of_lt hp, count_append, count_singleton]
        by_cases hname : p.name = n
        · rw [← hname, count_eq_zero.mpr hnot]; simp
        · have hbeq : (p.name == n) = false := by simpa using hname
          rw [hbeq]
          simpa using hcount
      · exact hcount

theorem restores_saves : Restores (applyAssignments sh l).2 := by
  intro q hq
  have hmem : q.1 ∈ namesOf l := by rw [← applied_saves_names sh l]; exact mem_map_of_mem hq
  obtain ⟨p, _, hp⟩ := mem_map.mp hmem
  exact ⟨hp ▸ p.valid, hshort q.1 hmem⟩

theorem saves_split (hn : n ∈ namesOf l) (hin : n ∈ sh.namesAfter l) :
    ∃ l₁ rest, (∀ m ∈ namesOf l₁, m ∈ namesOf l) ∧
      (applyAssignments sh l).2 = (applyAssignments sh l₁).2 ++ (n, previousValue sh l n) :: rest ∧
      n ∉ rest.map Prod.fst := by
  obtain ⟨l₁, p, l₂, hl, hp, hnot, hvals⟩ := split_last hn
  obtain ⟨rest, hsaves, hrest⟩ := applied_saves_append sh (l₁ ++ [p]) l₂
  refine ⟨l₁, rest, ?_, ?_, by rwa [hrest]⟩
  · intro m hm
    rw [hl, namesOf_append]
    exact mem_append_left _ hm
  · have hassoc : l = l₁ ++ [p] ++ l₂ := by rw [hl, append_assoc, singleton_append]
    have hprev := previousValue_eq hshort hl hp hvals hin
    rw [← hprev, hassoc, hsaves, apply_concat]
    unfold saveAndAssign
    rw [append_assoc, singleton_append, hp]

end

theorem previousValue_fits {g : Text} (h : previousValue sh l n = some g) :
    copyString arkshMaxVarValue g = g := by
  apply copyString_of_lt
  unfold previousValue at h
  split at h
  · cases h; exact (copyString_length_lt (by decide) _).trans (by decide)
  · obtain ⟨w, _, rfl⟩ := map_eq_some_iff.mp h
    exact (copyString_length_lt (by decide) _).trans (by decide)

theorem getVar_of_previousValue (h : previousValue sh l n = none) :
    arkshShellGetVar sh n = none := by
  unfold previousValue at h
  split at h
  · cases h
  · exact map_eq_none_iff.mp h

theorem not_mem_topNames_of_getVar (hnil : n ≠ []) (hget : arkshShellGetVar sh n = none)
    (hframes : sh.frames = []) : n ∉ sh.topNames := by
  intro hmem
  have hshown := shown_of_getVar_none hnil hget
  unfold VarStore.topNames at hmem
  rw [hframes] at hmem
  unfold VarStore.shown lookupVisibleVar at hshown
  rw [hframes, findSome?_nil] at hshown
  cases hfind : sh.vars.find n with
  | none => exact NameTable.find_eq_none.mp hfind hmem
  | some entry => rw [hfind] at hshown; cases hshown

theorem after_iff (hshort : ∀ m ∈ namesOf l, m.length < arkshMaxVarName)
    (hroot : sh.frames = [] → ∀ m ∈ namesOf l, m ∈ sh.namesAfter l)
    (hc : LeavesNames (namesOf l) (applyAssignments sh l).1 (command (applyAssignments sh l).1))
    (hn : n ∈ namesOf l) (hin : n ∈ sh.namesAfter l) :
    ((withTemporaries l command sh).shown n = sh.shown n ∧
      (withTemporaries l command sh).env n = sh.env n) ↔
    match previousValue sh l n with
    | none => sh.env n = none
    | some g => sh.shown n = some (g, true) ∧ sh.env n = some g := by
  have hnil : n ≠ [] := by obtain ⟨p, _, hp⟩ := mem_map.mp hn; exact hp ▸ ne_nil_of_valid p.valid
  obtain ⟨l₁, rest, hsub, hsaves, hrest⟩ := saves_split hshort hn hin
  have hr : Restores (applyAssignments sh l).2 := restores_saves hshort
  rw [hsaves] at hr
  have hframes := (hc.frames_nil hn).trans (applied_frames_nil sh l)
  have htop : ∀ m ∈ namesOf l, m ∈ sh.namesAfter l →
      m ∈ (command (applyAssignments sh l).1).topNames := by
    intro m hm hmin
    rw [hc.mem_topNames hm, applied_topNames]
    exact hmin
  have hroot' : (command (applyAssignments sh l).1).frames = [] →
      ∀ q ∈ (applyAssignments sh l₁).2, q.1 ∈ (command (applyAssignments sh l).1).topNames := by
    intro hf q hq
    have hmem : q.1 ∈ namesOf l := by
      apply hsub
      rw [← applied_saves_names sh l₁]
      exact mem_map_of_mem hq
    exact htop q.1 hmem (hroot (hframes.mp hf) q.1 hmem)
  have hfinal : withTemporaries l command sh =
      ((applyAssignments sh l₁).2 ++ (n, previousValue sh l n) :: rest).foldl restoreOne
        (command (applyAssignments sh l).1) := by
    rw [← hsaves]
    rfl
  rw [hfinal]
  cases hprev : previousValue sh l n with
  | some g =>
    rw [hprev] at hr
    obtain ⟨hs, he⟩ := restored_value hr hroot' (htop n hn hin) hrest
    rw [previousValue_fits hprev] at hs he
    by_cases hget : arkshShellGetVar sh n = none
    · rw [hs, shown_of_getVar_none hnil hget]
      constructor
      · intro ⟨h, _⟩; cases h
      · intro ⟨h, _⟩; cases h
    · obtain ⟨v, hv⟩ := isSome_iff_exists.mp
        (getLast?_isSome.mpr fun h => valuesOf_eq_nil.mp h hn)
      have hflag := restored_effective hr.left
        (saves_some (fun m hm => hshort m (hsub m hm)) hget)
        ((hc.effective hn).trans (applied_shown hshort hin hv).2.2)
      rw [hs, he hflag, hflag]
      constructor
      · intro ⟨h₁, h₂⟩; exact ⟨h₁.symm, h₂.symm⟩
      · intro ⟨h₁, h₂⟩; exact ⟨h₁.symm, h₂.symm⟩
  | none =>
    rw [hprev] at hr
    have hget := getVar_of_previousValue hprev
    have honce : (command (applyAssignments sh l).1).frames = [] →
        (command (applyAssignments sh l).1).topNames.count n ≤ 1 := by
      intro hf
      rw [hc.topNames hn, applied_topNames]
      exact count_namesAfter hshort (not_mem_topNames_of_getVar hnil hget (hframes.mp hf))
    obtain ⟨hs, he⟩ := restored_none hr hroot' (htop n hn hin) honce hrest
    rw [hs, he, shown_of_getVar_none hnil hget]
    constructor
    · intro ⟨_, h⟩; exact h.symm
    · intro h; exact ⟨rfl, h.symm⟩

theorem topNames_subset_namesAfter (h : n ∈ sh.topNames) : n ∈ sh.namesAfter l := by
  induction l using List.reverseRecOn with
  | nil => exact h
  | append_singleton l p ih => rw [namesAfter_concat]; exact mem_enter_of_mem ih

theorem after_of_full (hshort : ∀ m ∈ namesOf l, m.length < arkshMaxVarName) (hf : sh.frames ≠ [])
    (hc : LeavesNames (namesOf l) (applyAssignments sh l).1 (command (applyAssignments sh l).1))
    (hn : n ∈ namesOf l) (hout : n ∉ sh.namesAfter l) :
    (withTemporaries l command sh).shown n = sh.shown n ∧
      (withTemporaries l command sh).env n = sh.env n := by
  have hf' : (applyAssignments sh l).1.frames ≠ [] := fun h => hf ((applied_frames_nil sh l).mp h)
  have hfull := (namesAfter_full hshort hn hout).trans
    (le_of_eq_of_le (congrArg List.length (applied_topNames sh l).symm) (hc.entries hf'))
  have hnot : n ∉ (command (applyAssignments sh l).1).topNames := by
    rw [hc.mem_topNames hn, applied_topNames]
    exact hout
  obtain ⟨_, hs, he⟩ := restored_full (restores_saves hshort)
    (fun h => hf' ((hc.frames_nil hn).mp h)) hfull hnot
  obtain ⟨hs', he', _⟩ := applied_of_not_mem hshort (Or.inl hout)
  exact ⟨hs.trans ((hc.shown hn).trans hs'), he.trans ((hc.env n hn).trans he')⟩

end Law

/-! ## 8. Commands that write other names -/

/-- The calls name none of `names`, in full or as much of it as a field holds. -/
def ScopeOps.Avoids (names : List Text) : ScopeOps → Prop
  | .done => True
  | .set name _ _ rest =>
    name ∉ names ∧ copyString arkshMaxVarName name ∉ names ∧ rest.Avoids names
  | .unset name rest =>
    name ∉ names ∧ copyString arkshMaxVarName name ∉ names ∧ rest.Avoids names
  | .scope inner rest => inner.Avoids names ∧ rest.Avoids names

section Avoids

variable {sh sh₁ sh₂ : VarStore} {names : List Text} {m v : Text} {e : Bool}

theorem LeavesNames.refl (names : List Text) (sh : VarStore) : LeavesNames names sh sh :=
  ⟨fun _ _ => rfl, fun _ _ => rfl, fun _ _ => rfl, fun _ => le_refl _⟩

theorem LeavesNames.trans (hne : names ≠ []) (h : LeavesNames names sh sh₁)
    (h' : LeavesNames names sh₁ sh₂) : LeavesNames names sh sh₂ := by
  obtain ⟨n, hn⟩ := exists_mem_of_ne_nil names hne
  refine ⟨fun n hn => (h'.root n hn).trans (h.root n hn),
    fun n hn => (h'.frames n hn).trans (h.frames n hn),
    fun n hn => (h'.env n hn).trans (h.env n hn), ?_⟩
  intro hf
  exact (h.entries hf).trans (h'.entries fun hf' => hf ((h.frames_nil hn).mp hf'))

theorem setVar_leaves (hm : m ∉ names) (hcut : copyString arkshMaxVarName m ∉ names) :
    LeavesNames names sh (arkshShellSetVar sh m v e).2 := by
  have hne : ∀ n ∈ names, n ≠ m := fun n hn h => hm (h ▸ hn)
  have hne' : ∀ n ∈ names, n ≠ copyString arkshMaxVarName m := fun n hn h => hcut (h ▸ hn)
  rcases setVar_cases sh m v e with ⟨_, hr⟩ | ⟨_, frame, previous, vars, _, hf, hs, _, hr⟩ |
    ⟨_, vars, _, hf, hs, _, hr⟩
  · rw [hr]; exact LeavesNames.refl names sh
  · refine ⟨?_, ?_, fun n hn => setVar_env_of_ne (hne n hn), ?_⟩
    · intro n _; rw [hr]
    · intro n hn
      rw [hr, hf]
      simp only [map_cons, NameTable.under_store hs (hne n hn) (hne' n hn)]
    · intro _
      rw [hr]
      unfold VarStore.topNames
      rw [hf]
      exact NameTable.length_names_store hs
  · refine ⟨?_, ?_, fun n hn => setVar_env_of_ne (hne n hn), fun h => absurd hf h⟩
    · intro n hn
      rw [hr]
      exact NameTable.under_store hs (hne n hn) (hne' n hn)
    · intro n _; rw [hr]

theorem unsetVar_leaves (hm : m ∉ names) (hcut : copyString arkshMaxVarName m ∉ names) :
    LeavesNames names sh (arkshShellUnsetVar sh m).2 := by
  have hne : ∀ n ∈ names, n ≠ m := fun n hn h => hm (h ▸ hn)
  have hne' : ∀ n ∈ names, n ≠ copyString arkshMaxVarName m := fun n hn h => hcut (h ▸ hn)
  rcases unsetVar_cases sh m with ⟨_, hr⟩ | ⟨_, frame, previous, vars, hf, hs, hr⟩ | ⟨_, hf, hr⟩
  · rw [hr]; exact LeavesNames.refl names sh
  · refine ⟨?_, ?_, fun n hn => unsetVar_env_of_ne (hne n hn), ?_⟩
    · intro n _; rw [hr, syncVisibleVarEnv_eq]
    · intro n hn
      rw [hr, hf, syncVisibleVarEnv_eq]
      simp only [map_cons, NameTable.under_store hs (hne n hn) (hne' n hn)]
    · intro _
      rw [hr, syncVisibleVarEnv_eq]
      unfold VarStore.topNames
      rw [hf]
      exact NameTable.length_names_store hs
  · refine ⟨?_, ?_, fun n hn => unsetVar_env_of_ne (hne n hn), fun h => absurd hf h⟩
    · intro n hn
      rw [hr]
      exact NameTable.under_remove (hne n hn)
    · intro n _; rw [hr]

theorem runScoped_leaves {inner : ScopeOps}
    (ih : LeavesNames names (arkshShellPushScopeFrame sh) (inner.run (arkshShellPushScopeFrame sh))) :
    LeavesNames names sh (inner.runScoped sh) := by
  have htables := runScoped_tables inner sh
  refine ⟨?_, ?_, ?_, ?_⟩
  · intro n _; rw [htables]
  · intro n _; rw [htables]
  · intro n hn
    obtain ⟨frame, env, hrun, _⟩ := @run_frames inner (arkshShellPushScopeFrame sh) emptyFrame
      sh.frames rfl
    have hf : (inner.run (arkshShellPushScopeFrame sh)).frames = frame :: sh.frames := by
      rw [hrun]
    have hout : n ∉ frame.vars.names := by
      have hframes := ih.frames n hn
      rw [hf] at hframes
      have hunder : frame.vars.under n = [] := (cons.inj hframes).1
      rw [← count_eq_zero, NameTable.count_eq_under, hunder]
      rfl
    unfold ScopeOps.runScoped
    rw [popScopeFrame_eq hf]
    show (if n ∈ frame.vars.names then _ else _) = _
    rw [if_neg hout, ih.env n hn]
    rfl
  · intro _
    rw [htables]
    exact le_refl _

/-- **Calls that name none of the names leave them**: the variables of the shell are written by
    these calls alone. -/
theorem ScopeOps.leaves (hne : names ≠ []) (ops : ScopeOps) : ∀ {sh : VarStore},
    ops.Avoids names → LeavesNames names sh (ops.run sh) := by
  induction ops with
  | done => intro sh _; exact LeavesNames.refl names sh
  | set name value exported rest ih =>
    intro sh h
    exact (setVar_leaves h.1 h.2.1).trans hne (ih h.2.2)
  | unset name rest ih => intro sh h; exact (unsetVar_leaves h.1 h.2.1).trans hne (ih h.2.2)
  | scope inner rest ihi ihr => intro sh h; exact (runScoped_leaves (ihi h.1)).trans hne (ihr h.2)

end Avoids

/-- `A=2 B=3 command` where A is exported, B is nowhere, and the command sets C in a frame. -/
def exportedStore : VarStore :=
  (arkshShellSetVar (startStore "/".toList noEnv) "A".toList "1".toList true).2

def twoAssignments : List PosixAssignment :=
  (splitArgv ["A=2".toList, "B=3".toList, "command".toList]).1

def otherWrites : ScopeOps := .scope (.set "C".toList "4".toList true .done) .done

end Arksh
