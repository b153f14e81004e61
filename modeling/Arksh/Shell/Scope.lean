/-
  Subject: What is left of a scope frame after its pop.

  Between a push and the matching pop the shell sets and unsets variables, in this frame and in
  frames nested in it. The tables below the frame are not written; but the environment is, and the
  pop rewrites the entry of every name of the frame from the variable that is visible below -- not
  from what the environment held.
-/
import Arksh.Shell.Vars

namespace Arksh

open CText Tables List

/-! ## 1. The calls inside a frame -/

inductive ScopeOps where
  | done
  | set (name value : Text) (exported : Bool) (rest : ScopeOps)
  | unset (name : Text) (rest : ScopeOps)
  /-- A nested push, the calls up to its pop, and what follows. -/
  | scope (inner rest : ScopeOps)

def ScopeOps.run : ScopeOps → VarStore → VarStore
  | .done, sh => sh
  | .set name value exported rest, sh => rest.run (arkshShellSetVar sh name value exported).2
  | .unset name rest, sh => rest.run (arkshShellUnsetVar sh name).2
  | .scope inner rest, sh =>
    rest.run (arkshShellPopScopeFrame (inner.run (arkshShellPushScopeFrame sh)))

def ScopeOps.runScoped (ops : ScopeOps) (sh : VarStore) : VarStore :=
  arkshShellPopScopeFrame (ops.run (arkshShellPushScopeFrame sh))

/-- **Every write inside a frame is local to the frame.** -/
def ScopeLaw (sh : VarStore) (ops : ScopeOps) : Prop :=
  ∀ n, arkshShellGetVar (ops.runScoped sh) n = arkshShellGetVar sh n ∧
    (ops.runScoped sh).env n = sh.env n

/-! ## 2. Which names the calls touch -/

/-- The names of a frame after a call on `name`. -/
def enterVar (names : List Text) (name : Text) : List Text :=
  if isValidIdentifier name then enter arkshMaxVarName arkshMaxShellVars names name else names

/-- A frame whose names are `names` does not refuse a call on `name`. -/
def VarAccepted (names : List Text) (name : Text) : Prop :=
  isValidIdentifier name = true ∧ Tables.Accepts arkshMaxShellVars names name

instance (names : List Text) (name : Text) : Decidable (VarAccepted names name) := by
  unfold VarAccepted
  infer_instance

namespace ScopeOps

/-- The names of the frame after the calls, from those it had before. -/
def names : ScopeOps → List Text → List Text
  | .done, names => names
  | .set name _ _ rest, names => rest.names (enterVar names name)
  | .unset name rest, names => rest.names (enterVar names name)
  | .scope _ rest, names => rest.names names

def nested : ScopeOps → List Text
  | .done => []
  | .set _ _ _ rest => rest.nested
  | .unset _ rest => rest.nested
  | .scope inner rest => (inner.names [] ++ inner.nested) ++ rest.nested

def touched (ops : ScopeOps) : List Text := ops.names [] ++ ops.nested

/-- The last value that the calls export under a name too long for its field (`some none` for an
    unset). -/
def lastLong (n : Text) : ScopeOps → List Text → Option (Option Text)
  | .done, _ => none
  | .set name value exported rest, names =>
    (rest.lastLong n (enterVar names name)).or
      (if name = n ∧ exported ∧ VarAccepted names name then
        some (some (copyString arkshMaxVarValue value))
      else none)
  | .unset name rest, names =>
    (rest.lastLong n (enterVar names name)).or
      (if name = n ∧ VarAccepted names name then some none else none)
  | .scope inner rest, names => (rest.lastLong n names).or (inner.lastLong n [])

end ScopeOps

/-! ## 3. One call on the innermost frame -/

section Frame

variable {sh : VarStore} {frame : ArkshScopeFrame} {previous : List ArkshScopeFrame}
  {n m v : Text} {e : Bool} {names : List Text}

theorem accepts_frame_iff (hf : sh.frames = frame :: previous) :
    sh.Accepts n ↔ VarAccepted frame.vars.names n := by
  unfold VarStore.Accepts VarStore.topNames VarAccepted
  rw [hf]

theorem enterVar_of_not (h : ¬ VarAccepted names n) : enterVar names n = names := by
  unfold enterVar
  split
  · rename_i hn; exact enter_of_not_accepts fun hacc => h ⟨hn, hacc⟩
  · rfl

theorem mem_enterVar_of_mem (h : m ∈ names) : m ∈ enterVar names n := by
  unfold enterVar
  split
  · exact mem_enter_of_mem h
  · exact h

theorem mem_enterVar_self (h : VarAccepted names n) (hn : n.length < arkshMaxVarName) :
    n ∈ enterVar names n := by
  unfold enterVar
  rw [if_pos h.1]
  exact mem_enter_self h.2 hn

theorem enterVar_lt (h : ∀ m ∈ names, m.length < arkshMaxVarName) :
    ∀ m ∈ enterVar names n, m.length < arkshMaxVarName := by
  unfold enterVar
  split
  · exact enter_lt n h
  · exact h

theorem setVar_frame (hf : sh.frames = frame :: previous) :
    ∃ frame' env', (arkshShellSetVar sh n v e).2 =
        { sh with frames := frame' :: previous, env := env' } ∧
      frame'.vars.names = enterVar frame.vars.names n := by
  rcases setVar_cases sh n v e with ⟨hno, hr⟩ | ⟨hacc, fr, pr, vars, _, hf', hs, _, hr⟩ |
    ⟨_, _, _, hf', _⟩
  · rw [accepts_frame_iff hf] at hno
    refine ⟨frame, sh.env, ?_, (enterVar_of_not hno).symm⟩
    rw [hr, ← hf]
  · rw [hf] at hf'
    cases hf'
    refine ⟨{ frame with vars := vars }, _, congrArg Prod.snd hr, ?_⟩
    show vars.names = _
    rw [NameTable.names_store hs, enterVar, if_pos hacc.1]
  · rw [hf] at hf'; cases hf'

theorem unsetVar_frame (hf : sh.frames = frame :: previous) :
    ∃ frame' env', (arkshShellUnsetVar sh n).2 =
        { sh with frames := frame' :: previous, env := env' } ∧
      frame'.vars.names = enterVar frame.vars.names n := by
  rcases unsetVar_cases sh n with ⟨hno, hr⟩ | ⟨hacc, fr, pr, vars, hf', hs, hr⟩ | ⟨_, hf', _⟩
  · refine ⟨frame, sh.env, ?_, (enterVar_of_not ?_).symm⟩
    · rw [hr, ← hf]
    · intro hacc
      rcases hno with hn | ⟨_, hno⟩
      · rw [hacc.1] at hn; cases hn
      · exact hno ((accepts_frame_iff hf).mpr hacc)
  · rw [hf] at hf'
    cases hf'
    refine ⟨{ frame with vars := vars }, _, (congrArg Prod.snd hr).trans
      (syncVisibleVarEnv_eq _ _), ?_⟩
    show vars.names = _
    rw [NameTable.names_store hs, enterVar, if_pos hacc.1]
  · rw [hf] at hf'; cases hf'

theorem unsetVar_env_of_ne (h : m ≠ n) : (arkshShellUnsetVar sh n).2.env m = sh.env m := by
  rcases unsetVar_cases sh n with ⟨_, hr⟩ | ⟨_, _, _, _, _, _, hr⟩ | ⟨_, _, hr⟩
  · rw [hr]
  · rw [hr, syncVisibleVarEnv_eq]; exact Function.update_of_ne h _ _
  · rw [hr]; exact Function.update_of_ne h _ _

theorem unsetVar_of_not_accepted (hf : sh.frames = frame :: previous)
    (h : ¬ VarAccepted frame.vars.names n) : (arkshShellUnsetVar sh n).2 = sh := by
  rcases unsetVar_cases sh n with ⟨_, hr⟩ | ⟨hacc, _⟩ | ⟨_, hf', _⟩
  · rw [hr]
  · exact absurd ((accepts_frame_iff hf).mp hacc) h
  · rw [hf] at hf'; cases hf'

theorem unsetVar_env_of_le (hf : sh.frames = frame :: previous)
    (h : VarAccepted frame.vars.names n) (hn : arkshMaxVarName ≤ n.length) :
    (arkshShellUnsetVar sh n).2.env n = none := by
  rcases unsetVar_cases sh n with ⟨hno, hr⟩ | ⟨_, _, _, _, _, _, hr⟩ | ⟨_, hf', _⟩
  · rcases hno with hno | ⟨_, hno⟩
    · rw [h.1] at hno; cases hno
    · exact absurd ((accepts_frame_iff hf).mpr h) hno
  · rw [hr, syncVisibleVarEnv_eq]
    simp only [Function.update_self]
    unfold VarStore.exportedValue
    rw [lookup_of_le hn]
    rfl
  · rw [hf] at hf'; cases hf'

theorem exportedValue_cons (h : n ∉ frame.vars.names) :
    sh.exportedValue (frame :: previous) n = sh.exportedValue previous n := by
  unfold VarStore.exportedValue lookupVisibleVar
  rw [findSome?_cons, NameTable.find_eq_none.mpr h]

end Frame

/-! ## 4. The calls up to the pop -/

variable {n : Text}

section

variable (ops : ScopeOps)

theorem ScopeOps.mem_names : ∀ {names : List Text}, n ∈ names →
    n ∈ ops.names names := by
  induction ops with
  | done => intro names h; exact h
  | set name value exported rest ih | unset name rest ih =>
    intro names h
    exact ih (mem_enterVar_of_mem h)
  | scope inner rest _ ih => intro names h; exact ih h

theorem ScopeOps.names_lt : ∀ {names : List Text},
    (∀ m ∈ names, m.length < arkshMaxVarName) →
    ∀ m ∈ ops.names names, m.length < arkshMaxVarName := by
  induction ops with
  | done => intro names h; exact h
  | set name value exported rest ih | unset name rest ih => intro names h; exact ih (enterVar_lt h)
  | scope inner rest _ ih => intro names h; exact ih h

theorem ScopeOps.nested_lt : ∀ m ∈ ops.nested, m.length < arkshMaxVarName := by
  induction ops with
  | done => intro m h; exact absurd h not_mem_nil
  | set name value exported rest ih | unset name rest ih => exact ih
  | scope inner rest ihi ihr =>
    intro m h
    rcases mem_append.mp h with h | h
    · rcases mem_append.mp h with h | h
      · exact inner.names_lt (fun _ h => absurd h not_mem_nil) m h
      · exact ihi m h
    · exact ihr m h

theorem ScopeOps.touched_lt : ∀ m ∈ ops.touched, m.length < arkshMaxVarName := by
  intro m h
  rcases mem_append.mp h with h | h
  · exact ops.names_lt (fun _ h => absurd h not_mem_nil) m h
  · exact ops.nested_lt m h

end

/-- **The calls between a push and its pop write the innermost frame only**, with the names that
    they tell. -/
theorem run_frames (ops : ScopeOps) : ∀ {sh : VarStore} {frame : ArkshScopeFrame}
    {previous : List ArkshScopeFrame}, sh.frames = frame :: previous →
    ∃ frame' env', ops.run sh = { sh with frames := frame' :: previous, env := env' } ∧
      frame'.vars.names = ops.names frame.vars.names := by
  induction ops with
  | done =>
    intro sh frame previous hf
    refine ⟨frame, sh.env, ?_, rfl⟩
    show sh = _
    rw [← hf]
  | set name value exported rest ih =>
    intro sh frame previous hf
    obtain ⟨frame₁, env₁, h₁, hn₁⟩ := @setVar_frame sh frame previous name value exported hf
    obtain ⟨frame', env', h', hn'⟩ := @ih (arkshShellSetVar sh name value exported).2 frame₁
      previous (by rw [h₁])
    refine ⟨frame', env', ?_, ?_⟩
    · show rest.run _ = _; rw [h', h₁]
    · rw [hn', hn₁]; rfl
  | unset name rest ih =>
    intro sh frame previous hf
    obtain ⟨frame₁, env₁, h₁, hn₁⟩ := @unsetVar_frame sh frame previous name hf
    obtain ⟨frame', env', h', hn'⟩ := @ih (arkshShellUnsetVar sh name).2 frame₁
      previous (by rw [h₁])
    refine ⟨frame', env', ?_, ?_⟩
    · show rest.run _ = _; rw [h', h₁]
    · rw [hn', hn₁]; rfl
  | scope inner rest ihi ihr =>
    intro sh frame previous hf
    obtain ⟨frame₁, env₁, h₁, _⟩ := @ihi (arkshShellPushScopeFrame sh) emptyFrame
      (frame :: previous) (by rw [← hf]; rfl)
    have hpop : (inner.run (arkshShellPushScopeFrame sh)).frames = frame₁ :: frame :: previous := by
      rw [h₁]
    obtain ⟨frame', env', h', hn'⟩ := @ihr
      (arkshShellPopScopeFrame (inner.run (arkshShellPushScopeFrame sh))) frame previous
      (by rw [popScopeFrame_eq hpop])
    refine ⟨frame', env', ?_, hn'⟩
    show rest.run _ = _
    rw [h', popScopeFrame_eq hpop, h₁]
    rfl

/-- **A push, the calls and the pop leave every table as it was.** -/
theorem runScoped_tables (ops : ScopeOps) (sh : VarStore) :
    ops.runScoped sh = { sh with env := (ops.runScoped sh).env } := by
  obtain ⟨frame, env, hrun, _⟩ := @run_frames ops (arkshShellPushScopeFrame sh) emptyFrame
    sh.frames rfl
  have hf : (ops.run (arkshShellPushScopeFrame sh)).frames = frame :: sh.frames := by rw [hrun]
  unfold ScopeOps.runScoped
  rw [popScopeFrame_eq hf, hrun]
  rfl

theorem runScoped_pop (ops : ScopeOps) (sh : VarStore) (n : Text) : (ops.runScoped sh).env n =
    if n ∈ ops.names [] then sh.exportedValue sh.frames n
    else (ops.run (arkshShellPushScopeFrame sh)).env n := by
  obtain ⟨frame, env, hrun, hnames⟩ := @run_frames ops (arkshShellPushScopeFrame sh) emptyFrame
    sh.frames rfl
  have hf : (ops.run (arkshShellPushScopeFrame sh)).frames = frame :: sh.frames := by rw [hrun]
  have hname : frame.vars.names = ops.names [] := hnames
  unfold ScopeOps.runScoped
  rw [popScopeFrame_eq hf, hrun]
  dsimp only
  rw [hname]
  rfl

/-- A nested frame leaves the environment as it was, but for the names that got an entry in it: they
    have the value that is visible and exported outside. -/
theorem pop_env_short {sh : VarStore} {n : Text} {inner : ScopeOps}
    (ih : n ∉ inner.names [] → (inner.run (arkshShellPushScopeFrame sh)).env n =
      if n ∈ inner.nested then sh.exportedValue sh.frames n else sh.env n) :
    (inner.runScoped sh).env n =
      if n ∈ inner.touched then sh.exportedValue sh.frames n else sh.env n := by
  rw [runScoped_pop]
  unfold ScopeOps.touched
  by_cases h : n ∈ inner.names []
  · rw [if_pos h, if_pos (mem_append_left _ h)]
  · rw [if_neg h, ih h]; simp only [mem_append, h, false_or]

/-- What the calls leave in the environment under a name that fits: what is visible outside of the
    frame, if a frame nested in it touched the name. -/
theorem run_env_short (hn : n.length < arkshMaxVarName) (ops : ScopeOps) :
    ∀ {sh : VarStore} {frame : ArkshScopeFrame} {previous : List ArkshScopeFrame},
      sh.frames = frame :: previous → n ∉ ops.names frame.vars.names → (ops.run sh).env n =
        if n ∈ ops.nested then sh.exportedValue previous n else sh.env n := by
  induction ops with
  | done => intro sh frame previous _ _; rfl
  | set name value exported rest ih =>
    intro sh frame previous hf hno
    obtain ⟨frame₁, env₁, h₁, hn₁⟩ := @setVar_frame sh frame previous name value exported hf
    have henv : (arkshShellSetVar sh name value exported).2.env n = sh.env n := by
      by_cases hname : n = name
      · subst hname
        have hrefused : ¬ VarAccepted frame.vars.names n := fun hacc =>
          hno (rest.mem_names (mem_enterVar_self hacc hn))
        rw [setVar_of_not_accepts fun hacc => hrefused ((accepts_frame_iff hf).mp hacc)]
      · exact setVar_env_of_ne hname
    have hrest := @ih (arkshShellSetVar sh name value exported).2 frame₁ previous (by rw [h₁])
      (by rw [hn₁]; exact hno)
    show (rest.run _).env n = _
    rw [hrest, henv, h₁]
    rfl
  | unset name rest ih =>
    intro sh frame previous hf hno
    obtain ⟨frame₁, env₁, h₁, hn₁⟩ := @unsetVar_frame sh frame previous name hf
    have henv : (arkshShellUnsetVar sh name).2.env n = sh.env n := by
      by_cases hname : n = name
      · subst hname
        have hrefused : ¬ VarAccepted frame.vars.names n := fun hacc =>
          hno (rest.mem_names (mem_enterVar_self hacc hn))
        rw [unsetVar_of_not_accepted hf hrefused]
      · exact unsetVar_env_of_ne hname
    have hrest := @ih (arkshShellUnsetVar sh name).2 frame₁ previous (by rw [h₁])
      (by rw [hn₁]; exact hno)
    show (rest.run _).env n = _
    rw [hrest, henv, h₁]
    rfl
  | scope inner rest ihi ihr =>
    intro sh frame previous hf hno
    have hout : n ∉ frame.vars.names := fun h => hno (rest.mem_names h)
    have hpop := @pop_env_short sh n inner fun h => @ihi (arkshShellPushScopeFrame sh) emptyFrame
      sh.frames rfl h
    rw [hf, exportedValue_cons hout] at hpop
    have htables := runScoped_tables inner sh
    have hrest := @ihr (inner.runScoped sh) frame previous (by rw [htables, hf]) hno
    show (rest.run (inner.runScoped sh)).env n = _
    rw [hrest, hpop, htables, exportedValue_env]
    show _ = if n ∈ inner.touched ++ rest.nested then _ else _
    by_cases hr : n ∈ rest.nested
    · rw [if_pos hr, if_pos (mem_append_right _ hr)]
    · simp only [mem_append, hr, or_false, if_false]

/-- What the calls leave in the environment under a name too long for its field: what was last
    exported or unset, since no pop finds it. -/
theorem run_env_long (hn : arkshMaxVarName ≤ n.length) (ops : ScopeOps) :
    ∀ {sh : VarStore} {frame : ArkshScopeFrame} {previous : List ArkshScopeFrame},
      sh.frames = frame :: previous →
      (ops.run sh).env n = (ops.lastLong n frame.vars.names).getD (sh.env n) := by
  induction ops with
  | done => intro sh frame previous _; rfl
  | set name value exported rest ih =>
    intro sh frame previous hf
    obtain ⟨frame₁, env₁, h₁, hn₁⟩ := @setVar_frame sh frame previous name value exported hf
    have hrest := @ih (arkshShellSetVar sh name value exported).2 frame₁ previous (by rw [h₁])
    rw [hn₁] at hrest
    show (rest.run _).env n = _
    rw [hrest, ScopeOps.lastLong]
    cases rest.lastLong n (enterVar frame.vars.names name) with
    | some w => rfl
    | none =>
      show (arkshShellSetVar sh name value exported).2.env n = _
      by_cases hname : name = n
      · subst hname
        rw [setVar_env, effectiveExported_of_le hn]
        by_cases hset : VarAccepted frame.vars.names name ∧ exported = true
        · rw [if_pos ⟨(accepts_frame_iff hf).mpr hset.1, hset.2⟩, if_pos ⟨rfl, hset.2, hset.1⟩]
          exact Function.update_self name _ sh.env
        · rw [if_neg fun h => hset ⟨(accepts_frame_iff hf).mp h.1, h.2⟩,
            if_neg fun h => hset ⟨h.2.2, h.2.1⟩]
          rfl
      · rw [setVar_env_of_ne fun h => hname h.symm, if_neg fun h => hname h.1]; rfl
  | unset name rest ih =>
    intro sh frame previous hf
    obtain ⟨frame₁, env₁, h₁, hn₁⟩ := @unsetVar_frame sh frame previous name hf
    have hrest := @ih (arkshShellUnsetVar sh name).2 frame₁ previous (by rw [h₁])
    rw [hn₁] at hrest
    show (rest.run _).env n = _
    rw [hrest, ScopeOps.lastLong]
    cases rest.lastLong n (enterVar frame.vars.names name) with
    | some w => rfl
    | none =>
      show (arkshShellUnsetVar sh name).2.env n = _
      by_cases hname : name = n
      · subst hname
        by_cases hset : VarAccepted frame.vars.names name
        · rw [unsetVar_env_of_le hf hset hn, if_pos ⟨rfl, hset⟩]; rfl
        · rw [unsetVar_of_not_accepted hf hset, if_neg fun h => hset h.2]; rfl
      · rw [unsetVar_env_of_ne fun h => hname h.symm, if_neg fun h => hname h.1]; rfl
  | scope inner rest ihi ihr =>
    intro sh frame previous hf
    have hinner := @ihi (arkshShellPushScopeFrame sh) emptyFrame sh.frames rfl
    have htables := runScoped_tables inner sh
    have hpop : (inner.runScoped sh).env n = (inner.lastLong n []).getD (sh.env n) := by
      have hno : n ∉ inner.names [] := fun h =>
        Nat.not_lt.mpr hn (inner.touched_lt n (mem_append_left _ h))
      rw [runScoped_pop, if_neg hno, hinner]
      rfl
    have hrest := @ihr (inner.runScoped sh) frame previous (by rw [htables, hf])
    show (rest.run (inner.runScoped sh)).env n = _
    rw [hrest, hpop, ScopeOps.lastLong]
    cases rest.lastLong n frame.vars.names with
    | some w | none => rfl

/-! ## 5. The pop -/

theorem runScoped_env (ops : ScopeOps) (sh : VarStore) (n : Text) : (ops.runScoped sh).env n =
      if n ∈ ops.touched then sh.exportedValue sh.frames n
      else if n.length < arkshMaxVarName then sh.env n
      else (ops.lastLong n []).getD (sh.env n) := by
  by_cases hn : n.length < arkshMaxVarName
  · rw [if_pos hn]; exact pop_env_short fun h => run_env_short hn ops rfl h
  · have hle : arkshMaxVarName ≤ n.length := Nat.not_lt.mp hn
    have htouched : n ∉ ops.touched := fun h => hn (ops.touched_lt n h)
    rw [if_neg hn, if_neg htouched, runScoped_pop, if_neg fun h => htouched (mem_append_left _ h),
      run_env_long hle ops (show (arkshShellPushScopeFrame sh).frames = emptyFrame :: _ from rfl)]
    rfl

theorem getVar_runScoped {ops : ScopeOps} {sh : VarStore} (h : (ops.runScoped sh).env n = sh.env n) :
    arkshShellGetVar (ops.runScoped sh) n = arkshShellGetVar sh n := by
  unfold arkshShellGetVar lookupVisibleVar
  rw [h, runScoped_tables ops sh]

/-- **When a frame leaves nothing behind**: every name that gets an entry in it, or in a frame
    nested in it, is before the push in the environment as the shell exports it; and what is last
    exported or unset under a name too long for its field is what was there. -/
theorem scopeLaw_iff (sh : VarStore) (ops : ScopeOps) : ScopeLaw sh ops ↔
      (∀ n ∈ ops.touched, sh.env n = sh.exportedValue sh.frames n) ∧
      ∀ n w, arkshMaxVarName ≤ n.length → ops.lastLong n [] = some w → sh.env n = w := by
  constructor
  · intro hlaw
    constructor
    · intro n hn
      have henv := (hlaw n).2
      rw [runScoped_env, if_pos hn] at henv
      exact henv.symm
    · intro n w hlong hlast
      have henv := (hlaw n).2
      have htouched : n ∉ ops.touched := fun h => Nat.not_lt.mpr hlong (ops.touched_lt n h)
      rw [runScoped_env, if_neg htouched, if_neg (Nat.not_lt.mpr hlong), hlast] at henv
      exact henv.symm
  · intro ⟨hshort, hlong⟩ n
    have henv : (ops.runScoped sh).env n = sh.env n := by
      rw [runScoped_env]
      split
      · rename_i hn; exact (hshort n hn).symm
      · split
        · rfl
        · rename_i hn
          cases hlast : ops.lastLong n [] with
          | none => rfl
          | some w => exact (hlong n w (Nat.not_lt.mp hn) hlast).symm
    exact ⟨getVar_runScoped henv, henv⟩

/-- A variable that is only in the inherited environment does not survive a frame in which it is
    set. -/
theorem not_scopeLaw_inherited :
    let env : Env := Function.update noEnv "FOO".toList (some "bar".toList)
    let sh := startStore "/".toList env
    sh.Reachable "/".toList env ∧
    ¬ ScopeLaw sh (.set "FOO".toList "local".toList false .done) := by
  intro env sh
  refine ⟨.start, ?_⟩
  intro hlaw
  have henv := (hlaw "FOO".toList).2
  revert henv
  decide

end Arksh
