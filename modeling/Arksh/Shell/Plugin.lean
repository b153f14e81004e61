/-
  Subject: Plugins: loading them, disabling and enabling them.

  A load gives the plugin the next index, lets its init function register what it likes under that
  index, and keeps the plugin if the function succeeds. What it registered stays in the tables in
  either case. A lookup hides the entries of an index that is no plugin's or a disabled one's.
-/
import Arksh.Shell.Registry

namespace Arksh

open CText Tables List Option

variable {Fn F E : Type}

/-! ## 1. Loading, enabling and disabling -/

/-- A call of the host interface by the init function of a plugin. -/
inductive HostCall (Fn : Type) where
  | command (name description : Text) (fn : Option Fn)
  | extension (target name : Text) (memberKind : ArkshMemberKind) (fn : Option Fn)
  | valueResolver (name : Text) (description : Option Text) (fn : Option Fn)
  | pipelineStage (name : Text) (description : Option Text) (fn : Option Fn)

/-- The functions of `ArkshPluginHost`. -/
def HostCall.toCall : HostCall Fn → RegistryCall Fn
  | .command name description fn => .command name description fn true
  | .extension target name memberKind fn => .nativeExtension target name memberKind fn true
  | .valueResolver name description fn => .valueResolver name description fn true
  | .pipelineStage name description fn => .pipelineStage name description fn true

def HostCall.run (sh : Registry Fn) (c : HostCall Fn) : Registry Fn := (c.toCall.run sh).2

def runHostCalls (calls : List (HostCall Fn)) (sh : Registry Fn) : Registry Fn :=
  calls.foldl HostCall.run sh

/-- A library under its resolved path. `admitted`: it opens, has both functions, and answers the
    query with a version and capabilities that the host has. -/
structure Plugin (Fn : Type) where
  path : Text
  name : Text
  admitted : Bool
  calls : List (HostCall Fn)
  initStatus : Nat

def Plugin.shownName (plugin : Plugin Fn) : Text :=
  if plugin.name = [] then "unnamed-plugin".toList else plugin.name

/-- The shell while the init function of a plugin runs. -/
def loading (sh : Registry Fn) : Registry Fn := { sh with loadingPluginIndex := sh.plugins.length }

def arkshShellLoadPlugin (sh : Registry Fn) (plugin : Plugin Fn) : Nat × Registry Fn :=
  if arkshMaxPlugins ≤ sh.plugins.length then (1, sh)
  else if sh.plugins.any fun p => p.path = plugin.path then (0, sh)
  else if ¬ plugin.admitted then (1, sh)
  else
    let after := { runHostCalls plugin.calls (loading sh) with loadingPluginIndex := -1 }
    if plugin.initStatus ≠ 0 then (1, after)
    else
      (0, { after with
        plugins := after.plugins ++ [⟨plugin.shownName, plugin.path, true⟩] })

def setActive (path : Text) (active : Bool) : List ArkshLoadedPlugin → List ArkshLoadedPlugin
  | [] => []
  | p :: plugins =>
    if p.path = path then { p with active } :: plugins else p :: setActive path active plugins

def setPluginActive (sh : Registry Fn) (path : Text) (active : Bool) : Registry Fn :=
  { sh with plugins := setActive path active sh.plugins }

inductive PluginEvent (Fn : Type) where
  | load (plugin : Plugin Fn)
  | setActive (path : Text) (active : Bool)

def PluginEvent.run (sh : Registry Fn) : PluginEvent Fn → Registry Fn
  | .load plugin => (arkshShellLoadPlugin sh plugin).2
  | .setActive path active => setPluginActive sh path active

def runEvents (events : List (PluginEvent Fn)) (sh : Registry Fn) : Registry Fn :=
  events.foldl PluginEvent.run sh

def RegistryCall.ByShell : RegistryCall Fn → Prop
  | .command _ _ _ isPlugin => isPlugin = false
  | .valueResolver _ _ _ isPlugin => isPlugin = false
  | .pipelineStage _ _ _ isPlugin => isPlugin = false
  | .nativeExtension _ _ _ _ isPlugin => isPlugin = false
  | .setPlugins _ _ => False
  | _ => True

inductive ReachableRegistry : Registry Fn → Prop where
  | start : ReachableRegistry .empty
  | call (sh : Registry Fn) (c : RegistryCall Fn) (h : ReachableRegistry sh) (hown : c.ByShell) :
      ReachableRegistry (c.run sh).2
  | event (sh : Registry Fn) (e : PluginEvent Fn) (h : ReachableRegistry sh) :
      ReachableRegistry (e.run sh)

/-! ## 2. A load that fails -/

structure SameLookups (sh sh' : Registry Fn) : Prop where
  command : ∀ name, arkshShellFindCommand sh' name = arkshShellFindCommand sh name
  valueResolver : ∀ name,
    arkshShellFindValueResolver sh' name = arkshShellFindValueResolver sh name
  pipelineStage : ∀ name,
    arkshShellFindPipelineStage sh' name = arkshShellFindPipelineStage sh name
  extension : ∀ receiver memberKind name,
    findExtension sh' receiver memberKind name = findExtension sh receiver memberKind name

/-- A load whose init function fails changes no lookup, then and behind any later events. -/
def AtomicLaw (sh : Registry Fn) (plugin : Plugin Fn) : Prop :=
  ∀ events, SameLookups (runEvents events sh) (runEvents events (arkshShellLoadPlugin sh plugin).2)

/-- The entry under a key is already what the registration makes of it. -/
def Repeats (entry : Option E) (update : E → E) : Prop := ∃ e, entry = some e ∧ update e = e

def HostCall.Harmless (sh : Registry Fn) : HostCall Fn → Prop
  | .command name _ fn =>
    fn = none ∨ arkshMaxCommands ≤ sh.commands.slots.length ∨
      name ∈ sh.commands.slots.map RegistryEntry.name
  | .valueResolver name description fn =>
    fn = none ∨ isValidIdentifier name = false ∨
      (name ∉ sh.valueResolvers.slots.map RegistryEntry.name ∧
        arkshMaxValueResolvers ≤ sh.valueResolvers.slots.length) ∨
      Repeats (sh.valueResolvers.slots.find? fun e => e.name = name)
        (.again sh description (fun old => fn.getD old) true)
  | .pipelineStage name description fn =>
    isValidIdentifier name = false ∨
      (name ∉ sh.pipelineStages.slots.map RegistryEntry.name ∧
        arkshMaxPipelineStageHandlers ≤ sh.pipelineStages.slots.length) ∨
      Repeats (sh.pipelineStages.slots.find? fun e => e.name = name)
        (.again sh description (fun old => fn.or old) true)
  | .extension target name memberKind fn =>
    isValidIdentifier name = false ∨
      match fn with
      | none => True
      | some fn =>
        (findExtensionEntry sh target memberKind name = none ∧
          arkshMaxExtensions ≤ sh.extensions.length) ∨
        Repeats (findExtensionEntry sh target memberKind name)
          (fun _ => newExtension sh target name memberKind (.native fn) true)

/-- Every index is the one that a rebuild makes. -/
structure Rebuilt (sh : Registry Fn) : Prop where
  commands : sh.commands = .reindex RegistryEntry.name sh.commands.slots
  valueResolvers : sh.valueResolvers = .reindex RegistryEntry.name sh.valueResolvers.slots
  pipelineStages : sh.pipelineStages = .reindex RegistryEntry.name sh.pipelineStages.slots

section Atomic

variable {sh sh' : Registry Fn} {c : RegistryCall Fn} {calls : List (HostCall Fn)}

theorem rebuilt_empty : Rebuilt (Registry.empty : Registry Fn) := ⟨rfl, rfl, rfl⟩

inductive TableWrite (sh : Registry Fn) : Registry Fn → Prop where
  | nothing : TableWrite sh sh
  | commands (slots) : TableWrite sh { sh with commands := .reindex RegistryEntry.name slots }
  | valueResolvers (slots) :
      TableWrite sh { sh with valueResolvers := .reindex RegistryEntry.name slots }
  | pipelineStages (slots) :
      TableWrite sh { sh with pipelineStages := .reindex RegistryEntry.name slots }
  | extensions (extensions) : TableWrite sh { sh with extensions }
  | classes (classes) : TableWrite sh { sh with classes }
  | instances (instances nextInstanceId) : TableWrite sh { sh with instances, nextInstanceId }

section

variable (sh : Registry Fn)

theorem writes_command (name description : Text) (fn : Option Fn) (isPlugin : Bool) :
    TableWrite sh (arkshShellRegisterCommand sh name description fn isPlugin).2 := by
  rcases registerCommand_cases sh name description fn isPlugin with hr | ⟨f, _, _, hr⟩
  · rw [hr]; exact .nothing
  · rw [hr]; exact .commands _

theorem writes_builtin (name description : Text) (fn : Option Fn) (kind : ArkshBuiltinKind) :
    TableWrite sh (registerBuiltin sh name description fn kind).2 := by
  rcases registerBuiltin_cases sh name description fn kind with hr | ⟨f, _, _, hr⟩
  · rw [hr]; exact .nothing
  · rw [hr]; exact .commands _

theorem writes_valueResolver (name : Text) (description : Option Text) (fn : Option Fn)
    (isPlugin : Bool) :
    TableWrite sh (arkshShellRegisterValueResolver sh name description fn isPlugin).2 := by
  unfold arkshShellRegisterValueResolver
  cases fn with
  | none => exact .nothing
  | some f =>
    dsimp only
    split
    · exact .nothing
    · rcases registerNamed_cases arkshMaxValueResolvers sh.valueResolvers name
        (.again sh description (fun _ => f) isPlugin) (newEntry sh name description f isPlugin)
        with hr | hr
      · rw [hr]; exact .nothing
      · rw [hr]; exact .valueResolvers _

theorem writes_pipelineStage (name : Text) (description : Option Text) (fn : Option Fn)
    (isPlugin : Bool) :
    TableWrite sh (arkshShellRegisterPipelineStage sh name description fn isPlugin).2 := by
  unfold arkshShellRegisterPipelineStage
  split
  · exact .nothing
  · rcases registerNamed_cases arkshMaxPipelineStageHandlers sh.pipelineStages name
      (.again sh description (fun old => fn.or old) isPlugin)
      (newEntry sh name description fn isPlugin) with hr | hr
    · rw [hr]; exact .nothing
    · rw [hr]; exact .pipelineStages _

theorem writes_extension (target name : Text) (memberKind : ArkshMemberKind)
    (impl : ExtensionImpl Fn) (isPlugin : Bool) :
    TableWrite sh (registerExtensionCommon sh target name memberKind impl isPlugin).2 := by
  unfold registerExtensionCommon
  split
  · exact .nothing
  · split
    · exact .extensions _
    · exact .nothing

end

theorem call_writes (hown : ∀ plugins index, c ≠ .setPlugins plugins index) :
    TableWrite sh (c.run sh).2 := by
  cases c with
  | command name description fn isPlugin => exact writes_command sh name description fn isPlugin
  | builtin name description fn kind => exact writes_builtin sh name description fn kind
  | valueResolver name description fn isPlugin =>
    exact writes_valueResolver sh name description fn isPlugin
  | pipelineStage name description fn isPlugin =>
    exact writes_pipelineStage sh name description fn isPlugin
  | blockExtension target name memberKind block =>
    exact writes_extension sh target name memberKind (.block block) false
  | nativeExtension target name memberKind fn isPlugin =>
    cases fn with
    | none => exact .nothing
    | some f => exact writes_extension sh target name memberKind (.native f) isPlugin
  | storeClass candidate =>
    show TableWrite sh (storeClass sh candidate).2
    unfold storeClass
    split
    · exact .classes _
    · split
      · exact .classes _
      · exact .nothing
  | appendInstance className fields =>
    show TableWrite sh (appendInstance sh className fields).2
    unfold appendInstance
    split
    · exact .instances _ _
    · exact .nothing
  | rollbackLastInstance =>
    show TableWrite sh (rollbackLastInstance sh).2
    unfold rollbackLastInstance
    split
    · exact .nothing
    · exact .instances _ _
  | setPlugins plugins index => exact absurd rfl (hown plugins index)

theorem TableWrite.rebuilt (hwrite : TableWrite sh sh') (h : Rebuilt sh) : Rebuilt sh' := by
  cases hwrite with
  | nothing => exact h
  | commands slots => exact { h with commands := rfl }
  | valueResolvers slots => exact { h with valueResolvers := rfl }
  | pipelineStages slots => exact { h with pipelineStages := rfl }
  | extensions | classes | instances => exact { h with commands := h.commands }

theorem TableWrite.loadingPluginIndex (hwrite : TableWrite sh sh') :
    sh'.loadingPluginIndex = sh.loadingPluginIndex ∧ sh'.plugins = sh.plugins := by
  cases hwrite <;> exact ⟨rfl, rfl⟩

theorem rebuilt_call (h : Rebuilt sh) : Rebuilt (c.run sh).2 := by
  by_cases hown : ∃ plugins index, c = .setPlugins plugins index
  · obtain ⟨plugins, index, rfl⟩ := hown; exact { h with commands := h.commands }
  · have hwrite : TableWrite sh (c.run sh).2 :=
      call_writes fun plugins index heq => hown ⟨plugins, index, heq⟩
    exact hwrite.rebuilt h

theorem rebuilt_hostCalls (h : Rebuilt sh) : Rebuilt (runHostCalls calls sh) := by
  induction calls generalizing sh with
  | nil => exact h
  | cons c calls ih => exact ih (rebuilt_call h)

theorem loadPlugin_cases (sh : Registry Fn) (plugin : Plugin Fn) :
    (arkshShellLoadPlugin sh plugin).2 = sh ∨
    ((∀ p ∈ sh.plugins, p.path ≠ plugin.path) ∧ sh.plugins.length < arkshMaxPlugins ∧
      let after := { runHostCalls plugin.calls (loading sh) with loadingPluginIndex := -1 }
      (plugin.initStatus ≠ 0 ∧ arkshShellLoadPlugin sh plugin = (1, after)) ∨
      (plugin.initStatus = 0 ∧ ∃ name, arkshShellLoadPlugin sh plugin =
        (0, { after with plugins := after.plugins ++ [⟨name, plugin.path, true⟩] }))) := by
  unfold arkshShellLoadPlugin
  split
  · exact Or.inl rfl
  · rename_i hroom
    split
    · exact Or.inl rfl
    · rename_i hnew
      split
      · exact Or.inl rfl
      · right
        refine ⟨?_, Nat.not_le.mp hroom, ?_⟩
        · intro p hp hpath; exact hnew (any_eq_true.mpr ⟨p, hp, by simpa using hpath⟩)
        · dsimp only
          split
          · rename_i hfail; exact Or.inl ⟨hfail, rfl⟩
          · rename_i hok; exact Or.inr ⟨not_not.mp hok, _, rfl⟩

theorem rebuilt_event {e : PluginEvent Fn} (h : Rebuilt sh) : Rebuilt (e.run sh) := by
  cases e with
  | load plugin =>
    have hcalls : Rebuilt (runHostCalls plugin.calls (loading sh)) :=
      rebuilt_hostCalls { h with commands := h.commands }
    show Rebuilt (arkshShellLoadPlugin sh plugin).2
    rcases loadPlugin_cases sh plugin with hr | ⟨_, _, ⟨_, hr⟩ | ⟨_, name, hr⟩⟩
    · rw [hr]; exact h
    · rw [hr]; exact { hcalls with commands := hcalls.commands }
    · rw [hr]; exact { hcalls with commands := hcalls.commands }
  | setActive path active => exact { h with commands := h.commands }

theorem ReachableRegistry.rebuilt (h : ReachableRegistry sh) : Rebuilt sh := by
  induction h with
  | start => exact rebuilt_empty
  | call sh c _ _ ih => exact rebuilt_call ih
  | event sh e _ ih => exact rebuilt_event ih

theorem call_loadingPluginIndex {c : RegistryCall Fn} (hown : ∀ plugins index,
    c ≠ .setPlugins plugins index) :
    (c.run sh).2.loadingPluginIndex = sh.loadingPluginIndex ∧ (c.run sh).2.plugins = sh.plugins :=
  (call_writes hown).loadingPluginIndex

theorem ReachableRegistry.loadingPluginIndex (h : ReachableRegistry sh) :
    sh.loadingPluginIndex = -1 := by
  induction h with
  | start => rfl
  | call sh c _ hown ih =>
    have hkeep := @call_loadingPluginIndex Fn sh c (by
      intro plugins index hc
      rw [hc] at hown
      exact hown)
    rw [hkeep.1, ih]
  | event sh e _ ih =>
    cases e with
    | load plugin =>
      show (arkshShellLoadPlugin sh plugin).2.loadingPluginIndex = -1
      rcases loadPlugin_cases sh plugin with hr | ⟨_, _, ⟨_, hr⟩ | ⟨_, name, hr⟩⟩
      · rw [hr, ih]
      · rw [hr]
      · rw [hr]
    | setActive path active => exact ih

theorem find?_eq_none_of_not_mem {slots : List (RegistryEntry F)} {name : Text}
    (h : name ∉ slots.map RegistryEntry.name) : slots.any (fun e => e.name = name) = false := by
  rw [Bool.eq_false_iff]
  intro hany
  exact h (any_name_iff.mp hany)

theorem registerNamed_of_harmless {cap : Nat} {table : IndexedTable (RegistryEntry F)}
    {name : Text} {update : RegistryEntry F → RegistryEntry F} {fresh : RegistryEntry F}
    (hindex : table = .reindex RegistryEntry.name table.slots)
    (h : (name ∉ table.slots.map RegistryEntry.name ∧ cap ≤ table.slots.length) ∨
      Repeats (table.slots.find? fun e => e.name = name) update) :
    (registerNamed cap table name update fresh).2 = table := by
  unfold registerNamed
  rcases h with ⟨hnew, hfull⟩ | ⟨e, hfind, hfixed⟩
  · rw [find?_eq_none_of_not_mem hnew, if_neg]
    rintro (hany | hroom)
    · cases hany
    · omega
  · split
    · show IndexedTable.reindex RegistryEntry.name (putSlot RegistryEntry.name name update fresh
        table.slots) = table
      rw [putSlot_of_fixed hfind hfixed, ← hindex]
    · rfl

theorem hostCall_of_harmless {c : HostCall Fn} (hr : Rebuilt sh) (h : c.Harmless sh) :
    c.run sh = sh := by
  cases c with
  | command name description fn =>
    show (arkshShellRegisterCommand sh name description fn true).2 = sh
    unfold arkshShellRegisterCommand
    cases fn with
    | none => rfl
    | some f =>
      dsimp only
      split
      · rfl
      · rename_i hroom
        have hmem := (h.resolve_left (some_ne_none f)).resolve_left hroom
        rw [if_pos (any_name_iff.mpr hmem)]
  | valueResolver name description fn =>
    show (arkshShellRegisterValueResolver sh name description fn true).2 = sh
    unfold arkshShellRegisterValueResolver
    cases fn with
    | none => rfl
    | some f =>
      dsimp only
      split
      · rfl
      · rename_i hvalid
        have htable := (h.resolve_left (some_ne_none f)).resolve_left (by simpa using hvalid)
        have hkeep := @registerNamed_of_harmless Fn arkshMaxValueResolvers sh.valueResolvers name
          (.again sh description (fun _ => f) true) (newEntry sh name description f true)
          hr.valueResolvers htable
        show { sh with valueResolvers := _ } = sh
        rw [hkeep]
  | pipelineStage name description fn =>
    show (arkshShellRegisterPipelineStage sh name description fn true).2 = sh
    unfold arkshShellRegisterPipelineStage
    split
    · rfl
    · rename_i hvalid
      have htable := h.resolve_left (by simpa using hvalid)
      have hkeep := @registerNamed_of_harmless _ arkshMaxPipelineStageHandlers sh.pipelineStages
        name (.again sh description (fun old => fn.or old) true) (newEntry sh name description fn true)
        hr.pipelineStages htable
      show { sh with pipelineStages := _ } = sh
      rw [hkeep]
  | extension target name memberKind fn =>
    cases fn with
    | none => rfl
    | some f =>
      show (registerExtensionCommon sh target name memberKind (.native f) true).2 = sh
      unfold registerExtensionCommon
      split
      · rfl
      · rename_i hvalid
        rcases h.resolve_left (by simpa using hvalid) with ⟨hnone, hfull⟩ | ⟨e, hfind, hfixed⟩
        · rw [hnone, if_neg]
          rintro (hsome | hroom)
          · cases hsome
          · omega
        · rw [hfind, if_pos (Or.inl isSome_some)]
          show { sh with extensions := putSlot _ _ _ _ sh.extensions } = sh
          rw [putSlot_of_fixed hfind hfixed]

theorem hostCalls_of_harmless (hr : Rebuilt sh) (h : ∀ c ∈ calls, c.Harmless sh) :
    runHostCalls calls sh = sh := by
  induction calls with
  | nil => rfl
  | cons c calls ih =>
    show runHostCalls calls (c.run sh) = sh
    rw [hostCall_of_harmless hr (h c mem_cons_self)]
    exact ih fun c' hc' => h c' (mem_cons_of_mem c hc')

/-- **Plugin load atomicity**: a load that fails leaves no trace, if all that its init function
    registers is refused or repeats what is there. -/
theorem failedLoad_atomic {plugin : Plugin Fn} (h : ReachableRegistry sh)
    (hfail : plugin.initStatus ≠ 0) (hcalls : ∀ c ∈ plugin.calls, c.Harmless (loading sh)) :
    AtomicLaw sh plugin := by
  have hrebuilt : Rebuilt (loading sh) := { h.rebuilt with commands := h.rebuilt.commands }
  have hrun := hostCalls_of_harmless hrebuilt hcalls
  have hback : { loading sh with loadingPluginIndex := -1 } = sh := by
    rw [← h.loadingPluginIndex]
    rfl
  have hload : (arkshShellLoadPlugin sh plugin).2 = sh := by
    rcases loadPlugin_cases sh plugin with hr | ⟨_, _, ⟨_, hr⟩ | ⟨hok, _⟩⟩
    · exact hr
    · rw [hr, hrun]; exact hback
    · exact absurd hok hfail
  intro events
  rw [hload]
  exact ⟨fun _ => rfl, fun _ => rfl, fun _ => rfl, fun _ _ _ => rfl⟩

end Atomic

def smallRegistry : Registry Nat :=
  let sh := (RegistryCall.valueResolver "map".toList none (some 0) false).run .empty
  ((RegistryCall.builtin "pwd".toList [] (some 1) .pure).run sh.2).2

theorem smallRegistry_reachable : ReachableRegistry smallRegistry :=
  .call _ _ (.call _ _ .start rfl) trivial

/-- A library whose init function registers what the shell has, and fails. -/
def refusedPlugin : Plugin Nat :=
  ⟨"/p.so".toList, "p".toList, true, [.command "pwd".toList [] (some 2)], 1⟩

theorem failedLoad_atomic_refused : AtomicLaw smallRegistry refusedPlugin := by
  refine failedLoad_atomic smallRegistry_reachable Nat.one_ne_zero ?_
  intro c hc
  rw [mem_singleton.mp hc]
  right
  right
  show "pwd".toList ∈ smallRegistry.commands.slots.map RegistryEntry.name
  decide

def failingPlugin : Plugin Nat :=
  ⟨"/f.so".toList, "f".toList, true,
    [.valueResolver "map".toList none (some 3), .command "hello".toList [] (some 4)], 1⟩

/-- One whose init function registers nothing. -/
def quietPlugin : Plugin Nat := ⟨"/q.so".toList, "q".toList, true, [], 0⟩

/-- The resolver of the shell is gone; and the next plugin gets the index of the failed one, and its
    command. -/
theorem not_atomicLaw_failing : ReachableRegistry smallRegistry ∧ failingPlugin.initStatus ≠ 0 ∧
      ¬ AtomicLaw smallRegistry failingPlugin ∧
      arkshShellFindValueResolver smallRegistry "map".toList ≠ none ∧
      arkshShellFindValueResolver (arkshShellLoadPlugin smallRegistry failingPlugin).2
        "map".toList = none := by
  refine ⟨smallRegistry_reachable, Nat.one_ne_zero, ?_, by decide, by decide⟩
  intro hlaw
  have hcommand := (hlaw [.load quietPlugin]).command "hello".toList
  revert hcommand
  decide

end Arksh
