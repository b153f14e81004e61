/-
  Subject: What is left of a plugin that is disabled.

  A disabled plugin should be as if it had never been loaded. The tables hold one entry for each
  name, though: a registration over another one takes its place for good, and the registrations of
  commands, and those that find their table full, are refused.
-/
import Arksh.Shell.Plugin

namespace Arksh

open CText Tables List Bool Nat

variable {Fn F E : Type}

/-! ## 1. The law -/

/-- What an entry says, without the index of its owner. -/
def Owner.anonymous (owner : Owner) : Owner := ⟨owner.isPlugin, 0⟩

def RegistryEntry.anonymous (e : RegistryEntry F) : RegistryEntry F :=
  { e with owner := e.owner.anonymous }

def ArkshObjectExtension.anonymous (e : ArkshObjectExtension Fn) : ArkshObjectExtension Fn :=
  { e with owner := e.owner.anonymous }

/-- Two registries show the same, but for the indexes of plugins. -/
structure SameView (sh sh' : Registry Fn) : Prop where
  command : ∀ name, (arkshShellFindCommand sh' name).map RegistryEntry.anonymous =
    (arkshShellFindCommand sh name).map RegistryEntry.anonymous
  valueResolver : ∀ name, (arkshShellFindValueResolver sh' name).map RegistryEntry.anonymous =
    (arkshShellFindValueResolver sh name).map RegistryEntry.anonymous
  pipelineStage : ∀ name, (arkshShellFindPipelineStage sh' name).map RegistryEntry.anonymous =
    (arkshShellFindPipelineStage sh name).map RegistryEntry.anonymous
  extension : ∀ receiver memberKind name,
    (findExtension sh' receiver memberKind name).map ArkshObjectExtension.anonymous =
      (findExtension sh receiver memberKind name).map ArkshObjectExtension.anonymous

def PluginEvent.path : PluginEvent Fn → Text
  | .load plugin => plugin.path
  | .setActive path _ => path

def PluginEvent.switches (path : Text) : PluginEvent Fn → Bool
  | .load _ => false
  | .setActive path' _ => path' = path

def others (path : Text) (events : List (PluginEvent Fn)) : List (PluginEvent Fn) :=
  events.filter fun e => e.path ≠ path

/-- The run in which a plugin is never disabled. -/
def unswitched (path : Text) (events : List (PluginEvent Fn)) : List (PluginEvent Fn) :=
  events.filter fun e => !e.switches path

def isActive (path : Text) (plugins : List ArkshLoadedPlugin) : Bool :=
  plugins.any fun p => p.path = path && p.active

structure DisableLaw (sh : Registry Fn) (plugin : Plugin Fn) (events : List (PluginEvent Fn)) :
    Prop where
  disabled :
    let final := runEvents events (arkshShellLoadPlugin sh plugin).2
    isActive plugin.path final.plugins = false →
      SameView (runEvents (others plugin.path events) sh) final
  enabled :
    let final := runEvents events (arkshShellLoadPlugin sh plugin).2
    isActive plugin.path final.plugins = true →
      SameLookups (runEvents (unswitched plugin.path events) (arkshShellLoadPlugin sh plugin).2)
        final

structure Loads (sh : Registry Fn) (plugin : Plugin Fn) : Prop where
  room : sh.plugins.length < arkshMaxPlugins
  new : ∀ p ∈ sh.plugins, p.path ≠ plugin.path
  admitted : plugin.admitted = true
  succeeds : plugin.initStatus = 0

/-! ## 2. The condition -/

/-- The names of the call are shorter than their fields. -/
def HostCall.Fits (c : HostCall Fn) : Prop := c.toCall.Fits

inductive FittingRegistry : Registry Fn → Prop where
  | start : FittingRegistry .empty
  | call (sh : Registry Fn) (c : RegistryCall Fn) (h : FittingRegistry sh) (hown : c.ByShell)
      (hfits : c.Fits) : FittingRegistry (c.run sh).2
  | load (sh : Registry Fn) (plugin : Plugin Fn) (h : FittingRegistry sh)
      (hfits : ∀ c ∈ plugin.calls, c.Fits) : FittingRegistry (arkshShellLoadPlugin sh plugin).2
  | setActive (sh : Registry Fn) (path : Text) (active : Bool) (h : FittingRegistry sh) :
      FittingRegistry (setPluginActive sh path active)

/-- Every entry belongs to the shell or to a plugin that is loaded: no failed load has left any. -/
structure NoLeftover (sh : Registry Fn) : Prop where
  commands : ∀ e ∈ sh.commands.slots, e.owner.ownerPluginIndex < sh.plugins.length
  valueResolvers : ∀ e ∈ sh.valueResolvers.slots, e.owner.ownerPluginIndex < sh.plugins.length
  pipelineStages : ∀ e ∈ sh.pipelineStages.slots, e.owner.ownerPluginIndex < sh.plugins.length
  extensions : ∀ e ∈ sh.extensions, e.owner.ownerPluginIndex < sh.plugins.length

def HostCall.TakesNoPlace (sh : Registry Fn) : HostCall Fn → Prop
  | .command _ _ _ => True
  | .valueResolver name _ fn =>
    fn = none ∨ isValidIdentifier name = false ∨
      name ∉ sh.valueResolvers.slots.map RegistryEntry.name
  | .pipelineStage name _ _ =>
    isValidIdentifier name = false ∨ name ∉ sh.pipelineStages.slots.map RegistryEntry.name
  | .extension target name memberKind fn =>
    fn = none ∨ isValidIdentifier name = false ∨
      (memberKind, target, name) ∉ sh.extensions.map ArkshObjectExtension.key

def Owner.isIndex (n : Nat) (owner : Owner) : Bool := owner.isPlugin && owner.ownerPluginIndex = n

/-- No entry under the key is one of the plugin with index `n`; and there is one, or room for one. -/
def KeepsOff {K : Type} (n cap : Nat) (keyOf : E → K) (ownerOf : E → Owner) (slots : List E)
    (k : K) : Prop :=
  (∀ e ∈ slots, keyOf e = k → (ownerOf e).isIndex n = false) ∧
    (k ∈ slots.map keyOf ∨ slots.length < cap)

/-- The call is refused for what it says, or keeps off the entries of the plugin with index `n` and
    finds room. -/
def HostCall.Apart (n : Nat) (sh : Registry Fn) : HostCall Fn → Prop
  | .command name _ fn =>
    fn = none ∨
      KeepsOff n arkshMaxCommands RegistryEntry.name RegistryEntry.owner sh.commands.slots name
  | .valueResolver name _ fn =>
    fn = none ∨ isValidIdentifier name = false ∨
      KeepsOff n arkshMaxValueResolvers RegistryEntry.name RegistryEntry.owner
        sh.valueResolvers.slots name
  | .pipelineStage name _ _ =>
    isValidIdentifier name = false ∨
      KeepsOff n arkshMaxPipelineStageHandlers RegistryEntry.name RegistryEntry.owner
        sh.pipelineStages.slots name
  | .extension target name memberKind fn =>
    fn = none ∨ isValidIdentifier name = false ∨
      KeepsOff n arkshMaxExtensions ArkshObjectExtension.key ArkshObjectExtension.owner
        sh.extensions (memberKind, target, name)

def CallsApart (n : Nat) : List (HostCall Fn) → Registry Fn → Prop
  | [], _ => True
  | c :: calls, sh => c.Fits ∧ c.Apart n sh ∧ CallsApart n calls (c.run sh)

/-- The events load no plugin whose registrations meet the plugin with index `n` or find no room. -/
def EventsApart (n : Nat) : List (PluginEvent Fn) → Registry Fn → Prop
  | [], _ => True
  | .load plugin :: events, sh =>
    (plugin.admitted = false ∨ (∃ p ∈ sh.plugins, p.path = plugin.path) ∨
      sh.plugins.length < arkshMaxPlugins ∧ CallsApart n plugin.calls (loading sh)) ∧
      EventsApart n events (arkshShellLoadPlugin sh plugin).2
  | .setActive path active :: events, sh => EventsApart n events (setPluginActive sh path active)

/-! ## 3. The simulation -/

/-- The index of a plugin when the one with index `n` is left out. -/
def shiftIndex (n : Nat) (index : Int) : Int := if n < index then index - 1 else index

def Owner.without (n : Nat) (owner : Owner) : Owner :=
  ⟨owner.isPlugin, shiftIndex n owner.ownerPluginIndex⟩

def RegistryEntry.without (n : Nat) (e : RegistryEntry F) : RegistryEntry F :=
  { e with owner := e.owner.without n }

def ArkshObjectExtension.without (n : Nat) (e : ArkshObjectExtension Fn) :
    ArkshObjectExtension Fn :=
  { e with owner := e.owner.without n }

/-- The entries without those of the plugin with index `n`. -/
def dropOwned (n : Nat) (ownerOf : E → Owner) (without : E → E) (slots : List E) : List E :=
  (slots.filter fun e => !(ownerOf e).isIndex n).map without

abbrev dropEntries (n : Nat) (slots : List (RegistryEntry F)) : List (RegistryEntry F) :=
  dropOwned n RegistryEntry.owner (.without n) slots

abbrev dropExtensions (n : Nat) (extensions : List (ArkshObjectExtension Fn)) :
    List (ArkshObjectExtension Fn) :=
  dropOwned n ArkshObjectExtension.owner (.without n) extensions

structure Dropped (n : Nat) (sh sh' : Registry Fn) : Prop where
  commands : sh'.commands.slots = dropEntries n sh.commands.slots
  valueResolvers : sh'.valueResolvers.slots = dropEntries n sh.valueResolvers.slots
  pipelineStages : sh'.pipelineStages.slots = dropEntries n sh.pipelineStages.slots
  extensions : sh'.extensions = dropExtensions n sh.extensions

structure Without (path : Text) (n : Nat) (sh sh' : Registry Fn) : Prop where
  tables : Dropped n sh sh'
  plugins : ∃ before p after, sh.plugins = before ++ p :: after ∧ sh'.plugins = before ++ after ∧
    before.length = n ∧ p.path = path ∧ ∀ q ∈ before ++ after, q.path ≠ path
  index : sh'.loadingPluginIndex = shiftIndex n sh.loadingPluginIndex
  notLoading : sh.loadingPluginIndex ≠ n
  log : ∃ log, HoldsLog sh log
  rebuilt : Rebuilt sh'

section Drop

variable {K : Type} {n cap : Nat} {keyOf : E → K} {ownerOf : E → Owner}
  {without update update' : E → E} {fresh fresh' e : E} {slots : List E} {k : K}

theorem dropOwned_cons_of_isIndex (h : (ownerOf e).isIndex n = true) :
    dropOwned n ownerOf without (e :: slots) = dropOwned n ownerOf without slots := by
  unfold dropOwned
  rw [filter_cons_of_neg (by simp [h])]

theorem dropOwned_cons (h : (ownerOf e).isIndex n = false) :
    dropOwned n ownerOf without (e :: slots) = without e :: dropOwned n ownerOf without slots := by
  unfold dropOwned
  rw [filter_cons_of_pos (by simp [h]), map_cons]

theorem putSlot_dropOwned [DecidableEq K] (hkey : ∀ e, keyOf (without e) = keyOf e)
    (hoff : ∀ e ∈ slots, keyOf e = k → (ownerOf e).isIndex n = false)
    (hupdate : ∀ e, (ownerOf (update e)).isIndex n = false)
    (hupdate' : ∀ e, update' (without e) = without (update e))
    (hfresh : (ownerOf fresh).isIndex n = false) (hfresh' : fresh' = without fresh) :
    putSlot keyOf k update' fresh' (dropOwned n ownerOf without slots) =
      dropOwned n ownerOf without (putSlot keyOf k update fresh slots) := by
  induction slots with
  | nil =>
    show [fresh'] = dropOwned n ownerOf without [fresh]
    rw [dropOwned_cons hfresh, hfresh']
    rfl
  | cons e slots ih =>
    have hrest := ih fun e' he' => hoff e' (mem_cons_of_mem e he')
    by_cases hk : keyOf e = k
    · have hkeep := hoff e mem_cons_self hk
      have hk' : keyOf (without e) = k := (hkey e).trans hk
      rw [dropOwned_cons hkeep]
      unfold putSlot
      rw [if_pos hk, if_pos hk', dropOwned_cons (hupdate e), hupdate']
    · have hk' : ¬ keyOf (without e) = k := fun h => hk ((hkey e).symm.trans h)
      have hput : putSlot keyOf k update fresh (e :: slots) =
          e :: putSlot keyOf k update fresh slots := by
        rw [putSlot, if_neg hk]
      rw [hput]
      cases howned : (ownerOf e).isIndex n with
      | true => rw [dropOwned_cons_of_isIndex howned, dropOwned_cons_of_isIndex howned, hrest]
      | false =>
        rw [dropOwned_cons howned, dropOwned_cons howned, ← hrest, putSlot, if_neg hk']

theorem dropOwned_putSlot_owned [DecidableEq K]
    (hon : ∀ e ∈ slots, keyOf e = k → (ownerOf e).isIndex n = true)
    (hupdate : ∀ e, (ownerOf (update e)).isIndex n = true)
    (hfresh : (ownerOf fresh).isIndex n = true) :
    dropOwned n ownerOf without (putSlot keyOf k update fresh slots) =
      dropOwned n ownerOf without slots := by
  induction slots with
  | nil => show dropOwned n ownerOf without [fresh] = _; rw [dropOwned_cons_of_isIndex hfresh]
  | cons e slots ih =>
    have hrest := ih fun e' he' => hon e' (mem_cons_of_mem e he')
    unfold putSlot
    by_cases hk : keyOf e = k
    · have howned := hon e mem_cons_self hk
      rw [if_pos hk, dropOwned_cons_of_isIndex (hupdate e), dropOwned_cons_of_isIndex howned]
    · rw [if_neg hk]
      cases howned : (ownerOf e).isIndex n with
      | true => rw [dropOwned_cons_of_isIndex howned, dropOwned_cons_of_isIndex howned, hrest]
      | false => rw [dropOwned_cons howned, dropOwned_cons howned, hrest]

theorem length_dropOwned : (dropOwned n ownerOf without slots).length ≤ slots.length := by
  unfold dropOwned
  rw [length_map]
  exact length_filter_le _ _

theorem mem_keys_dropOwned (hkey : ∀ e, keyOf (without e) = keyOf e)
    (hoff : ∀ e ∈ slots, keyOf e = k → (ownerOf e).isIndex n = false) :
    k ∈ (dropOwned n ownerOf without slots).map keyOf ↔ k ∈ slots.map keyOf := by
  unfold dropOwned
  simp only [mem_map, mem_filter]
  constructor
  · rintro ⟨_, ⟨e, ⟨he, _⟩, rfl⟩, hk⟩; exact ⟨e, he, (hkey e).symm.trans hk⟩
  · intro ⟨e, he, hk⟩
    exact ⟨without e, ⟨e, ⟨he, by rw [hoff e he hk]; rfl⟩, rfl⟩, (hkey e).trans hk⟩

theorem accepted_of_keepsOff (hkey : ∀ e, keyOf (without e) = keyOf e)
    (h : KeepsOff n cap keyOf ownerOf slots k) : k ∈ (dropOwned n ownerOf without slots).map keyOf ∨
      (dropOwned n ownerOf without slots).length < cap := by
  rcases h.2 with hmem | hroom
  · exact Or.inl ((mem_keys_dropOwned hkey h.1).mpr hmem)
  · exact Or.inr (lt_of_le_of_lt length_dropOwned hroom)

end Drop

section Step

variable {path path' : Text} {n : Nat} {sh sh' : Registry Fn} {name : Text} {f : Fn}
  {p : ArkshLoadedPlugin} {active : Bool} {plugin : Plugin Fn} {e : PluginEvent Fn}
  {events : List (PluginEvent Fn)}

theorem currentOwner_isIndex (h : Without path n sh sh') :
    (currentOwner sh true).isIndex n = false := by
  show (true && decide (sh.loadingPluginIndex = n)) = false
  rw [decide_eq_false h.notLoading]
  rfl

theorem currentOwner_without (h : Without path n sh sh') :
    currentOwner sh' true = (currentOwner sh true).without n := by
  show (⟨true, sh'.loadingPluginIndex⟩ : Owner) = ⟨true, shiftIndex n sh.loadingPluginIndex⟩
  rw [h.index]

theorem registerNamed_without {cap : Nat} {table table' : IndexedTable (RegistryEntry F)}
    {update update' : RegistryEntry F → RegistryEntry F} {fresh fresh' : RegistryEntry F}
    (hslots : table'.slots = dropEntries n table.slots)
    (hoff : KeepsOff n cap RegistryEntry.name RegistryEntry.owner table.slots name)
    (hupdate : ∀ e, (update e).owner.isIndex n = false)
    (hupdate' : ∀ e, update' (e.without n) = (update e).without n)
    (hfresh : fresh.owner.isIndex n = false) (hfresh' : fresh' = fresh.without n) :
    (registerNamed cap table' name update' fresh').2.slots =
      dropEntries n (registerNamed cap table name update fresh).2.slots := by
  have hput := @putSlot_dropOwned (RegistryEntry F) Text n RegistryEntry.name RegistryEntry.owner (.without n)
    update update' fresh fresh' table.slots name _ (fun _ => rfl) hoff.1 hupdate hupdate'
    hfresh hfresh'
  have hleft : table.slots.any (fun e => e.name = name) = true ∨ table.slots.length < cap := by
    rw [any_name_iff]
    exact hoff.2
  have hright : table'.slots.any (fun e => e.name = name) = true ∨ table'.slots.length < cap := by
    rw [any_name_iff, hslots]
    exact accepted_of_keepsOff (fun _ => rfl) hoff
  unfold registerNamed
  rw [if_pos hleft, if_pos hright]
  show putSlot RegistryEntry.name name update' fresh' table'.slots = _
  rw [hslots]
  exact hput

theorem dropOwned_append {ownerOf : E → Owner} {without : E → E} (slots slots' : List E) :
    dropOwned n ownerOf without (slots ++ slots') =
      dropOwned n ownerOf without slots ++ dropOwned n ownerOf without slots' := by
  unfold dropOwned
  rw [filter_append, map_append]

theorem command_without {description : Text} (h : Without path n sh sh')
    (hoff : KeepsOff n arkshMaxCommands RegistryEntry.name RegistryEntry.owner sh.commands.slots
      name) : Dropped n (arkshShellRegisterCommand sh name description (some f) true).2
      (arkshShellRegisterCommand sh' name description (some f) true).2 := by
  have hmem : name ∈ sh'.commands.slots.map RegistryEntry.name ↔
      name ∈ sh.commands.slots.map RegistryEntry.name := by
    rw [h.tables.commands]
    exact mem_keys_dropOwned (fun _ => rfl) hoff.1
  have hlength : sh'.commands.slots.length ≤ sh.commands.slots.length := by
    rw [h.tables.commands]
    exact length_dropOwned
  unfold arkshShellRegisterCommand
  dsimp only
  by_cases hname : name ∈ sh.commands.slots.map RegistryEntry.name
  · rw [if_pos (any_name_iff.mpr hname), if_pos (any_name_iff.mpr (hmem.mpr hname)), ite_self,
      ite_self]
    exact h.tables
  · have hroom := hoff.2.resolve_left hname
    rw [if_neg (not_le.mpr hroom), if_neg (not_le.mpr (lt_of_le_of_lt hlength hroom)),
      if_neg fun hany => hname (any_name_iff.mp hany),
      if_neg fun hany => hname (hmem.mp (any_name_iff.mp hany))]
    have hnew : newCommand sh' name description f true =
        (newCommand sh name description f true).without n := by
      unfold newCommand RegistryEntry.without
      rw [currentOwner_without h]
    have hkept : (newCommand sh name description f true).owner.isIndex n = false :=
      currentOwner_isIndex h
    exact { h.tables with
      commands := by
        show sh'.commands.slots ++ [newCommand sh' name description f true] =
          dropEntries n (sh.commands.slots ++ [newCommand sh name description f true])
        rw [dropEntries, dropOwned_append, dropOwned_cons hkept, h.tables.commands, hnew]
        rfl }

theorem extension_without {target : Text} {memberKind : ArkshMemberKind} (h : Without path n sh sh')
    (hoff : KeepsOff n arkshMaxExtensions ArkshObjectExtension.key ArkshObjectExtension.owner
      sh.extensions (memberKind, target, name)) :
    Dropped n (registerExtensionCommon sh target name memberKind (.native f) true).2
      (registerExtensionCommon sh' target name memberKind (.native f) true).2 := by
  have hentry : newExtension sh' target name memberKind (.native f) true =
      (newExtension sh target name memberKind (.native f) true).without n := by
    unfold newExtension ArkshObjectExtension.without
    rw [currentOwner_without h]
  have hkept : (newExtension sh target name memberKind (.native f) true).owner.isIndex n = false :=
    currentOwner_isIndex h
  have hfound : ∀ extensions : List (ArkshObjectExtension Fn),
      (extensions.find? fun e => e.key = (memberKind, target, name)).isSome = true ↔
        (memberKind, target, name) ∈ extensions.map ArkshObjectExtension.key := by
    intro extensions
    simp only [find?_isSome, decide_eq_true_eq, mem_map]
  have hleft : (findExtensionEntry sh target memberKind name).isSome = true ∨
      sh.extensions.length < arkshMaxExtensions := by
    unfold findExtensionEntry
    rw [hfound]
    exact hoff.2
  have hright : (findExtensionEntry sh' target memberKind name).isSome = true ∨
      sh'.extensions.length < arkshMaxExtensions := by
    unfold findExtensionEntry
    rw [hfound, h.tables.extensions]
    exact accepted_of_keepsOff (fun _ => rfl) hoff
  unfold registerExtensionCommon
  by_cases hvalid : ¬ isValidIdentifier name = true
  · rw [if_pos hvalid, if_pos hvalid]; exact h.tables
  · rw [if_neg hvalid, if_neg hvalid, if_pos hleft, if_pos hright]
    exact { h.tables with
      extensions := by
        show putSlot _ _ _ _ sh'.extensions = dropExtensions n (putSlot _ _ _ _ sh.extensions)
        rw [h.tables.extensions]
        exact putSlot_dropOwned (fun _ => rfl) hoff.1 (fun _ => hkept) (fun _ => hentry) hkept
          hentry }

theorem toCall_ne (c : HostCall Fn) : ∀ plugins index, c.toCall ≠ .setPlugins plugins index := by
  intro plugins index hc
  cases c with
  | command name description fn | extension target name memberKind fn
  | valueResolver name description fn | pipelineStage name description fn => cases hc

theorem hostCalls_keep_plugins (calls : List (HostCall Fn)) (sh : Registry Fn) :
    (runHostCalls calls sh).plugins = sh.plugins := by
  induction calls generalizing sh with
  | nil => rfl
  | cons c calls ih =>
    exact (ih (c.run sh)).trans (@call_loadingPluginIndex Fn sh c.toCall (toCall_ne c)).2

/-- **What one call of an init function keeps.** -/
theorem hostCall_without {c : HostCall Fn} (h : Without path n sh sh') (hfits : c.Fits)
    (hoff : c.Apart n sh) : Without path n (c.run sh) (c.run sh') := by
  obtain ⟨hindex, hplugins⟩ := @call_loadingPluginIndex Fn sh c.toCall (toCall_ne c)
  obtain ⟨hindex', hplugins'⟩ := @call_loadingPluginIndex Fn sh' c.toCall (toCall_ne c)
  have hagain : ∀ {F : Type} (description : Option Text) (fn : F → F) (e : RegistryEntry F),
      RegistryEntry.again sh' description fn true (e.without n) =
        (RegistryEntry.again sh description fn true e).without n := by
    intro F description fn e
    unfold RegistryEntry.again RegistryEntry.without
    rw [currentOwner_without h]
  have hfresh : ∀ {F : Type} (name : Text) (description : Option Text) (fn : F),
      newEntry sh' name description fn true = (newEntry sh name description fn true).without n := by
    intro F name description fn
    unfold newEntry RegistryEntry.without
    rw [currentOwner_without h]
  have hkept := currentOwner_isIndex h
  have htables : Dropped n (c.run sh) (c.run sh') := by
    cases c with
    | command name description fn =>
      cases fn with
      | none => exact h.tables
      | some f => exact command_without h (hoff.resolve_left (Option.some_ne_none f))
    | valueResolver name description fn =>
      cases fn with
      | none => exact h.tables
      | some f =>
        show Dropped n (arkshShellRegisterValueResolver sh name description (some f) true).2
          (arkshShellRegisterValueResolver sh' name description (some f) true).2
        unfold arkshShellRegisterValueResolver
        dsimp only
        split
        · exact h.tables
        · rename_i hvalid
          have hkeeps := (hoff.resolve_left (Option.some_ne_none f)).resolve_left
            (by simpa using hvalid)
          exact { h.tables with
            valueResolvers := registerNamed_without h.tables.valueResolvers hkeeps
              (fun _ => hkept) (fun e => hagain description _ e) hkept (hfresh name description f) }
    | pipelineStage name description fn =>
      show Dropped n (arkshShellRegisterPipelineStage sh name description fn true).2
        (arkshShellRegisterPipelineStage sh' name description fn true).2
      unfold arkshShellRegisterPipelineStage
      split
      · exact h.tables
      · rename_i hvalid
        have hkeeps := hoff.resolve_left (by simpa using hvalid)
        exact { h.tables with
          pipelineStages := registerNamed_without h.tables.pipelineStages hkeeps
            (fun _ => hkept) (fun e => hagain description _ e) hkept (hfresh name description fn) }
    | extension target name memberKind fn =>
      cases fn with
      | none => exact h.tables
      | some f =>
        by_cases hvalid : isValidIdentifier name = false
        · show Dropped n (registerExtensionCommon sh target name memberKind (.native f) true).2
            (registerExtensionCommon sh' target name memberKind (.native f) true).2
          unfold registerExtensionCommon
          rw [if_pos (by simp [hvalid]), if_pos (by simp [hvalid])]
          exact h.tables
        · exact extension_without h ((hoff.resolve_left (Option.some_ne_none f)).resolve_left hvalid)
  obtain ⟨log, hlog⟩ := h.log
  exact {
    tables := htables
    plugins := by
      show ∃ before p after, (c.toCall.run sh).2.plugins = before ++ p :: after ∧
        (c.toCall.run sh').2.plugins = before ++ after ∧ _
      rw [hplugins, hplugins']
      exact h.plugins
    index := by
      show (c.toCall.run sh').2.loadingPluginIndex =
        shiftIndex n (c.toCall.run sh).2.loadingPluginIndex
      rw [hindex, hindex']
      exact h.index
    notLoading := by
      show (c.toCall.run sh).2.loadingPluginIndex ≠ n
      rw [hindex]
      exact h.notLoading
    log := ⟨_, holdsLog_call hlog hfits⟩
    rebuilt := rebuilt_call h.rebuilt }

theorem hostCalls_without {calls : List (HostCall Fn)} (h : Without path n sh sh')
    (hoff : CallsApart n calls sh) :
    Without path n (runHostCalls calls sh) (runHostCalls calls sh') := by
  induction calls generalizing sh sh' with
  | nil => exact h
  | cons c calls ih =>
    obtain ⟨hfits, hapart, hrest⟩ := hoff
    exact ih (hostCall_without h hfits hapart) hrest

/-! ### Events -/

theorem setActive_paths (path : Text) (active : Bool) (plugins : List ArkshLoadedPlugin) :
    (setActive path active plugins).map ArkshLoadedPlugin.path =
      plugins.map ArkshLoadedPlugin.path := by
  induction plugins with
  | nil => rfl
  | cons p plugins ih =>
    unfold setActive
    split
    · rfl
    · rw [map_cons, map_cons, ih]

theorem length_setActive (active : Bool) (plugins : List ArkshLoadedPlugin) :
    (setActive path active plugins).length = plugins.length := by
  have hmap := congrArg List.length (setActive_paths path active plugins)
  rwa [length_map, length_map] at hmap

theorem setActive_around (hp : p.path ≠ path') (active : Bool)
    (before after : List ArkshLoadedPlugin) : ∃ before' after',
      setActive path' active (before ++ p :: after) = before' ++ p :: after' ∧
      setActive path' active (before ++ after) = before' ++ after' ∧
      before'.length = before.length := by
  induction before with
  | nil => exact ⟨[], setActive path' active after, if_neg hp, rfl, rfl⟩
  | cons q before ih =>
    by_cases hq : q.path = path'
    · exact ⟨{ q with active } :: before, after, if_pos hq, if_pos hq, rfl⟩
    · obtain ⟨before', after', hwith, hwithout, hlength⟩ := ih
      refine ⟨q :: before', after', ?_, ?_, congrArg (· + 1) hlength⟩
      · rw [cons_append, setActive, if_neg hq, hwith]; rfl
      · rw [cons_append, setActive, if_neg hq, hwithout]; rfl

section

variable (h : Without path n sh sh')
include h

theorem Without.replace {plugins before after : List ArkshLoadedPlugin} {index index' : Int}
    (hplugins : plugins = before ++ p :: after) (hlength : before.length = n) (hp : p.path = path)
    (hothers : ∀ q ∈ before ++ after, q.path ≠ path) (hindex : index' = shiftIndex n index)
    (hne : index ≠ n) :
    Without path n { sh with plugins, loadingPluginIndex := index }
      { sh' with plugins := before ++ after, loadingPluginIndex := index' } := by
  obtain ⟨log, hlog⟩ := h.log
  exact {
    tables := { h.tables with commands := h.tables.commands }
    plugins := ⟨before, p, after, hplugins, rfl, hlength, hp, hothers⟩
    index := hindex
    notLoading := hne
    log := ⟨log, { hlog with commands := hlog.commands }⟩
    rebuilt := { h.rebuilt with commands := h.rebuilt.commands } }

/-- Another plugin is enabled or disabled. -/
theorem setActive_without (hpath : path' ≠ path) :
    Without path n (setPluginActive sh path' active) (setPluginActive sh' path' active) := by
  obtain ⟨before, p, after, hsh, hsh', hlength, hp, hothers⟩ := h.plugins
  obtain ⟨before', after', hwith, hwithout, hlength'⟩ :=
    setActive_around (p := p) (fun hq => hpath (hq.symm.trans hp)) active before after
  have hothers' : ∀ q ∈ before' ++ after', q.path ≠ path := by
    intro q hq hqp
    have hmem := mem_map_of_mem (f := ArkshLoadedPlugin.path) hq
    rw [← hwithout, setActive_paths] at hmem
    obtain ⟨r, hr, hrq⟩ := mem_map.mp hmem
    exact hothers r hr (hrq.trans hqp)
  unfold setPluginActive
  rw [hsh, hsh', hwith, hwithout]
  exact h.replace rfl (hlength'.trans hlength) hp hothers' h.index h.notLoading

/-- The plugin itself is enabled or disabled. -/
theorem switch_without : Without path n (setPluginActive sh path active) sh' := by
  obtain ⟨before, p, after, hsh, hsh', hlength, hp, hothers⟩ := h.plugins
  have hset : ∀ before, (∀ q ∈ before, q.path ≠ path) → setActive path active
      (before ++ p :: after) = before ++ { p with active } :: after := by
    intro before hbefore
    induction before with
    | nil => exact if_pos hp
    | cons q before ih =>
      rw [cons_append, setActive, if_neg (hbefore q mem_cons_self),
        ih fun q hq => hbefore q (mem_cons_of_mem _ hq)]
      rfl
  have hswitched := h.replace (hset before fun q hq => hothers q (mem_append_left _ hq)) hlength hp
    hothers h.index h.notLoading
  rw [← hsh, ← hsh'] at hswitched
  exact hswitched

theorem loading_without : Without path n (loading sh) (loading sh') := by
  obtain ⟨before, p, after, hsh, hsh', hlength, hp, hothers⟩ := h.plugins
  have hindex : (sh'.plugins.length : Int) = shiftIndex n sh.plugins.length := by
    unfold shiftIndex
    rw [hsh, hsh', length_append, length_append, length_cons]
    omega
  have hne : (sh.plugins.length : Int) ≠ n := by
    rw [hsh, length_append, length_cons]
    omega
  have hloading := h.replace hsh hlength hp hothers hindex hne
  rw [← hsh'] at hloading
  exact hloading

theorem loaded_without {added : List ArkshLoadedPlugin} (hadded : ∀ q ∈ added, q.path ≠ path) :
    Without path n { sh with loadingPluginIndex := -1, plugins := sh.plugins ++ added }
      { sh' with loadingPluginIndex := -1, plugins := sh'.plugins ++ added } := by
  obtain ⟨before, p, after, hsh, hsh', hlength, hp, hothers⟩ := h.plugins
  have hplugins : sh.plugins ++ added = before ++ p :: (after ++ added) := by
    rw [hsh, append_assoc, cons_append]
  have hindex : (-1 : Int) = shiftIndex n (-1) := (if_neg (by omega)).symm
  rw [hsh', append_assoc]
  refine h.replace hplugins hlength hp ?_ hindex (by omega)
  intro q hq
  rw [← append_assoc] at hq
  rcases mem_append.mp hq with hq | hq
  · exact hothers q hq
  · exact hadded q hq

end

theorem loadPlugin_of_loaded (h : ∃ p ∈ sh.plugins, p.path = plugin.path) :
    (arkshShellLoadPlugin sh plugin).2 = sh := by
  rcases loadPlugin_cases sh plugin with hr | ⟨hnew, _⟩
  · exact hr
  · obtain ⟨p, hp, hpath⟩ := h; exact absurd hpath (hnew p hp)

theorem loadPlugin_of_not_admitted (h : plugin.admitted = false) :
    (arkshShellLoadPlugin sh plugin).2 = sh := by
  unfold arkshShellLoadPlugin
  rw [if_pos (show ¬ plugin.admitted = true by simp [h])]
  split
  · rfl
  · split <;> rfl

theorem loadPlugin_eq (hroom : sh.plugins.length < arkshMaxPlugins)
    (hnew : ∀ p ∈ sh.plugins, p.path ≠ plugin.path) (hadmitted : plugin.admitted = true) :
    (arkshShellLoadPlugin sh plugin).2 =
      { runHostCalls plugin.calls (loading sh) with
        loadingPluginIndex := -1
        plugins := (runHostCalls plugin.calls (loading sh)).plugins ++
          (if plugin.initStatus = 0 then [⟨plugin.shownName, plugin.path, true⟩] else []) } := by
  have hany : ¬ sh.plugins.any (fun p => p.path = plugin.path) = true := by
    rw [any_eq_true]
    intro ⟨p, hp, hpath⟩
    exact hnew p hp (by simpa using hpath)
  unfold arkshShellLoadPlugin
  rw [if_neg (not_le.mpr hroom), if_neg hany, if_neg (show ¬ ¬ plugin.admitted = true from
    fun h => h hadmitted)]
  by_cases hstatus : plugin.initStatus = 0
  · rw [if_pos hstatus, if_neg (show ¬ plugin.initStatus ≠ 0 from fun h => h hstatus)]
  · rw [if_neg hstatus, if_pos hstatus, append_nil]

theorem load_without (h : Without path n sh sh') (hpath : plugin.path ≠ path)
    (hoff : plugin.admitted = false ∨ (∃ p ∈ sh.plugins, p.path = plugin.path) ∨
      sh.plugins.length < arkshMaxPlugins ∧ CallsApart n plugin.calls (loading sh)) :
    Without path n (arkshShellLoadPlugin sh plugin).2 (arkshShellLoadPlugin sh' plugin).2 := by
  obtain ⟨before, p, after, hsh, hsh', hlength, hp, hothers⟩ := h.plugins
  have hloaded : (∃ q ∈ sh'.plugins, q.path = plugin.path) ↔
      ∃ q ∈ sh.plugins, q.path = plugin.path := by
    rw [hsh, hsh']
    constructor
    · intro ⟨q, hq, hqp⟩
      refine ⟨q, ?_, hqp⟩
      rcases mem_append.mp hq with hq | hq
      · exact mem_append_left _ hq
      · exact mem_append_right _ (mem_cons_of_mem p hq)
    · intro ⟨q, hq, hqp⟩
      refine ⟨q, ?_, hqp⟩
      rcases mem_append.mp hq with hq | hq
      · exact mem_append_left _ hq
      · rcases mem_cons.mp hq with rfl | hq
        · exact absurd (hqp.symm.trans hp) hpath
        · exact mem_append_right _ hq
  cases hadmitted : plugin.admitted with
  | false =>
    rw [loadPlugin_of_not_admitted hadmitted, loadPlugin_of_not_admitted hadmitted]
    exact h
  | true =>
    by_cases hold : ∃ q ∈ sh.plugins, q.path = plugin.path
    · rw [loadPlugin_of_loaded hold, loadPlugin_of_loaded (hloaded.mpr hold)]; exact h
    · rw [hadmitted] at hoff
      obtain ⟨hroom, hcalls⟩ := (hoff.resolve_left Bool.noConfusion).resolve_left hold
      have hroom' : sh'.plugins.length < arkshMaxPlugins := by
        rw [hsh, length_append, length_cons] at hroom
        rw [hsh', length_append]
        omega
      have hnew : ∀ q ∈ sh.plugins, q.path ≠ plugin.path := fun q hq hqp => hold ⟨q, hq, hqp⟩
      have hnew' : ∀ q ∈ sh'.plugins, q.path ≠ plugin.path :=
        fun q hq hqp => hold (hloaded.mp ⟨q, hq, hqp⟩)
      have hrun := hostCalls_without (loading_without h) hcalls
      rw [loadPlugin_eq hroom hnew hadmitted, loadPlugin_eq hroom' hnew' hadmitted]
      apply loaded_without hrun
      intro q hq
      split at hq
      · rw [mem_singleton.mp hq]; exact hpath
      · exact absurd hq not_mem_nil

theorem others_cons_of_eq (h : e.path = path) : others path (e :: events) = others path events := by
  unfold others
  rw [filter_cons_of_neg (by simp [h])]

theorem others_cons_of_ne (h : e.path ≠ path) :
    others path (e :: events) = e :: others path events := by
  unfold others
  rw [filter_cons_of_pos (by simp [h])]

theorem events_without (h : Without path n sh sh') (hoff : EventsApart n events sh) :
    Without path n (runEvents events sh) (runEvents (others path events) sh') := by
  induction events generalizing sh sh' with
  | nil => exact h
  | cons e events ih =>
    cases e with
    | load plugin =>
      obtain ⟨hload, hrest⟩ := hoff
      by_cases hp : (PluginEvent.load plugin).path = path
      · rw [others_cons_of_eq hp]
        obtain ⟨before, p, after, hsh, _, _, hpath, _⟩ := h.plugins
        have hloaded : ∃ q ∈ sh.plugins, q.path = plugin.path := by
          refine ⟨p, ?_, hpath.trans hp.symm⟩
          rw [hsh]
          exact mem_append_right _ mem_cons_self
        show Without path n (runEvents events (arkshShellLoadPlugin sh plugin).2) _
        rw [loadPlugin_of_loaded hloaded] at hrest ⊢
        exact ih h hrest
      · rw [others_cons_of_ne hp]; exact ih (load_without h hp hload) hrest
    | setActive path' active =>
      by_cases hp : (PluginEvent.setActive path' active : PluginEvent Fn).path = path
      · rw [others_cons_of_eq hp]
        have hpath : path' = path := hp
        subst hpath
        exact ih (switch_without h) hoff
      · rw [others_cons_of_ne hp]; exact ih (setActive_without h hp) hoff

end Step

/-! ## 4. What the lookups show -/

section View

variable {path : Text} {n : Nat} {sh sh' : Registry Fn} {owner : Owner}

theorem filter_find? {K : Type} [DecidableEq K] {keyOf : E → K} {k : K} {vis : E → Bool}
    {slots : List E} (hd : (slots.map keyOf).Nodup) :
    (slots.find? fun e => keyOf e = k).filter vis =
      slots.find? fun e => decide (keyOf e = k) && vis e := by
  induction slots with
  | nil => rfl
  | cons e slots ih =>
    obtain ⟨hnew, hrest⟩ := nodup_cons.mp hd
    rw [find?_cons, find?_cons]
    by_cases hk : keyOf e = k
    · cases hv : vis e with
      | true => simp [hk, hv]
      | false =>
        have hnone : (slots.find? fun e => decide (keyOf e = k) && vis e) = none := by
          rw [find?_eq_none]
          intro e' he' hfound
          apply hnew
          rw [hk]
          simp only [and_eq_true, decide_eq_true_eq] at hfound
          rw [← hfound.1]
          exact mem_map_of_mem he'
        simp [hk, hv, hnone]
    · simp only [hk, decide_false, Bool.false_and]; exact ih hrest

theorem find?_dropOwned {ownerOf : E → Owner} {without : E → E} {q q' : E → Bool} {slots : List E}
    (hdrop : ∀ e, (ownerOf e).isIndex n = true → q e = false)
    (hkeep : ∀ e, (ownerOf e).isIndex n = false → q' (without e) = q e) :
    (dropOwned n ownerOf without slots).find? q' = (slots.find? q).map without := by
  induction slots with
  | nil => rfl
  | cons e slots ih =>
    cases howned : (ownerOf e).isIndex n with
    | true => rw [dropOwned_cons_of_isIndex howned, find?_cons, hdrop e howned]; exact ih
    | false =>
      rw [dropOwned_cons howned, find?_cons, find?_cons, hkeep e howned]
      cases q e with
      | true => rfl
      | false => exact ih

theorem visible_without (h : Without path n sh sh') (howner : owner.isIndex n = false) :
    (owner.without n).visible sh' = owner.visible sh := by
  obtain ⟨before, p, after, hsh, hsh', hlength, _, _⟩ := h.plugins
  unfold Owner.visible
  show (!owner.isPlugin || pluginIndexIsActive sh' (shiftIndex n owner.ownerPluginIndex)) = _
  cases hplugin : owner.isPlugin with
  | false => rfl
  | true =>
    have hne : owner.ownerPluginIndex ≠ n := by
      unfold Owner.isIndex at howner
      rw [hplugin, Bool.true_and] at howner
      exact of_decide_eq_false howner
    unfold pluginIndexIsActive shiftIndex
    rw [hsh, hsh', Bool.not_true, Bool.false_or, Bool.false_or]
    by_cases hneg : owner.ownerPluginIndex < 0
    · rw [if_neg (show ¬ (n : Int) < owner.ownerPluginIndex by omega), if_pos hneg, if_pos hneg]
    · by_cases hlt : (n : Int) < owner.ownerPluginIndex
      · rw [if_pos hlt, if_neg hneg, if_neg (by omega)]
        have hindex : owner.ownerPluginIndex.toNat - before.length =
            (owner.ownerPluginIndex - 1).toNat - before.length + 1 := by omega
        rw [getElem?_append_right (by omega), getElem?_append_right (by omega), hindex,
          getElem?_cons_succ]
      · rw [if_neg hlt, if_neg hneg, if_neg hneg, getElem?_append_left (by omega),
          getElem?_append_left (by omega)]

theorem visible_of_isIndex (h : Without path n sh sh')
    (hinactive : isActive path sh.plugins = false) (howner : owner.isIndex n = true) :
    owner.visible sh = false := by
  obtain ⟨before, p, after, hsh, _, hlength, hp, _⟩ := h.plugins
  unfold Owner.isIndex at howner
  simp only [and_eq_true, decide_eq_true_eq] at howner
  obtain ⟨hplugin, hindex⟩ := howner
  have hpa : p.active = false := by
    unfold isActive at hinactive
    rw [hsh, any_append, any_cons, hp] at hinactive
    simp only [decide_true, Bool.true_and, Bool.or_eq_false_iff] at hinactive
    exact hinactive.2.1
  unfold Owner.visible pluginIndexIsActive
  rw [hplugin, hindex, if_neg (by omega), hsh, Int.toNat_natCast,
    getElem?_append_right (Nat.le_of_eq hlength), hlength, Nat.sub_self, getElem?_cons_zero]
  exact hpa

theorem findRegistered_eq {table : IndexedTable (RegistryEntry F)} {f : Text → Option (RegistryEntry F)}
    (h : table.Represents RegistryEntry.name f) (name : Text) : findRegistered sh table name =
      table.slots.find? fun e => decide (e.name = name) && e.owner.visible sh := by
  unfold findRegistered
  rw [IndexedTable.find_eq h.sound h.holds.distinct]
  exact filter_find? h.holds.distinct

section

variable (h : Without path n sh sh') (hinactive : isActive path sh.plugins = false)
include h hinactive

theorem findRegistered_without {table table' : IndexedTable (RegistryEntry F)}
    {f : Text → Option (RegistryEntry F)} (hrep : table.Represents RegistryEntry.name f)
    (hindex : table' = .reindex RegistryEntry.name table'.slots)
    (hslots : table'.slots = dropEntries n table.slots) (name : Text) :
    (findRegistered sh table name).map RegistryEntry.anonymous =
      (findRegistered sh' table' name).map RegistryEntry.anonymous := by
  have hdistinct : (table'.slots.map RegistryEntry.name).Nodup := by
    have hnames : table'.slots.map RegistryEntry.name =
        (table.slots.filter fun e => !e.owner.isIndex n).map RegistryEntry.name := by
      rw [hslots]
      unfold dropEntries dropOwned
      rw [map_map]
      rfl
    rw [hnames]
    exact hrep.holds.distinct.sublist (filter_sublist.map RegistryEntry.name)
  have hsound : table'.Sound RegistryEntry.name := by
    rw [hindex]
    exact IndexedTable.reindex_sound _ _
  have hright : findRegistered sh' table' name =
      table'.slots.find? fun e => decide (e.name = name) && e.owner.visible sh' := by
    unfold findRegistered
    rw [IndexedTable.find_eq hsound hdistinct]
    exact filter_find? hdistinct
  have hdrop := @find?_dropOwned (RegistryEntry F) n RegistryEntry.owner (.without n)
    (fun e => decide (e.name = name) && e.owner.visible sh)
    (fun e => decide (e.name = name) && e.owner.visible sh') table.slots
    (fun e he => by rw [visible_of_isIndex h hinactive he, Bool.and_false])
    (fun e he => by
      show (decide (e.name = name) && (e.owner.without n).visible sh') = _
      rw [visible_without h he])
  rw [findRegistered_eq hrep, hright, hslots, hdrop, Option.map_map]
  rfl

theorem findExtension_without (receiver : ArkshValue) (memberKind : ArkshMemberKind) (name : Text) :
    (findExtension sh receiver memberKind name).map ArkshObjectExtension.anonymous =
      (findExtension sh' receiver memberKind name).map ArkshObjectExtension.anonymous := by
  have hreverse : (dropExtensions n sh.extensions).reverse =
      dropExtensions n sh.extensions.reverse := by
    unfold dropExtensions dropOwned
    rw [← map_reverse, ← filter_reverse]
  unfold findExtension
  rw [h.tables.extensions, hreverse]
  have hdrop := @find?_dropOwned (ArkshObjectExtension Fn) n ArkshObjectExtension.owner (.without n)
    (fun e => decide (e.memberKind = memberKind ∧ e.name = name ∧ e.owner.visible sh ∧
      extensionTargetMatches e receiver))
    (fun e => decide (e.memberKind = memberKind ∧ e.name = name ∧ e.owner.visible sh' ∧
      extensionTargetMatches e receiver)) sh.extensions.reverse
    (fun e he => by
      rw [visible_of_isIndex h hinactive he]
      simp)
    (fun e he => by
      show decide (e.memberKind = memberKind ∧ e.name = name ∧
        (e.owner.without n).visible sh' ∧ extensionTargetMatches e receiver) = _
      rw [visible_without h he])
  rw [hdrop, Option.map_map]
  rfl

/-- **While the plugin is disabled, the lookups are those of the run without it.** -/
theorem sameView_of_without : SameView sh' sh := by
  obtain ⟨log, hlog⟩ := h.log
  exact {
    command := findRegistered_without h hinactive hlog.commands h.rebuilt.commands h.tables.commands
    valueResolver := findRegistered_without h hinactive hlog.valueResolvers
      h.rebuilt.valueResolvers h.tables.valueResolvers
    pipelineStage := findRegistered_without h hinactive hlog.pipelineStages
      h.rebuilt.pipelineStages h.tables.pipelineStages
    extension := findExtension_without h hinactive }

end

end View

/-! ## 5. The load of the plugin -/

section Load

variable {sh sh₁ : Registry Fn} {plugin : Plugin Fn} {path : Text} {n : Nat} {ownerOf : E → Owner}
  {without : E → E} {plugins : List ArkshLoadedPlugin} {b : Bool}

theorem FittingRegistry.reachable (h : FittingRegistry sh) : ReachableRegistry sh := by
  induction h with
  | start => exact .start
  | call sh c _ hown _ ih => exact .call sh c ih hown
  | load sh plugin _ _ ih => exact .event sh (.load plugin) ih
  | setActive sh path active _ ih => exact .event sh (.setActive path active) ih

theorem log_hostCalls {calls : List (HostCall Fn)} (h : ∃ log, HoldsLog sh log)
    (hfits : ∀ c ∈ calls, c.Fits) : ∃ log, HoldsLog (runHostCalls calls sh) log := by
  induction calls generalizing sh with
  | nil => exact h
  | cons c calls ih =>
    obtain ⟨log, hlog⟩ := h
    exact ih ⟨_, holdsLog_call hlog (hfits c mem_cons_self)⟩
      fun c' hc' => hfits c' (mem_cons_of_mem c hc')

theorem FittingRegistry.log (h : FittingRegistry sh) : ∃ log, HoldsLog sh log := by
  induction h with
  | start => exact ⟨_, holdsLog_empty⟩
  | call sh c _ _ hfits ih => obtain ⟨log, hlog⟩ := ih; exact ⟨_, holdsLog_call hlog hfits⟩
  | load sh plugin _ hfits ih =>
    obtain ⟨log, hlog⟩ := ih
    obtain ⟨log', hlog'⟩ := @log_hostCalls Fn (loading sh) plugin.calls
      ⟨log, { hlog with commands := hlog.commands }⟩ hfits
    rcases loadPlugin_cases sh plugin with hr | ⟨_, _, ⟨_, hr⟩ | ⟨_, name, hr⟩⟩
    · rw [hr]; exact ⟨log, hlog⟩
    · rw [hr]; exact ⟨log', { hlog' with commands := hlog'.commands }⟩
    · rw [hr]; exact ⟨log', { hlog' with commands := hlog'.commands }⟩
  | setActive sh path active _ ih =>
    obtain ⟨log, hlog⟩ := ih
    exact ⟨log, { hlog with commands := hlog.commands }⟩

theorem dropOwned_of_below {slots : List E}
    (hwithout : ∀ e, ownerOf e = (ownerOf e).without n → without e = e)
    (h : ∀ e ∈ slots, (ownerOf e).ownerPluginIndex < n) :
    dropOwned n ownerOf without slots = slots := by
  induction slots with
  | nil => rfl
  | cons e slots ih =>
    have hlt := h e mem_cons_self
    have hkept : (ownerOf e).isIndex n = false := by
      unfold Owner.isIndex
      rw [decide_eq_false (by omega), Bool.and_false]
    have hsame : ownerOf e = (ownerOf e).without n := by
      unfold Owner.without shiftIndex
      rw [if_neg (by omega)]
    rw [dropOwned_cons hkept, hwithout e hsame, ih fun e' he' => h e' (mem_cons_of_mem e he')]

theorem dropped_of_noLeftover (h : NoLeftover sh) : Dropped sh.plugins.length (loading sh) sh := by
  have hentries : ∀ {F : Type} (slots : List (RegistryEntry F)),
      (∀ e ∈ slots, e.owner.ownerPluginIndex < sh.plugins.length) →
      slots = dropEntries sh.plugins.length slots := by
    intro F slots hslots
    symm
    apply dropOwned_of_below _ hslots
    intro e he
    unfold RegistryEntry.without
    rw [← he]
  have hextensions : sh.extensions = dropExtensions sh.plugins.length sh.extensions := by
    symm
    apply dropOwned_of_below _ h.extensions
    intro e he
    unfold ArkshObjectExtension.without
    rw [← he]
  exact {
    commands := hentries _ h.commands
    valueResolvers := hentries _ h.valueResolvers
    pipelineStages := hentries _ h.pipelineStages
    extensions := hextensions }

theorem isIndex_currentOwner (h : sh₁.loadingPluginIndex = n) :
    (currentOwner sh₁ true).isIndex n = true := by
  show (true && decide (sh₁.loadingPluginIndex = n)) = true
  rw [decide_eq_true h]
  rfl

theorem isIndex_of_not_mem {K : Type} {keyOf : E → K} {slots slots' : List E} {k : K}
    (hkey : ∀ e, keyOf (without e) = keyOf e) (hslots : slots' = dropOwned n ownerOf without slots)
    (hk : k ∉ slots'.map keyOf) : ∀ e ∈ slots, keyOf e = k → (ownerOf e).isIndex n = true := by
  intro e he hek
  by_contra hkept
  apply hk
  rw [hslots]
  unfold dropOwned
  simp only [mem_map, mem_filter]
  exact ⟨without e, ⟨e, ⟨he, by simpa using hkept⟩, rfl⟩, (hkey e).trans hek⟩

theorem registerNamed_owned {cap : Nat} {table : IndexedTable (RegistryEntry F)} {name : Text}
    {slots' : List (RegistryEntry F)} {update : RegistryEntry F → RegistryEntry F}
    {fresh : RegistryEntry F} (hslots : slots' = dropEntries n table.slots)
    (hnew : name ∉ slots'.map RegistryEntry.name) (hupdate : ∀ e, (update e).owner.isIndex n = true)
    (hfresh : fresh.owner.isIndex n = true) :
    slots' = dropEntries n (registerNamed cap table name update fresh).2.slots := by
  have hkey : ∀ e : RegistryEntry F, (e.without n).name = e.name := fun _ => rfl
  have hon := isIndex_of_not_mem hkey hslots hnew
  rcases registerNamed_cases cap table name update fresh with hr | hr
  · rw [hr]; exact hslots
  · rw [hr, hslots]; exact (dropOwned_putSlot_owned hon hupdate hfresh).symm

theorem hostCall_owned {c : HostCall Fn} (h : Dropped n sh₁ sh)
    (hloading : sh₁.loadingPluginIndex = n) (hplace : c.TakesNoPlace sh) :
    Dropped n (c.run sh₁) sh := by
  have howner := isIndex_currentOwner hloading
  cases c with
  | command name description fn =>
    show Dropped n (arkshShellRegisterCommand sh₁ name description fn true).2 sh
    rcases registerCommand_cases sh₁ name description fn true with hr | ⟨f, _, _, hr⟩
    · rw [hr]; exact h
    · rw [hr]
      exact { h with
        commands := by
          show sh.commands.slots = dropEntries n (sh₁.commands.slots ++ [_])
          rw [dropEntries, dropOwned_append, dropOwned_cons_of_isIndex (by exact howner), h.commands]
          exact (append_nil _).symm }
  | valueResolver name description fn =>
    show Dropped n (arkshShellRegisterValueResolver sh₁ name description fn true).2 sh
    unfold arkshShellRegisterValueResolver
    cases fn with
    | none => exact h
    | some f =>
      dsimp only
      split
      · exact h
      · rename_i hvalid
        have hnew := (hplace.resolve_left (Option.some_ne_none f)).resolve_left
          (by simpa using hvalid)
        exact { h with
          valueResolvers := registerNamed_owned h.valueResolvers hnew (fun _ => howner) howner }
  | pipelineStage name description fn =>
    show Dropped n (arkshShellRegisterPipelineStage sh₁ name description fn true).2 sh
    unfold arkshShellRegisterPipelineStage
    split
    · exact h
    · rename_i hvalid
      have hnew := hplace.resolve_left (by simpa using hvalid)
      exact { h with
        pipelineStages := registerNamed_owned h.pipelineStages hnew (fun _ => howner) howner }
  | extension target name memberKind fn =>
    cases fn with
    | none => exact h
    | some f =>
      show Dropped n (registerExtensionCommon sh₁ target name memberKind (.native f) true).2 sh
      unfold registerExtensionCommon
      split
      · exact h
      · rename_i hvalid
        have hnew := (hplace.resolve_left (Option.some_ne_none f)).resolve_left
          (by simpa using hvalid)
        split
        · have hkey : ∀ e : ArkshObjectExtension Fn, (e.without n).key = e.key := fun _ => rfl
          have hon := isIndex_of_not_mem hkey h.extensions hnew
          exact { h with
            extensions := by
              show sh.extensions = dropExtensions n (putSlot _ _ _ _ sh₁.extensions)
              rw [h.extensions]
              exact (dropOwned_putSlot_owned hon (fun _ => howner) howner).symm }
        · exact h

theorem hostCalls_owned {calls : List (HostCall Fn)} (h : Dropped n sh₁ sh)
    (hloading : sh₁.loadingPluginIndex = n) (hplace : ∀ c ∈ calls, c.TakesNoPlace sh) :
    Dropped n (runHostCalls calls sh₁) sh := by
  induction calls generalizing sh₁ with
  | nil => exact h
  | cons c calls ih =>
    have hindex := (@call_loadingPluginIndex Fn sh₁ c.toCall (toCall_ne c)).1
    exact @ih (c.run sh₁) (hostCall_owned h hloading (hplace c mem_cons_self))
      (hindex.trans hloading) fun c' hc' => hplace c' (mem_cons_of_mem c hc')

theorem load_starts_without (h : FittingRegistry sh) (hload : Loads sh plugin)
    (hfits : ∀ c ∈ plugin.calls, c.Fits) (hclean : NoLeftover sh)
    (hplace : ∀ c ∈ plugin.calls, c.TakesNoPlace sh) :
    Without plugin.path sh.plugins.length (arkshShellLoadPlugin sh plugin).2 sh := by
  have htables := hostCalls_owned (dropped_of_noLeftover hclean) rfl hplace
  have hsame := hostCalls_keep_plugins plugin.calls (loading sh)
  obtain ⟨log, hlog⟩ := FittingRegistry.log (.load sh plugin h hfits)
  have heq := loadPlugin_eq hload.room hload.new hload.admitted
  rw [if_pos hload.succeeds, hsame] at heq
  rw [heq] at hlog ⊢
  exact {
    tables := { htables with commands := htables.commands }
    plugins := ⟨sh.plugins, ⟨plugin.shownName, plugin.path, true⟩, [], rfl,
      (append_nil sh.plugins).symm, rfl, rfl, by rw [append_nil]; exact hload.new⟩
    index := by
      show sh.loadingPluginIndex = shiftIndex sh.plugins.length (-1)
      unfold shiftIndex
      rw [if_neg (by omega), h.reachable.loadingPluginIndex]
    notLoading := by
      show (-1 : Int) ≠ sh.plugins.length
      omega
    log := ⟨log, hlog⟩
    rebuilt := h.reachable.rebuilt }

/-! ## 6. A plugin that is enabled again -/

theorem setActive_append_active {q : ArkshLoadedPlugin} (h : q.active = true) :
    setActive path true (plugins ++ [q]) = setActive path true plugins ++ [q] := by
  induction plugins with
  | nil =>
    show setActive path true [q] = [q]
    rw [setActive]
    split
    · rw [← h]
    · rfl
  | cons p plugins ih =>
    rw [cons_append, setActive, setActive]
    split
    · rfl
    · rw [ih]; rfl

theorem setActive_setActive (plugins : List ArkshLoadedPlugin) :
    setActive path true (setActive path b plugins) = setActive path true plugins := by
  induction plugins with
  | nil => rfl
  | cons p plugins ih =>
    by_cases hp : p.path = path
    · rw [setActive, if_pos hp, setActive, if_pos (by exact hp), setActive, if_pos hp]
    · rw [setActive, if_neg hp, setActive, if_neg hp, setActive, if_neg hp, ih]

theorem setActive_comm {path' : Text} (hne : path' ≠ path) (plugins : List ArkshLoadedPlugin) :
    setActive path' b (setActive path true plugins) =
      setActive path true (setActive path' b plugins) := by
  induction plugins with
  | nil => rfl
  | cons p plugins ih =>
    by_cases hp : p.path = path
    · have hp' : ¬ p.path = path' := fun h => hne (h.symm.trans hp)
      rw [setActive, if_pos hp, setActive, if_neg (by exact hp'), setActive, if_neg hp', setActive,
        if_pos hp]
    · by_cases hp' : p.path = path'
      · rw [setActive, if_neg hp, setActive, if_pos hp', setActive, if_pos hp', setActive,
          if_neg (by exact hp)]
      · rw [setActive, if_neg hp, setActive, if_neg hp', setActive, if_neg hp', setActive, if_neg hp,
          ih]

theorem setActive_of_isActive (hd : (plugins.map ArkshLoadedPlugin.path).Nodup)
    (h : isActive path plugins = true) : setActive path true plugins = plugins := by
  induction plugins with
  | nil => rfl
  | cons p plugins ih =>
    obtain ⟨hnew, hrest⟩ := nodup_cons.mp hd
    unfold isActive at h
    rw [any_cons] at h
    by_cases hp : p.path = path
    · have hothers : isActive path plugins = false := by
        unfold isActive
        rw [any_eq_false]
        intro q hq hboth
        simp only [and_eq_true, decide_eq_true_eq] at hboth
        apply hnew
        rw [hp, ← hboth.1]
        exact mem_map_of_mem hq
      unfold isActive at hothers
      rw [hothers] at h
      simp only [hp, decide_true, Bool.true_and, Bool.or_false] at h
      rw [setActive, if_pos hp, ← h]
    · simp only [hp, decide_false, Bool.false_and, Bool.false_or] at h
      rw [setActive, if_neg hp, ih hrest h]

theorem hostCall_plugins (c : HostCall Fn) (sh : Registry Fn) (plugins : List ArkshLoadedPlugin) :
    c.run { sh with plugins } = { c.run sh with plugins } := by
  have hite {cond : Prop} [Decidable cond] {a b a' b' : Nat × Registry Fn}
      (ha : a'.2 = { a.2 with plugins }) (hb : b'.2 = { b.2 with plugins }) :
      (if cond then a' else b').2 = { (if cond then a else b).2 with plugins } := by
    split
    · exact ha
    · exact hb
  cases c with
  | command name description fn =>
    cases fn with
    | none => rfl
    | some f => exact hite rfl (hite rfl rfl)
  | valueResolver name description fn =>
    cases fn with
    | none => rfl
    | some f => exact hite rfl rfl
  | pipelineStage name description fn => exact hite rfl rfl
  | extension target name memberKind fn =>
    cases fn with
    | none => rfl
    | some f => exact hite rfl (hite rfl rfl)

theorem hostCalls_plugins (calls : List (HostCall Fn)) (sh : Registry Fn)
    (plugins : List ArkshLoadedPlugin) :
    runHostCalls calls { sh with plugins } = { runHostCalls calls sh with plugins } := by
  induction calls generalizing sh with
  | nil => rfl
  | cons c calls ih =>
    show runHostCalls calls (c.run { sh with plugins }) = _
    rw [hostCall_plugins, ih]
    rfl

theorem load_setPluginActive (plugin : Plugin Fn) (sh : Registry Fn) (path : Text) :
    (arkshShellLoadPlugin (setPluginActive sh path true) plugin).2 =
      setPluginActive (arkshShellLoadPlugin sh plugin).2 path true := by
  have hany : (setActive path true sh.plugins).any (fun p => p.path = plugin.path) =
      sh.plugins.any fun p => p.path = plugin.path := by
    have hpaths (plugins : List ArkshLoadedPlugin) : plugins.any (fun p => p.path = plugin.path) =
        (plugins.map ArkshLoadedPlugin.path).any (· = plugin.path) := by rw [any_map]; rfl
    rw [hpaths, hpaths, setActive_paths]
  have hloading : loading (setPluginActive sh path true) =
      { loading sh with plugins := setActive path true sh.plugins } := by
    unfold loading setPluginActive
    rw [length_setActive]
  have hkeep : (runHostCalls plugin.calls (loading sh)).plugins = sh.plugins :=
    hostCalls_keep_plugins plugin.calls (loading sh)
  unfold arkshShellLoadPlugin
  rw [hloading, hostCalls_plugins]
  unfold setPluginActive
  dsimp only
  rw [length_setActive, hany, hkeep]
  split
  · rfl
  split
  · rfl
  split
  · rfl
  split
  · rfl
  · rw [setActive_append_active rfl]

/-- **The run in which the plugin is never disabled is the run itself, with its flag set.** -/
theorem events_unswitched (events : List (PluginEvent Fn)) : ∀ sh : Registry Fn,
    runEvents (unswitched path events) (setPluginActive sh path true) =
      setPluginActive (runEvents events sh) path true := by
  induction events with
  | nil => intro sh; rfl
  | cons e events ih =>
    intro sh
    cases e with
    | load plugin =>
      show runEvents (unswitched path events)
        (arkshShellLoadPlugin (setPluginActive sh path true) plugin).2 = _
      rw [load_setPluginActive, ih]
      rfl
    | setActive path' active =>
      unfold unswitched
      by_cases hp : path' = path
      · rw [filter_cons_of_neg (by simp [PluginEvent.switches, hp])]
        have hrest := ih (setPluginActive sh path' active)
        unfold setPluginActive at hrest ⊢
        rw [hp] at hrest ⊢
        rw [setActive_setActive] at hrest
        exact hrest
      · rw [filter_cons_of_pos (by simp [PluginEvent.switches, hp])]
        have hrest := ih (setPluginActive sh path' active)
        have hcomm : setPluginActive (setPluginActive sh path true) path' active =
            setPluginActive (setPluginActive sh path' active) path true := by
          unfold setPluginActive
          rw [setActive_comm hp]
        show runEvents (unswitched path events)
          (setPluginActive (setPluginActive sh path true) path' active) = _
        rw [hcomm, hrest]
        rfl

section

variable (h : ReachableRegistry sh)
include h

theorem ReachableRegistry.paths : (sh.plugins.map ArkshLoadedPlugin.path).Nodup := by
  induction h with
  | start => exact nodup_nil
  | call sh c _ hown ih =>
    have hkeep := (@call_loadingPluginIndex Fn sh c (by
      intro plugins index hc
      rw [hc] at hown
      exact hown)).2
    rw [hkeep]
    exact ih
  | event sh e _ ih =>
    cases e with
    | load plugin =>
      show ((arkshShellLoadPlugin sh plugin).2.plugins.map ArkshLoadedPlugin.path).Nodup
      have hkeep : (runHostCalls plugin.calls (loading sh)).plugins = sh.plugins :=
        hostCalls_keep_plugins plugin.calls (loading sh)
      rcases loadPlugin_cases sh plugin with hr | ⟨hnew, _, ⟨_, hr⟩ | ⟨_, name, hr⟩⟩
      · rw [hr]; exact ih
      · rw [hr]
        show ((runHostCalls plugin.calls (loading sh)).plugins.map ArkshLoadedPlugin.path).Nodup
        rw [hkeep]
        exact ih
      · rw [hr]
        show (((runHostCalls plugin.calls (loading sh)).plugins ++
          [(⟨name, plugin.path, true⟩ : ArkshLoadedPlugin)]).map ArkshLoadedPlugin.path).Nodup
        rw [hkeep, map_append, map_singleton]
        have hnotin : plugin.path ∉ sh.plugins.map ArkshLoadedPlugin.path := by
          intro hmem
          obtain ⟨p, hp, hpath⟩ := mem_map.mp hmem
          exact hnew p hp hpath
        have hconcat := List.Nodup.concat hnotin ih
        rwa [concat_eq_append] at hconcat
    | setActive path active =>
      show ((setActive path active sh.plugins).map ArkshLoadedPlugin.path).Nodup
      rw [setActive_paths]
      exact ih

theorem reachable_events (events : List (PluginEvent Fn)) :
    ReachableRegistry (runEvents events sh) := by
  induction events generalizing sh with
  | nil => exact h
  | cons e events ih => exact ih (.event sh e h)

/-- **Enabling a plugin again gives every lookup back**, whatever happened in between. -/
theorem enabled_again (hload : Loads sh plugin) (events : List (PluginEvent Fn)) :
    let final := runEvents events (arkshShellLoadPlugin sh plugin).2
    isActive plugin.path final.plugins = true →
      runEvents (unswitched plugin.path events) (arkshShellLoadPlugin sh plugin).2 = final := by
  intro final hactive
  have hloaded : ReachableRegistry (arkshShellLoadPlugin sh plugin).2 := .event sh (.load plugin) h
  have hfirst : isActive plugin.path (arkshShellLoadPlugin sh plugin).2.plugins = true := by
    rw [loadPlugin_eq hload.room hload.new hload.admitted, if_pos hload.succeeds]
    unfold isActive
    simp
  have hset : ∀ sh₁ : Registry Fn, ReachableRegistry sh₁ →
      isActive plugin.path sh₁.plugins = true → setPluginActive sh₁ plugin.path true = sh₁ := by
    intro sh₁ hreach hact
    unfold setPluginActive
    rw [setActive_of_isActive hreach.paths hact]
  have hrun := @events_unswitched Fn plugin.path events (arkshShellLoadPlugin sh plugin).2
  rw [hset _ hloaded hfirst, hset _ (reachable_events hloaded events) hactive] at hrun
  exact hrun

end

/-- **Plugin disable law**: in every run whose names fit, for a plugin that takes no entry's place
    in a shell without leftovers, behind events whose plugins keep off its entries and find room. -/
theorem disableLaw_run {events : List (PluginEvent Fn)} (h : FittingRegistry sh)
    (hload : Loads sh plugin) (hfits : ∀ c ∈ plugin.calls, c.Fits) (hclean : NoLeftover sh)
    (hplace : ∀ c ∈ plugin.calls, c.TakesNoPlace sh)
    (hevents : EventsApart sh.plugins.length events (arkshShellLoadPlugin sh plugin).2) :
    DisableLaw sh plugin events where
  disabled := by
    intro final hinactive
    have hstart := load_starts_without h hload hfits hclean hplace
    exact sameView_of_without (events_without hstart hevents) hinactive
  enabled := by
    intro final hactive
    have hsame := enabled_again h.reachable hload events hactive
    rw [hsame]
    exact ⟨fun _ => rfl, fun _ => rfl, fun _ => rfl, fun _ _ _ => rfl⟩

end Load

def helloPlugin : Plugin Nat :=
  ⟨"/h.so".toList, "h".toList, true, [.command "hello".toList [] (some 4)], 0⟩

theorem smallRegistry_fitting : FittingRegistry smallRegistry :=
  .call _ _ (.call _ _ .start rfl (show "map".toList.length < arkshMaxName by decide)) trivial
    (show "pwd".toList.length < arkshMaxCommandName by decide)

theorem smallRegistry_noLeftover : NoLeftover smallRegistry where
  commands := by
    intro e he
    rw [mem_singleton.mp (show e ∈ [_] from he)]
    exact (by decide : (-1 : Int) < 0)
  valueResolvers := by
    intro e he
    rw [mem_singleton.mp (show e ∈ [_] from he)]
    exact (by decide : (-1 : Int) < 0)
  pipelineStages := by
    intro e he
    exact absurd he not_mem_nil
  extensions := by
    intro e he
    exact absurd he not_mem_nil

theorem smallRegistry_loads {plugin : Plugin Nat} (hadmitted : plugin.admitted = true)
    (hsucceeds : plugin.initStatus = 0) : Loads smallRegistry plugin where
  room := by decide
  new := by
    intro p hp
    exact absurd hp not_mem_nil
  admitted := hadmitted
  succeeds := hsucceeds

theorem disableLaw_run_hello :
    DisableLaw smallRegistry helloPlugin [.setActive "/h.so".toList false] := by
  have hload : Loads smallRegistry helloPlugin := smallRegistry_loads rfl rfl
  have hfits : ∀ c ∈ helloPlugin.calls, c.Fits := by
    intro c hc
    rw [mem_singleton.mp hc]
    exact (show "hello".toList.length < arkshMaxCommandName by decide)
  have hplace : ∀ c ∈ helloPlugin.calls, c.TakesNoPlace smallRegistry := by
    intro c hc
    rw [mem_singleton.mp hc]
    exact trivial
  have hevents : EventsApart smallRegistry.plugins.length [.setActive "/h.so".toList false]
      (arkshShellLoadPlugin smallRegistry helloPlugin).2 := trivial
  exact disableLaw_run smallRegistry_fitting hload hfits smallRegistry_noLeftover hplace hevents

def overridingPlugin : Plugin Nat :=
  ⟨"/o.so".toList, "o".toList, true, [.valueResolver "map".toList none (some 5)], 0⟩

/-- Disabling it leaves no resolver of the name at all. -/
theorem not_disableLaw_overriding :
    FittingRegistry smallRegistry ∧ Loads smallRegistry overridingPlugin ∧
      ¬ DisableLaw smallRegistry overridingPlugin [.setActive "/o.so".toList false] := by
  refine ⟨smallRegistry_fitting, smallRegistry_loads rfl rfl, ?_⟩
  intro hlaw
  have hview := (hlaw.disabled (by decide)).valueResolver "map".toList
  revert hview
  decide

end Arksh
