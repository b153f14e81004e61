/-
  Subject: The registries of `src/shell.c`: commands, value resolvers, pipeline stages,
           extensions, classes and instances.

  All are arrays in the order of registration. Five have an index beside them, sorted by name (or
  id) and rebuilt after every change; extensions are searched from the last one on. An entry that
  a plugin registered is hidden while the plugin is not active.
-/
import Arksh.Lib.SortedIndex
import Arksh.Shell.Vars
import Mathlib.Data.Char
import Mathlib.Data.List.Lex
import Mathlib.Data.List.ModifyLast

namespace Arksh

open CText Tables List

/-! ## 1. The tables -/

def arkshMaxCommandName : Nat := 64
def arkshMaxCommands : Nat := 64
def arkshMaxValueResolvers : Nat := 32
def arkshMaxPipelineStageHandlers : Nat := 64
def arkshMaxExtensions : Nat := 64
def arkshMaxPlugins : Nat := 16
def arkshMaxClassDefs : Nat := 32
def arkshMaxInstances : Nat := 128
def arkshMaxDescription : Nat := 160

inductive ArkshBuiltinKind where
  | pure | mutant | mixed
  deriving DecidableEq

inductive ArkshMemberKind where
  | property | method
  deriving DecidableEq

/-- Who registered an entry. -/
structure Owner where
  isPlugin : Bool
  ownerPluginIndex : Int
  deriving DecidableEq

/-- What the definitions of commands, value resolvers and pipeline stages have in common; `F` is
    what is called. -/
structure RegistryEntry (F : Type) where
  name : Text
  description : Text
  fn : F
  owner : Owner
  deriving DecidableEq

/-- `Fn` stands for the C functions. -/
abbrev ArkshCommandDef (Fn : Type) := RegistryEntry (Fn × ArkshBuiltinKind)

abbrev ArkshValueResolverDef (Fn : Type) := RegistryEntry Fn

/-- The function of a stage of the language itself is NULL. -/
abbrev ArkshPipelineStageDef (Fn : Type) := RegistryEntry (Option Fn)

inductive ExtensionTarget where
  | any
  | valueKind (kind : ArkshValueKind)
  | objectKind (kind : ArkshObjectKind)
  | typedMap
  deriving DecidableEq

/-- `impl_kind`, with what implements the member. -/
inductive ExtensionImpl (Fn : Type) where
  | block (block : ArkshBlock)
  | native (fn : Fn)
  deriving DecidableEq

structure ArkshObjectExtension (Fn : Type) where
  targetName : Text
  name : Text
  memberKind : ArkshMemberKind
  target : ExtensionTarget
  impl : ExtensionImpl Fn
  owner : Owner
  deriving DecidableEq

structure ArkshClassDef where
  name : Text
  bases : List Text
  properties : List (Text × ArkshValue)
  methods : List (Text × ArkshBlock)
  source : Text

structure ArkshClassInstance where
  id : Int
  className : Text
  fields : ArkshValue

structure ArkshLoadedPlugin where
  name : Text
  path : Text
  active : Bool
  deriving DecidableEq

structure Registry (Fn : Type) where
  commands : IndexedTable (ArkshCommandDef Fn)
  valueResolvers : IndexedTable (ArkshValueResolverDef Fn)
  pipelineStages : IndexedTable (ArkshPipelineStageDef Fn)
  extensions : List (ArkshObjectExtension Fn)
  classes : IndexedTable ArkshClassDef
  instances : IndexedTable ArkshClassInstance
  nextInstanceId : Int
  plugins : List ArkshLoadedPlugin
  loadingPluginIndex : Int

variable {Fn F : Type} {sh : Registry Fn}

/-- What tells extensions apart. -/
def ArkshObjectExtension.key (e : ArkshObjectExtension Fn) : ArkshMemberKind × Text × Text :=
  (e.memberKind, e.targetName, e.name)

/-! ## 2. Lookups -/

def pluginIndexIsActive (sh : Registry Fn) (pluginIndex : Int) : Bool :=
  if pluginIndex < 0 then true
  else
    match (sh.plugins)[pluginIndex.toNat]? with
    | none => false
    | some plugin => plugin.active

def Owner.visible (sh : Registry Fn) (owner : Owner) : Bool :=
  !owner.isPlugin || pluginIndexIsActive sh owner.ownerPluginIndex

/-- The lookup of a name in a registry: the three functions below are this one. -/
def findRegistered (sh : Registry Fn) (table : IndexedTable (RegistryEntry F)) (name : Text) :
    Option (RegistryEntry F) :=
  (table.find RegistryEntry.name name).filter fun e => e.owner.visible sh

def arkshShellFindCommand (sh : Registry Fn) (name : Text) : Option (ArkshCommandDef Fn) :=
  findRegistered sh sh.commands name

def arkshShellFindValueResolver (sh : Registry Fn) (name : Text) :
    Option (ArkshValueResolverDef Fn) :=
  findRegistered sh sh.valueResolvers name

def arkshShellFindPipelineStage (sh : Registry Fn) (name : Text) :
    Option (ArkshPipelineStageDef Fn) :=
  findRegistered sh sh.pipelineStages name

def findClassEntry (sh : Registry Fn) (name : Text) : Option ArkshClassDef :=
  sh.classes.find ArkshClassDef.name name

def findInstanceEntry (sh : Registry Fn) (id : Int) : Option ArkshClassInstance :=
  if id ≤ 0 then none else sh.instances.find ArkshClassInstance.id id

def extensionTargetMatches (extension : ArkshObjectExtension Fn) (receiver : ArkshValue) : Bool :=
  match extension.target with
  | .any => true
  | .valueKind kind => receiver.kind = kind
  | .objectKind kind => receiver.kind = .object ∧ (receiver.object.getD {}).kind = kind
  | .typedMap =>
    receiver.kind = .map ∧
      (arkshValueMapGetItem receiver "__type__".toList).any fun item =>
        item.kind = .string ∧ item.text = extension.targetName

def findExtension (sh : Registry Fn) (receiver : ArkshValue) (memberKind : ArkshMemberKind)
    (name : Text) : Option (ArkshObjectExtension Fn) :=
  sh.extensions.reverse.find? fun e =>
    e.memberKind = memberKind ∧ e.name = name ∧ e.owner.visible sh ∧ extensionTargetMatches e receiver

def findExtensionEntry (sh : Registry Fn) (target : Text) (memberKind : ArkshMemberKind)
    (name : Text) : Option (ArkshObjectExtension Fn) :=
  sh.extensions.find? fun e => e.key = (memberKind, target, name)

/-! ## 3. Registrations -/

def currentOwner (sh : Registry Fn) (isPlugin : Bool) : Owner :=
  ⟨isPlugin, if isPlugin then sh.loadingPluginIndex else -1⟩

def newCommand (sh : Registry Fn) (name description : Text) (fn : Fn) (isPlugin : Bool) :
    ArkshCommandDef Fn where
  name := copyString arkshMaxCommandName name
  description := copyString arkshMaxDescription description
  fn := (fn, .pure)
  owner := currentOwner sh isPlugin

def arkshShellRegisterCommand (sh : Registry Fn) (name description : Text) (fn : Option Fn)
    (isPlugin : Bool) : Nat × Registry Fn :=
  match fn with
  | none => (1, sh)
  | some fn =>
    if arkshMaxCommands ≤ sh.commands.slots.length then (1, sh)
    else if sh.commands.slots.any fun e => e.name = name then (1, sh)
    else
      let slots := sh.commands.slots ++ [newCommand sh name description fn isPlugin]
      (0, { sh with commands := .reindex RegistryEntry.name slots })

def setLastKind (kind : ArkshBuiltinKind) (slots : List (ArkshCommandDef Fn)) :
    List (ArkshCommandDef Fn) :=
  slots.modifyLast fun e => { e with fn := (e.fn.1, kind) }

def registerBuiltin (sh : Registry Fn) (name description : Text) (fn : Option Fn)
    (kind : ArkshBuiltinKind) : Nat × Registry Fn :=
  let r := arkshShellRegisterCommand sh name description fn false
  if r.1 = 0 then
    (0, { r.2 with commands := { r.2.commands with slots := setLastKind kind r.2.commands.slots } })
  else r

/-- A registration that updates an entry of its name, or adds one where there is room: the
    functions for value resolvers and for pipeline stages are this one. -/
def registerNamed (cap : Nat) (table : IndexedTable (RegistryEntry F)) (name : Text)
    (update : RegistryEntry F → RegistryEntry F) (fresh : RegistryEntry F) :
    Nat × IndexedTable (RegistryEntry F) :=
  if table.slots.any (fun e => e.name = name) ∨ table.slots.length < cap then
    (0, .reindex RegistryEntry.name (putSlot RegistryEntry.name name update fresh table.slots))
  else (1, table)

/-- The description of an entry that is registered again. -/
def newDescription (old : Text) (description : Option Text) : Text :=
  match description with
  | none | some [] => old
  | some text => copyString arkshMaxDescription text

def RegistryEntry.again (sh : Registry Fn) (description : Option Text) (fn : F → F)
    (isPlugin : Bool) (e : RegistryEntry F) : RegistryEntry F :=
  { e with
    description := newDescription e.description description
    fn := fn e.fn
    owner := currentOwner sh isPlugin }

/-- What it stores where there is none. -/
def newEntry (sh : Registry Fn) (name : Text) (description : Option Text) (fn : F)
    (isPlugin : Bool) : RegistryEntry F where
  name := copyString arkshMaxName name
  description := copyString arkshMaxDescription (description.getD [])
  fn := fn
  owner := currentOwner sh isPlugin

def arkshShellRegisterValueResolver (sh : Registry Fn) (name : Text) (description : Option Text)
    (fn : Option Fn) (isPlugin : Bool) : Nat × Registry Fn :=
  match fn with
  | none => (1, sh)
  | some fn =>
    if ¬ isValidIdentifier name then (1, sh)
    else
      let r := registerNamed arkshMaxValueResolvers sh.valueResolvers name
        (.again sh description (fun _ => fn) isPlugin) (newEntry sh name description fn isPlugin)
      (r.1, { sh with valueResolvers := r.2 })

def arkshShellRegisterPipelineStage (sh : Registry Fn) (name : Text) (description : Option Text)
    (fn : Option Fn) (isPlugin : Bool) : Nat × Registry Fn :=
  if ¬ isValidIdentifier name then (1, sh)
  else
    let r := registerNamed arkshMaxPipelineStageHandlers sh.pipelineStages name
      (.again sh description (fun old => fn.or old) isPlugin)
      (newEntry sh name description fn isPlugin)
    (r.1, { sh with pipelineStages := r.2 })

def parseExtensionTarget (target : Text) : ExtensionTarget :=
  let named : List (String × ExtensionTarget) :=
    [("any", .any), ("string", .valueKind .string), ("number", .valueKind .number),
      ("bool", .valueKind .boolean), ("boolean", .valueKind .boolean),
      ("object", .valueKind .object), ("block", .valueKind .block), ("list", .valueKind .list),
      ("array", .valueKind .list), ("map", .valueKind .map), ("object_map", .valueKind .map),
      ("dict", .valueKind .dict), ("matrix", .valueKind .matrix),
      ("class", .valueKind .classRef), ("instance", .valueKind .instanceRef),
      ("empty", .valueKind .empty), ("path", .objectKind .path), ("file", .objectKind .file),
      ("directory", .objectKind .directory), ("dir", .objectKind .directory),
      ("device", .objectKind .device), ("mount", .objectKind .mountPoint),
      ("mount_point", .objectKind .mountPoint), ("mount-point", .objectKind .mountPoint)]
  ((named.find? fun p => p.1.toList = target).map Prod.snd).getD .typedMap

def newExtension (sh : Registry Fn) (target name : Text) (memberKind : ArkshMemberKind)
    (impl : ExtensionImpl Fn) (isPlugin : Bool) : ArkshObjectExtension Fn where
  targetName := copyString arkshMaxName target
  name := copyString arkshMaxName name
  memberKind := memberKind
  target := parseExtensionTarget target
  impl := impl
  owner := currentOwner sh isPlugin

def registerExtensionCommon (sh : Registry Fn) (target name : Text) (memberKind : ArkshMemberKind)
    (impl : ExtensionImpl Fn) (isPlugin : Bool) : Nat × Registry Fn :=
  if ¬ isValidIdentifier name then (1, sh)
  else if (findExtensionEntry sh target memberKind name).isSome ∨
      sh.extensions.length < arkshMaxExtensions then
    let entry := newExtension sh target name memberKind impl isPlugin
    (0, { sh with
      extensions := putSlot ArkshObjectExtension.key (memberKind, target, name) (fun _ => entry)
        entry sh.extensions })
  else (1, sh)

/-- `arksh_shell_register_block_property_extension` and, for methods,
    `arksh_shell_register_block_method_extension`. -/
def arkshShellRegisterBlockExtension (sh : Registry Fn) (target name : Text)
    (memberKind : ArkshMemberKind) (block : ArkshBlock) : Nat × Registry Fn :=
  registerExtensionCommon sh target name memberKind (.block block) false

/-- `arksh_shell_register_native_property_extension` and, for methods,
    `arksh_shell_register_native_method_extension`. -/
def arkshShellRegisterNativeExtension (sh : Registry Fn) (target name : Text)
    (memberKind : ArkshMemberKind) (fn : Option Fn) (isPlugin : Bool) : Nat × Registry Fn :=
  match fn with
  | none => (1, sh)
  | some fn => registerExtensionCommon sh target name memberKind (.native fn) isPlugin

def storeClass (sh : Registry Fn) (candidate : ArkshClassDef) : Nat × Registry Fn :=
  match sh.classes.slotOf ArkshClassDef.name candidate.name with
  | some slot =>
    (0, { sh with classes := .reindex ArkshClassDef.name (sh.classes.slots.set slot candidate) })
  | none =>
    if sh.classes.slots.length < arkshMaxClassDefs then
      (0, { sh with classes := .reindex ArkshClassDef.name (sh.classes.slots ++ [candidate]) })
    else (1, sh)

def appendInstance (sh : Registry Fn) (className : Text) (fields : ArkshValue) :
    Nat × Registry Fn :=
  if sh.instances.slots.length < arkshMaxInstances then
    let entry : ArkshClassInstance := ⟨sh.nextInstanceId, copyString arkshMaxName className, fields⟩
    (0, { sh with
      instances := .reindex ArkshClassInstance.id (sh.instances.slots ++ [entry])
      nextInstanceId := sh.nextInstanceId + 1 })
  else (1, sh)

def rollbackLastInstance (sh : Registry Fn) : Nat × Registry Fn :=
  if sh.instances.slots = [] then (1, sh)
  else
    (0, { sh with
      instances := .reindex ArkshClassInstance.id sh.instances.slots.dropLast })

inductive RegistryCall (Fn : Type) where
  | command (name description : Text) (fn : Option Fn) (isPlugin : Bool)
  | builtin (name description : Text) (fn : Option Fn) (kind : ArkshBuiltinKind)
  | valueResolver (name : Text) (description : Option Text) (fn : Option Fn) (isPlugin : Bool)
  | pipelineStage (name : Text) (description : Option Text) (fn : Option Fn) (isPlugin : Bool)
  | blockExtension (target name : Text) (memberKind : ArkshMemberKind) (block : ArkshBlock)
  | nativeExtension (target name : Text) (memberKind : ArkshMemberKind) (fn : Option Fn)
      (isPlugin : Bool)
  | storeClass (candidate : ArkshClassDef)
  | appendInstance (className : Text) (fields : ArkshValue)
  | rollbackLastInstance
  /-- A plugin is loaded, enabled or disabled, or begins to register. -/
  | setPlugins (plugins : List ArkshLoadedPlugin) (loadingPluginIndex : Int)

def RegistryCall.run (sh : Registry Fn) : RegistryCall Fn → Nat × Registry Fn
  | .command name description fn isPlugin =>
    arkshShellRegisterCommand sh name description fn isPlugin
  | .builtin name description fn kind => registerBuiltin sh name description fn kind
  | .valueResolver name description fn isPlugin =>
    arkshShellRegisterValueResolver sh name description fn isPlugin
  | .pipelineStage name description fn isPlugin =>
    arkshShellRegisterPipelineStage sh name description fn isPlugin
  | .blockExtension target name memberKind block =>
    arkshShellRegisterBlockExtension sh target name memberKind block
  | .nativeExtension target name memberKind fn isPlugin =>
    arkshShellRegisterNativeExtension sh target name memberKind fn isPlugin
  | .storeClass candidate => Arksh.storeClass sh candidate
  | .appendInstance className fields => Arksh.appendInstance sh className fields
  | .rollbackLastInstance => Arksh.rollbackLastInstance sh
  | .setPlugins plugins loadingPluginIndex => (0, { sh with plugins, loadingPluginIndex })

/-! ## 4. What was registered last -/

/-- The last registration under each name. -/
structure RegistryLog (Fn : Type) where
  commands : Text → Option (ArkshCommandDef Fn)
  valueResolvers : Text → Option (ArkshValueResolverDef Fn)
  pipelineStages : Text → Option (ArkshPipelineStageDef Fn)
  extensions : ArkshMemberKind × Text × Text → Option (ArkshObjectExtension Fn)
  classes : Text → Option ArkshClassDef
  /-- The instances that were not rolled back. -/
  instances : List ArkshClassInstance

/-- What a call that succeeds puts down. -/
def RegistryLog.record (sh : Registry Fn) (log : RegistryLog Fn) :
    RegistryCall Fn → RegistryLog Fn
  | .command _ _ none _ => log
  | .command name description (some fn) isPlugin =>
    let entry := newCommand sh name description fn isPlugin
    { log with commands := Function.update log.commands name (some entry) }
  | .builtin _ _ none _ => log
  | .builtin name description (some fn) kind =>
    let entry := { newCommand sh name description fn false with fn := (fn, kind) }
    { log with commands := Function.update log.commands name (some entry) }
  | .valueResolver _ _ none _ => log
  | .valueResolver name description (some fn) isPlugin =>
    let entry := (log.valueResolvers name).elim (newEntry sh name description fn isPlugin)
      (.again sh description (fun _ => fn) isPlugin)
    { log with valueResolvers := Function.update log.valueResolvers name (some entry) }
  | .pipelineStage name description fn isPlugin =>
    let entry := (log.pipelineStages name).elim (newEntry sh name description fn isPlugin)
      (.again sh description (fun old => fn.or old) isPlugin)
    { log with pipelineStages := Function.update log.pipelineStages name (some entry) }
  | .blockExtension target name memberKind block =>
    let entry := newExtension sh target name memberKind (.block block) false
    { log with extensions := Function.update log.extensions (memberKind, target, name) (some entry) }
  | .nativeExtension _ _ _ none _ => log
  | .nativeExtension target name memberKind (some fn) isPlugin =>
    let entry := newExtension sh target name memberKind (.native fn) isPlugin
    { log with extensions := Function.update log.extensions (memberKind, target, name) (some entry) }
  | .storeClass candidate =>
    { log with classes := Function.update log.classes candidate.name (some candidate) }
  | .appendInstance className fields =>
    let entry : ArkshClassInstance := ⟨sh.nextInstanceId, copyString arkshMaxName className, fields⟩
    { log with instances := log.instances ++ [entry] }
  | .rollbackLastInstance => { log with instances := log.instances.dropLast }
  | .setPlugins _ _ => log

/-- The calls that a shell with this log accepts. A command is never registered again. -/
def RegistryCall.Admitted (sh : Registry Fn) (log : RegistryLog Fn) : RegistryCall Fn → Prop
  | .command name _ fn _ | .builtin name _ fn _ =>
    fn ≠ none ∧ sh.commands.slots.length < arkshMaxCommands ∧ log.commands name = none
  | .valueResolver name _ fn _ =>
    fn ≠ none ∧ isValidIdentifier name = true ∧
      (log.valueResolvers name ≠ none ∨ sh.valueResolvers.slots.length < arkshMaxValueResolvers)
  | .pipelineStage name _ _ _ =>
    isValidIdentifier name = true ∧ (log.pipelineStages name ≠ none ∨
      sh.pipelineStages.slots.length < arkshMaxPipelineStageHandlers)
  | .blockExtension target name memberKind _ =>
    isValidIdentifier name = true ∧ (log.extensions (memberKind, target, name) ≠ none ∨
      sh.extensions.length < arkshMaxExtensions)
  | .nativeExtension target name memberKind fn _ =>
    fn ≠ none ∧ isValidIdentifier name = true ∧
      (log.extensions (memberKind, target, name) ≠ none ∨ sh.extensions.length < arkshMaxExtensions)
  | .storeClass candidate =>
    log.classes candidate.name ≠ none ∨ sh.classes.slots.length < arkshMaxClassDefs
  | .appendInstance _ _ => sh.instances.slots.length < arkshMaxInstances
  | .rollbackLastInstance => log.instances ≠ []
  | .setPlugins _ _ => True

def RegistryCall.Fits : RegistryCall Fn → Prop
  | .command name _ _ _ => name.length < arkshMaxCommandName
  | .builtin name _ _ _ => name.length < arkshMaxCommandName
  | .valueResolver name _ _ _ => name.length < arkshMaxName
  | .pipelineStage name _ _ _ => name.length < arkshMaxName
  | .blockExtension target name _ _ => target.length < arkshMaxName ∧ name.length < arkshMaxName
  | .nativeExtension target name _ _ _ =>
    target.length < arkshMaxName ∧ name.length < arkshMaxName
  | .storeClass _ => True
  | .appendInstance _ _ => True
  | .rollbackLastInstance => True
  | .setPlugins _ _ => True

def Registry.empty : Registry Fn where
  commands := .empty
  valueResolvers := .empty
  pipelineStages := .empty
  extensions := []
  classes := .empty
  instances := .empty
  nextInstanceId := 1
  plugins := []
  loadingPluginIndex := -1

def RegistryLog.empty : RegistryLog Fn :=
  ⟨fun _ => none, fun _ => none, fun _ => none, fun _ => none, fun _ => none, []⟩

inductive FittingRegistrations : Registry Fn → RegistryLog Fn → Prop where
  | start : FittingRegistrations .empty .empty
  | call (sh : Registry Fn) (log : RegistryLog Fn) (c : RegistryCall Fn)
      (h : FittingRegistrations sh log) (hfits : c.Fits) :
      FittingRegistrations (c.run sh).2 (if (c.run sh).1 = 0 then log.record sh c else log)

structure HoldsLog (sh : Registry Fn) (log : RegistryLog Fn) : Prop where
  commands : sh.commands.Represents RegistryEntry.name log.commands
  valueResolvers : sh.valueResolvers.Represents RegistryEntry.name log.valueResolvers
  pipelineStages : sh.pipelineStages.Represents RegistryEntry.name log.pipelineStages
  extensions : Tables.Holds ArkshObjectExtension.key sh.extensions log.extensions
  classes : sh.classes.Represents ArkshClassDef.name log.classes
  instances : sh.instances.slots = log.instances
  instanceIndex : sh.instances.Sound ArkshClassInstance.id
  idsDistinct : (log.instances.map ArkshClassInstance.id).Nodup
  idsBelow : ∀ e ∈ log.instances, e.id < sh.nextInstanceId

section HoldsLog

variable {sh : Registry Fn} {log : RegistryLog Fn} {name target description : Text} {fn : Option Fn}
  {isPlugin : Bool} {kind : ArkshBuiltinKind} {desc : Option Text} {memberKind : ArkshMemberKind}
  {impl : ExtensionImpl Fn} {p : Prop} {r : Nat × β}

theorem holdsLog_empty : HoldsLog (Registry.empty : Registry Fn) RegistryLog.empty where
  commands := IndexedTable.represents_empty
  valueResolvers := IndexedTable.represents_empty
  pipelineStages := IndexedTable.represents_empty
  extensions := holds_nil
  classes := IndexedTable.represents_empty
  instances := rfl
  instanceIndex := ⟨List.Perm.refl _, List.Pairwise.nil⟩
  idsDistinct := nodup_nil
  idsBelow := fun _ h => absurd h not_mem_nil

theorem any_name_iff {slots : List (RegistryEntry F)} :
    slots.any (fun e => e.name = name) = true ↔ name ∈ slots.map RegistryEntry.name := by
  simp only [any_eq_true, decide_eq_true_eq, mem_map]

theorem newCommand_name {fn : Fn} {isPlugin : Bool} (h : name.length < arkshMaxCommandName) :
    (newCommand sh name description fn isPlugin).name = name := copyString_of_lt h

theorem registerCommand_cases (sh : Registry Fn) (name description : Text) (fn : Option Fn)
    (isPlugin : Bool) :
    arkshShellRegisterCommand sh name description fn isPlugin = (1, sh) ∨
    ∃ f, fn = some f ∧ name ∉ sh.commands.slots.map RegistryEntry.name ∧
      arkshShellRegisterCommand sh name description fn isPlugin =
        (0, { sh with
          commands := .reindex RegistryEntry.name
            (sh.commands.slots ++ [newCommand sh name description f isPlugin]) }) := by
  unfold arkshShellRegisterCommand
  cases fn with
  | none => exact Or.inl rfl
  | some f =>
    dsimp only
    split
    · exact Or.inl rfl
    · split
      · exact Or.inl rfl
      · rename_i hnew; exact Or.inr ⟨f, rfl, fun h => hnew (any_name_iff.mpr h), rfl⟩

theorem registerNamed_cases (cap : Nat) (table : IndexedTable (RegistryEntry F)) (name : Text)
    (update : RegistryEntry F → RegistryEntry F) (fresh : RegistryEntry F) :
    registerNamed cap table name update fresh = (1, table) ∨
    registerNamed cap table name update fresh = (0, .reindex RegistryEntry.name
        (putSlot RegistryEntry.name name update fresh table.slots)) := by
  unfold registerNamed
  split
  · exact Or.inr rfl
  · exact Or.inl rfl

theorem represents_registerNamed {cap : Nat} {table : IndexedTable (RegistryEntry F)}
    {f : Text → Option (RegistryEntry F)} {update : RegistryEntry F → RegistryEntry F}
    {fresh : RegistryEntry F} (h : table.Represents RegistryEntry.name f)
    (hfresh : fresh.name = name) (hupdate : ∀ e, e.name = name → (update e).name = name) :
    (registerNamed cap table name update fresh).2.Represents RegistryEntry.name
      (if (registerNamed cap table name update fresh).1 = 0 then
        Function.update f name (some ((f name).elim fresh update)) else f) := by
  rcases registerNamed_cases cap table name update fresh with hr | hr
  · rw [hr]; exact h
  · rw [hr]; exact IndexedTable.represents_reindex (h.holds.put hfresh hupdate)

theorem holdsLog_command (h : HoldsLog sh log) (hfits : name.length < arkshMaxCommandName) :
    let c := RegistryCall.command name description fn isPlugin
    HoldsLog (c.run sh).2 (if (c.run sh).1 = 0 then log.record sh c else log) := by
  intro c
  show HoldsLog (arkshShellRegisterCommand sh name description fn isPlugin).2
    (if (arkshShellRegisterCommand sh name description fn isPlugin).1 = 0 then _ else _)
  rcases registerCommand_cases sh name description fn isPlugin with hr | ⟨f, rfl, hnew, hr⟩
  · rw [hr]; exact h
  · rw [hr]
    have hname := @newCommand_name Fn sh name description f isPlugin hfits
    have happend := h.commands.holds.append (newCommand sh name description f isPlugin)
      (by rw [hname]; exact hnew)
    rw [hname] at happend
    exact { h with commands := IndexedTable.represents_reindex happend }

theorem setLastKind_append {slots : List (ArkshCommandDef Fn)} {e : ArkshCommandDef Fn} :
    setLastKind kind (slots ++ [e]) = slots ++ [{ e with fn := (e.fn.1, kind) }] := by
  unfold setLastKind
  rw [modifyLast_concat]

theorem registerBuiltin_cases (sh : Registry Fn) (name description : Text) (fn : Option Fn)
    (kind : ArkshBuiltinKind) :
    registerBuiltin sh name description fn kind = (1, sh) ∨
    ∃ f, fn = some f ∧ name ∉ sh.commands.slots.map RegistryEntry.name ∧
      registerBuiltin sh name description fn kind =
        (0, { sh with
          commands := .reindex RegistryEntry.name (sh.commands.slots ++
            [{ newCommand sh name description f false with fn := (f, kind) }]) }) := by
  unfold registerBuiltin
  rcases registerCommand_cases sh name description fn false with hr | ⟨f, hf, hnew, hr⟩
  · left
    rw [hr]
    rfl
  · right
    refine ⟨f, hf, hnew, ?_⟩
    have hkeys : (sh.commands.slots ++ [newCommand sh name description f false]).map
        RegistryEntry.name = (sh.commands.slots ++
          [{ newCommand sh name description f false with fn := (f, kind) }]).map
        RegistryEntry.name := by
      rw [map_append, map_append]
      rfl
    rw [hr]
    simp only [if_true, IndexedTable.reindex, setLastKind_append]
    rw [slotKey_congr hkeys, length_append, length_append]
    rfl

theorem holdsLog_builtin (h : HoldsLog sh log) (hfits : name.length < arkshMaxCommandName) :
    let c := RegistryCall.builtin name description fn kind
    HoldsLog (c.run sh).2 (if (c.run sh).1 = 0 then log.record sh c else log) := by
  intro c
  show HoldsLog (registerBuiltin sh name description fn kind).2
    (if (registerBuiltin sh name description fn kind).1 = 0 then _ else _)
  rcases registerBuiltin_cases sh name description fn kind with hr | ⟨f, rfl, hnew, hr⟩
  · rw [hr]; exact h
  · rw [hr]
    let entry : ArkshCommandDef Fn := { newCommand sh name description f false with fn := (f, kind) }
    have hname : entry.name = name := @newCommand_name Fn sh name description f false hfits
    have happend := h.commands.holds.append entry (by rw [hname]; exact hnew)
    rw [hname] at happend
    exact { h with commands := IndexedTable.represents_reindex happend }

theorem holdsLog_valueResolver (h : HoldsLog sh log) (hfits : name.length < arkshMaxName) :
    let c := RegistryCall.valueResolver name desc fn isPlugin
    HoldsLog (c.run sh).2 (if (c.run sh).1 = 0 then log.record sh c else log) := by
  intro c
  show HoldsLog (arkshShellRegisterValueResolver sh name desc fn isPlugin).2
    (if (arkshShellRegisterValueResolver sh name desc fn isPlugin).1 = 0 then _ else _)
  unfold arkshShellRegisterValueResolver
  cases fn with
  | none => exact h
  | some f =>
    dsimp only
    split
    · exact h
    · have hrep := @represents_registerNamed _ name arkshMaxValueResolvers sh.valueResolvers
        log.valueResolvers (.again sh desc (fun _ => f) isPlugin) (newEntry sh name desc f isPlugin)
        h.valueResolvers (copyString_of_lt hfits) fun _ he => he
      split
      · rename_i hstatus
        rw [if_pos hstatus] at hrep
        exact { h with valueResolvers := hrep }
      · rename_i hstatus
        rw [if_neg hstatus] at hrep
        exact { h with valueResolvers := hrep }

theorem holdsLog_pipelineStage (h : HoldsLog sh log) (hfits : name.length < arkshMaxName) :
    let c := RegistryCall.pipelineStage name desc fn isPlugin
    HoldsLog (c.run sh).2 (if (c.run sh).1 = 0 then log.record sh c else log) := by
  intro c
  show HoldsLog (arkshShellRegisterPipelineStage sh name desc fn isPlugin).2
    (if (arkshShellRegisterPipelineStage sh name desc fn isPlugin).1 = 0 then _ else _)
  unfold arkshShellRegisterPipelineStage
  split
  · exact h
  · have hrep := @represents_registerNamed _ name arkshMaxPipelineStageHandlers sh.pipelineStages
      log.pipelineStages (.again sh desc (fun old => fn.or old) isPlugin)
      (newEntry sh name desc fn isPlugin) h.pipelineStages (copyString_of_lt hfits) fun _ he => he
    split
    · rename_i hstatus
      rw [if_pos hstatus] at hrep
      exact { h with pipelineStages := hrep }
    · rename_i hstatus
      rw [if_neg hstatus] at hrep
      exact { h with pipelineStages := hrep }

theorem holds_extension (h : Tables.Holds ArkshObjectExtension.key sh.extensions log.extensions)
    (hfits : target.length < arkshMaxName ∧ name.length < arkshMaxName) :
    let entry := newExtension sh target name memberKind impl isPlugin
    Tables.Holds ArkshObjectExtension.key
      (putSlot ArkshObjectExtension.key (memberKind, target, name) (fun _ => entry) entry
        sh.extensions)
      (Function.update log.extensions (memberKind, target, name) (some entry)) := by
  intro entry
  have hkey : entry.key = (memberKind, target, name) := by
    show (memberKind, copyString arkshMaxName target, copyString arkshMaxName name) = _
    rw [copyString_of_lt hfits.1, copyString_of_lt hfits.2]
  have hput := h.put hkey fun e _ => hkey
  have hsame : (log.extensions (memberKind, target, name)).elim entry (fun _ => entry) = entry := by
    cases log.extensions (memberKind, target, name) with
    | none | some e => rfl
  rw [hsame] at hput
  exact hput

theorem holdsLog_extension (h : HoldsLog sh log)
    (hfits : target.length < arkshMaxName ∧ name.length < arkshMaxName) :
    let entry := newExtension sh target name memberKind impl isPlugin
    let r := registerExtensionCommon sh target name memberKind impl isPlugin
    HoldsLog r.2 (if r.1 = 0 then
      { log with extensions := Function.update log.extensions (memberKind, target, name) (some entry) }
      else log) := by
  intro entry r
  have hr : r = registerExtensionCommon sh target name memberKind impl isPlugin := rfl
  unfold registerExtensionCommon at hr
  split at hr
  · rw [hr]; exact h
  · split at hr
    · rw [hr]; exact { h with extensions := holds_extension h.extensions hfits }
    · rw [hr]; exact h

theorem storeClass_cases {f : Text → Option ArkshClassDef}
    (h : IndexedTable.Represents ArkshClassDef.name sh.classes f) (candidate : ArkshClassDef) :
    (∃ classes, storeClass sh candidate = (0, { sh with classes }) ∧
      IndexedTable.Represents ArkshClassDef.name classes
        (Function.update f candidate.name (some candidate)) ∧
      (sh.classes.slots.length ≤ arkshMaxClassDefs → classes.slots.length ≤ arkshMaxClassDefs)) ∨
    (storeClass sh candidate = (1, sh) ∧ f candidate.name = none) := by
  unfold storeClass
  split
  · rename_i slot hslot
    obtain ⟨hlt, hkey⟩ := IndexedTable.slotOf_eq_some h hslot
    have hput := @Tables.Holds.put _ _ _ _ _ _ candidate.name (fun _ => candidate) candidate
      h.holds rfl fun _ _ => rfl
    have hsame : (f candidate.name).elim candidate (fun _ => candidate) = candidate := by
      cases f candidate.name with
      | none | some e => rfl
    rw [hsame, putSlot_of_getElem h.holds.distinct hlt hkey] at hput
    refine Or.inl ⟨_, rfl, IndexedTable.represents_reindex hput, ?_⟩
    intro hroom
    show (sh.classes.slots.set slot candidate).length ≤ arkshMaxClassDefs
    rw [length_set]
    exact hroom
  · rename_i hslot
    have hnone := IndexedTable.slotOf_eq_none h hslot
    split
    · rename_i hroom
      have happend := h.holds.append candidate hnone
      refine Or.inl ⟨_, rfl, IndexedTable.represents_reindex happend, ?_⟩
      intro _
      show (sh.classes.slots ++ [candidate]).length ≤ arkshMaxClassDefs
      rw [length_append]
      exact hroom
    · exact Or.inr ⟨rfl, h.holds.eq_none_iff.mpr hnone⟩

section

variable (h : HoldsLog sh log)
include h

theorem holdsLog_storeClass {candidate : ArkshClassDef} : let r := storeClass sh candidate
    HoldsLog r.2 (if r.1 = 0 then
      { log with classes := Function.update log.classes candidate.name (some candidate) }
      else log) := by
  intro r
  have hr : r = storeClass sh candidate := rfl
  rcases storeClass_cases h.classes candidate with ⟨classes, hstore, hclasses, _⟩ | ⟨hstore, _⟩
  · rw [hr, hstore]; exact { h with classes := hclasses }
  · rw [hr, hstore]; exact h

theorem holdsLog_appendInstance {className : Text} {fields : ArkshValue} :
    let c := (RegistryCall.appendInstance className fields : RegistryCall Fn)
    HoldsLog (c.run sh).2 (if (c.run sh).1 = 0 then log.record sh c else log) := by
  intro c
  have hr : c.run sh = appendInstance sh className fields := rfl
  unfold appendInstance at hr
  split at hr
  · rw [hr]
    let entry : ArkshClassInstance := ⟨sh.nextInstanceId, copyString arkshMaxName className, fields⟩
    have hnew : sh.nextInstanceId ∉ log.instances.map ArkshClassInstance.id := by
      intro hmem
      obtain ⟨e, he, hid⟩ := mem_map.mp hmem
      have hlt := h.idsBelow e he
      omega
    exact { h with
      instances := by
        show sh.instances.slots ++ [entry] = log.instances ++ [entry]
        rw [h.instances]
      instanceIndex := IndexedTable.reindex_sound _ _
      idsDistinct := by
        show ((log.instances ++ [entry]).map ArkshClassInstance.id).Nodup
        rw [map_append, map_singleton]
        have hconcat := List.Nodup.concat hnew h.idsDistinct
        rwa [concat_eq_append] at hconcat
      idsBelow := by
        intro e he
        show e.id < sh.nextInstanceId + 1
        rcases mem_append.mp he with he | he
        · have hlt := h.idsBelow e he; omega
        · rw [mem_singleton.mp he]; exact Int.lt_succ sh.nextInstanceId }
  · rw [hr]; exact h

theorem holdsLog_rollbackLastInstance :
    let c := (RegistryCall.rollbackLastInstance : RegistryCall Fn)
    HoldsLog (c.run sh).2 (if (c.run sh).1 = 0 then log.record sh c else log) := by
  intro c
  have hr : c.run sh = rollbackLastInstance sh := rfl
  unfold rollbackLastInstance at hr
  split at hr
  · rw [hr]; exact h
  · rw [hr]
    have hsub : log.instances.dropLast.Sublist log.instances := dropLast_sublist _
    exact { h with
      instances := by
        show sh.instances.slots.dropLast = log.instances.dropLast
        rw [h.instances]
      instanceIndex := IndexedTable.reindex_sound _ _
      idsDistinct := h.idsDistinct.sublist (hsub.map ArkshClassInstance.id)
      idsBelow := fun e he => h.idsBelow e (hsub.subset he) }

/-- **What one call keeps.** -/
theorem holdsLog_call {c : RegistryCall Fn} (hfits : c.Fits) :
    HoldsLog (c.run sh).2 (if (c.run sh).1 = 0 then log.record sh c else log) := by
  cases c with
  | command name description fn isPlugin => exact holdsLog_command h hfits
  | builtin name description fn kind => exact holdsLog_builtin h hfits
  | valueResolver name description fn isPlugin => exact holdsLog_valueResolver h hfits
  | pipelineStage name description fn isPlugin => exact holdsLog_pipelineStage h hfits
  | blockExtension target name memberKind block => exact holdsLog_extension h hfits
  | nativeExtension target name memberKind fn isPlugin =>
    cases fn with
    | none => exact h
    | some fn => exact holdsLog_extension h hfits
  | storeClass candidate => exact holdsLog_storeClass h
  | appendInstance className fields => exact holdsLog_appendInstance h
  | rollbackLastInstance => exact holdsLog_rollbackLastInstance h
  | setPlugins plugins loadingPluginIndex => exact { h with commands := h.commands }

end

theorem FittingRegistrations.holdsLog (h : FittingRegistrations sh log) : HoldsLog sh log := by
  induction h with
  | start => exact holdsLog_empty
  | call sh log c _ hfits ih => exact holdsLog_call ih hfits

theorem accepted_iff [Decidable p] {done : β} (hr : r.1 ≠ 0) :
    (if p then (0, done) else r).1 = 0 ↔ p := by
  split
  · exact iff_of_true rfl ‹p›
  · exact iff_of_false hr ‹¬ p›

theorem unless_refused_iff [Decidable p] {kept : β} :
    (if p then (1, kept) else r).1 = 0 ↔ ¬ p ∧ r.1 = 0 := by
  split
  · exact iff_of_false one_ne_zero fun h => h.1 ‹p›
  · exact (and_iff_right ‹¬ p›).symm

theorem registerCommand_accepts (h : HoldsLog sh log) (fn : Option Fn) (isPlugin : Bool) :
    (arkshShellRegisterCommand sh name description fn isPlugin).1 = 0 ↔
      fn ≠ none ∧ sh.commands.slots.length < arkshMaxCommands ∧ log.commands name = none := by
  rw [h.commands.holds.eq_none_iff, ← any_name_iff, ← not_le]
  cases fn with
  | none => exact iff_of_false one_ne_zero fun h => h.1 rfl
  | some f =>
    rw [and_iff_right (Option.some_ne_none f)]
    exact unless_refused_iff.trans (and_congr_right fun _ =>
      unless_refused_iff.trans (and_iff_left rfl))

theorem registerBuiltin_accepts (fn : Option Fn) (kind : ArkshBuiltinKind) :
    (registerBuiltin sh name description fn kind).1 = 0 ↔
      (arkshShellRegisterCommand sh name description fn false).1 = 0 := by
  by_cases hstatus : (arkshShellRegisterCommand sh name description fn false).1 = 0
  · rw [registerBuiltin, if_pos hstatus]; exact iff_of_true rfl hstatus
  · rw [registerBuiltin, if_neg hstatus]

theorem registerNamed_accepts {cap : Nat} {table : IndexedTable (RegistryEntry F)}
    {f : Text → Option (RegistryEntry F)} (h : table.Represents RegistryEntry.name f)
    (update : RegistryEntry F → RegistryEntry F) (fresh : RegistryEntry F) :
    (registerNamed cap table name update fresh).1 = 0 ↔ f name ≠ none ∨ table.slots.length < cap := by
  rw [ne_eq, h.holds.eq_none_iff, not_not, ← any_name_iff]
  exact accepted_iff one_ne_zero

theorem registerExtension_accepts (h : HoldsLog sh log) (memberKind : ArkshMemberKind)
    (impl : ExtensionImpl Fn) (isPlugin : Bool) :
    (registerExtensionCommon sh target name memberKind impl isPlugin).1 = 0 ↔
      isValidIdentifier name = true ∧ (log.extensions (memberKind, target, name) ≠ none ∨
        sh.extensions.length < arkshMaxExtensions) := by
  have hentry : findExtensionEntry sh target memberKind name =
      log.extensions (memberKind, target, name) := h.extensions.entry (memberKind, target, name)
  rw [← hentry, ← Option.isSome_iff_ne_none]
  exact unless_refused_iff.trans (and_congr not_not (accepted_iff one_ne_zero))

theorem storeClass_accepts (h : HoldsLog sh log) (candidate : ArkshClassDef) :
    (storeClass sh candidate).1 = 0 ↔
      log.classes candidate.name ≠ none ∨ sh.classes.slots.length < arkshMaxClassDefs := by
  rw [ne_eq, h.classes.holds.eq_none_iff, not_not]
  unfold storeClass
  split
  · rename_i slot hslot
    obtain ⟨hlt, hkey⟩ := IndexedTable.slotOf_eq_some h.classes hslot
    exact iff_of_true rfl (.inl (mem_map.mpr ⟨_, getElem_mem hlt, hkey⟩))
  · rename_i hslot
    rw [or_iff_right (IndexedTable.slotOf_eq_none h.classes hslot)]
    exact accepted_iff one_ne_zero

/-- **A call is accepted exactly where it is admitted.** -/
theorem HoldsLog.accepts (h : HoldsLog sh log) (c : RegistryCall Fn) :
    (c.run sh).1 = 0 ↔ c.Admitted sh log := by
  cases c with
  | command name description fn isPlugin => exact registerCommand_accepts h fn isPlugin
  | builtin name description fn kind =>
    exact (registerBuiltin_accepts fn kind).trans (registerCommand_accepts h fn false)
  | valueResolver name description fn isPlugin =>
    cases fn with
    | none => exact iff_of_false one_ne_zero fun h => h.1 rfl
    | some fn =>
      refine Iff.trans ?_ (and_iff_right (Option.some_ne_none fn)).symm
      exact unless_refused_iff.trans (and_congr not_not (registerNamed_accepts h.valueResolvers _ _))
  | pipelineStage name description fn isPlugin =>
    exact unless_refused_iff.trans (and_congr not_not (registerNamed_accepts h.pipelineStages _ _))
  | blockExtension target name memberKind block => exact registerExtension_accepts h _ _ _
  | nativeExtension target name memberKind fn isPlugin =>
    cases fn with
    | none => exact iff_of_false one_ne_zero fun h => h.1 rfl
    | some fn =>
      exact (registerExtension_accepts h _ _ _).trans (and_iff_right (Option.some_ne_none fn)).symm
  | storeClass candidate => exact storeClass_accepts h candidate
  | appendInstance className fields => exact accepted_iff one_ne_zero
  | rollbackLastInstance =>
    show (rollbackLastInstance sh).1 = 0 ↔ log.instances ≠ []
    rw [← h.instances]
    exact unless_refused_iff.trans (and_iff_left rfl)
  | setPlugins plugins loadingPluginIndex => exact iff_of_true rfl trivial

end HoldsLog

/-- The indexes are permutations of the slots, sorted by name or id, a lookup gives what was
    registered last under the name, if its owner is enabled, and what is admitted is registered. -/
structure RegistryLaw (sh : Registry Fn) (log : RegistryLog Fn) : Prop where
  commandIndex : sh.commands.Sound RegistryEntry.name
  valueResolverIndex : sh.valueResolvers.Sound RegistryEntry.name
  pipelineStageIndex : sh.pipelineStages.Sound RegistryEntry.name
  classIndex : sh.classes.Sound ArkshClassDef.name
  instanceIndex : sh.instances.Sound ArkshClassInstance.id
  findCommand : ∀ name, (∀ e, log.commands name = some e → e.owner.visible sh = true) →
    arkshShellFindCommand sh name = log.commands name
  findValueResolver : ∀ name, (∀ e, log.valueResolvers name = some e → e.owner.visible sh = true) →
    arkshShellFindValueResolver sh name = log.valueResolvers name
  findPipelineStage : ∀ name, (∀ e, log.pipelineStages name = some e → e.owner.visible sh = true) →
    arkshShellFindPipelineStage sh name = log.pipelineStages name
  findExtension : ∀ target memberKind name,
    findExtensionEntry sh target memberKind name = log.extensions (memberKind, target, name)
  findClass : ∀ name, findClassEntry sh name = log.classes name
  findInstance : ∀ id, 0 < id →
    findInstanceEntry sh id = log.instances.find? fun e => e.id = id
  accepts : ∀ c : RegistryCall Fn, (c.run sh).1 = 0 ↔ c.Admitted sh log

theorem findRegistered_of_represents {table : IndexedTable (RegistryEntry F)}
    {f : Text → Option (RegistryEntry F)} (h : table.Represents RegistryEntry.name f) (name : Text) :
    findRegistered sh table name = (f name).filter fun e => e.owner.visible sh := by
  unfold findRegistered
  rw [IndexedTable.find_of_represents h]

theorem filter_visible {e : Option (RegistryEntry F)}
    (h : ∀ e', e = some e' → e'.owner.visible sh = true) :
    (e.filter fun e => e.owner.visible sh) = e := by
  cases e with
  | none => rfl
  | some e => exact Option.filter_some_pos (h e rfl)

/-- **Registry lookups**: in every run of registrations whose names fit, the indexes are sound, and
    a lookup gives what was registered last. -/
theorem registryLaw_run {sh : Registry Fn} {log : RegistryLog Fn}
    (h : FittingRegistrations sh log) : RegistryLaw sh log := by
  have hlog := h.holdsLog
  exact {
    commandIndex := hlog.commands.sound
    valueResolverIndex := hlog.valueResolvers.sound
    pipelineStageIndex := hlog.pipelineStages.sound
    classIndex := hlog.classes.sound
    instanceIndex := hlog.instanceIndex
    accepts := hlog.accepts
    findCommand := by
      intro name hvisible
      unfold arkshShellFindCommand
      rw [findRegistered_of_represents hlog.commands, filter_visible hvisible]
    findValueResolver := by
      intro name hvisible
      unfold arkshShellFindValueResolver
      rw [findRegistered_of_represents hlog.valueResolvers, filter_visible hvisible]
    findPipelineStage := by
      intro name hvisible
      unfold arkshShellFindPipelineStage
      rw [findRegistered_of_represents hlog.pipelineStages, filter_visible hvisible]
    findExtension := by
      intro target memberKind name
      exact hlog.extensions.entry (memberKind, target, name)
    findClass := by
      intro name
      exact IndexedTable.find_of_represents hlog.classes name
    findInstance := by
      intro id hid
      have hdistinct : (sh.instances.slots.map ArkshClassInstance.id).Nodup := by
        rw [hlog.instances]
        exact hlog.idsDistinct
      unfold findInstanceEntry
      rw [if_neg (by omega), IndexedTable.find_eq hlog.instanceIndex hdistinct, hlog.instances] }

/-- A call, with what is recorded of it. -/
def RegistryCall.step (s : Registry Fn × RegistryLog Fn) (c : RegistryCall Fn) :
    Registry Fn × RegistryLog Fn :=
  ((c.run s.1).2, if (c.run s.1).1 = 0 then s.2.record s.1 c else s.2)

theorem FittingRegistrations.calls {s : Registry Fn × RegistryLog Fn}
    (h : FittingRegistrations s.1 s.2) (calls : List (RegistryCall Fn)) (hfits : ∀ c ∈ calls, c.Fits) :
    FittingRegistrations (calls.foldl RegistryCall.step s).1 (calls.foldl RegistryCall.step s).2 := by
  induction calls generalizing s with
  | nil => exact h
  | cons c calls ih =>
    obtain ⟨hc, hcalls⟩ := forall_mem_cons.mp hfits
    exact ih (.call s.1 s.2 c h hc) hcalls

/-- One call of each kind, and a command and a value resolver that are there. -/
def everyKind : List (RegistryCall Unit) :=
  [.builtin "ls".toList [] (some ()) .pure, .command "ls".toList [] (some ()) true,
    .valueResolver "map".toList none (some ()) false, .pipelineStage "where".toList none none false,
    .nativeExtension "string".toList "length".toList .property (some ()) false,
    .storeClass ⟨"Point".toList, [], [], [], []⟩, .appendInstance "Point".toList arkshValueSetMap,
    .valueResolver "map".toList (some "typed map".toList) (some ()) false]

theorem registryLaw_run_everyKind :
    let s := everyKind.foldl RegistryCall.step (.empty, .empty)
    RegistryLaw s.1 s.2 ∧ (s.2.commands "ls".toList).map RegistryEntry.owner = some ⟨false, -1⟩ ∧
      (s.2.valueResolvers "map".toList).map RegistryEntry.description = some "typed map".toList ∧
      (s.2.pipelineStages "where".toList).isSome ∧
      (s.2.extensions (.property, "string".toList, "length".toList)).isSome ∧
      (s.2.classes "Point".toList).isSome ∧ s.2.instances.map ArkshClassInstance.id = [1] := by
  intro s
  have hfits : ∀ c ∈ everyKind, c.Fits := by
    have hlt : ∀ text ∈ ["ls".toList, "map".toList, "where".toList, "string".toList,
        "length".toList], text.length < arkshMaxName ∧ text.length < arkshMaxCommandName := by decide
    simp only [everyKind, forall_mem_cons]
    exact ⟨(hlt _ (by decide)).2, (hlt _ (by decide)).2, (hlt _ (by decide)).1,
      (hlt _ (by decide)).1, ⟨(hlt _ (by decide)).1, (hlt _ (by decide)).1⟩, trivial, trivial,
      (hlt _ (by decide)).1, by simp⟩
  have hlaw := registryLaw_run
    (@FittingRegistrations.calls Unit (.empty, .empty) .start everyKind hfits)
  exact ⟨hlaw, by decide, by decide, by decide, by decide, by decide, by decide⟩

end Arksh
