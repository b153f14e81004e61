/-
  Subject: Class definitions, and the lookups through the bases of a class.

  A `class` command checks its bases, then evaluates the expressions of its members one after the
  other, and then puts the class into the table. An expression can run commands of the same
  shell, so that further classes can be defined between the check and the end.
-/
import Arksh.Lib.Hierarchy
import Arksh.Object.Store
import Arksh.Shell.Line
import Arksh.Shell.Registry

namespace Arksh

open CText Tables Assoc Hierarchy Relation List

variable {Fn : Type} {sh : Registry Fn}

/-! ## 1. Lookups -/

def classDepths : Nat := arkshMaxClassDefs + 1

def findPropertyInClass (name : Text) (classDef : ArkshClassDef) : Option ArkshValue :=
  classDef.properties.lookup name

def findMethodInClass (name : Text) (classDef : ArkshClassDef) : Option ArkshBlock :=
  classDef.methods.lookup name

def lookupPropertyRecursive (sh : Registry Fn) (name : Text) (depths : Nat) (className : Text) :
    Option ArkshValue :=
  firstHit (findClassEntry sh) ArkshClassDef.bases (findPropertyInClass name) depths className

def lookupMethodRecursive (sh : Registry Fn) (name : Text) (depths : Nat) (className : Text) :
    Option ArkshBlock :=
  firstHit (findClassEntry sh) ArkshClassDef.bases (findMethodInClass name) depths className

def populateInstanceDefaultsRecursive (sh : Registry Fn) :
    Nat → Text → ArkshValue → Option ArkshValue
  | 0, _, _ => none
  | depths + 1, className, fields =>
    match findClassEntry sh className with
    | none => none
    | some classDef =>
      (classDef.bases.reverse.foldlM
        (fun fields base => populateInstanceDefaultsRecursive sh depths base fields) fields).bind
        fun fields => runSets fields classDef.properties

def resolveClassForLookup (sh : Registry Fn) (pending : ArkshClassDef) (name : Text) :
    Option ArkshClassDef :=
  if pending.name = name then some pending else findClassEntry sh name

def classChainContains (sh : Registry Fn) (pending : ArkshClassDef) (depths : Nat)
    (startName targetName : Text) : Bool :=
  reaches (resolveClassForLookup sh pending) ArkshClassDef.bases depths startName targetName

/-! ## 2. The text of a definition -/

def arkshMaxClassBases : Nat := 8

/-- What the parser makes of a `class` command. -/
structure ArkshClassCommandNode where
  name : Text
  bases : List Text
  body : Text
  source : Text
  bases_le : bases.length ≤ arkshMaxClassBases

/-- The first character outside of quotes and brackets at which the loop stops; the test sees both
    neighbours. -/
def scanTopLevel (stops : Option Char → Char → Option Char → Bool) :
    Option Char → Nat → Nat → Option Char → Nat → Text → Option Nat
  | _, _, _, _, _, [] => none
  | some quote, paren, bracket, _, i, c :: rest =>
    if c = quote then scanTopLevel stops none paren bracket (some c) (i + 1) rest
    else
      match rest with
      | [] => none
      | next :: rest' =>
        if quote = '"' ∧ c = '\\' then
          scanTopLevel stops (some quote) paren bracket (some next) (i + 2) rest'
        else scanTopLevel stops (some quote) paren bracket (some c) (i + 1) (next :: rest')
  | none, paren, bracket, prev, i, c :: rest =>
    if c = '"' ∨ c = '\'' then scanTopLevel stops (some c) paren bracket (some c) (i + 1) rest
    else if c = '(' then scanTopLevel stops none (paren + 1) bracket (some c) (i + 1) rest
    else if c = ')' ∧ 0 < paren then scanTopLevel stops none (paren - 1) bracket (some c) (i + 1) rest
    else if c = '[' then scanTopLevel stops none paren (bracket + 1) (some c) (i + 1) rest
    else if c = ']' ∧ 0 < bracket then
      scanTopLevel stops none paren (bracket - 1) (some c) (i + 1) rest
    else if paren = 0 ∧ bracket = 0 ∧ stops prev c rest.head? = true then some i
    else scanTopLevel stops none paren bracket (some c) (i + 1) rest

def findNextClassBodySeparator (text : Text) : Option Nat :=
  scanTopLevel (fun _ c _ => c = ';' || c = '\n' || c = '\r') none 0 0 none 0 text

def findTopLevelAssignmentInText (text : Text) : Option Nat :=
  scanTopLevel (fun prev c next => c = '=' && prev ≠ some '=' && next ≠ some '=') none 0 0 none 0 text

def behindKeyword (keyword text : Text) : Option Text :=
  if text.take keyword.length = keyword ∧ ((text)[keyword.length]?.any isspace) = true then
    some (text.drop keyword.length)
  else none

def parseClassMemberDefinition (text : Text) : Option (ArkshMemberKind × Text × Text) :=
  let trimmed := trimCopy arkshMaxLine text
  if trimmed = [] ∨ trimmed.head? = some '#' then none
  else
    let keyword : Option (ArkshMemberKind × Text) :=
      match behindKeyword "property".toList trimmed with
      | some cursor => some (.property, cursor)
      | none => (behindKeyword "method".toList trimmed).map fun cursor => (.method, cursor)
    match keyword with
    | none => none
    | some (memberKind, cursor) =>
      let cursor := cursor.dropWhile isspace
      let name := cursor.takeWhile fun c => isalnum c || c = '_'
      if name = [] ∨ arkshMaxName ≤ name.length ∨ isValidIdentifier name = false then none
      else
        let cursor := (cursor.drop name.length).dropWhile isspace
        match findTopLevelAssignmentInText cursor with
        | none => none
        | some operatorIndex =>
          let rawExpression := copyString arkshMaxLine (cursor.drop (operatorIndex + 1))
          let expression := trimCopy arkshMaxLine rawExpression
          if expression = [] then none else some (memberKind, name, expression)

/-- The segments that the loop of `arksh_shell_set_class` cuts off the body, one a round. -/
def classBodySegments : Nat → Text → List Text
  | 0, _ => []
  | rounds + 1, body =>
    if body = [] then []
    else
      match findNextClassBodySeparator body with
      | none => [body]
      | some stop => body.take stop :: classBodySegments rounds (body.drop (stop + 1))

/-! ## 3. Definitions under way -/

def newCandidate (node : ArkshClassCommandNode) : ArkshClassDef where
  name := copyString arkshMaxName node.name
  bases := node.bases.map (copyString arkshMaxName)
  properties := []
  methods := []
  source := copyString arkshMaxLine node.source

/-- The check of the bases in `arksh_shell_set_class`. -/
def basesAdmitted (sh : Registry Fn) (candidate : ArkshClassDef) : Bool :=
  candidate.bases.all fun base =>
    base ≠ candidate.name && (findClassEntry sh base).isSome &&
      !classChainContains sh candidate classDepths base candidate.name

/-- `class_definition_add_property` and `class_definition_add_method`, with the check of the
    value's kind in front of the second. -/
def addMember (candidate : ArkshClassDef) (memberKind : ArkshMemberKind) (name : Text)
    (value : ArkshValue) : Option ArkshClassDef :=
  match memberKind with
  | .property =>
    some { candidate with properties := put name (arkshValueCopy value) candidate.properties }
  | .method =>
    if value.kind ≠ .block then none
    else some { candidate with methods := put name (value.block.getD {}) candidate.methods }

/-- A definition whose next member is being evaluated. -/
structure PendingClass where
  candidate : ArkshClassDef
  memberKind : ArkshMemberKind
  name : Text
  segments : List Text

/-- How far a definition comes without evaluating anything. -/
inductive BodyStep where
  | stored (candidate : ArkshClassDef)
  | failed
  | waits (pending : PendingClass)

/-- The rounds of the loop up to the next member. -/
def bodyStep (candidate : ArkshClassDef) : List Text → BodyStep
  | [] => .stored candidate
  | piece :: segments =>
    let segment := trimCopy arkshMaxLine piece
    if segment = [] ∨ segment.head? = some '#' then bodyStep candidate segments
    else
      match parseClassMemberDefinition segment with
      | none => .failed
      | some (memberKind, name, _) => .waits ⟨candidate, memberKind, name, segments⟩

/-- The registry, and the definitions under way, the innermost first. -/
structure ClassState (Fn : Type) where
  sh : Registry Fn
  pending : List PendingClass

/-- A `class` command begins, or the evaluation of the innermost definition's member ends. -/
inductive ClassEvent where
  | define (node : ArkshClassCommandNode)
  | evaluated (value : Option ArkshValue)

def ClassEvent.outcome (s : ClassState Fn) : ClassEvent → BodyStep
  | .define node =>
    if isValidIdentifier node.name = true ∧ basesAdmitted s.sh (newCandidate node) = true then
      bodyStep (newCandidate node) (classBodySegments node.body.length node.body)
    else .failed
  | .evaluated value =>
    match s.pending.head?, value with
    | some p, some value =>
      match addMember p.candidate p.memberKind p.name value with
      | some candidate => bodyStep candidate p.segments
      | none => .failed
    | _, _ => .failed

def ClassEvent.around (s : ClassState Fn) : ClassEvent → List PendingClass
  | .define _ => s.pending
  | .evaluated _ => s.pending.tail

/-- `arksh_shell_set_class`, from one evaluation to the next. -/
def ClassEvent.run (s : ClassState Fn) (e : ClassEvent) : ClassState Fn :=
  match e.outcome s with
  | .stored candidate => ⟨(storeClass s.sh candidate).2, e.around s⟩
  | .failed => ⟨s.sh, e.around s⟩
  | .waits pending => ⟨s.sh, pending :: e.around s⟩

def runClassEvents (events : List ClassEvent) (s : ClassState Fn) : ClassState Fn :=
  events.foldl ClassEvent.run s

/-- No class yet, and no definition under way. -/
def ClassState.start : ClassState Fn := ⟨.empty, []⟩

/-! ## 4. The law -/

abbrev ClassExtends (sh : Registry Fn) : Text → Text → Prop :=
  Hierarchy.Extends (findClassEntry sh) ArkshClassDef.bases

structure HoldsDefaults (sh : Registry Fn) (className : Text) (fields : ArkshValue) : Prop where
  present : ∀ p, (arkshValueMapGetItem fields p).isSome =
    (lookupPropertyRecursive sh p classDepths className).isSome
  default : ∀ p value, lookupPropertyRecursive sh p classDepths className = some value →
    value.holdsTable = false →
      (arkshValueMapGetItem fields p).map (fun i => (arkshValueSetFromItem i).denote) =
        some value.denote

structure HierarchyLaw (sh : Registry Fn) : Prop where
  basesExist : ∀ a b, ClassExtends sh a b → (findClassEntry sh b).isSome = true
  acyclic : ∀ a, ¬ TransGen (ClassExtends sh) a a
  propertyTerminates : ∀ className name more,
    lookupPropertyRecursive sh name (classDepths + more) className =
      lookupPropertyRecursive sh name classDepths className
  methodTerminates : ∀ className name more,
    lookupMethodRecursive sh name (classDepths + more) className =
      lookupMethodRecursive sh name classDepths className
  instantiates : ∀ className, (findClassEntry sh className).isSome = true →
    ∃ fields, populateInstanceDefaultsRecursive sh classDepths className arkshValueSetMap =
      some fields ∧ HoldsDefaults sh className fields

def ClassEvent.Fresh (s : ClassState Fn) (e : ClassEvent) : Prop :=
  ∀ candidate, e.outcome s = .stored candidate → ∀ base ∈ candidate.bases,
    classChainContains s.sh candidate classDepths base candidate.name = false

/-- So does everything that a run stores. -/
def AllFresh : List ClassEvent → ClassState Fn → Prop
  | [], _ => True
  | e :: events, s => e.Fresh s ∧ AllFresh events (e.run s)

/-! ## 5. What every event keeps -/

variable {s : ClassState Fn}

/-- A name that a map can hold. -/
def NameFits (name : Text) : Prop := name ≠ [] ∧ name.length < arkshMaxName

structure MembersFit (classDef : ArkshClassDef) : Prop where
  distinct : (classDef.properties.map Prod.fst).Nodup
  fits : ∀ row ∈ classDef.properties, NameFits row.1

structure Admitted (sh : Registry Fn) (candidate : ArkshClassDef) : Prop where
  bases : ∀ b ∈ candidate.bases, b ≠ candidate.name ∧ (findClassEntry sh b).isSome = true
  members : MembersFit candidate

structure SoundClasses (s : ClassState Fn) : Prop where
  table : IndexedTable.Represents ArkshClassDef.name s.sh.classes (findClassEntry s.sh)
  room : s.sh.classes.slots.length ≤ arkshMaxClassDefs
  basesExist : Closed (findClassEntry s.sh) ArkshClassDef.bases
  members : ∀ name c, findClassEntry s.sh name = some c → MembersFit c
  pending : ∀ p ∈ s.pending, Admitted s.sh p.candidate ∧ NameFits p.name

theorem soundClasses_start : SoundClasses (ClassState.start : ClassState Fn) where
  table := IndexedTable.represents_empty
  room := Nat.zero_le _
  basesExist := by
    intro a b ⟨c, hc, _⟩
    cases hc
  members := by
    intro name c hc
    cases hc
  pending := by
    intro p hp
    exact absurd hp not_mem_nil

variable {name b : Text} {memberKind : ArkshMemberKind}

theorem parseClassMemberDefinition_name {text expression : Text}
    (h : parseClassMemberDefinition text = some (memberKind, name, expression)) :
    NameFits name := by
  unfold parseClassMemberDefinition at h
  dsimp only at h
  split at h
  · cases h
  · split at h
    · cases h
    · split at h
      · cases h
      · rename_i hname
        rw [not_or, not_or, Nat.not_le] at hname
        split at h
        · cases h
        · split at h
          · cases h
          · cases h; exact ⟨hname.1, hname.2.1⟩

example : parseClassMemberDefinition "method area = [:it | it]".toList =
    some (.method, "area".toList, "[:it | it]".toList) := by decide

def BodyStep.Sound (good : ArkshClassDef → Prop) : BodyStep → Prop
  | .stored candidate => good candidate
  | .failed => True
  | .waits p => good p.candidate ∧ NameFits p.name

variable {candidate : ArkshClassDef}

theorem bodyStep_sound {good : ArkshClassDef → Prop} (h : good candidate) (segments : List Text) :
    (bodyStep candidate segments).Sound good := by
  induction segments with
  | nil => exact h
  | cons piece segments ih =>
    unfold bodyStep
    dsimp only
    split
    · exact ih
    · split
      · exact trivial
      · rename_i hparse; exact ⟨h, parseClassMemberDefinition_name hparse⟩

theorem addMember_admitted {candidate' : ArkshClassDef} {value : ArkshValue}
    (h : Admitted sh candidate) (hname : NameFits name)
    (hadd : addMember candidate memberKind name value = some candidate') :
    Admitted sh candidate' := by
  unfold addMember at hadd
  split at hadd
  · cases hadd
    refine ⟨h.bases, nodup_put h.members.distinct, ?_⟩
    intro row hrow
    have hkey : row.1 ∈ (put name (arkshValueCopy value) candidate.properties).map Prod.fst :=
      mem_map_of_mem hrow
    rcases mem_keys_put.mp hkey with heq | hold
    · rw [heq]; exact hname
    · obtain ⟨old, hold, heq⟩ := mem_map.mp hold
      rw [← heq]
      exact h.members.fits old hold
  · split at hadd
    · cases hadd
    · cases hadd; exact ⟨h.bases, h.members.distinct, h.members.fits⟩

theorem admitted_of_basesAdmitted {node : ArkshClassCommandNode}
    (h : basesAdmitted sh (newCandidate node) = true) : Admitted sh (newCandidate node) where
  bases := by
    intro b hb
    have hall := all_eq_true.mp h b hb
    simp only [Bool.and_eq_true, decide_eq_true_eq] at hall
    exact hall.1
  members := ⟨nodup_nil, fun row hrow => absurd hrow not_mem_nil⟩

theorem outcome_sound (h : SoundClasses s) (e : ClassEvent) :
    (e.outcome s).Sound (Admitted s.sh) := by
  unfold ClassEvent.outcome
  cases e with
  | define node =>
    dsimp only
    split
    · rename_i hvalid; exact bodyStep_sound (admitted_of_basesAdmitted hvalid.2) _
    · exact trivial
  | evaluated value =>
    dsimp only
    split
    · rename_i p value hp
      obtain ⟨hcandidate, hname⟩ := h.pending p (mem_of_mem_head? hp)
      split
      · rename_i hadd; exact bodyStep_sound (addMember_admitted hcandidate hname hadd) _
      · exact trivial
    · exact trivial

theorem around_subset (e : ClassEvent) : ∀ p ∈ e.around s, p ∈ s.pending := by
  intro p hp
  cases e with
  | define node => exact hp
  | evaluated value => exact mem_of_mem_tail hp

theorem storeClass_lookup (h : SoundClasses s) (candidate : ArkshClassDef) :
    (findClassEntry (storeClass s.sh candidate).2 =
        Function.update (findClassEntry s.sh) candidate.name (some candidate) ∧
      IndexedTable.Represents ArkshClassDef.name (storeClass s.sh candidate).2.classes
        (findClassEntry (storeClass s.sh candidate).2) ∧
      (storeClass s.sh candidate).2.classes.slots.length ≤ arkshMaxClassDefs) ∨
    ((storeClass s.sh candidate).2 = s.sh ∧ findClassEntry s.sh candidate.name = none) := by
  rcases storeClass_cases h.table candidate with ⟨classes, hstore, hclasses, hlen⟩ | ⟨hstore, hnone⟩
  · have hfind : findClassEntry (storeClass s.sh candidate).2 =
        Function.update (findClassEntry s.sh) candidate.name (some candidate) := by
      rw [hstore]
      funext name
      exact IndexedTable.find_of_represents hclasses name
    refine Or.inl ⟨hfind, ?_, ?_⟩
    · rw [hfind, hstore]; exact hclasses
    · rw [hstore]; exact hlen h.room
  · rw [hstore]; exact Or.inr ⟨rfl, hnone⟩

theorem update_isSome {find : Text → Option ArkshClassDef} {c : ArkshClassDef}
    (h : (find b).isSome = true) : (Function.update find name (some c) b).isSome = true := by
  by_cases hb : b = name
  · rw [hb, Function.update_self]; rfl
  · rw [Function.update_of_ne hb]; exact h

theorem soundClasses_stored (h : SoundClasses s) (hcandidate : Admitted s.sh candidate)
    {pending : List PendingClass} (hsub : ∀ p ∈ pending, p ∈ s.pending) :
    SoundClasses ⟨(storeClass s.sh candidate).2, pending⟩ := by
  rcases storeClass_lookup h candidate with ⟨hfind, htable, hroom⟩ | ⟨hsame, _⟩
  · refine ⟨htable, hroom, ?_, ?_, ?_⟩
    · intro a b hab
      show (findClassEntry (storeClass s.sh candidate).2 b).isSome = true
      obtain ⟨c, hc, hb⟩ := hab
      replace hc : findClassEntry (storeClass s.sh candidate).2 a = some c := hc
      rw [hfind] at hc ⊢
      apply update_isSome
      by_cases ha : a = candidate.name
      · rw [ha, Function.update_self] at hc
        rw [← Option.some.inj hc] at hb
        exact (hcandidate.bases b hb).2
      · rw [Function.update_of_ne ha] at hc; exact h.basesExist a b ⟨c, hc, hb⟩
    · intro name c hc
      replace hc : findClassEntry (storeClass s.sh candidate).2 name = some c := hc
      rw [hfind] at hc
      by_cases hname : name = candidate.name
      · rw [hname, Function.update_self] at hc
        rw [← Option.some.inj hc]
        exact hcandidate.members
      · rw [Function.update_of_ne hname] at hc; exact h.members name c hc
    · intro p hp
      obtain ⟨hadmitted, hname⟩ := h.pending p (hsub p hp)
      refine ⟨⟨?_, hadmitted.members⟩, hname⟩
      intro b hb
      show b ≠ p.candidate.name ∧ (findClassEntry (storeClass s.sh candidate).2 b).isSome = true
      rw [hfind]
      exact ⟨(hadmitted.bases b hb).1, update_isSome (hadmitted.bases b hb).2⟩
  · rw [hsame]; exact { h with pending := fun p hp => h.pending p (hsub p hp) }

theorem soundClasses_run (h : SoundClasses s) (e : ClassEvent) : SoundClasses (e.run s) := by
  have hsound := outcome_sound h e
  unfold ClassEvent.run
  cases houtcome : e.outcome s with
  | stored candidate =>
    rw [houtcome] at hsound
    exact soundClasses_stored h hsound (around_subset e)
  | failed => exact { h with pending := fun p hp => h.pending p (around_subset e p hp) }
  | waits p =>
    rw [houtcome] at hsound
    refine { h with pending := ?_ }
    intro q hq
    rcases mem_cons.mp hq with heq | hq
    · rw [heq]; exact hsound
    · exact h.pending q (around_subset e q hq)

/-! ## 6. Cycles -/

abbrev AcyclicClasses (sh : Registry Fn) : Prop := Acyclic (findClassEntry sh) ArkshClassDef.bases

theorem SoundClasses.exists_rank (h : SoundClasses s) (hacyclic : AcyclicClasses s.sh) :
    ∃ rank : Text → Nat, (∀ a b, ClassExtends s.sh a b → rank b < rank a) ∧
      ∀ a, rank a < classDepths := by
  have hnodes : ∀ a, (findClassEntry s.sh a).isSome = true →
      a ∈ s.sh.classes.slots.map ArkshClassDef.name := by
    intro a ha
    by_contra hno
    rw [h.table.holds.eq_none_iff.mpr hno] at ha
    cases ha
  obtain ⟨rank, hrank, hle⟩ := Hierarchy.exists_rank hnodes h.basesExist hacyclic
  refine ⟨rank, hrank, ?_⟩
  intro a
  have hlen := hle a
  rw [length_map] at hlen
  have hroom := h.room
  unfold classDepths
  omega

theorem resolveClassForLookup_eq (sh : Registry Fn) (pending : ArkshClassDef) :
    resolveClassForLookup sh pending =
      Function.update (findClassEntry sh) pending.name (some pending) := by
  funext name
  unfold resolveClassForLookup
  by_cases hname : pending.name = name
  · rw [if_pos hname, hname, Function.update_self]
  · rw [if_neg hname, Function.update_of_ne fun heq => hname heq.symm]

theorem classChainContains_iff (h : SoundClasses s) (hacyclic : AcyclicClasses s.sh) {base : Text}
    (hne : base ≠ candidate.name) :
    classChainContains s.sh candidate classDepths base candidate.name = true ↔
      TransGen (ClassExtends s.sh) base candidate.name := by
  obtain ⟨rank, hrank, hlimit⟩ := h.exists_rank hacyclic
  unfold classChainContains
  rw [resolveClassForLookup_eq, reaches_update hne]
  exact reaches_iff hrank (hlimit base)

theorem not_below_of_none (h : SoundClasses s) {a : Text} (hnone : findClassEntry s.sh b = none) :
    ¬ TransGen (ClassExtends s.sh) a b := by
  intro hpath
  obtain ⟨x, _, hedge⟩ := TransGen.tail'_iff.mp hpath
  have hsome := h.basesExist x b hedge
  rw [hnone] at hsome
  cases hsome

theorem acyclic_run_iff (h : SoundClasses s) (hacyclic : AcyclicClasses s.sh) (e : ClassEvent) :
    AcyclicClasses (e.run s).sh ↔ e.Fresh s := by
  have hsound := outcome_sound h e
  unfold ClassEvent.run ClassEvent.Fresh
  cases houtcome : e.outcome s with
  | failed | waits p =>
    constructor
    · intro _ candidate hstored; cases hstored
    · intro _; exact hacyclic
  | stored candidate =>
    rw [houtcome] at hsound
    -- The check of a base, and what it stands for.
    have hcheck : ∀ b ∈ candidate.bases,
        classChainContains s.sh candidate classDepths b candidate.name = false ↔
          ¬ TransGen (ClassExtends s.sh) b candidate.name := by
      intro b hb
      rw [← classChainContains_iff h hacyclic (hsound.bases b hb).1]
      exact (Bool.not_eq_true _).symm.to_iff
    have hfresh : (∀ candidate', BodyStep.stored candidate = .stored candidate' →
        ∀ b ∈ candidate'.bases,
          classChainContains s.sh candidate' classDepths b candidate'.name = false) ↔
        ∀ b ∈ candidate.bases, ¬ TransGen (ClassExtends s.sh) b candidate.name := by
      constructor
      · intro hall b hb; exact (hcheck b hb).mp (hall candidate rfl b hb)
      · intro hall candidate' heq b hb
        cases heq
        exact (hcheck b hb).mpr (hall b hb)
    rw [hfresh]
    show AcyclicClasses (storeClass s.sh candidate).2 ↔ _
    rcases storeClass_lookup h candidate with ⟨hfind, _, _⟩ | ⟨hsame, hnone⟩
    · unfold AcyclicClasses
      rw [hfind, acyclic_update_iff hacyclic]
      constructor
      · intro hall b hb; exact (hall b hb).2
      · intro hall b hb; exact ⟨(hsound.bases b hb).1, hall b hb⟩
    · rw [hsame]
      constructor
      · intro _ b _; exact not_below_of_none h hnone
      · intro _; exact hacyclic

/-! ## 7. Instances -/

def defaultWrites (sh : Registry Fn) : Nat → Text → Option (List (Text × ArkshValue)) :=
  writes (findClassEntry sh) ArkshClassDef.bases ArkshClassDef.properties

theorem runSets_append (ops ops' : List (Text × ArkshValue)) (m : ArkshValue) :
    runSets m (ops ++ ops') = (runSets m ops).bind fun m' => runSets m' ops' := by
  induction ops generalizing m with
  | nil => rfl
  | cons op ops ih =>
    show (arkshValueMapSet m op.1 op.2).bind (fun m' => runSets m' (ops ++ ops')) = _
    rw [runSets, Option.bind_assoc]
    apply congrArg
    funext m'
    exact ih m'

theorem foldlM_runSets {f : Text → Option (List (Text × ArkshValue))}
    {walk : ArkshValue → Text → Option ArkshValue} {bases : List Text}
    (hwalk : ∀ base ∈ bases, ∀ fields, walk fields base = (f base).bind (runSets fields))
    (fields : ArkshValue) :
    bases.foldlM walk fields = (bases.mapM f).bind fun below => runSets fields below.flatten := by
  induction bases generalizing fields with
  | nil => rfl
  | cons base bases ih =>
    have hrest := ih fun b hb => hwalk b (mem_cons_of_mem base hb)
    rw [foldlM_cons, hwalk base mem_cons_self, mapM_cons]
    cases hf : f base with
    | none => rfl
    | some ws =>
      show (runSets fields ws).bind (fun fields => bases.foldlM walk fields) = _
      simp only [hrest]
      cases hbelow : bases.mapM f with
      | none =>
        show ((runSets fields ws).bind fun _ => none) = none
        cases runSets fields ws with
        | none | some m => rfl
      | some below =>
        show ((runSets fields ws).bind fun m => runSets m below.flatten) =
          runSets fields (ws :: below).flatten
        rw [flatten_cons, runSets_append]

/-- **The walk through the bases is a run of writes.** -/
theorem populate_eq (sh : Registry Fn) (depths : Nat) (className : Text) (fields : ArkshValue) :
    populateInstanceDefaultsRecursive sh depths className fields =
      (defaultWrites sh depths className).bind (runSets fields) := by
  induction depths generalizing className fields with
  | zero => rfl
  | succ depths ih =>
    unfold populateInstanceDefaultsRecursive defaultWrites writes
    cases findClassEntry sh className with
    | none => rfl
    | some classDef =>
      dsimp only
      have hwalk := @foldlM_runSets (defaultWrites sh depths)
        (fun fields base => populateInstanceDefaultsRecursive sh depths base fields)
        classDef.bases.reverse (fun base _ fields => ih base fields) fields
      rw [hwalk]
      show _ = ((classDef.bases.reverse.mapM (defaultWrites sh depths)).map fun below =>
        below.flatten ++ classDef.properties).bind (runSets fields)
      cases classDef.bases.reverse.mapM (defaultWrites sh depths) with
      | none => rfl
      | some below => exact (runSets_append _ _ _).symm

/-- **In sound classes without cycles, lookups are never cut off, and a new instance has the
    defaults that they find.** -/
theorem hierarchyLaw_of_acyclic (h : SoundClasses s) (hacyclic : AcyclicClasses s.sh) :
    HierarchyLaw s.sh := by
  obtain ⟨rank, hrank, hlimit⟩ := h.exists_rank hacyclic
  have hmore : ∀ (a : Text) (more : Nat), rank a < classDepths + more := by
    intro a more
    have hlt := hlimit a
    omega
  refine ⟨h.basesExist, hacyclic, ?_, ?_, ?_⟩
  · intro className name more
    exact firstHit_of_rank hrank (hmore className more) (hlimit className)
  · intro className name more
    exact firstHit_of_rank hrank (hmore className more) (hlimit className)
  · intro className hclass
    obtain ⟨ws, hws⟩ := Option.isSome_iff_exists.mp
      (writes_isSome h.basesExist hrank (hlimit className) hclass)
    replace hws : defaultWrites s.sh classDepths className = some ws := hws
    have hfits : ∀ row ∈ ws, NameFits row.1 := by
      intro row hrow
      obtain ⟨name, c, hfind, hmem⟩ := mem_writes hws hrow
      exact (h.members name c hfind).fits row hmem
    obtain ⟨fields, hfields, hkind⟩ := runSets_isSome (fun row hrow => (hfits row hrow).1)
      (show arkshValueSetMap.kind.isMapLike = true from rfl)
    have hmap : fields.kind.isMapLike = true := by rw [hkind]; rfl
    have hread : ∀ p, arkshValueMapGetItem fields p =
        (lookupPropertyRecursive s.sh p classDepths className).map arkshValueItemSetFromValue := by
      intro p
      have hlast : lastWrite p ws = lookupPropertyRecursive s.sh p classDepths className :=
        lastWrite_writes (fun name c hfind => lastWrite_of_nodup (h.members name c hfind).distinct p)
          hws
      rw [getItem_runSets hmap rfl (fun row hrow => (hfits row hrow).2) hfields, hlast]
    refine ⟨fields, ?_, ?_, ?_⟩
    · rw [populate_eq, hws]; exact hfields
    · intro p; rw [hread, Option.isSome_map]
    · intro p value hlookup htable
      rw [hread, hlookup]
      have hdenote := (denote_itemSetFromValue_eq_iff value).mpr htable
      simp [denote_setFromItem, hdenote]

theorem acyclic_start : AcyclicClasses (ClassState.start : ClassState Fn).sh := by
  intro a hpath
  obtain ⟨x, _, hedge⟩ := TransGen.tail'_iff.mp hpath
  obtain ⟨c, hc, _⟩ := hedge
  cases hc

theorem hierarchyLaw_run_iff (h : SoundClasses s) (hacyclic : AcyclicClasses s.sh)
    (events : List ClassEvent) :
    (∀ n, HierarchyLaw (runClassEvents (events.take n) s).sh) ↔ AllFresh events s := by
  induction events generalizing s with
  | nil =>
    constructor
    · intro _; exact trivial
    · intro _ n
      rw [take_nil]
      exact hierarchyLaw_of_acyclic h hacyclic
  | cons e events ih =>
    constructor
    · intro hall
      have hnext : AcyclicClasses (e.run s).sh := (hall 1).acyclic
      refine ⟨(acyclic_run_iff h hacyclic e).mp hnext, ?_⟩
      exact (ih (soundClasses_run h e) hnext).mp fun n => hall (n + 1)
    · intro hfresh n
      cases n with
      | zero => exact hierarchyLaw_of_acyclic h hacyclic
      | succ n =>
        have hnext := (acyclic_run_iff h hacyclic e).mpr hfresh.1
        exact (ih (soundClasses_run h e) hnext).mpr hfresh.2 n

/-- **The hierarchy is in order all along a run iff each class that is stored has, at that time, no
    base below which its own name is.** -/
theorem hierarchyLaw_iff (events : List ClassEvent) :
    (∀ n, HierarchyLaw (runClassEvents (events.take n) (ClassState.start : ClassState Fn)).sh) ↔
      AllFresh events (ClassState.start : ClassState Fn) :=
  hierarchyLaw_run_iff soundClasses_start acyclic_start events

def cyclicEvents : List ClassEvent :=
  [.define ⟨"A".toList, [], [], [], Nat.zero_le _⟩, .define ⟨"B".toList, [], [], [], Nat.zero_le _⟩,
    .define ⟨"B".toList, ["A".toList], "property p = capture(\"class A extends B do endclass\")".toList,
      [], by decide⟩,
    .define ⟨"A".toList, ["B".toList], [], [], by decide⟩, .evaluated (some arkshValueInit)]

/-- Then each of the two classes is a base of the other. -/
theorem not_hierarchyLaw_nested : ¬ ∀ (events : List ClassEvent) (n : Nat),
      HierarchyLaw (runClassEvents (events.take n) (ClassState.start : ClassState Nat)).sh := by
  intro hall
  have hA : ((findClassEntry (runClassEvents cyclicEvents (ClassState.start : ClassState Nat)).sh
      "A".toList).any fun c => decide ("B".toList ∈ c.bases)) = true := by
    decide +kernel
  have hB : ((findClassEntry (runClassEvents cyclicEvents (ClassState.start : ClassState Nat)).sh
      "B".toList).any fun c => decide ("A".toList ∈ c.bases)) = true := by
    decide +kernel
  obtain ⟨a, ha, hab⟩ := (Option.any_eq_true _ _).mp hA
  obtain ⟨b, hb, hba⟩ := (Option.any_eq_true _ _).mp hB
  have hdown : ClassExtends (runClassEvents cyclicEvents (ClassState.start : ClassState Nat)).sh
      "A".toList "B".toList := ⟨a, ha, of_decide_eq_true hab⟩
  have hup : ClassExtends (runClassEvents cyclicEvents (ClassState.start : ClassState Nat)).sh
      "B".toList "A".toList := ⟨b, hb, of_decide_eq_true hba⟩
  exact (hall cyclicEvents 5).acyclic "A".toList (TransGen.head hdown (TransGen.single hup))

end Arksh
