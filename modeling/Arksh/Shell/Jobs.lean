/-
  Subject: The table of jobs.

  A background start makes room in the table before it appends to it. A foreground command that
  is stopped is appended as well, at four places of the executor, and none of them makes room.
  `refresh`, `wait`, `fg` and `bg` change entries in place and remove them by moving the entries
  behind them down.
-/
import Arksh.Lib.Strtoll
import Arksh.Shell.Line

namespace Arksh

open CText List Option Nat

/-! ## 1. The table -/

def arkshMaxJobs : Nat := 32

inductive ArkshJobState where
  | running | stopped | done
  deriving DecidableEq

structure ArkshPlatformAsyncProcess where
  pid : Int
  pgid : Int
  deriving DecidableEq

structure ArkshJob where
  id : Int
  state : ArkshJobState
  exitCode : Int
  terminationSignal : Int
  command : Text
  process : ArkshPlatformAsyncProcess
  deriving DecidableEq

/-- The slots below `job_count`, and what goes with them. The last two fields are none of the
    source: each slot that was written with the capacity at that time, and each id that was given. A
    slot out of bounds is written as if it were there. -/
structure JobTable where
  jobs : List ArkshJob
  jobCapacity : Nat
  nextJobId : Int
  written : List (Nat × Nat)
  issued : List Int

def JobTable.start : JobTable := ⟨[], 0, 1, [], []⟩

/-- An `int` after `++`. -/
def nextInt (n : Int) : Int := Int.bmod (n + 1) (2 ^ 32)

/-- The doubling loop of `grow_heap_array`. -/
def doubleUntil (required : Nat) : Nat → Nat → Nat
  | 0, capacity => capacity
  | rounds + 1, capacity =>
    if capacity < required then doubleUntil required rounds (capacity * 2) else capacity

/-- `next_capacity` of `grow_heap_array`, behind its checks. -/
def nextCapacity (capacity required maxCapacity : Nat) : Nat :=
  let doubled := doubleUntil required required (if capacity = 0 then 4 else capacity)
  if 0 < maxCapacity ∧ maxCapacity < doubled then maxCapacity else doubled

/-- `grow_heap_array`: the capacity behind it, or `none` where it fails. `allocated` says whether
    `realloc` succeeds. -/
def growHeapArray (capacity required maxCapacity : Nat) (allocated : Bool) : Option Nat :=
  if required = 0 ∨ required ≤ capacity then some capacity
  else if 0 < maxCapacity ∧ maxCapacity < required then none
  else
    let next := nextCapacity capacity required maxCapacity
    if next < required ∨ allocated = false then none else some next

def JobTable.record (t : JobTable) (slots : List Nat) : JobTable :=
  { t with written := slots.map (fun slot => (slot, t.jobCapacity)) ++ t.written }

def JobTable.append (t : JobTable) (state : ArkshJobState) (command : Text)
    (process : ArkshPlatformAsyncProcess) : JobTable :=
  let job : ArkshJob := ⟨t.nextJobId, state, 0, 0, copyString arkshMaxLine command, process⟩
  { t.record [t.jobs.length] with
    jobs := t.jobs ++ [job]
    nextJobId := nextInt t.nextJobId
    issued := t.nextJobId :: t.issued }

/-- The job in a slot is changed in place. -/
def JobTable.update (t : JobTable) (index : Nat) (f : ArkshJob → ArkshJob) : JobTable :=
  { t.record [index] with jobs := t.jobs.modify index f }

def removeJobAt (t : JobTable) (index : Nat) : JobTable :=
  if t.jobs.length ≤ index then t
  else
    { t.record (index :: List.range' index (t.jobs.length - index - 1)) with
      jobs := t.jobs.take index ++ t.jobs.drop (index + 1) }

/-- The loop of `prune_completed_jobs`. -/
def pruneFrom : Nat → Nat → JobTable → JobTable
  | 0, _, t => t
  | rounds + 1, index, t =>
    match (t.jobs)[index]? with
    | none => t
    | some job =>
      if job.state = .done then pruneFrom rounds index (removeJobAt t index)
      else pruneFrom rounds (index + 1) t

def pruneCompletedJobs (t : JobTable) : JobTable := pruneFrom t.jobs.length 0 t

/-! ## 2. What the system reports -/

inductive ArkshPlatformProcessState where
  | unchanged | running | stopped | exited
  deriving DecidableEq

/-- The answer to the poll and wait functions of the platform, and the process behind the call. -/
structure ProcessReport where
  state : ArkshPlatformProcessState
  exitCode : Int
  process : ArkshPlatformAsyncProcess

/-- The answers to the calls of one command, for the job of each slot in its round; `none` where a
    call fails. -/
structure Platform where
  poll : Nat → Nat → ArkshPlatformAsyncProcess → Option ProcessReport
  wait : Nat → ArkshPlatformAsyncProcess → Option ProcessReport
  resume : ArkshPlatformAsyncProcess → Bool
  /-- The message of the round fits into the output. -/
  fits : Nat → Bool

def signalOf (exitCode : Int) : Int := if 128 < exitCode then exitCode - 128 else 0

def refreshJob (poll : ArkshPlatformAsyncProcess → Option ProcessReport) (job : ArkshJob) :
    ArkshJob :=
  if job.state = .done then job
  else
    match poll job.process with
    | none => job
    | some report =>
      match report.state with
      | .unchanged => { job with process := report.process }
      | .running => { job with process := report.process, state := .running }
      | .stopped =>
        { job with process := report.process, state := .stopped, exitCode := report.exitCode }
      | .exited =>
        { job with
          process := report.process
          state := .done
          exitCode := report.exitCode
          terminationSignal := signalOf report.exitCode }

def arkshShellRefreshJobs (poll : Nat → ArkshPlatformAsyncProcess → Option ProcessReport)
    (t : JobTable) : JobTable :=
  { t.record (List.range t.jobs.length) with
    jobs := t.jobs.mapIdx fun slot => refreshJob (poll slot) }

/-! ## 3. Commands -/

def strtol10 (text : Text) : Option (Int × Text) :=
  let unsigned := text.dropWhile isspace
  let negative := unsigned.head? = some '-'
  let digits := if negative ∨ unsigned.head? = some '+' then unsigned.tail else unsigned
  if digits.head?.any isdigit = true then
    let value : Int := digitsValue 10 (digits.takeWhile isdigit)
    some (clamp (if negative then -value else value), digits.dropWhile isdigit)
  else none

def parseJobId (text : Text) : Option Int :=
  let number := if text.head? = some '%' then text.tail else text
  match strtol10 number with
  | some (value, []) => if value ≤ 0 then none else some (Int.bmod value (2 ^ 32))
  | _ => none

def findJobById (t : JobTable) (id : Int) : Option Nat := t.jobs.findIdx? fun job => job.id = id

def lastInState (t : JobTable) (state : ArkshJobState) : Option Nat :=
  (t.jobs.reverse.findIdx? fun job => job.state = state).map fun i => t.jobs.length - 1 - i

def findDefaultJob (t : JobTable) : Option Nat :=
  (lastInState t .stopped).or (lastInState t .running)

def namedJob (t : JobTable) : Option Text → Option (Option Nat)
  | some text => (parseJobId text).map (findJobById t)
  | none => some (findDefaultJob t)

def waitForJobAt (wait : ArkshPlatformAsyncProcess → Option ProcessReport) (t : JobTable)
    (index : Nat) : Option Int × JobTable :=
  match (t.jobs)[index]? with
  | none => (none, t)
  | some job =>
    match job.state with
    | .done => (some job.exitCode, removeJobAt t index)
    | .stopped => (some 1, t)
    | .running =>
      match wait job.process with
      | none => (none, t)
      | some report =>
        if report.state = .stopped then
          (some 1, t.update index fun job =>
            { job with process := report.process, state := .stopped, exitCode := report.exitCode })
        else
          (some report.exitCode, removeJobAt (t.update index fun job =>
            { job with
              process := report.process
              state := .done
              exitCode := report.exitCode
              terminationSignal := signalOf report.exitCode }) index)

def waitAll (platform : Platform) : Nat → Nat → Nat → Int × JobTable → Int × JobTable
  | 0, _, _, r => r
  | rounds + 1, round, index, (lastStatus, t) =>
    if index < t.jobs.length then
      match waitForJobAt (platform.wait round) t index with
      | (none, t') => (1, t')
      | (some status, t') =>
        if platform.fits round = false then (1, t')
        else
          let index' := if t'.jobs.length = t.jobs.length then index + 1 else index
          waitAll platform rounds (round + 1) index' (status, t')
    else (lastStatus, t)

/-- The loop of `wait` over its arguments. -/
def waitEach (platform : Platform) : List Text → Nat → Int × JobTable → Int × JobTable
  | [], _, r => r
  | text :: texts, round, (_, t) =>
    match parseJobId text with
    | none => (1, t)
    | some id =>
      let t := arkshShellRefreshJobs (platform.poll round) t
      match findJobById t id with
      | none => (1, t)
      | some index =>
        match waitForJobAt (platform.wait round) t index with
        | (none, t') => (1, t')
        | (some status, t') =>
          if platform.fits round = false then (1, t')
          else waitEach platform texts (round + 1) (status, t')

def commandWait (platform : Platform) (args : List Text) (t : JobTable) : Int × JobTable :=
  let t := arkshShellRefreshJobs (platform.poll 0) t
  match args with
  | [] => waitAll platform t.jobs.length 0 0 (0, t)
  | texts => waitEach platform texts 1 (0, t)

def commandFg (platform : Platform) (arg : Option Text) (t : JobTable) : Int × JobTable :=
  let t := arkshShellRefreshJobs (platform.poll 0) t
  match (namedJob t arg).bind fun slot => slot.bind fun index =>
      ((t.jobs)[index]?).map fun job => (index, job) with
  | none => (1, t)
  | some (index, job) =>
    if job.state = .done then (if job.exitCode = 0 then 0 else 1, t)
    else if platform.resume job.process = false then (1, t)
    else
      match platform.wait 0 job.process with
      | none => (1, t)
      | some report =>
        if report.state = .stopped then
          (1, t.update index fun job =>
            { job with process := report.process, state := .stopped, exitCode := report.exitCode })
        else
          (if report.exitCode = 0 then 0 else 1, removeJobAt (t.update index fun job =>
            { job with
              process := report.process
              state := .done
              exitCode := report.exitCode }) index)

def commandBg (platform : Platform) (arg : Option Text) (t : JobTable) : Int × JobTable :=
  let t := arkshShellRefreshJobs (platform.poll 0) t
  match (namedJob t arg).bind fun slot => slot.bind fun index =>
      ((t.jobs)[index]?).map fun job => (index, job) with
  | none => (1, t)
  | some (index, job) =>
    match job.state with
    | .done => (1, t)
    | .running => (0, t)
    | .stopped =>
      if platform.resume job.process = false then (1, t)
      else (0, t.update index fun job => { job with state := .running })

def beforeStart (platform : Platform) (t : JobTable) : JobTable :=
  let t := arkshShellRefreshJobs (platform.poll 0) t
  if arkshMaxJobs ≤ t.jobs.length then pruneCompletedJobs t else t

def arkshShellStartBackgroundJob (platform : Platform) (executablePath commandText : Text)
    (spawned : Option ArkshPlatformAsyncProcess) (allocated : Bool) (t : JobTable) :
    Int × JobTable :=
  let t := beforeStart platform t
  if arkshMaxJobs ≤ t.jobs.length then (1, t)
  else if executablePath = [] then (1, t)
  else
    match spawned with
    | none => (1, t)
    | some process =>
      match growHeapArray t.jobCapacity (t.jobs.length + 1) arkshMaxJobs allocated with
      | none => (1, t)
      | some jobCapacity => (0, { t with jobCapacity }.append .running commandText process)

/-- What `arksh_execute_external_command` and `execute_shell_pipeline` do when a command was stopped
    in the foreground. -/
def foregroundStopped (name : Text) (process : ArkshPlatformAsyncProcess) (t : JobTable) :
    JobTable :=
  if process.pgid ≠ 0 ∧ t.jobs.length < arkshMaxJobs then t.append .stopped name process else t

/-- What happens to the table. -/
inductive JobEvent where
  | start (platform : Platform) (executablePath commandText : Text)
      (spawned : Option ArkshPlatformAsyncProcess) (allocated : Bool)
  | stopped (name : Text) (process : ArkshPlatformAsyncProcess)
  | refresh (platform : Platform)
  | wait (platform : Platform) (args : List Text)
  | fg (platform : Platform) (arg : Option Text)
  | bg (platform : Platform) (arg : Option Text)
  | remove (index : Nat)
  | prune

def JobEvent.run (t : JobTable) : JobEvent → JobTable
  | .start platform executablePath commandText spawned allocated =>
    (arkshShellStartBackgroundJob platform executablePath commandText spawned allocated t).2
  | .stopped name process => foregroundStopped name process t
  | .refresh platform => arkshShellRefreshJobs (platform.poll 0) t
  | .wait platform args => (commandWait platform args t).2
  | .fg platform arg => (commandFg platform arg t).2
  | .bg platform arg => (commandBg platform arg t).2
  | .remove index => removeJobAt t index
  | .prune => pruneCompletedJobs t

def runJobEvents (events : List JobEvent) (t : JobTable) : JobTable := events.foldl JobEvent.run t

/-! ## 4. The law -/

/-- The removal of a job leaves the others unchanged in their order. -/
structure RemovalLaw (t : JobTable) (index : Nat) : Prop where
  before : ∀ i < index, ((removeJobAt t index).jobs)[i]? = (t.jobs)[i]?
  behind : ∀ i, index ≤ i → ((removeJobAt t index).jobs)[i]? = (t.jobs)[i + 1]?

structure JobLaw (t : JobTable) : Prop where
  inCapacity : t.jobs.length ≤ t.jobCapacity
  inLimit : t.jobs.length ≤ arkshMaxJobs
  inBounds : ∀ slot ∈ t.written, slot.1 < slot.2
  positive : ∀ job ∈ t.jobs, 0 < job.id
  distinct : (t.jobs.map ArkshJob.id).Nodup
  neverReused : t.issued.Nodup
  removal : ∀ index < t.jobs.length, RemovalLaw t index

def JobEvent.GivesId (t : JobTable) : JobEvent → Prop
  | .start platform executablePath _ spawned allocated =>
    let t := beforeStart platform t
    t.jobs.length < arkshMaxJobs ∧ executablePath ≠ [] ∧ spawned.isSome = true ∧
      (growHeapArray t.jobCapacity (t.jobs.length + 1) arkshMaxJobs allocated).isSome = true
  | .stopped _ process => process.pgid ≠ 0 ∧ t.jobs.length < arkshMaxJobs
  | _ => False

def JobEvent.HasRoom (t : JobTable) (e : JobEvent) : Prop :=
  (e.GivesId t → 0 < t.nextJobId) ∧
    ∀ name process, e = .stopped name process → e.GivesId t → t.jobs.length < t.jobCapacity

def AllHaveRoom : List JobEvent → JobTable → Prop
  | [], _ => True
  | e :: events, t => e.HasRoom t ∧ AllHaveRoom events (e.run t)

/-! ## 5. What gives no id -/

/-- `t'` has come of `t` by changes in place and removals. -/
structure KeepsJobs (t t' : JobTable) : Prop where
  jobCapacity : t'.jobCapacity = t.jobCapacity
  nextJobId : t'.nextJobId = t.nextJobId
  issued : t'.issued = t.issued
  ids : (t'.jobs.map ArkshJob.id).Sublist (t.jobs.map ArkshJob.id)
  written : t.jobs.length ≤ t.jobCapacity →
    ∀ slot ∈ t'.written, slot ∈ t.written ∨ slot.1 < slot.2

variable {f : ArkshJob → ArkshJob}

section Keep

variable {t t' t'' : JobTable} {platform : Platform} {index : Nat}

theorem KeepsJobs.length_le (h : KeepsJobs t t') : t'.jobs.length ≤ t.jobs.length := by
  have hle := h.ids.length_le
  rwa [length_map, length_map] at hle

theorem KeepsJobs.refl (t : JobTable) : KeepsJobs t t :=
  ⟨rfl, rfl, rfl, List.Sublist.refl _, fun _ _ hslot => Or.inl hslot⟩

theorem KeepsJobs.trans (h : KeepsJobs t t') (h' : KeepsJobs t' t'') : KeepsJobs t t'' where
  jobCapacity := h'.jobCapacity.trans h.jobCapacity
  nextJobId := h'.nextJobId.trans h.nextJobId
  issued := h'.issued.trans h.issued
  ids := h'.ids.trans h.ids
  written := by
    intro hroom slot hslot
    have hroom' : t'.jobs.length ≤ t'.jobCapacity := by
      rw [h.jobCapacity]
      exact le_trans h.length_le hroom
    rcases h'.written hroom' slot hslot with hold | hbound
    · exact h.written hroom slot hold
    · exact Or.inr hbound

theorem mem_record {slots : List Nat} (hslots : ∀ slot ∈ slots, slot < t.jobs.length)
    (hroom : t.jobs.length ≤ t.jobCapacity) {slot : Nat × Nat}
    (h : slot ∈ (t.record slots).written) : slot ∈ t.written ∨ slot.1 < slot.2 := by
  rcases mem_append.mp h with hnew | hold
  · obtain ⟨i, hi, rfl⟩ := mem_map.mp hnew; exact Or.inr (lt_of_lt_of_le (hslots i hi) hroom)
  · exact Or.inl hold

theorem map_modify_id (hf : ∀ job, (f job).id = job.id) (jobs : List ArkshJob) (index : Nat) :
    (jobs.modify index f).map ArkshJob.id = jobs.map ArkshJob.id := by
  induction jobs generalizing index with
  | nil => cases index <;> rfl
  | cons job jobs ih =>
    cases index with
    | zero =>
      rw [modify_zero_cons, map_cons, map_cons, hf]
    | succ index =>
      rw [modify_succ_cons, map_cons, map_cons, ih]

theorem keepsJobs_update (hf : ∀ job, (f job).id = job.id) (h : index < t.jobs.length) :
    KeepsJobs t (t.update index f) where
  jobCapacity := rfl
  nextJobId := rfl
  issued := rfl
  ids := by
    show ((t.jobs.modify index f).map ArkshJob.id).Sublist _
    rw [map_modify_id hf]
  written := by
    intro hroom slot hslot
    refine mem_record ?_ hroom hslot
    intro i hi
    rw [mem_singleton.mp hi]
    exact h

theorem keepsJobs_removeJobAt (t : JobTable) (index : Nat) : KeepsJobs t (removeJobAt t index) := by
  unfold removeJobAt
  split
  · exact KeepsJobs.refl t
  · rename_i hlt
    refine ⟨rfl, rfl, rfl, ?_, ?_⟩
    · show ((t.jobs.take index ++ t.jobs.drop (index + 1)).map ArkshJob.id).Sublist _
      rw [← eraseIdx_eq_take_drop_succ]
      exact (eraseIdx_sublist t.jobs index).map ArkshJob.id
    · intro hroom slot hslot
      refine mem_record ?_ hroom hslot
      intro i hi
      rcases mem_cons.mp hi with rfl | hi
      · omega
      · have hbounds := mem_range'_1.mp hi; omega

theorem removeJobAt_jobs (h : index < t.jobs.length) :
    (removeJobAt t index).jobs = t.jobs.eraseIdx index := by
  unfold removeJobAt
  rw [if_neg (not_le.mpr h), eraseIdx_eq_take_drop_succ]

theorem removalLaw (h : index < t.jobs.length) : RemovalLaw t index := by
  have hjobs := removeJobAt_jobs h
  constructor
  · intro i hi; rw [hjobs, getElem?_eraseIdx_of_lt hi]
  · intro i hi; rw [hjobs, getElem?_eraseIdx_of_ge hi]

theorem keepsJobs_pruneFrom (rounds index : Nat) (t : JobTable) : KeepsJobs t (pruneFrom rounds index t) := by
  induction rounds generalizing index t with
  | zero => exact KeepsJobs.refl t
  | succ rounds ih =>
    unfold pruneFrom
    split
    · exact KeepsJobs.refl t
    · split
      · exact (keepsJobs_removeJobAt t index).trans (ih index _)
      · exact ih (index + 1) t

theorem keepsJobs_prune (t : JobTable) : KeepsJobs t (pruneCompletedJobs t) :=
  keepsJobs_pruneFrom t.jobs.length 0 t

theorem refreshJob_id (poll : ArkshPlatformAsyncProcess → Option ProcessReport) (job : ArkshJob) :
    (refreshJob poll job).id = job.id := by
  unfold refreshJob
  split
  · rfl
  · split
    · rfl
    · split <;> rfl

theorem keepsJobs_refresh (poll : Nat → ArkshPlatformAsyncProcess → Option ProcessReport)
    (t : JobTable) : KeepsJobs t (arkshShellRefreshJobs poll t) where
  jobCapacity := rfl
  nextJobId := rfl
  issued := rfl
  ids := by
    show ((t.jobs.mapIdx fun slot => refreshJob (poll slot)).map ArkshJob.id).Sublist _
    have hsame : (t.jobs.mapIdx fun slot => refreshJob (poll slot)).map ArkshJob.id =
        t.jobs.map ArkshJob.id := by
      apply ext_getElem?
      intro i
      rw [getElem?_map, getElem?_map, getElem?_mapIdx, Option.map_map]
      apply congrArg (fun f => Option.map f (t.jobs)[i]?)
      funext job
      exact refreshJob_id (poll i) job
    rw [hsame]
  written := by
    intro hroom slot hslot
    refine mem_record ?_ hroom hslot
    intro i hi
    exact mem_range.mp hi

theorem keepsJobs_waitForJobAt (wait : ArkshPlatformAsyncProcess → Option ProcessReport)
    (t : JobTable) (index : Nat) : KeepsJobs t (waitForJobAt wait t index).2 := by
  unfold waitForJobAt
  split
  · exact KeepsJobs.refl t
  · rename_i job hjob
    have hlt : index < t.jobs.length := (List.getElem?_eq_some_iff.mp hjob).1
    split
    · exact keepsJobs_removeJobAt t index
    · exact KeepsJobs.refl t
    · split
      · exact KeepsJobs.refl t
      · split
        · exact keepsJobs_update (fun _ => rfl) hlt
        · refine (keepsJobs_update ?_ hlt).trans (keepsJobs_removeJobAt _ index)
          intro job
          rfl

theorem keepsJobs_waitAll (rounds round index : Nat) (r : Int × JobTable) :
    KeepsJobs r.2 (waitAll platform rounds round index r).2 := by
  induction rounds generalizing round index r with
  | zero => exact KeepsJobs.refl r.2
  | succ rounds ih =>
    obtain ⟨lastStatus, t⟩ := r
    unfold waitAll
    split
    · have hwait := keepsJobs_waitForJobAt (platform.wait round) t index
      split
      · rename_i heq
        rw [heq] at hwait
        exact hwait
      · rename_i status t' heq
        rw [heq] at hwait
        split
        · exact hwait
        · exact hwait.trans (ih _ _ (status, t'))
    · exact KeepsJobs.refl t

theorem keepsJobs_waitEach (texts : List Text) (round : Nat) (r : Int × JobTable) :
    KeepsJobs r.2 (waitEach platform texts round r).2 := by
  induction texts generalizing round r with
  | nil => exact KeepsJobs.refl r.2
  | cons text texts ih =>
    obtain ⟨lastStatus, t⟩ := r
    unfold waitEach
    split
    · exact KeepsJobs.refl t
    · have hrefresh := keepsJobs_refresh (platform.poll round) t
      dsimp only
      split
      · exact hrefresh
      · rename_i index _
        have hwait := keepsJobs_waitForJobAt (platform.wait round)
          (arkshShellRefreshJobs (platform.poll round) t) index
        split
        · rename_i heq
          rw [heq] at hwait
          exact hrefresh.trans hwait
        · rename_i status t' heq
          rw [heq] at hwait
          split
          · exact hrefresh.trans hwait
          · exact (hrefresh.trans hwait).trans (ih _ (status, t'))

theorem keepsJobs_commandWait (args : List Text) (t : JobTable) :
    KeepsJobs t (commandWait platform args t).2 := by
  have hrefresh := keepsJobs_refresh (platform.poll 0) t
  unfold commandWait
  split
  · exact hrefresh.trans (keepsJobs_waitAll _ _ _ (0, _))
  · exact hrefresh.trans (keepsJobs_waitEach _ _ (0, _))

theorem namedSlot_lt {slots : Option (Option Nat)} {job : ArkshJob}
    (h : (slots.bind fun slot => slot.bind fun index =>
      ((t.jobs)[index]?).map fun job => (index, job)) = some (index, job)) :
    index < t.jobs.length := by
  obtain ⟨slot, _, hslot⟩ := bind_eq_some_iff.mp h
  obtain ⟨i, _, hi⟩ := bind_eq_some_iff.mp hslot
  obtain ⟨j, hj, heq⟩ := map_eq_some_iff.mp hi
  cases heq
  exact (List.getElem?_eq_some_iff.mp hj).1

theorem keepsJobs_commandFg (arg : Option Text) (t : JobTable) :
    KeepsJobs t (commandFg platform arg t).2 := by
  have hrefresh := keepsJobs_refresh (platform.poll 0) t
  unfold commandFg
  dsimp only
  split
  · exact hrefresh
  · rename_i index job hnamed
    have hlt := namedSlot_lt hnamed
    split
    · exact hrefresh
    · split
      · exact hrefresh
      · split
        · exact hrefresh
        · split
          · exact hrefresh.trans (keepsJobs_update (fun _ => rfl) hlt)
          · refine hrefresh.trans ((keepsJobs_update ?_ hlt).trans (keepsJobs_removeJobAt _ index))
            intro job
            rfl

theorem keepsJobs_commandBg (arg : Option Text) (t : JobTable) :
    KeepsJobs t (commandBg platform arg t).2 := by
  have hrefresh := keepsJobs_refresh (platform.poll 0) t
  unfold commandBg
  dsimp only
  split
  · exact hrefresh
  · rename_i index job hnamed
    have hlt := namedSlot_lt hnamed
    split
    · exact hrefresh
    · exact hrefresh
    · split
      · exact hrefresh
      · exact hrefresh.trans (keepsJobs_update (fun _ => rfl) hlt)

theorem keepsJobs_beforeStart (t : JobTable) : KeepsJobs t (beforeStart platform t) := by
  have hrefresh := keepsJobs_refresh (platform.poll 0) t
  unfold beforeStart
  dsimp only
  split
  · exact hrefresh.trans (keepsJobs_prune _)
  · exact hrefresh

end Keep

/-! ## 6. What gives one -/

/-- **Where it does not fail, there is the room that was asked for.** -/
theorem growHeapArray_ge {capacity required maxCapacity next : Nat} {allocated : Bool}
    (h : growHeapArray capacity required maxCapacity allocated = some next) :
    capacity ≤ next ∧ required ≤ next := by
  unfold growHeapArray at h
  by_cases hroom : required = 0 ∨ required ≤ capacity
  · rw [if_pos hroom] at h
    have heq := Option.some.inj h
    omega
  · rw [if_neg hroom] at h
    by_cases hmax : 0 < maxCapacity ∧ maxCapacity < required
    · rw [if_pos hmax] at h; cases h
    · rw [if_neg hmax] at h
      dsimp only at h
      split at h
      · cases h
      · rename_i hnext
        have heq := Option.some.inj h
        omega

theorem nextInt_of_pos {n : Int} (h : n < 2 ^ 31) (hpos : 0 < n) (hnext : 0 < nextInt n) :
    nextInt n = n + 1 := by
  unfold nextInt at *
  unfold Int.bmod at *
  dsimp only at *
  split at hnext <;> rename_i hhalf
  · rw [if_pos hhalf]; omega
  · omega

theorem nextInt_lt (n : Int) : nextInt n < 2 ^ 31 := by
  unfold nextInt Int.bmod
  dsimp only
  split <;> omega

/-- What holds of the table as long as there was room. -/
structure SafeJobs (t : JobTable) : Prop where
  inCapacity : t.jobs.length ≤ t.jobCapacity
  inLimit : t.jobs.length ≤ arkshMaxJobs
  inBounds : ∀ slot ∈ t.written, slot.1 < slot.2
  given : ∀ id ∈ t.jobs.map ArkshJob.id, id ∈ t.issued
  distinct : (t.jobs.map ArkshJob.id).Nodup
  neverReused : t.issued.Nodup
  positive : ∀ id ∈ t.issued, 0 < id
  fresh : 0 < t.nextJobId → ∀ id ∈ t.issued, id < t.nextJobId
  small : t.nextJobId < 2 ^ 31

theorem safeJobs_start : SafeJobs .start where
  inCapacity := le_refl _
  inLimit := zero_le _
  inBounds := by
    intro slot hslot
    exact absurd hslot not_mem_nil
  given := by
    intro id hid
    exact absurd hid not_mem_nil
  distinct := nodup_nil
  neverReused := nodup_nil
  positive := by
    intro id hid
    exact absurd hid not_mem_nil
  fresh := by
    intro _ id hid
    exact absurd hid not_mem_nil
  small := by decide

section Safe

variable {t t' : JobTable} {state : ArkshJobState} {command : Text}
  {process : ArkshPlatformAsyncProcess}

section

variable (h : SafeJobs t)
include h

theorem SafeJobs.law : JobLaw t where
  inCapacity := h.inCapacity
  inLimit := h.inLimit
  inBounds := h.inBounds
  positive := by
    intro job hjob
    exact h.positive job.id (h.given job.id (mem_map_of_mem hjob))
  distinct := h.distinct
  neverReused := h.neverReused
  removal := fun _ => removalLaw

theorem SafeJobs.keeps (hkeeps : KeepsJobs t t') : SafeJobs t' where
  inCapacity := by
    rw [hkeeps.jobCapacity]
    exact le_trans hkeeps.length_le h.inCapacity
  inLimit := le_trans hkeeps.length_le h.inLimit
  inBounds := by
    intro slot hslot
    rcases hkeeps.written h.inCapacity slot hslot with hold | hbound
    · exact h.inBounds slot hold
    · exact hbound
  given := by
    intro id hid
    rw [hkeeps.issued]
    exact h.given id (hkeeps.ids.subset hid)
  distinct := h.distinct.sublist hkeeps.ids
  neverReused := by
    rw [hkeeps.issued]
    exact h.neverReused
  positive := by
    rw [hkeeps.issued]
    exact h.positive
  fresh := by
    rw [hkeeps.issued, hkeeps.nextJobId]
    exact h.fresh
  small := by
    rw [hkeeps.nextJobId]
    exact h.small

theorem SafeJobs.grow {jobCapacity : Nat} (hgrow : t.jobCapacity ≤ jobCapacity) :
    SafeJobs { t with jobCapacity } :=
  { h with inCapacity := le_trans h.inCapacity hgrow }

/-- **With a free slot and an id left, an append keeps the table safe.** -/
theorem SafeJobs.append (hroom : t.jobs.length < t.jobCapacity)
    (hlimit : t.jobs.length < arkshMaxJobs) (hid : 0 < t.nextJobId) :
    SafeJobs (t.append state command process) := by
  have hfresh := h.fresh hid
  have hnew : t.nextJobId ∉ t.issued := by
    intro hmem
    exact absurd (hfresh _ hmem) (Int.lt_irrefl _)
  have hids : (t.append state command process).jobs.map ArkshJob.id =
      t.jobs.map ArkshJob.id ++ [t.nextJobId] := by
    show (t.jobs ++ [_]).map ArkshJob.id = _
    rw [map_append]
    rfl
  have hlength : (t.append state command process).jobs.length = t.jobs.length + 1 := by
    show (t.jobs ++ [_]).length = _
    rw [length_append]
    rfl
  refine ⟨?_, ?_, ?_, ?_, ?_, ?_, ?_, ?_, ?_⟩
  · rw [hlength]; exact hroom
  · rw [hlength]; exact hlimit
  · intro slot hslot
    rcases mem_cons.mp hslot with rfl | hold
    · exact hroom
    · exact h.inBounds slot hold
  · intro id hmem
    rw [hids] at hmem
    rcases mem_append.mp hmem with hold | hlast
    · exact mem_cons_of_mem _ (h.given id hold)
    · rw [mem_singleton.mp hlast]; exact mem_cons_self
  · rw [hids]
    have hconcat := List.Nodup.concat (fun hmem => hnew (h.given _ hmem)) h.distinct
    rwa [concat_eq_append] at hconcat
  · exact nodup_cons.mpr ⟨hnew, h.neverReused⟩
  · intro id hmem
    rcases mem_cons.mp hmem with rfl | hold
    · exact hid
    · exact h.positive id hold
  · intro hpos id hmem
    have hnext : nextInt t.nextJobId = t.nextJobId + 1 := nextInt_of_pos h.small hid hpos
    show id < nextInt t.nextJobId
    rcases mem_cons.mp hmem with rfl | hold
    · omega
    · have hlt := hfresh id hold; omega
  · exact nextInt_lt t.nextJobId

end

theorem not_law_append (h : JobLaw (t.append state command process)) :
    t.jobs.length < t.jobCapacity ∧ 0 < t.nextJobId := by
  constructor
  · exact h.inBounds (t.jobs.length, t.jobCapacity) mem_cons_self
  · have hlast : (⟨t.nextJobId, state, 0, 0, copyString arkshMaxLine command, process⟩ : ArkshJob) ∈
        (t.append state command process).jobs := mem_append_right _ mem_cons_self
    exact h.positive _ hlast

theorem start_cases (platform : Platform) (executablePath commandText : Text)
    (spawned : Option ArkshPlatformAsyncProcess) (allocated : Bool) (t : JobTable) :
    let e := JobEvent.start platform executablePath commandText spawned allocated
    (¬ e.GivesId t ∧ KeepsJobs t (e.run t)) ∨
    (e.GivesId t ∧ ∃ jobCapacity process,
      (beforeStart platform t).jobCapacity ≤ jobCapacity ∧
      (beforeStart platform t).jobs.length < jobCapacity ∧
      (beforeStart platform t).jobs.length < arkshMaxJobs ∧
      e.run t = { beforeStart platform t with jobCapacity }.append .running commandText process) := by
  intro e
  have hbefore : KeepsJobs t (beforeStart platform t) := keepsJobs_beforeStart t
  show (¬ e.GivesId t ∧ KeepsJobs t (arkshShellStartBackgroundJob platform executablePath commandText
    spawned allocated t).2) ∨ _
  unfold arkshShellStartBackgroundJob
  by_cases hfull : arkshMaxJobs ≤ (beforeStart platform t).jobs.length
  · rw [if_pos hfull]; exact Or.inl ⟨fun hgives => absurd hgives.1 (not_lt.mpr hfull), hbefore⟩
  · rw [if_neg hfull]
    by_cases hpath : executablePath = []
    · rw [if_pos hpath]; exact Or.inl ⟨fun hgives => hgives.2.1 hpath, hbefore⟩
    · rw [if_neg hpath]
      cases spawned with
      | none =>
        refine Or.inl ⟨?_, hbefore⟩
        intro hgives
        cases hgives.2.2.1
      | some process =>
        cases hgrow : growHeapArray (beforeStart platform t).jobCapacity
            ((beforeStart platform t).jobs.length + 1) arkshMaxJobs allocated with
        | none =>
          refine Or.inl ⟨?_, hbefore⟩
          intro hgives
          have hsome := hgives.2.2.2
          rw [hgrow] at hsome
          cases hsome
        | some jobCapacity =>
          have hge := growHeapArray_ge hgrow
          refine Or.inr ⟨⟨not_le.mp hfull, hpath, rfl, ?_⟩, jobCapacity, process, hge.1, hge.2,
            not_le.mp hfull, ?_⟩
          · rw [hgrow]; rfl
          · show (arkshShellStartBackgroundJob platform executablePath commandText (some process)
              allocated t).2 = _
            unfold arkshShellStartBackgroundJob
            rw [if_neg hfull, if_neg hpath, hgrow]

theorem safeJobs_run_keeps (h : SafeJobs t) {e : JobEvent} (hkeeps : KeepsJobs t (e.run t))
    (hgives : ¬ e.GivesId t) :
    (e.HasRoom t → SafeJobs (e.run t)) ∧ (JobLaw (e.run t) → e.HasRoom t) := by
  constructor
  · intro _; exact h.keeps hkeeps
  · intro _; exact ⟨fun hyes => absurd hyes hgives, fun _ _ _ hyes => absurd hyes hgives⟩

/-- **An event leaves a safe table safe iff it finds room, and otherwise breaks the law.** -/
theorem safeJobs_run (h : SafeJobs t) (e : JobEvent) :
    (e.HasRoom t → SafeJobs (e.run t)) ∧ (JobLaw (e.run t) → e.HasRoom t) := by
  cases e with
  | start platform path text spawned allocated =>
    rcases start_cases platform path text spawned allocated t with
      ⟨hgives, hkeeps⟩ | ⟨hgives, jobCapacity, process, hgrow, hroom, hlimit, hrun⟩
    · exact safeJobs_run_keeps h hkeeps hgives
    · have hbefore : KeepsJobs t (beforeStart platform t) := keepsJobs_beforeStart t
      constructor
      · intro hhas
        have hid := hhas.1 hgives
        rw [← hbefore.nextJobId] at hid
        rw [hrun]
        exact ((h.keeps hbefore).grow hgrow).append hroom hlimit hid
      · intro hlaw
        rw [hrun] at hlaw
        have hid := (not_law_append hlaw).2
        refine ⟨?_, ?_⟩
        · intro _
          rw [← hbefore.nextJobId]
          exact hid
        · intro name process heq; cases heq
  | stopped name process =>
    by_cases hgives : process.pgid ≠ 0 ∧ t.jobs.length < arkshMaxJobs
    · have hrun : (JobEvent.stopped name process).run t = t.append .stopped name process := by
        show foregroundStopped name process t = _
        unfold foregroundStopped
        rw [if_pos hgives]
      rw [hrun]
      constructor
      · intro hhas; exact h.append (hhas.2 name process rfl hgives) hgives.2 (hhas.1 hgives)
      · intro hlaw
        obtain ⟨hroom, hid⟩ := not_law_append hlaw
        exact ⟨fun _ => hid, fun _ _ _ _ => hroom⟩
    · have hrun : (JobEvent.stopped name process).run t = t := by
        show foregroundStopped name process t = _
        unfold foregroundStopped
        rw [if_neg hgives]
      refine safeJobs_run_keeps h ?_ hgives
      rw [hrun]
      exact KeepsJobs.refl t
  | refresh platform => exact safeJobs_run_keeps h (keepsJobs_refresh (platform.poll 0) t) id
  | wait platform args => exact safeJobs_run_keeps h (keepsJobs_commandWait args t) id
  | fg platform arg => exact safeJobs_run_keeps h (keepsJobs_commandFg arg t) id
  | bg platform arg => exact safeJobs_run_keeps h (keepsJobs_commandBg arg t) id
  | remove index => exact safeJobs_run_keeps h (keepsJobs_removeJobAt t index) id
  | prune => exact safeJobs_run_keeps h (keepsJobs_prune t) id

theorem jobLaw_run_iff (h : SafeJobs t) (events : List JobEvent) :
    (∀ n, JobLaw (runJobEvents (events.take n) t)) ↔ AllHaveRoom events t := by
  induction events generalizing t with
  | nil =>
    constructor
    · intro _; exact trivial
    · intro _ n
      rw [take_nil]
      exact h.law
  | cons e events ih =>
    obtain ⟨hsafe, hroom⟩ := safeJobs_run h e
    constructor
    · intro hall
      have hhas : e.HasRoom t := hroom (hall 1)
      exact ⟨hhas, (ih (hsafe hhas)).mp fun n => hall (n + 1)⟩
    · intro hhas n
      cases n with
      | zero => exact h.law
      | succ n => exact (ih (hsafe hhas.1)).mpr hhas.2 n

end Safe

/-- **The table of jobs is safe all along a run iff whatever is stopped in the foreground finds a
    free slot and the ids have not run out.** -/
theorem jobLaw_iff (events : List JobEvent) :
    (∀ n, JobLaw (runJobEvents (events.take n) .start)) ↔ AllHaveRoom events .start :=
  jobLaw_run_iff safeJobs_start events

/-- The first command that is stopped is written into a table without slots. -/
theorem not_jobLaw_stopped :
    ¬ ∀ (events : List JobEvent) (n : Nat), JobLaw (runJobEvents (events.take n) .start) := by
  intro hall
  have hroom := (hall [.stopped "vi".toList ⟨7, 7⟩] 1).inCapacity
  exact absurd hroom (by decide)

end Arksh
