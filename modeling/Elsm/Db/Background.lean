import Mathlib.Algebra.Order.Field.Rat
import Elsm.Db.WriteQueue

/-!
# Scheduling the background thread (`db/db_impl.cpp`, `PosixEnv::Schedule`)

Flushes and compactions run on one thread of the environment, which works through a queue.  Whoever
makes work for it calls `MaybeScheduleCompaction`, which queues `BGWork` unless the flag
`bg_compaction_scheduled_` says that it is queued already.  A missed call would leave the work undone
and, once writers wait for it, the database hanging.

One event is what a thread does while it holds the mutex once.  What `PickCompaction` and the host
answer, and the files of a version that is installed, are arguments of the events.  A wait on `bg_cv_`
may end at any time.
-/

namespace Elsm

/-! ## `VersionSet::Finalize` -/

def kL0_CompactionTrigger : Nat := 99999

def maxBytesForLevel (level : Nat) : Nat := 10 * 1048576 * 10 ^ (level - 1)

def levelScore (version : Version Bytes) (level : Nat) : ℚ :=
  if level = 0 then ((version.files 0).length : ℚ) / kL0_CompactionTrigger
  else ((totalFileSize (version.files level) % 2 ^ 64 : Nat) : ℚ) / maxBytesForLevel level

/-- One turn of the loop of `Finalize`, on the best level so far, if any, and its score. -/
def betterLevel (version : Version Bytes) (best : Option Nat × ℚ) (level : Nat) : Option Nat × ℚ :=
  if best.2 < levelScore version level then (some level, levelScore version level) else best

def finalize (version : Version Bytes) : Option Nat × ℚ :=
  (List.range (kNumLevels - 1)).foldl (betterLevel version) (none, -1)

def Version.needsCompaction (version : Version Bytes) : Bool :=
  decide (1 ≤ (finalize version).2) || version.fileToCompact.isSome

theorem le_betterLevel (v : Version Bytes) (best : Option Nat × ℚ) (l : Nat) :
    best.2 ≤ (betterLevel v best l).2 ∧ levelScore v l ≤ (betterLevel v best l).2 := by
  rw [betterLevel]
  split
  case isTrue lt => exact ⟨lt.le, le_rfl⟩
  case isFalse notLess => exact ⟨le_rfl, not_lt.mp notLess⟩

theorem le_foldl_betterLevel (v : Version Bytes) (levels : List Nat) (best : Option Nat × ℚ) :
    best.2 ≤ (levels.foldl (betterLevel v) best).2 ∧
      ∀ l ∈ levels, levelScore v l ≤ (levels.foldl (betterLevel v) best).2 := by
  induction levels generalizing best with
  | nil => simp
  | cons first rest ih =>
    rw [List.foldl_cons]
    have here := le_betterLevel v best first
    have later := ih (betterLevel v best first)
    refine ⟨here.1.trans later.1, fun l mem => ?_⟩
    cases List.mem_cons.mp mem with
    | inl isFirst => exact isFirst ▸ here.2.trans later.1
    | inr inR => exact later.2 l inR

theorem needsCompaction_of_stop {v : Version Bytes} (stop : kL0_StopWritesTrigger ≤ (v.files 0).length) :
    v.needsCompaction = true := by
  have score : 1 ≤ levelScore v 0 := by
    rw [levelScore, if_pos rfl, le_div_iff₀ (by norm_num [kL0_CompactionTrigger]), one_mul]
    exact_mod_cast stop
  have best := (le_foldl_betterLevel v (List.range (kNumLevels - 1)) (none, -1)).2 0 (by decide)
  rw [Version.needsCompaction, Bool.or_eq_true]
  exact .inl (decide_eq_true (score.trans best))

/-! ## The state -/

/-- What `PosixEnv` queues: `BGWork` of this database, or a function of another one. -/
inductive BGItem where
  | bgWork
  | other
  deriving DecidableEq

/-- Where the thread of the environment is while it does not hold the mutex.  `during` is set when a
compaction has been interrupted for a flush, and says whether it is a manual one. -/
inductive BGThread where
  /-- Not created, or not by the host. -/
  | absent
  | waiting
  | runningOther
  | starting
  /-- In `WriteLevel0Table`. -/
  | flushing (during : Option Bool)
  /-- In `LogAndApply`, called by `CompactMemTable`. -/
  | loggingFlush (during : Option Bool)
  /-- In `LogAndApply`, for a trivial move. -/
  | loggingMove
  /-- In `DoCompactionWork`. -/
  | compacting (isManual : Bool)
  /-- In `LogAndApply`, called by `InstallCompactionResults`. -/
  | loggingResults (isManual : Bool)
  deriving DecidableEq

def BGThread.running : BGThread → Bool
  | .absent | .waiting | .runningOther => false
  | _ => true

/-- Where a thread that calls the database is while it does not hold the mutex. -/
inductive Caller where
  | outside
  /-- In `MakeRoomForWrite`, at the head of its loop or asleep. -/
  | makingRoom (force allowDelay : Bool)
  /-- In `MakeRoomForWrite`, in `bg_cv_.Wait()`. -/
  | waitingRoom (force allowDelay : Bool)
  /-- In `Get`, with the version it holds. -/
  | reading (version : Nat)
  | compactingRange
  | waitingRange
  /-- In `TEST_CompactMemTable`, after its `Write`. -/
  | compactingMemTable
  | waitingMemTable
  deriving DecidableEq

namespace Caller

/-- In `bg_cv_.Wait()` and not woken. -/
def waits : Caller → Bool
  | waitingRoom _ _ | waitingRange | waitingMemTable => true
  | _ => false

def woken : Caller → Caller
  | waitingRoom force allowDelay => makingRoom force allowDelay
  | waitingRange => compactingRange
  | waitingMemTable => compactingMemTable
  | caller => caller

theorem woken_not_waits (caller : Caller) : caller.woken.waits = false := by
  cases caller <;> rfl

end Caller

structure Scheduler where
  bgError : Option Status
  shuttingDown : Bool
  /-- `imm_ != NULL` -/
  imm : Bool
  /-- The caller whose request `manual_compaction_` points to. -/
  manualCompaction : Option Nat
  /-- `manual.done` of a caller. -/
  manualDone : Nat → Bool
  versions : Nat → Version Bytes
  current : Nat
  bgCompactionScheduled : Bool
  queue : List BGItem
  startedBgthread : Bool
  bgThread : BGThread
  callers : Nat → Caller

namespace Scheduler

def setCaller (s : Scheduler) (t : Nat) (caller : Caller) : Scheduler :=
  { s with callers := Function.update s.callers t caller }

/-! ## The code under the mutex -/

def signalAll (s : Scheduler) : Scheduler := { s with callers := fun t => (s.callers t).woken }

def recordBackgroundError (s : Scheduler) (error : Status) : Scheduler :=
  if s.bgError.isNone then { s with bgError := some error }.signalAll else s

/-- `PosixEnv::Schedule`, which holds the environment's own mutex. -/
def schedule (s : Scheduler) (item : BGItem) : Scheduler :=
  { s with startedBgthread := true, queue := s.queue ++ [item] }

def needsCompaction (s : Scheduler) : Bool := (s.versions s.current).needsCompaction

def maybeScheduleCompaction (s : Scheduler) : Scheduler :=
  if s.bgCompactionScheduled then s
  else if s.shuttingDown then s
  else if s.bgError.isSome then s
  else if !s.imm && s.manualCompaction.isNone && !s.needsCompaction then s
  else { s with bgCompactionScheduled := true }.schedule .bgWork

def appendVersion (s : Scheduler) (files : Nat → List (FileMetaData Bytes)) : Scheduler :=
  { s with versions := Function.update s.versions (s.current + 1) ⟨files, none⟩, current := s.current + 1 }

def endBackgroundCall (s : Scheduler) : Scheduler :=
  { s with bgCompactionScheduled := false, bgThread := .waiting }.maybeScheduleCompaction.signalAll

/-! ### `CompactMemTable` -/

/-- `CompactMemTable` returns to `BackgroundCompaction`, which returns, or to `DoCompactionWork`. -/
def leaveFlush (s : Scheduler) : Option Bool → Scheduler
  | none => s.endBackgroundCall
  | some isManual => { s with bgThread := .compacting isManual }.signalAll

/-- `CompactMemTable` after `WriteLevel0Table` returned the status. -/
def afterWriteTable (s : Scheduler) (during : Option Bool) (status : Option Status) : Scheduler :=
  match status, s.shuttingDown with
  | none, false => { s with bgThread := .loggingFlush during }
  | none, true => (s.recordBackgroundError (.ioError "Deleting DB during memtable compaction")).leaveFlush during
  | some error, _ => (s.recordBackgroundError error).leaveFlush during

def afterLogFlush (s : Scheduler) (during : Option Bool) : Except Status (Nat → List (FileMetaData Bytes)) → Scheduler
  | .ok files => { s.appendVersion files with imm := false }.leaveFlush during
  | .error error => (s.recordBackgroundError error).leaveFlush during

/-! ### `BackgroundCompaction` -/

/-- `BackgroundCompaction` after the compaction.  A request that was withdrawn meanwhile left a null
pointer. -/
def endCompaction (s : Scheduler) (isManual : Bool) (status : Option Status) : Except Stop Scheduler :=
  match isManual, s.manualCompaction with
  | false, _ => .ok s.endBackgroundCall
  | true, none => .error .abort
  | true, some t =>
    .ok { s with
      manualDone := if status.isSome then Function.update s.manualDone t true else s.manualDone
      manualCompaction := none }.endBackgroundCall

/-- `BackgroundCompaction` up to where it releases the mutex.  `c` is the compaction that was chosen,
with the answer of `IsTrivialMove`. -/
def backgroundCompaction (s : Scheduler) (c : Option Bool) : Except Stop Scheduler :=
  if s.imm then .ok { s with bgThread := .flushing none }
  else
    let s := match s.manualCompaction with
      | some t => { s with manualDone := Function.update s.manualDone t c.isNone }
      | none => s
    let isManual := s.manualCompaction.isSome
    match c with
    | none => s.endCompaction isManual none
    | some isTrivialMove =>
      if !isManual && isTrivialMove then .ok { s with bgThread := .loggingMove }
      else .ok { s with bgThread := .compacting isManual }

def backgroundCall (s : Scheduler) (c : Option Bool) : Except Stop Scheduler :=
  if !s.bgCompactionScheduled then .error .abort
  else if s.shuttingDown then .ok s.endBackgroundCall
  else if s.bgError.isSome then .ok s.endBackgroundCall
  else s.backgroundCompaction c

/-- `LogAndApply` returned: the version is installed, or the error recorded. -/
def afterLog (s : Scheduler) (isManual : Bool) : Except Status (Nat → List (FileMetaData Bytes)) → Except Stop Scheduler
  | .ok files => (s.appendVersion files).endCompaction isManual none
  | .error error => (s.recordBackgroundError error).endCompaction isManual (some error)

/-- The end of `DoCompactionWork`.  `BackgroundCompaction` records the error a second time. -/
def endWork (s : Scheduler) (isManual : Bool) : Option Status → Except Stop Scheduler
  | none => .ok { s with bgThread := .loggingResults isManual }
  | some error => ((s.recordBackgroundError error).recordBackgroundError error).endCompaction isManual (some error)

/-! ### The callers -/

/-- One turn of the loop of `MakeRoomForWrite`. -/
def makeRoom (writeBufferSize : Nat) (s : Scheduler) (t : Nat) (force allowDelay : Bool) (memoryUsage : Nat)
    (opened : Option Status) : Scheduler :=
  let level0 := ((s.versions s.current).files 0).length
  if s.bgError.isSome then s.setCaller t .outside
  else if allowDelay ∧ kL0_SlowdownWritesTrigger ≤ level0 then s.setCaller t (.makingRoom force false)
  else if force = false ∧ memoryUsage ≤ writeBufferSize then s.setCaller t .outside
  else if s.imm then s.setCaller t (.waitingRoom force allowDelay)
  else if kL0_StopWritesTrigger ≤ level0 then s.setCaller t (.waitingRoom force allowDelay)
  else
    match opened with
    | some _ => s.setCaller t .outside
    | none => { s with imm := true }.maybeScheduleCompaction.setCaller t (.makingRoom false allowDelay)

/-- `UpdateStats` on a version.  `exhausted` says that no seeks are left. -/
def updateStats (s : Scheduler) (version : Nat) (seekFile : Option (FileMetaData Bytes × Nat)) (exhausted : Bool) :
    Scheduler :=
  match seekFile, exhausted, (s.versions version).fileToCompact with
  | some f, true, none =>
    { s with versions := Function.update s.versions version { s.versions version with fileToCompact := some f }
      }.maybeScheduleCompaction
  | _, _, _ => s

/-- One turn of the loop of `TEST_CompactRange`, and what follows it. -/
def testCompactRange (s : Scheduler) (t : Nat) : Scheduler :=
  if s.manualDone t = false ∧ s.shuttingDown = false ∧ s.bgError = none then
    match s.manualCompaction with
    | none => { s with manualCompaction := some t }.maybeScheduleCompaction
    | some _ => s.setCaller t .waitingRange
  else
    { s with manualCompaction := if s.manualCompaction = some t then none else s.manualCompaction
      }.setCaller t .outside

def testCompactMemTable (s : Scheduler) (t : Nat) : Scheduler :=
  if s.imm ∧ s.bgError = none then s.setCaller t .waitingMemTable else s.setCaller t .outside

/-! ## Events -/

end Scheduler

inductive SchedulerEvent where
  /-- A caller enters `MakeRoomForWrite`. -/
  | write (t : Nat) (force : Bool)
  | makeRoom (t memoryUsage : Nat) (opened : Option Status)
  /-- The leader of a group could not sync the log. -/
  | syncError (error : Status)
  | get (t : Nat)
  | getDone (t : Nat) (seekFile : Option (FileMetaData Bytes × Nat)) (exhausted : Bool)
  /-- `RecordReadSample`, with the file it found. -/
  | recordReadSample (seekFile : Option (FileMetaData Bytes × Nat)) (exhausted : Bool)
  | testCompactRange (t : Nat)
  | compactRangeTurn (t : Nat)
  | testCompactMemTable (t : Nat)
  | compactMemTableTurn (t : Nat)
  /-- `bg_cv_.Wait()` ends without a signal. -/
  | wake (t : Nat)
  | shutDown
  | otherSchedules
  | threadStarts
  | takeItem
  | otherDone
  | backgroundCall (c : Option Bool)
  | afterWriteTable (status : Option Status)
  | afterLog (result : Except Status (Nat → List (FileMetaData Bytes)))
  /-- `DoCompactionWork` finds `has_imm_` set. -/
  | interrupt
  | endWork (status : Option Status)

namespace Scheduler

def stepThread (s : Scheduler) : SchedulerEvent → Except Stop Scheduler
  | .threadStarts =>
    if s.startedBgthread ∧ s.bgThread = .absent then .ok { s with bgThread := .waiting } else .error .disabled
  | .takeItem =>
    match s.bgThread, s.queue with
    | .waiting, .bgWork :: rest => .ok { s with queue := rest, bgThread := .starting }
    | .waiting, .other :: rest => .ok { s with queue := rest, bgThread := .runningOther }
    | _, _ => .error .disabled
  | .otherDone => if s.bgThread = .runningOther then .ok { s with bgThread := .waiting } else .error .disabled
  | .backgroundCall c => if s.bgThread = .starting then s.backgroundCall c else .error .disabled
  | .afterWriteTable status =>
    match s.bgThread with
    | .flushing during => .ok (s.afterWriteTable during status)
    | _ => .error .disabled
  | .afterLog result =>
    match s.bgThread with
    | .loggingFlush during => .ok (s.afterLogFlush during result)
    | .loggingMove => s.afterLog false result
    | .loggingResults isManual => s.afterLog isManual result
    | _ => .error .disabled
  | .interrupt =>
    match s.bgThread with
    | .compacting isManual => .ok (if s.imm then { s with bgThread := .flushing (some isManual) } else s)
    | _ => .error .disabled
  | .endWork status =>
    match s.bgThread with
    | .compacting isManual => s.endWork isManual status
    | _ => .error .disabled
  | _ => .error .disabled

def stepCaller (writeBufferSize : Nat) (s : Scheduler) : SchedulerEvent → Except Stop Scheduler
  | .write t force =>
    if s.callers t = .outside then .ok (s.setCaller t (.makingRoom force !force)) else .error .disabled
  | .makeRoom t memoryUsage opened =>
    match s.callers t with
    | .makingRoom force allowDelay => .ok (s.makeRoom writeBufferSize t force allowDelay memoryUsage opened)
    | _ => .error .disabled
  | .syncError error => .ok (s.recordBackgroundError error)
  | .get t => if s.callers t = .outside then .ok (s.setCaller t (.reading s.current)) else .error .disabled
  | .getDone t seekFile exhausted =>
    match s.callers t with
    | .reading version => .ok ((s.updateStats version seekFile exhausted).setCaller t .outside)
    | _ => .error .disabled
  | .recordReadSample seekFile exhausted => .ok (s.updateStats s.current seekFile exhausted)
  | .testCompactRange t =>
    if s.callers t = .outside then
      .ok ({ s with manualDone := Function.update s.manualDone t false }.setCaller t .compactingRange)
    else .error .disabled
  | .compactRangeTurn t => if s.callers t = .compactingRange then .ok (s.testCompactRange t) else .error .disabled
  | .testCompactMemTable t =>
    if s.callers t = .outside then .ok (s.setCaller t .compactingMemTable) else .error .disabled
  | .compactMemTableTurn t =>
    if s.callers t = .compactingMemTable then .ok (s.testCompactMemTable t) else .error .disabled
  | .wake t => .ok (s.setCaller t (s.callers t).woken)
  | .shutDown => .ok { s with shuttingDown := true }
  | .otherSchedules => .ok (s.schedule .other)
  | _ => .error .disabled

def step (writeBufferSize : Nat) (s : Scheduler) (event : SchedulerEvent) : Except Stop Scheduler :=
  match event with
  | .threadStarts | .takeItem | .otherDone | .backgroundCall _ | .afterWriteTable _ | .afterLog _ | .interrupt
  | .endWork _ => s.stepThread event
  | _ => s.stepCaller writeBufferSize event

/-- The database as `DB::Open` has set it up, with any version, before it calls
`MaybeScheduleCompaction`.  The environment may serve other databases. -/
structure Fresh (s : Scheduler) : Prop where
  noError : s.bgError = none
  open_ : s.shuttingDown = false
  noImm : s.imm = false
  noManual : s.manualCompaction = none
  unscheduled : s.bgCompactionScheduled = false
  notQueued : BGItem.bgWork ∉ s.queue
  notRunning : s.bgThread.running = false
  quiet : ∀ t, s.callers t = .outside

/-- The states reached after `DB::Open` has returned OK. -/
def Reachable (writeBufferSize : Nat) (fresh s : Scheduler) : Prop :=
  Transition.Reaches (Transition.Steps (step writeBufferSize)) (fun _ _ => True) fresh.maybeScheduleCompaction s

/-! ## The invariant -/

def queuedOrRunning (s : Scheduler) : Nat := s.queue.count .bgWork + if s.bgThread.running then 1 else 0

def workPending (s : Scheduler) : Prop := s.imm = true ∨ s.manualCompaction ≠ none ∨ s.needsCompaction = true

/-- The flag says whether `BGWork` is queued or running, and it is for all pending work. -/
structure Accounted (s : Scheduler) : Prop where
  flag : s.queuedOrRunning = if s.bgCompactionScheduled then 1 else 0
  pending : s.bgError = none → s.shuttingDown = false → s.workPending → s.bgCompactionScheduled = true

structure Inv (s : Scheduler) : Prop extends Accounted s where
  waiting : s.shuttingDown = false → ∀ t, (s.callers t).waits = true → s.bgCompactionScheduled = true

variable {s s' : Scheduler}

theorem Inv.setCaller (inv : Inv s) (t : Nat) (caller : Caller)
    (waiting : s.shuttingDown = false → caller.waits = true → s.bgCompactionScheduled = true) :
    Inv (s.setCaller t caller) := by
  refine ⟨⟨inv.flag, inv.pending⟩, fun isOpen u waits => ?_⟩
  by_cases same : u = t
  · subst same
    simp only [Scheduler.setCaller, Function.update_self] at waits
    exact waiting isOpen waits
  · simp only [Scheduler.setCaller, Function.update_of_ne same] at waits
    exact inv.waiting isOpen u waits

theorem Accounted.signalAll (accounted : Accounted s) : Inv s.signalAll := by
  refine ⟨⟨accounted.flag, accounted.pending⟩, fun _ t waits => ?_⟩
  rw [Scheduler.signalAll, Caller.woken_not_waits] at waits
  cases waits

theorem Inv.recordBackgroundError (inv : Inv s) (error : Status) : Inv (s.recordBackgroundError error) := by
  rw [Scheduler.recordBackgroundError]
  split
  · apply Accounted.signalAll
    exact ⟨inv.flag, nofun⟩
  · exact inv

theorem accounted_maybeScheduleCompaction
    (flag : s.queuedOrRunning = if s.bgCompactionScheduled then 1 else 0) : Accounted s.maybeScheduleCompaction := by
  rw [maybeScheduleCompaction]
  split
  case isTrue scheduled => exact ⟨flag, fun _ _ _ => scheduled⟩
  case isFalse unscheduled =>
    split
    case isTrue closing =>
      refine ⟨flag, fun _ isOpen => ?_⟩
      rw [closing] at isOpen
      cases isOpen
    case isFalse =>
      split
      case isTrue failed => exact ⟨flag, fun noError => by simp [noError] at failed⟩
      case isFalse =>
        split
        case isTrue idle =>
          refine ⟨flag, fun _ _ pending => ?_⟩
          simp only [Bool.and_eq_true, Bool.not_eq_eq_eq_not, Bool.not_true, Option.isNone_iff_eq_none] at idle
          obtain ⟨⟨noImm, noManual⟩, noNeed⟩ := idle
          obtain imm | manual | needs := pending
          · simp [noImm] at imm
          · exact absurd noManual manual
          · simp [noNeed] at needs
        case isFalse =>
          rw [if_neg unscheduled, queuedOrRunning, Nat.add_eq_zero_iff] at flag
          refine ⟨?_, fun _ _ _ => rfl⟩
          rw [queuedOrRunning, schedule, List.count_append, flag.1, flag.2]
          rfl

theorem maybeScheduleCompaction_keeps (s : Scheduler) :
    s.maybeScheduleCompaction.callers = s.callers ∧ s.maybeScheduleCompaction.shuttingDown = s.shuttingDown ∧
      s.maybeScheduleCompaction.bgThread = s.bgThread ∧
      (s.bgCompactionScheduled = true → s.maybeScheduleCompaction.bgCompactionScheduled = true) := by
  rw [maybeScheduleCompaction]
  repeat' split
  all_goals exact ⟨rfl, rfl, rfl, fun scheduled => by first | exact scheduled | rfl⟩

/-- Work that a caller makes is accounted for when it calls `MaybeScheduleCompaction` before it
releases the mutex. -/
theorem Inv.maybeScheduleCompaction (flag : s.queuedOrRunning = if s.bgCompactionScheduled then 1 else 0)
    (waiting : s.shuttingDown = false → ∀ t, (s.callers t).waits = true → s.bgCompactionScheduled = true) :
    Inv s.maybeScheduleCompaction := by
  obtain ⟨callers, shuttingDown, -, stays⟩ := maybeScheduleCompaction_keeps s
  refine ⟨accounted_maybeScheduleCompaction flag, fun isOpen t waits => ?_⟩
  rw [callers] at waits
  rw [shuttingDown] at isOpen
  exact stays (waiting isOpen t waits)

/-! ### The background thread -/

/-- `BGWork` runs and is not queued a second time. -/
structure Busy (s : Scheduler) : Prop where
  scheduled : s.bgCompactionScheduled = true
  notQueued : s.queue.count .bgWork = 0
  running : s.bgThread.running = true

theorem Busy.inv (busy : Busy s) : Inv s := by
  refine ⟨⟨?_, fun _ _ _ => busy.scheduled⟩, fun _ _ _ => busy.scheduled⟩
  rw [queuedOrRunning, busy.notQueued, busy.running, busy.scheduled]
  rfl

theorem Inv.busy (inv : Inv s) (running : s.bgThread.running = true) : Busy s := by
  have flag := inv.flag
  rw [queuedOrRunning, running, if_pos rfl] at flag
  cases scheduled : s.bgCompactionScheduled with
  | false =>
    rw [scheduled] at flag
    cases flag
  | true =>
    rw [scheduled] at flag
    exact ⟨scheduled, Nat.succ.inj flag, running⟩

section

variable (busy : Busy s)

include busy

theorem Busy.recordBackgroundError (error : Status) : Busy (s.recordBackgroundError error) := by
  rw [Scheduler.recordBackgroundError]
  split
  · exact ⟨busy.scheduled, busy.notQueued, busy.running⟩
  · exact busy

/-- `BackgroundCall` has ended and woken everybody who waited for it. -/
structure Ended (s : Scheduler) : Prop where
  inv : Inv s
  allWoken : ∀ t, (s.callers t).waits = false

theorem Busy.endBackgroundCall : Ended s.endBackgroundCall where
  inv := by
    rw [Scheduler.endBackgroundCall]
    apply Accounted.signalAll
    apply accounted_maybeScheduleCompaction
    exact busy.notQueued
  allWoken t := Caller.woken_not_waits _

theorem Busy.leaveFlush (during : Option Bool) : Busy (s.leaveFlush during) ∨ Ended (s.leaveFlush during) := by
  cases during with
  | none => exact .inr busy.endBackgroundCall
  | some isManual => exact .inl ⟨busy.scheduled, busy.notQueued, rfl⟩

variable {isManual : Bool}

theorem Busy.endCompaction {status : Option Status} (run : s.endCompaction isManual status = .ok s') : Ended s' := by
  unfold Scheduler.endCompaction at run
  split at run
  · cases run
    exact busy.endBackgroundCall
  · cases run
  cases run
  apply Busy.endBackgroundCall
  exact ⟨busy.scheduled, busy.notQueued, busy.running⟩

theorem Busy.backgroundCall {c : Option Bool} (run : s.backgroundCall c = .ok s') : Busy s' ∨ Ended s' := by
  rw [Scheduler.backgroundCall] at run
  split at run
  · cases run
  split at run
  · cases run
    exact .inr busy.endBackgroundCall
  split at run
  · cases run
    exact .inr busy.endBackgroundCall
  rw [Scheduler.backgroundCompaction] at run
  split at run
  · cases run
    exact .inl ⟨busy.scheduled, busy.notQueued, rfl⟩
  have marked : Busy (match s.manualCompaction with
      | some t => { s with manualDone := Function.update s.manualDone t c.isNone }
      | none => s) := by
    split
    · exact ⟨busy.scheduled, busy.notQueued, busy.running⟩
    · exact busy
  generalize (match s.manualCompaction with
      | some t => { s with manualDone := Function.update s.manualDone t c.isNone }
      | none => s) = next at marked run
  simp only at run
  split at run
  · exact .inr (marked.endCompaction run)
  split at run
  · cases run
    exact .inl ⟨marked.scheduled, marked.notQueued, rfl⟩
  · cases run
    exact .inl ⟨marked.scheduled, marked.notQueued, rfl⟩

theorem Busy.afterWriteTable (during : Option Bool) (status : Option Status) :
    Busy (s.afterWriteTable during status) ∨ Ended (s.afterWriteTable during status) := by
  unfold Scheduler.afterWriteTable
  split
  · exact .inl ⟨busy.scheduled, busy.notQueued, rfl⟩
  · exact (busy.recordBackgroundError _).leaveFlush during
  · exact (busy.recordBackgroundError _).leaveFlush during

theorem Busy.afterLogFlush (during : Option Bool) (res : Except Status (Nat → List (FileMetaData Bytes))) :
    Busy (s.afterLogFlush during res) ∨ Ended (s.afterLogFlush during res) := by
  cases res with
  | ok files =>
    apply Busy.leaveFlush
    exact ⟨busy.scheduled, busy.notQueued, busy.running⟩
  | error error => exact (busy.recordBackgroundError error).leaveFlush during

theorem Busy.afterLog {res : Except Status (Nat → List (FileMetaData Bytes))} (run : s.afterLog isManual res = .ok s') :
    Ended s' := by
  cases res with
  | ok files =>
    have inst : Busy (s.appendVersion files) := ⟨busy.scheduled, busy.notQueued, busy.running⟩
    exact inst.endCompaction run
  | error error => exact (busy.recordBackgroundError error).endCompaction run

theorem Busy.endWork {status : Option Status} (run : s.endWork isManual status = .ok s') : Busy s' ∨ Ended s' := by
  cases status with
  | none =>
    cases run
    exact .inl ⟨busy.scheduled, busy.notQueued, rfl⟩
  | some error =>
    exact .inr (((busy.recordBackgroundError error).recordBackgroundError error).endCompaction run)

variable {ev : SchedulerEvent}

theorem Busy.stepThread (run : s.stepThread ev = .ok s') : Busy s' ∨ Ended s' := by
  have running := busy.running
  cases ev with simp only [Scheduler.stepThread, reduceCtorEq] at run
  | threadStarts =>
    split at run
    case isTrue absent =>
      rw [absent.2] at running
      cases running
    case isFalse => cases run
  | takeItem =>
    split at run
    case h_1 waiting _ | h_2 waiting _ =>
      rw [waiting] at running
      cases running
    case h_3 => cases run
  | otherDone =>
    split at run
    case isTrue other =>
      rw [other] at running
      cases running
    case isFalse => cases run
  | backgroundCall c =>
    split at run
    · exact busy.backgroundCall run
    · cases run
  | afterWriteTable status =>
    split at run <;> cases run
    exact busy.afterWriteTable _ status
  | afterLog res =>
    split at run
    · cases run
      exact busy.afterLogFlush _ res
    · exact .inr (busy.afterLog run)
    · exact .inr (busy.afterLog run)
    · cases run
  | interrupt =>
    split at run <;> cases run
    split
    · exact .inl ⟨busy.scheduled, busy.notQueued, rfl⟩
    · exact .inl busy
  | endWork status =>
    split at run
    · exact busy.endWork run
    · cases run

end

section

variable (inv : Inv s)

include inv

theorem Inv.stepThread (idle : s.bgThread.running = false) (run : s.stepThread ev = .ok s') : Inv s' := by
  have flag := inv.flag
  rw [queuedOrRunning, idle] at flag
  have moves : ∀ (queue : List BGItem) (bgThread : BGThread), bgThread.running = false →
      queue.count .bgWork = s.queue.count .bgWork → Inv { s with queue, bgThread } := by
    intro queue bgThread notRunning sameCount
    refine ⟨⟨?_, inv.pending⟩, inv.waiting⟩
    rw [queuedOrRunning, sameCount, notRunning]
    exact flag
  cases ev with simp only [Scheduler.stepThread, reduceCtorEq] at run
  | threadStarts | otherDone =>
    split at run <;> cases run
    exact moves s.queue .waiting rfl rfl
  | takeItem =>
    split at run
    case h_1 rest _ isQueue =>
      cases run
      rw [isQueue, List.count_cons_self] at flag
      refine ⟨⟨?_, inv.pending⟩, inv.waiting⟩
      rw [queuedOrRunning]
      exact flag
    case h_2 rest _ isQueue =>
      cases run
      exact moves rest .runningOther rfl (by simp [isQueue])
    case h_3 => cases run
  | _ =>
    split at run
    all_goals simp_all [BGThread.running]

/-! ### The callers -/

theorem Inv.makeRoom (writeBufferSize t : Nat) (force allowDelay : Bool) (memoryUsage : Nat) (opened : Option Status) :
    Inv (s.makeRoom writeBufferSize t force allowDelay memoryUsage opened) := by
  simp only [Scheduler.makeRoom]
  split
  · exact inv.setCaller t _ nofun
  case isFalse noError =>
    have noError : s.bgError = none := by simpa using noError
    split
    · exact inv.setCaller t _ nofun
    split
    · exact inv.setCaller t _ nofun
    split
    case isTrue full => exact inv.setCaller t _ fun isOpen _ => inv.pending noError isOpen (.inl full)
    case isFalse =>
      split
      case isTrue stop =>
        exact inv.setCaller t _ fun isOpen _ => inv.pending noError isOpen (.inr (.inr (needsCompaction_of_stop stop)))
      case isFalse =>
        cases opened with
        | some error => exact inv.setCaller t _ nofun
        | none =>
          apply Inv.setCaller
          · exact Inv.maybeScheduleCompaction inv.flag inv.waiting
          · nofun

theorem Inv.updateStats (v : Nat) (seekFile : Option (FileMetaData Bytes × Nat))
    (exhausted : Bool) : Inv (s.updateStats v seekFile exhausted) := by
  unfold Scheduler.updateStats
  split
  · exact Inv.maybeScheduleCompaction inv.flag inv.waiting
  · exact inv

theorem Inv.testCompactRange (t : Nat) : Inv (s.testCompactRange t) := by
  rw [Scheduler.testCompactRange]
  split
  case isTrue going =>
    split
    case h_1 => exact Inv.maybeScheduleCompaction inv.flag inv.waiting
    case h_2 requested =>
      apply inv.setCaller
      intro isOpen _
      exact inv.pending going.2.2 isOpen (.inr (.inl (by simp [requested])))
  case isFalse =>
    apply Inv.setCaller
    · refine ⟨⟨inv.flag, fun noError isOpen pending => inv.pending noError isOpen ?_⟩, inv.waiting⟩
      obtain imm | manual | needs := pending
      · exact .inl imm
      · refine .inr (.inl fun none => manual ?_)
        simp [none]
      · exact .inr (.inr needs)
    · nofun

theorem Inv.testCompactMemTable (t : Nat) : Inv (s.testCompactMemTable t) := by
  rw [Scheduler.testCompactMemTable]
  split
  case isTrue flushing =>
    exact inv.setCaller t _ fun isOpen _ => inv.pending flushing.2 isOpen (.inl flushing.1)
  case isFalse => exact inv.setCaller t _ nofun

variable {writeBufferSize : Nat}

theorem Inv.stepCaller (run : s.stepCaller writeBufferSize ev = .ok s') : Inv s' := by
  cases ev with simp only [Scheduler.stepCaller, reduceCtorEq] at run
  | write t | get t | testCompactMemTable t =>
    split at run <;> cases run
    exact inv.setCaller t _ nofun
  | makeRoom t memoryUsage opened =>
    split at run <;> cases run
    exact inv.makeRoom writeBufferSize t _ _ memoryUsage opened
  | syncError error =>
    cases run
    exact inv.recordBackgroundError error
  | getDone t seekFile exhausted =>
    split at run <;> cases run
    exact (inv.updateStats _ seekFile exhausted).setCaller t _ nofun
  | recordReadSample seekFile exhausted =>
    cases run
    exact inv.updateStats _ seekFile exhausted
  | testCompactRange t =>
    split at run <;> cases run
    apply Inv.setCaller
    · exact ⟨⟨inv.flag, inv.pending⟩, inv.waiting⟩
    · nofun
  | compactRangeTurn t =>
    split at run <;> cases run
    exact inv.testCompactRange t
  | compactMemTableTurn t =>
    split at run <;> cases run
    exact inv.testCompactMemTable t
  | wake t =>
    cases run
    apply inv.setCaller
    intro _ waits
    rw [Caller.woken_not_waits] at waits
    cases waits
  | shutDown =>
    cases run
    exact ⟨⟨inv.flag, nofun⟩, nofun⟩
  | otherSchedules =>
    cases run
    refine ⟨⟨?_, inv.pending⟩, inv.waiting⟩
    have flag := inv.flag
    rw [queuedOrRunning] at flag ⊢
    rw [Scheduler.schedule, List.count_append]
    exact flag

end

theorem stepCaller_bgThread (run : s.stepCaller writeBufferSize ev = .ok s') : s'.bgThread = s.bgThread := by
  have scheduling : ∀ s : Scheduler, s.maybeScheduleCompaction.bgThread = s.bgThread :=
    fun s => (maybeScheduleCompaction_keeps s).2.2.1
  have stats : ∀ (s : Scheduler) v seekFile exhausted, (s.updateStats v seekFile exhausted).bgThread = s.bgThread := by
    intro s v seekFile exhausted
    unfold updateStats
    split
    · exact scheduling _
    · rfl
  cases ev with simp only [stepCaller, reduceCtorEq] at run
  | makeRoom t memoryUsage opened =>
    split at run <;> cases run
    simp only [makeRoom]
    repeat' split
    all_goals first | rfl | exact scheduling _
  | syncError error =>
    cases run
    rw [recordBackgroundError]
    split <;> rfl
  | getDone t seekFile exhausted =>
    split at run <;> cases run
    exact stats s _ seekFile exhausted
  | recordReadSample seekFile exhausted =>
    cases run
    exact stats s _ seekFile exhausted
  | compactRangeTurn t =>
    split at run <;> cases run
    rw [testCompactRange]
    repeat' split
    all_goals first | rfl | exact scheduling _
  | compactMemTableTurn t =>
    split at run <;> cases run
    rw [testCompactMemTable]
    split <;> rfl
  | write | get | testCompactRange | testCompactMemTable =>
    split at run <;> cases run
    rfl
  | wake | shutDown | otherSchedules =>
    cases run
    rfl

/-! ## Whole runs -/

theorem step_cases (run : s.step writeBufferSize ev = .ok s') :
    s.stepThread ev = .ok s' ∨ s.stepCaller writeBufferSize ev = .ok s' := by
  cases ev <;> first | exact .inl run | exact .inr run

theorem Inv.step (inv : Inv s) {writeBufferSize : Nat} {ev : SchedulerEvent}
    (run : s.step writeBufferSize ev = .ok s') : Inv s' := by
  cases step_cases run with
  | inr byCaller => exact inv.stepCaller byCaller
  | inl byThread =>
    cases running : s.bgThread.running with
    | false => exact inv.stepThread running byThread
    | true =>
      cases (inv.busy running).stepThread byThread with
      | inl busy => exact busy.inv
      | inr ended => exact ended.inv

theorem Fresh.inv (fresh : Fresh s) : Inv s.maybeScheduleCompaction := by
  apply Inv.maybeScheduleCompaction
  · rw [queuedOrRunning, List.count_eq_zero_of_not_mem fresh.notQueued, fresh.notRunning, fresh.unscheduled]
    rfl
  intro _ t waits
  rw [fresh.quiet t] at waits
  cases waits

theorem Reachable.inv {fresh : Scheduler} (isFresh : Fresh fresh)
    (reached : Reachable writeBufferSize fresh s) : Inv s :=
  Transition.Reaches.invariant Inv isFresh.inv (fun inv _ run => inv.step run) reached

/-- Background work is never lost.  Whenever the mutex is free, pending work has the flag set and
`BGWork` queued or running once; so has every wait for room, or for a flush or compaction; and
when `BGWork` ends, nobody is left waiting for it. -/
theorem background_work_scheduled {writeBufferSize : Nat} {fresh s : Scheduler} (isFresh : Fresh fresh)
    (reached : Reachable writeBufferSize fresh s) :
    (s.bgError = none → s.shuttingDown = false → s.workPending →
        s.bgCompactionScheduled = true ∧ s.queuedOrRunning = 1) ∧
      (s.shuttingDown = false → ∀ t, (s.callers t).waits = true →
        s.bgCompactionScheduled = true ∧ s.queuedOrRunning = 1) ∧
      ∀ event s', s.step writeBufferSize event = .ok s' → s.bgThread.running = true →
        s'.bgThread.running = false → ∀ t, (s'.callers t).waits = false := by
  have inv := reached.inv isFresh
  have once : s.bgCompactionScheduled = true → s.queuedOrRunning = 1 := by
    intro scheduled
    have flag := inv.flag
    rwa [scheduled] at flag
  refine ⟨fun noError isOpen pending => ?_, fun isOpen t waits => ?_, fun event s' taken running stopped => ?_⟩
  · have scheduled := inv.pending noError isOpen pending
    exact ⟨scheduled, once scheduled⟩
  · have scheduled := inv.waiting isOpen t waits
    exact ⟨scheduled, once scheduled⟩
  cases step_cases taken with
  | inr byCaller =>
    rw [stepCaller_bgThread byCaller, running] at stopped
    cases stopped
  | inl byThread =>
    cases (inv.busy running).stepThread byThread with
    | inl busy =>
      rw [busy.running] at stopped
      cases stopped
    | inr ended => exact ended.allWoken

def new : Scheduler where
  bgError := none
  shuttingDown := false
  imm := false
  manualCompaction := none
  manualDone := fun _ => false
  versions := fun _ => .empty
  current := 0
  bgCompactionScheduled := false
  queue := []
  startedBgthread := false
  bgThread := .absent
  callers := fun _ => .outside

/-- One writer fills the memtable, and the next one has to wait for the flush. -/
theorem second_writer_waits : ∃ s, Reachable 0 new s ∧ (s.callers 1).waits = true ∧ s.imm = true ∧
    s.bgCompactionScheduled = true ∧ s.queuedOrRunning = 1 := by
  have fresh : Fresh new := ⟨rfl, rfl, rfl, rfl, rfl, nofun, rfl, fun _ => rfl⟩
  obtain ⟨s, run, waits, imm, isOpen⟩ : ∃ s ∈ Transition.run (step 0) (fun _ _ => True) new.maybeScheduleCompaction
      [.write 0 true, .makeRoom 0 1 none, .write 1 false, .makeRoom 1 1 none],
      (s.callers 1).waits = true ∧ s.imm = true ∧ s.shuttingDown = false := by decide +kernel
  have reached : Reachable 0 new s := Transition.reaches_of_run .refl run
  exact ⟨s, reached, waits, imm, (background_work_scheduled fresh reached).2.1 isOpen 1 waits⟩

end Scheduler

end Elsm
