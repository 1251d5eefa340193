import Elsm.Db.Background

/-!
# Requests for a manual compaction (`DBImpl::TEST_CompactRange`, `DBImpl::BackgroundCompaction`)

`TEST_CompactRange` keeps its request on its stack and lends the background thread a pointer to it,
`manual_compaction_`.  The thread reads the pointer when it takes the request up and again when the
compaction is over, and releases the mutex in between.  The loop of the caller ends when the request
is done, and also at a background error and at shutdown: then it withdraws the request and returns,
whether or not the thread still works on it.
-/

namespace Elsm

open Function

def Caller.inRange : Caller → Bool
  | compactingRange | waitingRange => true
  | _ => false

theorem Caller.woken_inRange (caller : Caller) : caller.woken.inRange = caller.inRange := by
  cases caller <;> rfl

/-- The thread works on a request and will read `manual_compaction_` again. -/
def BGThread.manual : BGThread → Bool
  | .compacting isManual | .loggingResults isManual => isManual
  | .flushing (some isManual) | .loggingFlush (some isManual) => isManual
  | _ => false

variable {ev : SchedulerEvent} {s' : Scheduler}

namespace Scheduler

/-- In this event `BackgroundCompaction` reads `manual_compaction_` after the compaction work: it
failed, or its results have been logged. -/
def ReadsRequest (s : Scheduler) : SchedulerEvent → Prop
  | .endWork (some _) => s.bgThread = .compacting true
  | .afterLog _ => s.bgThread = .loggingResults true
  | _ => False

variable {s : Scheduler}

theorem ReadsRequest.manual (reads : s.ReadsRequest ev) : s.bgThread.manual = true := by
  unfold ReadsRequest at reads
  split at reads
  · rw [reads]
    rfl
  · rw [reads]
    rfl
  · exact reads.elim

/-! ## What a step does to the request -/

structure Keeps (s s' : Scheduler) : Prop where
  request : s'.manualCompaction = s.manualCompaction
  done : s'.manualDone = s.manualDone
  stays : ∀ t, (s.callers t).inRange = true → (s'.callers t).inRange = true

theorem Keeps.of_eq (request : s'.manualCompaction = s.manualCompaction)
    (done : s'.manualDone = s.manualDone) (callers : s'.callers = s.callers) : Keeps s s' :=
  ⟨request, done, fun t ins => by rwa [callers]⟩

theorem Keeps.refl (s : Scheduler) : Keeps s s := .of_eq rfl rfl rfl

theorem Keeps.trans {s'' : Scheduler} (first : Keeps s s') (snd : Keeps s' s'') : Keeps s s'' where
  request := snd.request.trans first.request
  done := snd.done.trans first.done
  stays t inside := snd.stays t (first.stays t inside)

section

variable (s : Scheduler)

theorem Keeps.setCaller (t : Nat) (caller : Caller)
    (stays : (s.callers t).inRange = true → caller.inRange = true) : Keeps s (s.setCaller t caller) := by
  refine ⟨rfl, rfl, fun u ins => ?_⟩
  by_cases same : u = t
  · subst same
    simp only [Scheduler.setCaller, update_self]
    exact stays ins
  · simp only [Scheduler.setCaller, update_of_ne same]
    exact ins

theorem Keeps.signalAll : Keeps s s.signalAll := by
  refine ⟨rfl, rfl, fun t ins => ?_⟩
  rw [Scheduler.signalAll, Caller.woken_inRange]
  exact ins

theorem Keeps.recordBackgroundError (error : Status) : Keeps s (s.recordBackgroundError error) := by
  rw [Scheduler.recordBackgroundError]
  split
  · have raised : Keeps s { s with bgError := some error } := .of_eq rfl rfl rfl
    exact raised.trans (.signalAll _)
  · exact .refl s

theorem Keeps.maybeScheduleCompaction : Keeps s s.maybeScheduleCompaction := by
  rw [Scheduler.maybeScheduleCompaction]
  repeat' split
  all_goals exact .of_eq rfl rfl rfl

theorem Keeps.endBackgroundCall : Keeps s s.endBackgroundCall := by
  have freed : Keeps s { s with bgCompactionScheduled := false, bgThread := .waiting } := .of_eq rfl rfl rfl
  exact freed.trans ((Keeps.maybeScheduleCompaction _).trans (Keeps.signalAll _))

theorem endBackgroundCall_bgThread : s.endBackgroundCall.bgThread = .waiting :=
  (maybeScheduleCompaction_keeps { s with bgCompactionScheduled := false, bgThread := .waiting }).2.2.1

end

/-! ### The background thread -/

/-- What a step of the thread does to the request: nothing, or the thread takes it up, or drops it. -/
inductive ThreadRequest (s : Scheduler) (event : SchedulerEvent) (s' : Scheduler) : Prop
  | kept (keeps : Keeps s s') (goesOn : s'.bgThread.manual = true → s.bgThread.manual = true)
  | took (t : Nat) (c : Option Bool) (atCall : event = .backgroundCall c) (before : s.manualCompaction = some t)
      (after : s'.manualCompaction = some t) (open_ : s'.manualDone t = false) (same : s'.callers = s.callers)
  | dropped (noRequest : s'.manualCompaction = none) (idle : s'.bgThread.manual = false)

theorem ThreadRequest.ofEnded (middle : Scheduler) (keeps : Keeps s middle) :
    ThreadRequest s ev middle.endBackgroundCall := by
  refine .kept (keeps.trans (.endBackgroundCall middle)) fun manual => ?_
  rw [endBackgroundCall_bgThread] at manual
  cases manual

theorem ThreadRequest.endCompaction {middle : Scheduler} (keeps : Keeps s middle)
    {isManual : Bool} {status : Option Status} (run : middle.endCompaction isManual status = .ok s') :
    ThreadRequest s ev s' := by
  unfold Scheduler.endCompaction at run
  split at run
  · cases run
    exact .ofEnded middle keeps
  · cases run
  cases run
  refine .dropped (Keeps.endBackgroundCall _).request ?_
  rw [endBackgroundCall_bgThread]
  rfl

theorem ThreadRequest.leaveFlush {middle : Scheduler} (keeps : Keeps s middle)
    (during : Option Bool) (goesOn : ∀ isManual, during = some isManual → s.bgThread.manual = isManual) :
    ThreadRequest s ev (middle.leaveFlush during) := by
  cases during with
  | none => exact .ofEnded middle keeps
  | some isManual =>
    refine .kept ?_ fun manual => (goesOn isManual rfl).trans manual
    have resumed : Keeps middle { middle with bgThread := .compacting isManual } := .of_eq rfl rfl rfl
    exact keeps.trans (resumed.trans (.signalAll _))

theorem ThreadRequest.backgroundCall {c : Option Bool} (run : s.backgroundCall c = .ok s') :
    ThreadRequest s (.backgroundCall c) s' := by
  rw [Scheduler.backgroundCall] at run
  split at run
  · cases run
  split at run
  · cases run
    exact .ofEnded s (.refl s)
  split at run
  · cases run
    exact .ofEnded s (.refl s)
  rw [Scheduler.backgroundCompaction] at run
  split at run
  · cases run
    exact .kept (.of_eq rfl rfl rfl) (by rintro ⟨⟩)
  cases requested : s.manualCompaction with
  | none =>
    simp only [requested, Option.isSome_none, Bool.not_false, Bool.true_and] at run
    split at run
    · exact .endCompaction (.refl s) run
    · split at run <;> cases run
      all_goals exact .kept (.of_eq requested.symm rfl rfl) (by rintro ⟨⟩)
  | some t =>
    simp only [requested, Option.isSome_some, Bool.not_true, Bool.false_and] at run
    cases c with
    | none =>
      simp only [Scheduler.endCompaction] at run
      cases run
      refine .dropped (Keeps.endBackgroundCall _).request ?_
      rw [endBackgroundCall_bgThread]
      rfl
    | some isTrivialMove =>
      simp only [Bool.false_eq_true, if_false] at run
      cases run
      exact .took t _ rfl requested rfl (by simp) rfl

theorem ThreadRequest.stepThread (run : s.stepThread ev = .ok s') : ThreadRequest s ev s' := by
  have moves : ∀ queue bgThread, (bgThread.manual = true → s.bgThread.manual = true) →
      ThreadRequest s ev { s with queue, bgThread } :=
    fun _ _ goesOn => .kept (.of_eq rfl rfl rfl) goesOn
  cases ev with simp only [Scheduler.stepThread, reduceCtorEq] at run
  | threadStarts | otherDone =>
    split at run <;> cases run
    exact moves s.queue .waiting (by rintro ⟨⟩)
  | takeItem =>
    split at run <;> cases run
    · exact moves _ .starting (by rintro ⟨⟩)
    · exact moves _ .runningOther (by rintro ⟨⟩)
  | backgroundCall c =>
    split at run
    · exact .backgroundCall run
    · cases run
  | afterWriteTable status =>
    split at run <;> cases run
    case h_1 during flushing =>
      have goesOn : ∀ isManual, during = some isManual → s.bgThread.manual = isManual := by
        rintro isManual rfl
        rw [flushing]
        rfl
      unfold Scheduler.afterWriteTable
      split
      · apply moves s.queue (.loggingFlush during)
        rw [flushing]
        cases during <;> exact id
      · exact .leaveFlush (.recordBackgroundError s _) during goesOn
      · exact .leaveFlush (.recordBackgroundError s _) during goesOn
  | afterLog res =>
    have inst : ∀ files, Keeps s (s.appendVersion files) := fun files => .of_eq rfl rfl rfl
    have logged : ∀ isManual, s.afterLog isManual res = .ok s' → ThreadRequest s (.afterLog res) s' := by
      intro isManual ends
      cases res with
      | ok files => exact .endCompaction (inst files) ends
      | error error => exact .endCompaction (.recordBackgroundError s error) ends
    split at run
    case h_1 during logging =>
      cases run
      have goesOn : ∀ isManual, during = some isManual → s.bgThread.manual = isManual := by
        rintro isManual rfl
        rw [logging]
        rfl
      cases res with
      | ok files =>
        have keeps : Keeps s { s.appendVersion files with imm := false } := .of_eq rfl rfl rfl
        exact .leaveFlush keeps during goesOn
      | error error => exact .leaveFlush (.recordBackgroundError s error) during goesOn
    case h_2 => exact logged false run
    case h_3 isManual _ => exact logged isManual run
    case h_4 => cases run
  | interrupt =>
    split at run <;> cases run
    case h_1 isManual compacting =>
      split
      · apply moves s.queue (.flushing (some isManual))
        rw [compacting]
        exact id
      · exact .kept (.refl s) id
  | endWork status =>
    split at run
    case h_1 isManual compacting =>
      cases status with
      | none =>
        cases run
        apply moves s.queue (.loggingResults isManual)
        rw [compacting]
        exact id
      | some error =>
        have recorded := (Keeps.recordBackgroundError s error).trans (.recordBackgroundError _ error)
        exact .endCompaction recorded run
    case h_2 => cases run

/-! ### The callers -/

theorem of_guard {p : Prop} [Decidable p]
    (run : (if p then Except.ok s else Except.error Stop.disabled) = .ok s') : p ∧ s = s' := by
  split at run
  case isTrue holds => exact ⟨holds, Except.ok.inj run⟩
  case isFalse => cases run

theorem Keeps.makeRoom (s : Scheduler) {writeBufferSize t : Nat} {force allowDelay : Bool} (memoryUsage : Nat)
    (opened : Option Status) (writes : s.callers t = .makingRoom force allowDelay) :
    Keeps s (s.makeRoom writeBufferSize t force allowDelay memoryUsage opened) := by
  have moves : ∀ caller, Keeps s (s.setCaller t caller) := by
    intro caller
    apply Keeps.setCaller
    rw [writes]
    nofun
  simp only [Scheduler.makeRoom]
  split
  · exact moves _
  split
  · exact moves _
  split
  · exact moves _
  split
  · exact moves _
  split
  · exact moves _
  cases opened with
  | some error => exact moves _
  | none =>
    have filled : Keeps s { s with imm := true } := .of_eq rfl rfl rfl
    have scheduled := filled.trans (.maybeScheduleCompaction _)
    apply scheduled.trans
    apply Keeps.setCaller
    rw [(maybeScheduleCompaction_keeps _).1]
    intro ins
    rw [writes] at ins
    cases ins

section

variable (s : Scheduler) (v : Nat) (seekFile : Option (FileMetaData Bytes × Nat)) (exhausted : Bool)

theorem Keeps.updateStats : Keeps s (s.updateStats v seekFile exhausted) := by
  unfold Scheduler.updateStats
  split
  case h_1 f _ =>
    have charged : ∀ versions, Keeps s { s with versions } := fun _ => .of_eq rfl rfl rfl
    exact (charged _).trans (.maybeScheduleCompaction _)
  case h_2 => exact .refl s

theorem updateStats_callers : (s.updateStats v seekFile exhausted).callers = s.callers := by
  unfold Scheduler.updateStats
  split
  · exact (maybeScheduleCompaction_keeps _).1
  · rfl

end

/-- Only `TEST_CompactRange` touches the request of a caller. -/
theorem Keeps.stepCaller {writeBufferSize : Nat}
    (run : s.stepCaller writeBufferSize ev = .ok s') (notEntered : ∀ t, ev ≠ .testCompactRange t)
    (noTurn : ∀ t, ev ≠ .compactRangeTurn t) : Keeps s s' := by
  have moves : ∀ {t} caller, (s.callers t).inRange = false → Keeps s (s.setCaller t caller) := by
    intro t caller elsewhere
    apply Keeps.setCaller
    rw [elsewhere]
    rintro ⟨⟩
  cases ev with
  | write | get | testCompactMemTable =>
    obtain ⟨out, rfl⟩ := of_guard run
    exact moves _ (by rw [out]; rfl)
  | makeRoom t memoryUsage opened =>
    simp only [Scheduler.stepCaller] at run
    split at run <;> cases run
    case h_1 writes => exact .makeRoom s memoryUsage opened writes
  | syncError error =>
    cases run
    exact .recordBackgroundError s error
  | getDone t seekFile exhausted =>
    simp only [Scheduler.stepCaller] at run
    split at run <;> cases run
    case h_1 v reads =>
      apply (Keeps.updateStats s v seekFile exhausted).trans
      apply Keeps.setCaller
      rw [updateStats_callers, reads]
      rintro ⟨⟩
  | recordReadSample seekFile exhausted =>
    cases run
    exact .updateStats s _ seekFile exhausted
  | testCompactRange t => exact absurd rfl (notEntered t)
  | compactRangeTurn t => exact absurd rfl (noTurn t)
  | compactMemTableTurn t =>
    obtain ⟨flushing, rfl⟩ := of_guard run
    rw [Scheduler.testCompactMemTable]
    split
    all_goals exact moves _ (by rw [flushing]; rfl)
  | wake t =>
    cases run
    apply Keeps.setCaller
    rw [Caller.woken_inRange]
    exact id
  | shutDown | otherSchedules =>
    cases run
    exact .of_eq rfl rfl rfl
  | _ => cases run

end Scheduler

/-! ## Whole runs -/

/-- The scheduler with what the code does not store: how often each caller has entered
`TEST_CompactRange`, and the call whose request `BackgroundCompaction` took up last. -/
structure Watched where
  db : Scheduler
  calls : Nat → Nat
  request : Option (Nat × Nat)

namespace Watched

open Scheduler

def note (w : Watched) (s : Scheduler) : SchedulerEvent → Watched
  | .testCompactRange t => ⟨s, update w.calls t (w.calls t + 1), w.request⟩
  | .backgroundCall _ => ⟨s, w.calls, w.db.manualCompaction.map fun t => (t, w.calls t)⟩
  | _ => ⟨s, w.calls, w.request⟩

def step (writeBufferSize : Nat) (w : Watched) (event : SchedulerEvent) : Except Stop Watched :=
  (w.db.step writeBufferSize event).map fun s => w.note s event

def start (fresh : Scheduler) : Watched := ⟨fresh.maybeScheduleCompaction, fun _ => 0, none⟩

/-- `manual_compaction_` points to the request that was taken up, and the call of `TEST_CompactRange`
that it belongs to has not returned. -/
def OwnsRequest (w : Watched) : Prop :=
  ∃ t, w.request = some (t, w.calls t) ∧ w.db.manualCompaction = some t ∧ (w.db.callers t).inRange = true

/-- No caller finds an error or the shutdown at the head of its loop while the thread works on its
request. -/
def Stays (w : Watched) : SchedulerEvent → Prop
  | .compactRangeTurn t => w.db.bgThread.manual = true → w.db.manualCompaction = some t →
      w.db.bgError = none ∧ w.db.shuttingDown = false
  | _ => True

instance (w : Watched) (event : SchedulerEvent) : Decidable (Stays w event) := by
  unfold Stays
  split <;> infer_instance

/-- The request belongs to a call that has not returned, and the one the thread works on is still
there and not done. -/
structure Lent (w : Watched) : Prop where
  owner : ∀ t, w.db.manualCompaction = some t → (w.db.callers t).inRange = true
  working : w.db.bgThread.manual = true →
    ∃ t, w.request = some (t, w.calls t) ∧ w.db.manualCompaction = some t ∧ w.db.manualDone t = false

variable {w : Watched}

theorem Lent.keeps {w' : Watched} (lent : Lent w) (keeps : Keeps w.db w'.db) (goesOn : w'.db.bgThread.manual = true →
      w.db.bgThread.manual = true ∧ w'.calls = w.calls ∧ w'.request = w.request) : Lent w' where
  owner t requested := by
    rw [keeps.request] at requested
    exact keeps.stays t (lent.owner t requested)
  working manual := by
    obtain ⟨manualBefore, calls, request⟩ := goesOn manual
    rw [calls, request, keeps.request, keeps.done]
    exact lent.working manualBefore

theorem Lent.stepThread (lent : Lent w) (run : w.db.stepThread ev = .ok s') : Lent (w.note s' ev) := by
  cases ThreadRequest.stepThread run with
  | kept keeps goesOn =>
    cases ev with
    | backgroundCall c =>
      simp only [Scheduler.stepThread] at run
      split at run
      case isTrue starting =>
        apply lent.keeps keeps
        intro manual
        have manualBefore := goesOn manual
        rw [starting] at manualBefore
        cases manualBefore
      case isFalse => cases run
    | testCompactRange t => cases run
    | _ => exact lent.keeps keeps fun manual => ⟨goesOn manual, rfl, rfl⟩
  | took t c atCall pre after open_ eq =>
    subst atCall
    refine ⟨fun u requested => ?_, fun _ => ⟨t, ?_, after, open_⟩⟩
    · obtain rfl := Option.some.inj (after.symm.trans requested)
      rw [note, eq]
      exact lent.owner t pre
    · rw [note, pre]
      rfl
  | dropped noRequest idle =>
    have sameDb : (w.note s' ev).db = s' := by cases ev <;> rfl
    refine ⟨fun t requested => ?_, fun manual => ?_⟩
    · rw [sameDb, noRequest] at requested
      cases requested
    · rw [sameDb, idle] at manual
      cases manual

theorem Lent.enters (lent : Lent w) {t : Nat} (out : w.db.callers t = .outside) :
    Lent (w.note ({ w.db with manualDone := update w.db.manualDone t false }.setCaller t .compactingRange)
      (.testCompactRange t)) := by
  have other : ∀ u, w.db.manualCompaction = some u → u ≠ t := by
    rintro u requested rfl
    have ins := lent.owner u requested
    rw [out] at ins
    cases ins
  refine ⟨fun u requested => ?_, fun manual => ?_⟩
  · simp only [note, setCaller, update_of_ne (other u requested)]
    exact lent.owner u requested
  obtain ⟨u, request, requested, open_⟩ := lent.working manual
  refine ⟨u, ?_, requested, ?_⟩
  · simp only [note, update_of_ne (other u requested)]
    exact request
  · simp only [note, setCaller, update_of_ne (other u requested)]
    exact open_

theorem Lent.turn (lent : Lent w) {t : Nat} (ins : w.db.callers t = .compactingRange)
    (stays : w.Stays (.compactRangeTurn t)) :
    Lent (w.note (w.db.testCompactRange t) (.compactRangeTurn t)) := by
  rw [Scheduler.testCompactRange]
  split
  case isTrue going =>
    split
    case h_1 noRequest =>
      have scheduled := Keeps.maybeScheduleCompaction { w.db with manualCompaction := some t }
      refine ⟨fun u requested => scheduled.stays u ?_, fun manual => ?_⟩
      · obtain rfl := Option.some.inj (scheduled.request.symm.trans requested)
        simp only [ins]
        rfl
      simp only [note] at manual
      rw [(maybeScheduleCompaction_keeps _).2.2.1] at manual
      obtain ⟨u, -, requested, -⟩ := lent.working manual
      rw [noRequest] at requested
      cases requested
    case h_2 =>
      have waits : Keeps w.db (w.db.setCaller t .waitingRange) := .setCaller w.db t _ fun _ => rfl
      exact lent.keeps waits fun manual => ⟨manual, rfl, rfl⟩
  case isFalse leaves =>
    by_cases own : w.db.manualCompaction = some t
    · rw [if_pos own]
      refine ⟨by rintro _ ⟨⟩, fun manual => ?_⟩
      obtain ⟨u, -, requested, open_⟩ := lent.working manual
      obtain rfl := Option.some.inj (own.symm.trans requested)
      obtain ⟨noError, notClosing⟩ := stays manual own
      exact absurd ⟨open_, notClosing, noError⟩ leaves
    · rw [if_neg own]
      refine ⟨fun u requested => ?_, lent.working⟩
      have other : u ≠ t := by
        rintro rfl
        exact own requested
      simp only [note, setCaller, update_of_ne other]
      exact lent.owner u requested

theorem Lent.step {w w' : Watched} (lent : Lent w) {writeBufferSize : Nat}
    (stays : w.Stays ev) (run : w.step writeBufferSize ev = .ok w') : Lent w' := by
  cases moves : w.db.step writeBufferSize ev with
  | error stop =>
    rw [Watched.step, moves] at run
    cases run
  | ok s' =>
    rw [Watched.step, moves] at run
    cases run
    cases step_cases moves with
    | inl byThread => exact lent.stepThread byThread
    | inr byCaller =>
      have sameThread := stepCaller_bgThread byCaller
      cases ev with
      | testCompactRange t =>
        obtain ⟨out, rfl⟩ := of_guard byCaller
        exact lent.enters out
      | compactRangeTurn t =>
        obtain ⟨ins, rfl⟩ := of_guard byCaller
        exact lent.turn ins stays
      | backgroundCall c => cases byCaller
      | _ =>
        have keeps : Keeps w.db s' := by
          apply Keeps.stepCaller byCaller
          · nofun
          · nofun
        exact lent.keeps keeps fun manual => ⟨sameThread ▸ manual, rfl, rfl⟩

theorem Lent.start {fresh : Scheduler} (isFresh : Fresh fresh) : Lent (start fresh) := by
  refine ⟨fun t requested => ?_, fun manual => ?_⟩
  · rw [Watched.start, (Keeps.maybeScheduleCompaction fresh).request, isFresh.noManual] at requested
    cases requested
  have notRunning := isFresh.notRunning
  rw [Watched.start, (maybeScheduleCompaction_keeps fresh).2.2.1] at manual
  cases thread : fresh.bgThread <;> simp [thread, BGThread.manual, BGThread.running] at manual notRunning

/-- When `BackgroundCompaction` reads `manual_compaction_` after its work, it finds the request it took
up, and the call that made it has not returned. -/
theorem request_outlives_use {writeBufferSize : Nat} {fresh : Scheduler} {w : Watched} {event : SchedulerEvent}
    (isFresh : Fresh fresh)
    (reached : Transition.Reaches (Transition.Steps (step writeBufferSize)) Stays (start fresh) w)
    (reads : w.db.ReadsRequest event) : w.OwnsRequest := by
  have lent : Lent w :=
    Transition.Reaches.invariant Lent (.start isFresh) (fun lent stays taken => lent.step stays taken) reached
  obtain ⟨t, request, requested, -⟩ := lent.working reads.manual
  exact ⟨t, request, requested, lent.owner t requested⟩

theorem fresh_new : Fresh Scheduler.new := ⟨rfl, rfl, rfl, rfl, rfl, nofun, rfl, fun _ => rfl⟩

def requestTaken : List SchedulerEvent :=
  [.testCompactRange 0, .compactRangeTurn 0, .threadStarts, .takeItem, .backgroundCall (some false)]

/-- A compaction without an error, whose results are logged while the caller waits. -/
theorem request_outlives_logged_results : ∃ w event,
    Transition.Reaches (Transition.Steps (step 0)) Stays (start Scheduler.new) w ∧ w.db.ReadsRequest event ∧
      w.OwnsRequest := by
  obtain ⟨w, run, logging⟩ : ∃ w ∈ Transition.run (step 0) Stays (start Scheduler.new)
      (requestTaken ++ [.compactRangeTurn 0, .endWork none]), w.db.bgThread = .loggingResults true := by decide +kernel
  have reads : w.db.ReadsRequest (.afterLog (.ok fun _ => [])) := logging
  have reached := Transition.reaches_of_run .refl run
  exact ⟨w, _, reached, reads, request_outlives_use fresh_new reached reads⟩

/-- A writer fills the memtable during the compaction.  Its flush fails, the caller is woken by the
error and returns, and the compaction then finds a null pointer where its request was. -/
theorem request_withdrawn_by_flush_error : ∃ w event,
    Transition.Reaches (Transition.Steps (step 0)) (fun _ _ => True) (start Scheduler.new) w ∧
      w.db.ReadsRequest event ∧ ¬w.OwnsRequest ∧ w.db.step 0 event = .error .abort := by
  obtain ⟨w, run, logging, noRequest⟩ : ∃ w ∈ Transition.run (step 0) (fun _ _ => True) (start Scheduler.new)
      (requestTaken ++ [.compactRangeTurn 0, .write 1 true, .makeRoom 1 1 none, .interrupt,
        .afterWriteTable (some (.ioError "full")), .compactRangeTurn 0, .endWork none]),
      w.db.bgThread = .loggingResults true ∧ w.db.manualCompaction = none := by decide +kernel
  refine ⟨w, .afterLog (.ok fun _ => []), Transition.reaches_of_run .refl run, logging, ?_, ?_⟩
  · rintro ⟨t, -, requested, -⟩
    rw [noRequest] at requested
    cases requested
  · simp only [Scheduler.step, Scheduler.stepThread, logging, Scheduler.afterLog, Scheduler.endCompaction,
      Scheduler.appendVersion, noRequest]

end Watched

end Elsm
