import Elsm.Db.Compacting
import Elsm.Db.WriteQueue

/-!
# What writers do

The group a leader builds is a front part of the queue; `step_effect` lists everything an event
can do; `step_apart` says that the background thread does not see the memtable in use.
-/

namespace Elsm

open List
open Merkle (Digest Record)

/-! ## Queue and group -/

variable {queue : List Nat}

theorem popWriters_eq {last : Nat} {popped rest : List Nat} (pops : popWriters last queue = some (popped, rest)) :
    queue = popped ++ rest ∧ last ∈ popped := by
  induction queue generalizing popped rest with
  | nil => cases pops
  | cons t queue ih =>
    simp only [popWriters] at pops
    split at pops
    case isTrue isLast =>
      cases pops
      exact ⟨rfl, isLast ▸ mem_singleton_self t⟩
    case isFalse =>
      obtain ⟨⟨inner, left⟩, popsRest, eq⟩ := Option.map_eq_some_iff.mp pops
      cases eq
      obtain ⟨split, inInner⟩ := ih popsRest
      exact ⟨by rw [split]; rfl, mem_cons_of_mem _ inInner⟩

theorem popWriters_append {last : Nat} {popped rest : List Nat} (later : List Nat)
    (pops : popWriters last queue = some (popped, rest)) :
    popWriters last (queue ++ later) = some (popped, rest ++ later) := by
  induction queue generalizing popped rest with
  | nil => cases pops
  | cons t queue ih =>
    simp only [popWriters, cons_append] at pops ⊢
    split at pops
    case isTrue isLast =>
      cases pops
      rw [if_pos isLast]
    case isFalse notLast =>
      obtain ⟨⟨inner, left⟩, popsRest, eq⟩ := Option.map_eq_some_iff.mp pops
      cases eq
      rw [if_neg notLast, ih popsRest]
      rfl

theorem popWriters_self (t : Nat) (rest : List Nat) : popWriters t (t :: rest) = some ([t], rest) := by
  simp [popWriters]

theorem popWriters_front {t : Nat} {ms rest : List Nat} (front : queue.head? = some t)
    (pops : popWriters t queue = some (ms, rest)) : ms = [t] := by
  cases queue with
  | nil => cases pops
  | cons u queue =>
    rw [head?_cons, Option.some.injEq] at front
    rw [front, popWriters_self] at pops
    cases pops
    rfl

theorem popWriters_last {t : Nat} {pre : List Nat} (fresh : t ∉ pre) :
    popWriters t (pre ++ [t]) = some (pre ++ [t], []) := by
  induction pre with
  | nil => exact popWriters_self t []
  | cons u pre ih =>
    simp only [mem_cons, not_or] at fresh
    rw [cons_append, popWriters, if_neg (Ne.symm fresh.1), ih fresh.2]
    rfl

section Group

variable (writer : Nat → Writer)

/-- A group that has grown over a part of the queue holds the operations of that part. -/
theorem growGroup_spec (first : Writer) (maxSize : Nat) {pre queue : List Nat} {group : BatchGroup}
    (dist : (pre ++ queue).Nodup) (pops : popWriters group.lastWriter pre = some (pre, []))
    (holds : group.result = pre.flatMap fun t => (writer t).ops) :
    ∃ popped rest, popWriters (growGroup writer first maxSize queue group).lastWriter (pre ++ queue) =
        some (popped, rest) ∧
      (growGroup writer first maxSize queue group).result = popped.flatMap fun t => (writer t).ops := by
  induction queue generalizing pre group with
  | nil => exact ⟨pre, _, popWriters_append [] pops, holds⟩
  | cons t queue ih =>
    have stays : ∃ popped rest, popWriters group.lastWriter (pre ++ t :: queue) = some (popped, rest) ∧
        group.result = popped.flatMap fun t => (writer t).ops :=
      ⟨pre, _, popWriters_append (t :: queue) pops, holds⟩
    have fresh : t ∉ pre := by
      intro mem
      exact (nodup_append.mp dist).2.2 t mem t mem_cons_self rfl
    have joins : ∀ next : BatchGroup, next.lastWriter = t → next.result = group.result ++ (writer t).ops →
        ∃ popped rest, popWriters (growGroup writer first maxSize queue next).lastWriter
            (pre ++ t :: queue) = some (popped, rest) ∧
          (growGroup writer first maxSize queue next).result = popped.flatMap fun t => (writer t).ops := by
      intro next isLast isResult
      rw [append_cons] at dist ⊢
      apply ih dist
      · rw [isLast]
        exact popWriters_last fresh
      · rw [isResult, holds, flatMap_append, flatMap_singleton]
    simp only [growGroup]
    split
    · exact stays
    cases isBatch : (writer t).batch with
    | none => exact joins _ rfl (by simp [Writer.ops, isBatch])
    | some batch =>
      simp only
      split
      · exact stays
      · exact joins _ rfl (by simp [Writer.ops, isBatch])

theorem buildBatchGroup_spec {tmpBatch : List Op} {group : BatchGroup}
    (dist : queue.Nodup) (built : buildBatchGroup writer tmpBatch queue = some group) :
    (∃ popped rest, popWriters group.lastWriter queue = some (popped, rest) ∧
      group.result = popped.flatMap fun t => (writer t).ops) ∧ (group.isTmp = true → tmpBatch = []) := by
  cases queue with
  | nil => cases built
  | cons t queue =>
    cases isBatch : (writer t).batch with
    | none => simp [buildBatchGroup, isBatch] at built
    | some batch =>
      simp only [buildBatchGroup, isBatch] at built
      split at built
      · cases built
      case isFalse empty =>
        cases built
        constructor
        · apply @growGroup_spec writer _ _ [t] queue _ dist (popWriters_self t [])
          simp [Writer.ops, isBatch]
        intro isTmp
        by_contra nonempty
        exact empty ⟨isTmp, nonempty⟩

end Group

/-! ## What an event does -/

def Pc.Leads : Pc → Prop
  | .makingRoom _ _ => True
  | .applying _ => True
  | _ => False

variable {p : Params}

namespace System

/-- The state after the writers up to the last one of a group were popped. -/
def popped (s : System) (t : Nat) (members rest : List Nat) (status : Option Status) (ops : List Op)
    (first : Nat) (synced : Bool) : System :=
  { s with
    writers := rest
    writer := fun u =>
      if u ∈ members ∧ u ≠ t then { s.writer u with status := status, done := true } else s.writer u
    pc := Function.update s.pc t (.returned status)
    groups := s.groups ++ [⟨members, status, ops, first, s.db.logfileNumber, synced⟩] }

variable {s s' : System}

theorem leave_ok {t last : Nat} {status : Option Status} {ops : List Op} {first : Nat}
    {synced : Bool} (left : s.leave t last status ops first synced = .ok s') :
    ∃ ms rest, popWriters last s.writers = some (ms, rest) ∧ s' = s.popped t ms rest status ops first synced := by
  simp only [leave] at left
  split at left
  · cases left
  case h_2 ms rest pops =>
    cases left
    exact ⟨ms, rest, pops, rfl⟩

def goto (s : System) (t : Nat) (pc : Pc) : System := { s with pc := Function.update s.pc t pc }

/-- The state when a leader has applied its group, before the group leaves the queue. -/
def applied (s : System) (work : Work) (status : Option Status) (bgError : Option Status) : System :=
  { s with
    bgError := bgError
    tmpBatch := if work.isTmp then [] else s.tmpBatch
    db := { s.db with
      lastSequence := work.lastSequence
      history := s.db.history ++
        numbered (s.db.lastSequence + 1) (if status.isNone then work.updates else []) } }

def called (s : System) (t : Nat) (batch : Option WriteBatch) (sync : Bool) : System :=
  { s with
    writer := Function.update s.writer t ⟨batch, false, false, none⟩
    optionsSync := Function.update s.optionsSync t sync
    pc := Function.update s.pc t .waiting
    writers := s.writers ++ [t]
    order := s.order ++ [t] }

inductive Effect (p : Params) (s : System) : Event → System → Prop
  | call {t : Nat} {batch : Option WriteBatch} {sync : Bool} (outside : s.pc t = .outside) :
    Effect p s (.call t batch sync) (s.called t batch sync)
  | idle {event : Event} : Effect p s event s
  | returns {t : Nat} (waits : s.pc t = .waiting) (isDone : (s.writer t).done = true) :
    Effect p s (.check t) (s.goto t (.returned (s.writer t).status))
  | leads {t : Nat} (waits : s.pc t = .waiting) (pending : (s.writer t).done = false)
    (front : s.writers.head? = some t) :
    Effect p s (.check t) (s.goto t (.makingRoom (s.writer t).batch.isNone !(s.writer t).batch.isNone))
  | delays {t memoryUsage : Nat} {opened : Option Status} {force allowDelay : Bool}
    (here : s.pc t = .makingRoom force allowDelay) :
    Effect p s (.makeRoom t memoryUsage opened) (s.goto t (.makingRoom force false))
  | switches {t memoryUsage : Nat} {opened : Option Status} {force allowDelay : Bool}
    (here : s.pc t = .makingRoom force allowDelay) (free : s.db.imm = none) {db : Db}
    (switched : s.db.switchMemTable = .ok db) :
    Effect p s (.makeRoom t memoryUsage opened) { s.goto t (.makingRoom false allowDelay) with db := db }
  | alone {t memoryUsage : Nat} {opened : Option Status} {force allowDelay : Bool}
    (here : s.pc t = .makingRoom force allowDelay) {status : Option Status} {members rest : List Nat}
    (nothing : status.isSome ∨ (s.writer t).batch = none) (unforced : status = none → force = false)
    (pops : popWriters t s.writers = some (members, rest)) :
    Effect p s (.makeRoom t memoryUsage opened) (s.popped t members rest status [] (s.db.lastSequence + 1) false)
  | builds {t memoryUsage : Nat} {opened : Option Status} {force allowDelay : Bool}
    (here : s.pc t = .makingRoom force allowDelay) {batch : WriteBatch} (isBatch : (s.writer t).batch = some batch)
    (noError : s.bgError = none) {group : BatchGroup}
    (built : buildBatchGroup s.writer s.tmpBatch s.writers = some group) :
    Effect p s (.makeRoom t memoryUsage opened)
      { s.goto t (.applying
          { updates := group.result
            isTmp := group.isTmp
            sequence := s.db.lastSequence + 1
            lastWriter := group.lastWriter
            lastSequence := s.db.lastSequence + group.result.length
            synced := false
            stage := .unlocked }) with
        tmpBatch := if group.isTmp then group.result else s.tmpBatch }
  | syncFails {t : Nat} {error : Status} {work : Work} (here : s.pc t = .applying work)
    (atStage : work.stage = .unlocked) (asked : s.optionsSync t = true) :
    Effect p s (.syncLog t (some error))
      (s.goto t (.applying { work with synced := s.optionsSync t, stage := .finished (some error) true }))
  | inserts {t : Nat} {synced : Option Status} {work : Work} (here : s.pc t = .applying work)
    (atStage : work.stage = .unlocked) :
    Effect p s (.syncLog t synced)
      (s.goto t (.applying { work with
        synced := s.optionsSync t
        stage := .inserting s.db.logfileNumber work.sequence work.updates }))
  | adds {t : Nat} {work : Work} (here : s.pc t = .applying work) {table sequence : Nat} {op : Op} {rest : List Op}
    (atStage : work.stage = .inserting table sequence (op :: rest)) :
    Effect p s (.add t)
      { s.goto t (.applying { work with stage := .inserting table (sequence + 1) rest }) with
        db := addTo s.db table (op.entry sequence)
        adds := s.adds ++ [⟨table, sequence, op⟩] }
  | inserted {t : Nat} {work : Work} (here : s.pc t = .applying work) {table sequence : Nat}
    (atStage : work.stage = .inserting table sequence []) :
    Effect p s (.add t) (s.goto t (.applying { work with stage := .finished none false }))
  | finishes {t : Nat} {work : Work} (here : s.pc t = .applying work) {status : Option Status} {syncError : Bool}
    (atStage : work.stage = .finished status syncError) {bgError : Option Status}
    (errors : bgError = none → s.bgError = none ∧ (syncError = true → status = none)) {members rest : List Nat}
    (pops : popWriters work.lastWriter s.writers = some (members, rest)) :
    Effect p s (.finish t) ((s.applied work status bgError).popped t members rest status
        (if status.isNone then work.updates else []) (s.db.lastSequence + 1) work.synced)
  | background {label : Step} (isBackground : label.isBackground = true) {db : Db}
    (taken : s.db.step p label = .ok db) :
    Effect p s (.background label) { s with db := db }
  | backgroundError {error : Status} : Effect p s (.backgroundError error) (s.recordBackgroundError error)

theorem afterMakeRoom_effect {t memoryUsage : Nat} {opened status : Option Status}
    {force allowDelay : Bool} (here : s.pc t = .makingRoom force allowDelay)
    (unforced : status = none → force = false) (noError : status = none → s.bgError = none)
    (run : s.afterMakeRoom t status = .ok s') : Effect p s (.makeRoom t memoryUsage opened) s' := by
  have alone : (status.isSome ∨ (s.writer t).batch = none) →
      s.leave t t status [] (s.db.lastSequence + 1) false = .ok s' →
      Effect p s (.makeRoom t memoryUsage opened) s' := by
    intro nothing left
    obtain ⟨ms, rest, pops, rfl⟩ := leave_ok left
    exact .alone here nothing unforced pops
  cases status with
  | some error => exact alone (.inl rfl) run
  | none =>
    cases isBatch : (s.writer t).batch with
    | none =>
      simp only [afterMakeRoom, isBatch] at run
      exact alone (.inr isBatch) run
    | some batch =>
      simp only [afterMakeRoom, isBatch] at run
      split at run
      · cases run
      case h_2 group built =>
        cases run
        exact .builds here isBatch (noError rfl) built

theorem makeRoom_effect {writeBufferSize : Nat} {t memoryUsage : Nat}
    {opened : Option Status} (run : s.makeRoom writeBufferSize t memoryUsage opened = .ok s') :
    Effect p s (.makeRoom t memoryUsage opened) s' := by
  simp only [makeRoom] at run
  split at run
  case h_1 force allowDelay here =>
    split at run
    case h_1 error failed => exact afterMakeRoom_effect here (by simp) (by simp) run
    case h_2 noError =>
      split at run
      · cases run
        exact .delays here
      split at run
      case isTrue roomy => exact afterMakeRoom_effect here (fun _ => roomy.1) (fun _ => noError) run
      · split at run
        · cases run
          exact .idle
        case isFalse free =>
          split at run
          · cases run
          split at run
          case h_1 error => exact afterMakeRoom_effect here (by simp) (by simp) run
          · split at run
            · cases run
            case h_2 db switched =>
              cases run
              refine .switches here ?_ switched
              simpa using fun isImm => free (.inl isImm)
  · cases run

/-- The inversion of a step. -/
theorem step_effect {writeBufferSize : Nat} {ev : Event}
    (run : s.step p writeBufferSize ev = .ok s') : Effect p s ev s' := by
  cases ev with
  | call t batch sync =>
    simp only [step] at run
    split at run
    case h_1 out =>
      cases run
      exact .call out
    · cases run
  | check t =>
    simp only [step, check] at run
    split at run
    case h_1 waits =>
      split at run
      case isTrue isDone =>
        cases run
        exact .returns waits isDone
      case isFalse pending =>
        split at run
        case isTrue front =>
          cases run
          exact .leads waits (by simpa using pending) front
        · cases run
          exact .idle
    · cases run
  | makeRoom t memoryUsage opened => exact makeRoom_effect run
  | syncLog t synced =>
    simp only [step, syncLog] at run
    split at run
    case h_1 work here =>
      split at run
      case h_1 stage =>
        split at run
        case isTrue failed =>
          cases synced with
          | none => simp at failed
          | some error =>
            rw [← Except.ok.inj run]
            exact @Effect.syncFails p s t error work here stage failed.1
        · rw [← Except.ok.inj run]
          exact @Effect.inserts p s t synced work here stage
      · cases run
    · cases run
  | add t =>
    simp only [step, add] at run
    split at run
    case h_1 work here =>
      split at run
      case h_1 table seq op rest stage =>
        cases run
        exact .adds here stage
      case h_2 table seq stage =>
        cases run
        exact .inserted here stage
      · cases run
    · cases run
  | finish t =>
    simp only [step, finish] at run
    split at run
    case h_1 work here =>
      split at run
      case h_1 status syncError stage =>
        obtain ⟨ms, rest, pops, rfl⟩ := leave_ok run
        refine .finishes here stage (fun noError => ?_) pops
        cases syncError with
        | false => exact ⟨noError, by simp⟩
        | true =>
          cases status with
          | none => exact ⟨noError, fun _ => rfl⟩
          | some error => simp [recordBackgroundError] at noError
      · cases run
    · cases run
  | background lbl =>
    simp only [step] at run
    split at run
    case isTrue isBackground =>
      split at run
      · cases run
      case h_2 db runs =>
        cases run
        exact .background isBackground runs
    · cases run
  | backgroundError error =>
    cases run
    exact .backgroundError

end System

namespace Db

structure Apart (db db' : Db) : Prop where
  mem : db'.mem = db.mem
  lastSequence : db'.lastSequence = db.lastSequence
  logfileNumber : db'.logfileNumber = db.logfileNumber
  history : db'.history = db.history
  next : db.nextFileNumber ≤ db'.nextFileNumber

theorem logAndApply_apart {db db' : Db} {edit : VersionEdit Bytes} (run : db.logAndApply edit = .ok db') :
    Apart db db' := by
  obtain ⟨_, _, rfl⟩ := logAndApply_ok run
  exact ⟨rfl, rfl, rfl, rfl, le_rfl⟩

theorem commitFlush_apart {db db' : Db} {records : List Record} {rh : Digest}
    (run : db.commitFlush p records rh = .ok db') : Apart db db' := by
  simp only [commitFlush] at run
  split at run
  · cases run
  case h_2 applied =>
    cases run
    have apart := logAndApply_apart applied
    exact ⟨apart.mem, apart.lastSequence, apart.logfileNumber, apart.history, (Nat.le_succ _).trans apart.next⟩

/-- No background step sees the memtable in use. -/
theorem step_apart {db db' : Db} {lbl : Step} (isBackground : lbl.isBackground = true)
    (run : step p db lbl = .ok db') :
    Apart db db' ∧ (db'.imm = db.imm ∨ ∃ heap beyond rh, lbl = .compactMemTable heap beyond rh) := by
  cases lbl with
  | write | switchMemTable => cases isBackground
  | compactMemTable heap beyond rh =>
    obtain ⟨imm, _, ⟨_, commits⟩ | ⟨_, _, commits⟩⟩ := compactMemTable_built run
    · exact ⟨commitFlush_apart commits, .inr ⟨heap, beyond, rh, rfl⟩⟩
    · exact ⟨commitFlush_apart commits, .inr ⟨heap, beyond, rh, rfl⟩⟩
  | getSnapshot | releaseSnapshot =>
    cases run
    exact ⟨⟨rfl, rfl, rfl, rfl, le_rfl⟩, .inl rfl⟩
  | chargeSeek key =>
    obtain ⟨_, _, _, _, rfl⟩ := chargeSeek_ok run
    exact ⟨⟨rfl, rfl, rfl, rfl, le_rfl⟩, .inl rfl⟩
  | backgroundCompaction trigger rh =>
    obtain ⟨_, _, c, _, ⟨f, _, _, _, _, applied⟩ | started⟩ := backgroundCompaction_ok run
    · have apart := logAndApply_apart applied
      obtain ⟨_, _, rfl⟩ := logAndApply_ok applied
      exact ⟨⟨apart.mem, apart.lastSequence, apart.logfileNumber, apart.history, apart.next⟩, .inl rfl⟩
    · subst started
      exact ⟨⟨rfl, rfl, rfl, rfl, le_rfl⟩, .inl rfl⟩
  | compactionIteration =>
    obtain ⟨cs, ent, _, _, _, rfl⟩ := compactionIteration_ok run
    refine ⟨⟨rfl, rfl, rfl, rfl, ?_⟩, .inl rfl⟩
    have numbers := cs.compactEntry_numbers p.options p.size db.nextFileNumber ent
    change _ ≤ (cs.compactEntry p.options p.size db.nextFileNumber ent).2
    omega
  | installCompaction rh =>
    obtain ⟨_, _, _, _, _, rfl⟩ := installCompaction_ok run
    exact ⟨⟨rfl, rfl, rfl, rfl, le_rfl⟩, .inl rfl⟩

end Db

end Elsm
