import Elsm.Db.Invariant
import Elsm.Format.Coding
import Elsm.Version.Recover

/-!
# The queue of writers (`DBImpl::Write`, `BuildBatchGroup`, `MakeRoomForWrite`)

Any number of calls of `Write` run at the same time.  One event is what a thread does between
two points at which the mutex may change hands; with the mutex released, the leader of a group
calls `MemTable::Add` once an event, so all other threads may come in between.  The background
thread takes part with its own steps.  A wait on a condition variable may end at any time: the
code checks its condition again.

`order`, `groups` and `adds` record what happened and take no part in any event.
-/

namespace Elsm

open Merkle (Record)

/-! ## Batches -/

def lengthPrefixedSize (slice : Bytes) : Nat := (encodeVarint32 slice.length).length + slice.length

def Op.encodedSize : Op → Nat
  | .put key value => 1 + lengthPrefixedSize key + lengthPrefixedSize value
  | .delete key => 1 + lengthPrefixedSize key

def opsSize (ops : List Op) : Nat := (ops.map Op.encodedSize).sum

/-- The count of a batch is an `int`. -/
structure WriteBatch where
  ops : List Op
  count_lt : ops.length < 2147483648
  deriving DecidableEq

def WriteBatch.byteSize (batch : WriteBatch) : Nat := 12 + opsSize batch.ops

/-! ## The state -/

structure Writer where
  batch : Option WriteBatch
  sync : Bool
  done : Bool
  /-- `none` is OK. -/
  status : Option Status
  deriving DecidableEq

def Writer.ops (writer : Writer) : List Op := (writer.batch.map (·.ops)).getD []

/-- How far a leader is with the mutex released. -/
inductive Stage where
  | unlocked
  /-- In `InsertInto`: the memtable, the next sequence number, the operations to come. -/
  | inserting (table sequence : Nat) (rest : List Op)
  | finished (status : Option Status) (syncError : Bool)
  deriving DecidableEq

/-- The locals of a leader. -/
structure Work where
  updates : List Op
  /-- `updates == tmp_batch_`. -/
  isTmp : Bool
  /-- The sequence number in the header of `updates`. -/
  sequence : Nat
  lastWriter : Nat
  lastSequence : Nat
  /-- `logfile_->Sync()` was called. -/
  synced : Bool
  stage : Stage
  deriving DecidableEq

inductive Pc where
  | outside
  | waiting
  | makingRoom (force allowDelay : Bool)
  | applying (work : Work)
  | returned (status : Option Status)
  deriving DecidableEq

/-- A group that left the queue: its writers, the status they got, the operations that were
inserted, the first sequence number and the memtable they went to, and whether the leader
synced the log for it. -/
structure Group where
  members : List Nat
  status : Option Status
  ops : List Op
  first : Nat
  table : Nat
  synced : Bool

/-- A call of `MemTable::Add`.  A memtable is known by the number of its log. -/
structure Add where
  table : Nat
  sequence : Nat
  op : Op
  deriving DecidableEq, Repr

def Add.entry (a : Add) : Record := a.op.entry a.sequence

def addAll (table sequence : Nat) (ops : List Op) : List Add :=
  (numbered sequence ops).map fun q => ⟨table, q.1, q.2⟩

structure System where
  db : Db
  writers : List Nat
  writer : Nat → Writer
  pc : Nat → Pc
  optionsSync : Nat → Bool
  tmpBatch : List Op
  bgError : Option Status
  order : List Nat
  groups : List Group
  adds : List Add

inductive Event where
  | call (t : Nat) (batch : Option WriteBatch) (sync : Bool)
  | check (t : Nat)
  /-- One turn of the loop of `MakeRoomForWrite`, with the memory the memtable uses and the
  outcome of creating a log. -/
  | makeRoom (t : Nat) (memoryUsage : Nat) (opened : Option Status)
  | syncLog (t : Nat) (synced : Option Status)
  | add (t : Nat)
  | finish (t : Nat)
  | background (label : Step)
  | backgroundError (error : Status)

def kL0_SlowdownWritesTrigger : Nat := 99999

def kL0_StopWritesTrigger : Nat := 99999

/-- The steps of the background thread and of the holders of snapshots. -/
def Step.isBackground : Step → Bool
  | .write _ => false
  | .switchMemTable => false
  | _ => true

/-! ## `BuildBatchGroup` -/

structure BatchGroup where
  result : List Op
  isTmp : Bool
  lastWriter : Nat
  size : Nat

def maxGroupSize (size : Nat) : Nat := if size ≤ 131072 then size + 131072 else 1048576

/-- The loop of `BuildBatchGroup` over the writers after the first. -/
def growGroup (writer : Nat → Writer) (first : Writer) (maxSize : Nat) : List Nat → BatchGroup → BatchGroup
  | [], group => group
  | t :: rest, group =>
    if (writer t).sync && !first.sync then group
    else
      match (writer t).batch with
      | none => growGroup writer first maxSize rest { group with lastWriter := t }
      | some batch =>
        let size := group.size + batch.byteSize
        if maxSize < size then group
        else
          -- the first time, the temporary batch takes the place of the caller's
          growGroup writer first maxSize rest
            { result := group.result ++ batch.ops, isTmp := true, lastWriter := t, size := size }

/-- The group, unless the queue is empty or its first batch is `NULL`.  The assertion that the
temporary batch is empty stands where it is first used. -/
def buildBatchGroup (writer : Nat → Writer) (tmpBatch : List Op) : List Nat → Option BatchGroup
  | [] => none
  | t :: rest =>
    match (writer t).batch with
    | none => none
    | some batch =>
      let group := growGroup writer (writer t) (maxGroupSize batch.byteSize) rest
        { result := batch.ops, isTmp := false, lastWriter := t, size := batch.byteSize }
      if group.isTmp ∧ tmpBatch ≠ [] then none else some group

/-! ## Leaving the queue -/

/-- Pops writers up to the last one of a group; `none` when the queue runs empty before. -/
def popWriters (last : Nat) : List Nat → Option (List Nat × List Nat)
  | [] => none
  | t :: rest =>
    if t = last then some ([t], rest)
    else (popWriters last rest).map fun popped => (t :: popped.1, popped.2)

namespace System

/-- The end of `Write`: the writers of the group get the status, the leader returns. -/
def leave (s : System) (t last : Nat) (status : Option Status) (ops : List Op) (first : Nat)
    (synced : Bool) : Except Stop System :=
  match popWriters last s.writers with
  | none => .error .overrun
  | some (popped, rest) =>
    .ok { s with
      writers := rest
      writer := fun u =>
        if u ∈ popped ∧ u ≠ t then { s.writer u with status := status, done := true } else s.writer u
      pc := Function.update s.pc t (.returned status)
      groups := s.groups ++ [⟨popped, status, ops, first, s.db.logfileNumber, synced⟩] }

def recordBackgroundError (s : System) (error : Status) : System :=
  { s with bgError := some (s.bgError.getD error) }

def afterMakeRoom (s : System) (t : Nat) (status : Option Status) : Except Stop System :=
  match status, (s.writer t).batch with
  | none, some _ =>
    match buildBatchGroup s.writer s.tmpBatch s.writers with
    | none => .error .abort
    | some group =>
      .ok { s with
        tmpBatch := if group.isTmp then group.result else s.tmpBatch
        pc := Function.update s.pc t <| .applying
          { updates := group.result
            isTmp := group.isTmp
            sequence := s.db.lastSequence + 1
            lastWriter := group.lastWriter
            lastSequence := s.db.lastSequence + group.result.length
            synced := false
            stage := .unlocked } }
  | _, _ => s.leave t t status [] (s.db.lastSequence + 1) false

/-! ## Events -/

def makeRoom (writeBufferSize : Nat) (s : System) (t memoryUsage : Nat) (opened : Option Status) : Except Stop System :=
  match s.pc t with
  | .makingRoom force allowDelay =>
    match s.bgError with
    | some error => s.afterMakeRoom t (some error)
    | none =>
      if allowDelay ∧ kL0_SlowdownWritesTrigger ≤ (s.db.current.files 0).length then
        .ok { s with pc := Function.update s.pc t (.makingRoom force false) }
      else if force = false ∧ memoryUsage ≤ writeBufferSize then s.afterMakeRoom t none
      else if s.db.imm.isSome ∨ kL0_StopWritesTrigger ≤ (s.db.current.files 0).length then .ok s
      else if s.db.prevLogNumber ≠ 0 then .error .abort
      else
        match opened with
        | some error => s.afterMakeRoom t (some error)
        | none =>
          match s.db.switchMemTable with
          | .error stop => .error stop
          | .ok db => .ok { s with db := db, pc := Function.update s.pc t (.makingRoom false allowDelay) }
  | _ => .error .disabled

/-- The loop condition of `Write`, checked with the mutex held. -/
def check (s : System) (t : Nat) : Except Stop System :=
  match s.pc t with
  | .waiting =>
    if (s.writer t).done then .ok { s with pc := Function.update s.pc t (.returned (s.writer t).status) }
    else if s.writers.head? = some t then
      let force := (s.writer t).batch.isNone
      .ok { s with pc := Function.update s.pc t (.makingRoom force !force) }
    else .ok s
  | _ => .error .disabled

def setStage (s : System) (t : Nat) (work : Work) (stage : Stage) : System :=
  { s with pc := Function.update s.pc t (.applying { work with stage := stage }) }

/-- `logfile_->Sync()` if the leader asks for it; then `InsertInto` is called with `mem_`. -/
def syncLog (s : System) (t : Nat) (synced : Option Status) : Except Stop System :=
  match s.pc t with
  | .applying work =>
    match work.stage with
    | .unlocked =>
      let work := { work with synced := s.optionsSync t }
      if s.optionsSync t = true ∧ synced.isSome then .ok (s.setStage t work (.finished synced true))
      else .ok (s.setStage t work (.inserting s.db.logfileNumber work.sequence work.updates))
    | _ => .error .disabled
  | _ => .error .disabled

/-- A memtable is reached through the pointer `InsertInto` was given. -/
def addTo (db : Db) (table : Nat) (e : Record) : Db :=
  if table = db.logfileNumber then { db with mem := insertEntry e db.mem }
  else { db with imm := db.imm.map (insertEntry e) }

def add (s : System) (t : Nat) : Except Stop System :=
  match s.pc t with
  | .applying work =>
    match work.stage with
    | .inserting table sequence (op :: rest) =>
      .ok { s.setStage t work (.inserting table (sequence + 1) rest) with
        db := addTo s.db table (op.entry sequence)
        adds := s.adds ++ [⟨table, sequence, op⟩] }
    | .inserting _ _ [] => .ok (s.setStage t work (.finished none false))
    | _ => .error .disabled
  | _ => .error .disabled

/-- With the mutex held again: a failed sync stops all later writes, but the sequence numbers of
the group are used up in any case. -/
def finish (s : System) (t : Nat) : Except Stop System :=
  match s.pc t with
  | .applying work =>
    match work.stage with
    | .finished status syncError =>
      let bgError := match syncError, status with
        | true, some error => (s.recordBackgroundError error).bgError
        | _, _ => s.bgError
      let ops := if status.isNone then work.updates else []
      let first := s.db.lastSequence + 1
      { s with
        bgError := bgError
        tmpBatch := if work.isTmp then [] else s.tmpBatch
        db := { s.db with
          lastSequence := work.lastSequence
          history := s.db.history ++ numbered first ops } }.leave t work.lastWriter status ops first work.synced
    | _ => .error .disabled
  | _ => .error .disabled

section Step

variable (p : Params) (writeBufferSize : Nat)

def step (s : System) : Event → Except Stop System
  | .call t batch sync =>
    match s.pc t with
    | .outside =>
      .ok { s with
        -- the writer's `sync` is always false
        writer := Function.update s.writer t ⟨batch, false, false, none⟩
        optionsSync := Function.update s.optionsSync t sync
        pc := Function.update s.pc t .waiting
        writers := s.writers ++ [t]
        order := s.order ++ [t] }
    | _ => .error .disabled
  | .check t => s.check t
  | .makeRoom t memoryUsage opened => s.makeRoom writeBufferSize t memoryUsage opened
  | .syncLog t synced => s.syncLog t synced
  | .add t => s.add t
  | .finish t => s.finish t
  | .background label =>
    if label.isBackground then
      match s.db.step p label with
      | .error stop => .error stop
      | .ok db => .ok { s with db := db }
    else .error .disabled
  | .backgroundError error => .ok (s.recordBackgroundError error)

def start (db : Db) : System where
  db := db
  writers := []
  writer := fun _ => ⟨none, false, false, none⟩
  pc := fun _ => .outside
  optionsSync := fun _ => false
  tmpBatch := []
  bgError := none
  order := []
  groups := []
  adds := []

/-- What any number of writers and the background thread may reach. -/
abbrev Reachable (db : Db) (s : System) : Prop :=
  Transition.Reaches (Transition.Steps (step p writeBufferSize)) (fun _ _ => True) (start db) s

end Step

end System

end Elsm
