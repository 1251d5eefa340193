import Mathlib.Data.List.Sort
import Elsm.Db.MemTable
import Elsm.Lib.Transition
import Elsm.Version.CompactionWork

/-!
# The database as a state machine (`db/db_impl.cpp`, `db/version_set.cpp`)

One step is what the code does between two points at which the mutex may change hands:
applying a group of batches, switching memtables (`MakeRoomForWrite`), flushing one
(`CompactMemTable`), taking and releasing snapshots, choosing a compaction
(`BackgroundCompaction`), one iteration of `DoCompactionWork`, installing its results.  One
background thread does the flushes and compactions, so at most one compaction runs, and a
flush may happen between any two of its iterations.  Host operations succeed.

What the code leaves uninitialised or reads past its end is an argument of the step.
`history` records the operations applied and takes no part in any step.
-/

namespace Elsm

open Merkle (Digest Mac Record)

structure Params where
  options : Options
  mac : Mac
  size : TableSize Bytes

structure Db where
  mem : List Record
  imm : Option (List Record)
  /-- The records of the table with a given file number. -/
  tables : Nat → List Record
  current : Version Bytes
  compactPointer : Nat → Option (InternalKey Bytes)
  nextFileNumber : Nat
  lastSequence : Nat
  logNumber : Nat
  prevLogNumber : Nat
  logfileNumber : Nat
  /-- The numbers of the live snapshots, oldest first. -/
  snapshots : List Nat
  compaction : Option (CompactionState Bytes)
  manifest : List (VersionEdit Bytes)
  history : List (Nat × Op)

/-- Why a step does not lead to a next state: it is not the code's turn to take it, a buffer
is overrun, or a check fails and the process ends. -/
inductive Stop where
  | disabled
  | overrun
  | abort
  deriving DecidableEq, Repr

/-- Why the background thread compacts: a level is too large, a file was sought too often, or
`DBImpl::CompactRange` asks for it. -/
inductive Trigger where
  | size (level : Nat)
  | seek
  | manual (level : Nat) (begin_ end_ : Option (InternalKey Bytes))

def Trigger.isManual : Trigger → Bool
  | .manual _ _ _ => true
  | _ => false

inductive Step where
  | write (ops : List Op)
  | switchMemTable
  /-- `heap` and `beyond` are the memory `BuildTable` reads without having written it, `rh`
  the bytes `AddFile` finds in its local. -/
  | compactMemTable (heap : Nat → Digest) (beyond : Nat → Nat → UInt8) (rh : Digest)
  | getSnapshot
  | releaseSnapshot (number : Nat)
  /-- A read of the key charges a file, and `UpdateStats` finds its allowed seeks used up. -/
  | chargeSeek (key : InternalKey Bytes)
  | backgroundCompaction (trigger : Trigger) (rh : Digest)
  | compactionIteration
  | installCompaction (rh : Nat → Digest)

/-! ## Seeks -/

/-- The files of a level `Version::Get` reads: at level 0 those whose range holds the user key,
newest first, else at most one. -/
def filesToSearch (version : Version Bytes) (key : InternalKey Bytes) (level : Nat) : List (FileMetaData Bytes) :=
  if level = 0 then
    ((version.files 0).filter fun f =>
      f.smallest.userKey ≤ key.userKey ∧ key.userKey ≤ f.largest.userKey).insertionSort fun a b => b.number ≤ a.number
  else
    match (version.files level)[findFile (version.files level) key]? with
    | none => []
    | some f => if key.userKey < f.smallest.userKey then [] else [f]

/-- `ForEachOverlapping`: the files that a read of the key comes to, each with its level. -/
def Version.overlapping (version : Version Bytes) (key : InternalKey Bytes) : List (FileMetaData Bytes × Nat) :=
  (List.range kNumLevels).flatMap fun level => (filesToSearch version key level).map fun f => (f, level)

/-- `RecordReadSample` charges the first of at least two files, and so does a `Version::Get` that goes on to
a second one. -/
def Version.seekFile (version : Version Bytes) (key : InternalKey Bytes) : Option (FileMetaData Bytes × Nat) :=
  match version.overlapping key with
  | first :: _ :: _ => some first
  | _ => none

namespace Db

/-! ## Edits -/

/-- The fields `LogAndApply` fills in. -/
def completeEdit (db : Db) (edit : VersionEdit Bytes) : VersionEdit Bytes :=
  { edit with
    logNumber := some (edit.logNumber.getD db.logNumber)
    prevLogNumber := some (edit.prevLogNumber.getD db.prevLogNumber)
    nextFileNumber := some db.nextFileNumber
    lastSequence := some db.lastSequence }

/-- `LogAndApply`: its assertion on the log number, the new version, the MANIFEST record, the
installation. -/
def logAndApply (db : Db) (edit : VersionEdit Bytes) : Except Stop Db :=
  if edit.logNumber.any fun n => n < db.logNumber ∨ db.nextFileNumber ≤ n then .error .abort
  else
    match db.current.applyEdit edit with
    | none => .error .abort
    | some version =>
      .ok { db with
        current := version
        compactPointer := applyCompactPointers edit db.compactPointer
        manifest := db.manifest ++ [db.completeEdit edit]
        logNumber := edit.logNumber.getD db.logNumber
        prevLogNumber := edit.prevLogNumber.getD db.prevLogNumber }

/-! ## Steps of the writers -/

def write (db : Db) (ops : List Op) : Db :=
  { db with
    mem := insertInto (db.lastSequence + 1) ops db.mem
    lastSequence := db.lastSequence + ops.length
    history := db.history ++ numbered (db.lastSequence + 1) ops }

def switchMemTable (db : Db) : Except Stop Db :=
  match db.imm with
  | some _ => .error .disabled
  | none =>
    .ok { db with
      imm := some db.mem
      mem := []
      logfileNumber := db.nextFileNumber
      nextFileNumber := db.nextFileNumber + 1 }

/-! ## `CompactMemTable` -/

/-- The edit `WriteLevel0Table` makes for a table it built from the memtable. -/
def flushEdit (p : Params) (db : Db) (records : List Record) (rh : Digest) : VersionEdit Bytes :=
  match records.head?, records.getLast? with
  | some first, some last =>
    let level := pickLevelForMemTableOutput p.options db.current first.1.userKey last.1.userKey
    VersionEdit.empty.addFile level db.nextFileNumber (p.size.finished records) first.1 last.1 rh
  | _, _ => .empty

def commitFlush (p : Params) (db : Db) (records : List Record) (rh : Digest) : Except Stop Db :=
  let edit := { db.flushEdit p records rh with prevLogNumber := some 0, logNumber := some db.logfileNumber }
  let db := { db with
    nextFileNumber := db.nextFileNumber + 1
    tables := Function.update db.tables db.nextFileNumber records }
  match db.logAndApply edit with
  | .error stop => .error stop
  | .ok db => .ok { db with imm := none }

/-- A running compaction yields to a flush before each entry it handles. -/
def compactMemTable (p : Params) (db : Db) (heap : Nat → Digest) (beyond : Nat → Nat → UInt8)
    (rh : Digest) : Except Stop Db :=
  match db.imm, db.compaction.any fun cs => cs.input.isEmpty with
  | none, _ => .error .disabled
  | some _, true => .error .disabled
  | some imm, false =>
    match Merkle.buildTable p.mac heap beyond imm with
    | .overrun => .error .overrun
    | .noFile => db.commitFlush p [] rh
    | .file image => db.commitFlush p image.records rh

/-! ## `BackgroundCompaction` -/

/-- `MakeInputIterator`: the entries of all input tables in key order. -/
def inputEntries (tables : Nat → List Record) (c : Compaction Bytes) : List Record :=
  ((c.inputs0 ++ c.inputs1).flatMap fun f => tables f.number).insertionSort fun a b => a.1 ≤ b.1

/-- `smallest_snapshot`: the oldest live snapshot, or else the last sequence number. -/
def smallestSnapshot (db : Db) : Nat := db.snapshots.head?.getD db.lastSequence

def moveEdit (c : Compaction Bytes) (f : FileMetaData Bytes) (rh : Digest) : VersionEdit Bytes :=
  (c.edit.deleteFile c.level f.number).addFile (c.level + 1) f.number f.fileSize f.smallest f.largest rh

/-- `PickCompaction` or `CompactRange`, at levels that have a next one. -/
def pickCompaction (p : Params) (db : Db) : Trigger → Option (Compaction Bytes)
  | .size level =>
    if level + 1 < kNumLevels then pickSizeCompaction p.options db.current db.compactPointer level else none
  | .seek => pickSeekCompaction p.options db.current
  | .manual level begin_ end_ =>
    if level + 1 < kNumLevels then compactRange p.options db.current level begin_ end_ else none

def startWork (db : Db) (c : Compaction Bytes) : Db :=
  { db with
    compaction := some
      { compaction := c
        smallestSnapshot := db.smallestSnapshot
        outputs := []
        builder := none
        input := inputEntries db.tables c
        currentUserKey := none
        lastSequenceForKey := kMaxSequenceNumber } }

/-- The background thread takes up a compaction when it runs none and no memtable waits.  A
trivial move is logged at once. -/
def backgroundCompaction (p : Params) (db : Db) (trigger : Trigger) (rh : Digest) : Except Stop Db :=
  if db.compaction.isSome ∨ db.imm.isSome then .error .disabled
  else
    match db.pickCompaction p trigger with
    | none => .error .disabled
    | some c =>
      let db := { db with compactPointer := applyCompactPointers c.edit db.compactPointer }
      match !trigger.isManual && c.isTrivialMove p.options, c.inputs0 with
      | true, f :: _ => db.logAndApply (moveEdit c f rh)
      | _, _ => .ok (db.startWork c)

def compactionIteration (p : Params) (db : Db) : Except Stop Db :=
  match db.compaction with
  | none => .error .disabled
  | some cs =>
    match cs.input with
    | [] => .error .disabled
    | entry :: rest =>
      let next := cs.compactEntry p.options p.size db.nextFileNumber entry
      .ok { db with
        nextFileNumber := next.2
        compaction := some { next.1 with input := rest } }

/-! ## `InstallCompactionResults` -/

def resultsEdit (cs : CompactionState Bytes) (rh : Nat → Digest) : VersionEdit Bytes :=
  cs.outputs.foldl
    (fun edit out =>
      edit.addFile (cs.compaction.level + 1) out.number out.fileSize out.smallest out.largest (rh out.number))
    (cs.compaction.addInputDeletions cs.compaction.edit)

def withOutputs (tables : Nat → List Record) (outputs : List (Output Bytes)) : Nat → List Record :=
  outputs.foldl (fun tables out => Function.update tables out.number out.contents) tables

def installCompaction (p : Params) (db : Db) (rh : Nat → Digest) : Except Stop Db :=
  match db.compaction with
  | none => .error .disabled
  | some cs =>
    match cs.input with
    | _ :: _ => .error .disabled
    | [] =>
      let cs := cs.finishCompactionOutputFile p.size
      let db := { db with tables := withOutputs db.tables cs.outputs }
      match db.logAndApply (resultsEdit cs rh) with
      | .error stop => .error stop
      | .ok db => .ok { db with compaction := none }

/-! ## The machine -/

def step (p : Params) (db : Db) : Step → Except Stop Db
  | .write ops => .ok (db.write ops)
  | .switchMemTable => db.switchMemTable
  | .compactMemTable heap beyond rh => db.compactMemTable p heap beyond rh
  | .getSnapshot => .ok { db with snapshots := db.snapshots ++ [db.lastSequence] }
  | .releaseSnapshot number => .ok { db with snapshots := db.snapshots.erase number }
  | .chargeSeek key =>
    match db.current.seekFile key with
    | some seek => .ok { db with current := { db.current with
        fileToCompact := some (db.current.fileToCompact.getD seek) } }
    | none => .error .disabled
  | .backgroundCompaction trigger rh => db.backgroundCompaction p trigger rh
  | .compactionIteration => db.compactionIteration p
  | .installCompaction rh => db.installCompaction p rh

/-- A database just created: `NewDB` and `DB::Open` have used the numbers up to 3. -/
def init : Db where
  mem := []
  imm := none
  tables := fun _ => []
  current := .empty
  compactPointer := fun _ => none
  nextFileNumber := 4
  lastSequence := 0
  logNumber := 3
  prevLogNumber := 0
  logfileNumber := 3
  snapshots := []
  compaction := none
  manifest := [{ VersionEdit.empty with comparator := some "leveldb.BytewiseComparator" },
     { VersionEdit.empty with
        logNumber := some 3, prevLogNumber := some 0, nextFileNumber := some 4, lastSequence := some 0 }]
  history := []

/-- The databases reached from a new one by steps that satisfy `allowed`. -/
abbrev Reachable (p : Params) (allowed : Db → Step → Prop) (db : Db) : Prop :=
  Transition.Reaches (Transition.Steps (step p)) allowed init db

theorem Reachable.step {p : Params} {allowed : Db → Step → Prop} {db db' : Db} (lbl : Step)
    (reached : Reachable p allowed db) (adm : allowed db lbl)
    (run : Db.step p db lbl = .ok db') : Reachable p allowed db' :=
  reached.tail adm run

end Db

end Elsm
