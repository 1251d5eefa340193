import Elsm.Db.State
import Elsm.Env.Children
import Elsm.Lib.RefCount

/-!
# The files of a database (`DBImpl::DeleteObsoleteFiles`)

A pass over the directory deletes what nobody needs.  What is needed is spread over several places:
the versions that somebody refers to, `pending_outputs_`, the number of the MANIFEST and the numbers of
the logs.  Here the directory is a list of names, versions are counted as `Version::Ref` and `Unref`
do, and the events are what the threads do while they hold the mutex once, or one operation of the
host.  Readers hold versions for as long as they like; flushes and compactions run on the background
thread, a flush also in the middle of a compaction.  The listing that a pass works on is an argument,
and it may hold any names.
-/

namespace Elsm

open RefCount (Table Counts)

/-! ## The state -/

namespace FileStore

/-- A compaction as `PickCompaction` and `CompactRange` make it: its edit has no files yet. -/
abbrev Picked := { c : Compaction Bytes // c.edit.newFiles = [] }

structure Working where
  compaction : Picked
  /-- `input_version_` -/
  input : Nat
  outputs : List Nat
  /-- An output that has a number and no file yet. -/
  opening : Option Nat

/-- What the background thread does besides flushing.  A version that `LogAndApply` has built is not
linked until the MANIFEST is written. -/
inductive Work where
  | idle
  | moving (input : Nat) (built : Version Bytes)
  | compacting (working : Working)
  | installing (working : Working) (built : Version Bytes)

inductive FlushStage where
  /-- In `BuildTable`, with the version `base`. -/
  | building (base : Nat) (created : Bool)
  /-- In `LogAndApply`, with the log number of the edit. -/
  | logging (built : Version Bytes) (logNumber : Nat)

structure Flush where
  number : Nat
  stage : FlushStage

end FileStore

structure FileStore where
  dir : List Bytes
  versions : Nat → Version Bytes
  made : Nat
  /-- `refs_` of the versions, and the list at `dummy_versions_`. -/
  table : Table Nat
  current : Nat
  pendingOutputs : Finset Nat
  nextFileNumber : Nat
  manifestFileNumber : Nat
  logNumber : Nat
  prevLogNumber : Nat
  logfileNumber : Nat
  /-- `imm_`, as the number of the log for it. -/
  immLog : Option Nat
  bgError : Bool
  /-- The versions held by `Get`, iterators and `GetApproximateSizes`. -/
  readers : List Nat
  flush : Option FileStore.Flush
  work : FileStore.Work

namespace FileStore

/-! ## Versions and numbers -/

def create (s : FileStore) (name : Bytes) : FileStore := { s with dir := name :: s.dir }

def delete (s : FileStore) (name : Bytes) : FileStore := { s with dir := s.dir.filter (· ≠ name) }

/-- `LogAndApply` up to where it releases the mutex. -/
def logAndApply (s : FileStore) (edit : VersionEdit Bytes) : Except Stop (Version Bytes) :=
  if edit.logNumber.any fun n => n < s.logNumber ∨ s.nextFileNumber ≤ n then .error .abort
  else
    match (s.versions s.current).applyEdit edit with
    | none => .error .abort
    | some built => .ok built

def appendVersion (s : FileStore) (built : Version Bytes) : FileStore :=
  { s with
    versions := Function.update s.versions s.made built
    made := s.made + 1
    table := (s.table.unref s.current).link s.made
    current := s.made }

/-! ## `DeleteObsoleteFiles` -/

/-- The pending outputs and what `AddLiveFiles` adds to them. -/
def live (s : FileStore) : Finset Nat :=
  s.table.linked.foldl (fun live v => live ∪ (s.versions v).liveFiles) s.pendingOutputs

def keeps (s : FileStore) (number : Nat) : FileType → Bool
  | .logFile => decide (s.logNumber ≤ number ∨ number = s.prevLogNumber)
  | .descriptorFile => decide (s.manifestFileNumber ≤ number)
  | .tableFile | .tempFile => decide (number ∈ s.live)
  | .currentFile | .dbLockFile | .infoLogFile => true

def deleteObsolete (s : FileStore) (dir : List Bytes) (filename : Bytes) : List Bytes :=
  match parseFileName filename with
  | some (number, type) => if s.keeps number type then dir else dir.filter (· ≠ filename)
  | none => dir

def deleteObsoleteFiles (s : FileStore) (filenames : List Bytes) : FileStore :=
  if s.bgError then s else { s with dir := filenames.foldl s.deleteObsolete s.dir }

/-! ## Readers and writers -/

def acquire (s : FileStore) : FileStore :=
  { s with table := s.table.ref s.current, readers := s.current :: s.readers }

def release (s : FileStore) (v : Nat) : Except Stop FileStore :=
  if v ∈ s.readers then .ok { s with table := s.table.unref v, readers := s.readers.erase v } else .error .disabled

/-- `MakeRoomForWrite` switches to a new log and memtable, or cannot create the log. -/
def switchMemTable (s : FileStore) (created : Bool) : Except Stop FileStore :=
  match s.immLog, created with
  | some _, _ => .error .disabled
  | none, false => .ok s
  | none, true =>
    .ok { s.create (logFileName s.nextFileNumber) with
      immLog := some s.logfileNumber
      logfileNumber := s.nextFileNumber
      nextFileNumber := s.nextFileNumber + 1 }

/-! ## `CompactMemTable` -/

/-- The background thread may start a flush when it has nothing else to do, or between two entries of
a compaction. -/
def canFlush (s : FileStore) : Bool :=
  s.immLog.isSome && s.flush.isNone && match s.work with
    | .idle => true
    | .compacting working => working.opening.isNone
    | _ => false

def startFlush (s : FileStore) : Except Stop FileStore :=
  if s.canFlush then
    .ok { s with
      table := s.table.ref s.current
      nextFileNumber := s.nextFileNumber + 1
      pendingOutputs := insert s.nextFileNumber s.pendingOutputs
      flush := some ⟨s.nextFileNumber, .building s.current false⟩ }
  else .error .disabled

def createTable (s : FileStore) : Except Stop FileStore :=
  match s.flush with
  | some ⟨number, .building base false⟩ =>
    .ok { s.create (tableFileName number) with flush := some ⟨number, .building base true⟩ }
  | _ => .error .disabled

inductive Built where
  /-- With an error, the table deleted or not.  `shutting_down_` makes an error, too. -/
  | failed (deleted : Bool)
  | empty
  | table (level fileSize : Nat) (smallest largest : InternalKey Bytes) (rh : Merkle.Digest)

/-- The edit of `CompactMemTable`, with the table if there is one. -/
def flushEdit (s : FileStore) (number : Nat) : Built → VersionEdit Bytes
  | .table level fileSize smallest largest rh =>
    { VersionEdit.empty.addFile level number fileSize smallest largest rh with
      prevLogNumber := some 0, logNumber := some s.logfileNumber }
  | _ => { VersionEdit.empty with prevLogNumber := some 0, logNumber := some s.logfileNumber }

/-- `CompactMemTable` from the end of `BuildTable` to where `LogAndApply` releases the mutex.  The table
is no longer pending from here on. -/
def endBuild (s : FileStore) (result : Built) : Except Stop FileStore :=
  match s.flush with
  | some ⟨number, .building base created⟩ =>
    let s := { s with table := s.table.unref base, pendingOutputs := s.pendingOutputs.erase number, flush := none }
    match result with
    | .failed deleted =>
      .ok { (if deleted then s.delete (tableFileName number) else s) with bgError := true }
    | .empty =>
      match s.logAndApply (s.flushEdit number .empty) with
      | .error stop => .error stop
      | .ok built =>
        .ok { s.delete (tableFileName number) with flush := some ⟨number, .logging built s.logfileNumber⟩ }
    | result =>
      if created then
        match s.logAndApply (s.flushEdit number result) with
        | .error stop => .error stop
        | .ok built => .ok { s with flush := some ⟨number, .logging built s.logfileNumber⟩ }
      else .error .disabled
  | _ => .error .disabled

/-- `CompactMemTable` after the MANIFEST was written, or not. -/
def flushLogged (s : FileStore) (written : Bool) (filenames : List Bytes) : Except Stop FileStore :=
  match s.flush, written with
  | some ⟨_, .logging built logNumber⟩, true =>
    .ok ({ s.appendVersion built with logNumber, prevLogNumber := 0, immLog := none, flush := none
      }.deleteObsoleteFiles filenames)
  | some ⟨_, .logging _ _⟩, false => .ok { s with flush := none, bgError := true }
  | _, _ => .error .disabled

/-! ## `BackgroundCompaction` -/

/-- The background thread may start a compaction when it has nothing else to do.  The inputs are taken
from the current version. -/
def canCompact (s : FileStore) (c : Compaction Bytes) : Bool :=
  s.immLog.isNone && s.flush.isNone && (match s.work with | .idle => true | _ => false) &&
    (c.inputs0.all fun f => f ∈ (s.versions s.current).files c.level) &&
    (c.inputs1.all fun f => f ∈ (s.versions s.current).files (c.level + 1)) && decide (c.level + 1 < kNumLevels)

/-- A trivial move up to where `LogAndApply` releases the mutex. -/
def startMove (s : FileStore) (c : Picked) (rh : Merkle.Digest) : Except Stop FileStore :=
  match s.canCompact c.1, c.1.inputs0 with
  | true, [f] =>
    match s.logAndApply (Db.moveEdit c.1 f rh) with
    | .error stop => .error stop
    | .ok built => .ok { s with table := s.table.ref s.current, work := .moving s.current built }
  | _, _ => .error .disabled

/-- The compaction lets go of its version when it is deleted. -/
def moveLogged (s : FileStore) (written : Bool) : Except Stop FileStore :=
  match s.work with
  | .moving input built =>
    let s := if written then s.appendVersion built else { s with bgError := true }
    .ok { s with table := s.table.unref input, work := .idle }
  | _ => .error .disabled

def startCompaction (s : FileStore) (c : Picked) : Except Stop FileStore :=
  if s.canCompact c.1 then .ok { s with table := s.table.ref s.current, work := .compacting ⟨c, s.current, [], none⟩ }
  else .error .disabled

/-- `OpenCompactionOutputFile` under the mutex. -/
def openOutput (s : FileStore) : Except Stop FileStore :=
  match s.flush, s.work with
  | none, .compacting ⟨c, input, outputs, none⟩ =>
    .ok { s with
      nextFileNumber := s.nextFileNumber + 1
      pendingOutputs := insert s.nextFileNumber s.pendingOutputs
      work := .compacting ⟨c, input, outputs, some s.nextFileNumber⟩ }
  | _, _ => .error .disabled

def createOutput (s : FileStore) : Except Stop FileStore :=
  match s.work with
  | .compacting ⟨c, input, outputs, some number⟩ =>
    .ok { s.create (tableFileName number) with work := .compacting ⟨c, input, outputs ++ [number], none⟩ }
  | _ => .error .disabled

/-- The size, the keys and the garbage in the root hash of an output. -/
structure OutputMeta where
  fileSize : Nat
  smallest : InternalKey Bytes
  largest : InternalKey Bytes
  rh : Merkle.Digest

def resultsEdit (c : Compaction Bytes) (outputs : List Nat) (about : Nat → OutputMeta) : VersionEdit Bytes :=
  outputs.foldl
    (fun edit n => edit.addFile (c.level + 1) n (about n).fileSize (about n).smallest (about n).largest (about n).rh)
    (c.addInputDeletions c.edit)

/-- `CleanupCompaction`, `ReleaseInputs`, `DeleteObsoleteFiles` -/
def endCompaction (s : FileStore) (working : Working) (filenames : List Bytes) : FileStore :=
  { s with
    pendingOutputs := s.pendingOutputs \ (working.outputs ++ working.opening.toList).toFinset
    table := s.table.unref working.input
    work := .idle }.deleteObsoleteFiles filenames

/-- `DoCompactionWork` after its loop, without an error, up to where `LogAndApply` releases the mutex. -/
def endWork (s : FileStore) (about : Nat → OutputMeta) : Except Stop FileStore :=
  match s.flush, s.work with
  | none, .compacting ⟨c, input, outputs, none⟩ =>
    match s.logAndApply (resultsEdit c.1 outputs about) with
    | .error stop => .error stop
    | .ok built => .ok { s with work := .installing ⟨c, input, outputs, none⟩ built }
  | _, _ => .error .disabled

def failWork (s : FileStore) (filenames : List Bytes) : Except Stop FileStore :=
  match s.flush, s.work with
  | none, .compacting working => .ok ({ s with bgError := true }.endCompaction working filenames)
  | _, _ => .error .disabled

def workLogged (s : FileStore) (written : Bool) (filenames : List Bytes) : Except Stop FileStore :=
  match s.work with
  | .installing working built =>
    let s := if written then s.appendVersion built else { s with bgError := true }
    .ok (s.endCompaction working filenames)
  | _ => .error .disabled

end FileStore

/-! ## Events -/

inductive FileStoreEvent where
  | acquire
  | release (v : Nat)
  | switchMemTable (created : Bool)
  /-- Any other background error, such as that of a writer who could not sync the log. -/
  | backgroundError
  | startFlush
  | createTable
  | endBuild (result : FileStore.Built)
  | flushLogged (written : Bool) (filenames : List Bytes)
  | startMove (c : FileStore.Picked) (rh : Merkle.Digest)
  | moveLogged (written : Bool)
  | startCompaction (c : FileStore.Picked)
  | openOutput
  | createOutput
  | endWork (about : Nat → FileStore.OutputMeta)
  | failWork (filenames : List Bytes)
  | workLogged (written : Bool) (filenames : List Bytes)

namespace FileStore

def step (s : FileStore) : FileStoreEvent → Except Stop FileStore
  | .acquire => .ok s.acquire
  | .release v => s.release v
  | .switchMemTable created => s.switchMemTable created
  | .backgroundError => .ok { s with bgError := true }
  | .startFlush => s.startFlush
  | .createTable => s.createTable
  | .endBuild result => s.endBuild result
  | .flushLogged written filenames => s.flushLogged written filenames
  | .startMove c rh => s.startMove c rh
  | .moveLogged written => s.moveLogged written
  | .startCompaction c => s.startCompaction c
  | .openOutput => s.openOutput
  | .createOutput => s.createOutput
  | .endWork about => s.endWork about
  | .failWork filenames => s.failWork filenames
  | .workLogged written filenames => s.workLogged written filenames

/-! ## `DB::Open` -/

end FileStore

/-- What `DBImpl::Recover` has found and done.  `edit` has the tables written from old logs. -/
structure RecoveredFiles where
  dir : List Bytes
  version : Version Bytes
  edit : VersionEdit Bytes
  saveManifest : Bool
  /-- The MANIFEST is written on. -/
  reusedManifest : Bool
  /-- The last log is written on, and its records are in the memtable. -/
  reusedLog : Option Nat
  nextFileNumber : Nat
  manifestFileNumber : Nat
  logNumber : Nat
  prevLogNumber : Nat

namespace RecoveredFiles

def recovered (found : RecoveredFiles) (dir : List Bytes) (nextFileNumber logfileNumber : Nat) : FileStore where
  dir
  versions := fun _ => found.version
  made := 1
  table := ⟨fun v => if v = 0 then 1 else 0, [0]⟩
  current := 0
  pendingOutputs := ∅
  nextFileNumber
  manifestFileNumber := found.manifestFileNumber
  logNumber := found.logNumber
  prevLogNumber := found.prevLogNumber
  logfileNumber
  immLog := none
  bgError := false
  readers := []
  flush := none
  work := .idle

/-- The log that `DB::Open` creates unless an old one is reused. -/
def withLog (found : RecoveredFiles) : FileStore :=
  match found.reusedLog with
  | some number => found.recovered found.dir found.nextFileNumber number
  | none =>
    found.recovered (logFileName found.nextFileNumber :: found.dir) (found.nextFileNumber + 1) found.nextFileNumber

/-- `DB::Open` after `Recover`, on a host that does what it is asked to. -/
def openDb (found : RecoveredFiles) (filenames : List Bytes) : Except Stop FileStore :=
  let s := found.withLog
  if found.saveManifest then
    match s.logAndApply { found.edit with prevLogNumber := some 0, logNumber := some s.logfileNumber } with
    | .error stop => .error stop
    | .ok built =>
      let s := if found.reusedManifest then s else s.create (descriptorFileName s.manifestFileNumber)
      .ok ({ s.appendVersion built with logNumber := s.logfileNumber, prevLogNumber := 0
        }.deleteObsoleteFiles filenames)
  else .ok (s.deleteObsoleteFiles filenames)

end RecoveredFiles

end Elsm
