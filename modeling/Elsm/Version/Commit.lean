import Elsm.Db.State
import Elsm.Lib.CrashFs
import Elsm.Log.Torn
import Elsm.Version.Encode

/-!
# Committing an edit (`VersionSet::LogAndApply`, `SetCurrentFile`, `DBImpl::DeleteObsoleteFiles`)

`LogAndApply` appends an edit to the MANIFEST.  The first call of a process writes a new MANIFEST, which begins
with a snapshot, and makes CURRENT name it.  Here the calls are sequences of operations on a directory, each of
which the host can let fail.  What a call passes through is kept in `passed`, so a crash between two
operations is one of these directories.

`PosixEnv::RenameFile` and `PosixEnv::DeleteFile` return OK whatever the host does.
-/

namespace Elsm

open CrashFs

abbrev DbDirectory := CrashFs.Directory Bytes UInt8

abbrev HostFiles := Session Bytes UInt8

abbrev HostOutcome := Nat → Operation Bytes UInt8 → Outcome

/-! ## `util/env.cpp`, `db/filename.cpp` -/

/-- `DoWriteStringToFile` with `should_sync`. -/
def writeStringToFileSync (data fname : Bytes) (host : HostFiles) : Bool × HostFiles :=
  let opened := host.perform (.create fname)
  if opened.1 then
    let written := opened.2.perform (.append fname data)
    let written := if written.1 then written.2.perform (.flush fname) else written
    -- after a failure it is the destructor that closes the file
    let closed := written.2.perform (.close fname)
    if written.1 && closed.1 then (true, closed.2) else (false, (closed.2.perform (.delete fname)).2)
  else opened

def setCurrentFile (descriptorNumber : Nat) (host : HostFiles) : Bool × HostFiles :=
  let contents := descriptorFileName descriptorNumber ++ ascii ['\n']
  let tmp := tempFileName descriptorNumber
  let status := writeStringToFileSync contents tmp host
  if status.1 then
    -- the status of `RenameFile` is OK
    (true, (status.2.perform (.rename tmp currentFileName)).2)
  else (false, (status.2.perform (.delete tmp)).2)

/-! ## `LogAndApply` -/

/-- `descriptor_log_` on the MANIFEST of the process. -/
structure DescriptorLog where
  blockOffset : Nat
  /-- What was written to it, and whether all of it was: for the statements, the code does not keep this. -/
  edits : List (VersionEdit Bytes)
  intact : Bool

structure VersionSet where
  dir : DbDirectory
  current : Version Bytes
  compactPointer : Nat → Option (InternalKey Bytes)
  manifestFileNumber : Nat
  nextFileNumber : Nat
  lastSequence : Nat
  logNumber : Nat
  prevLogNumber : Nat
  descriptorLog : Option DescriptorLog
  /-- `bg_error_` of the database is set. -/
  bgError : Bool
  /-- The directories that the last call passed through. -/
  passed : List DbDirectory

def descriptorFile (name : Bytes) : Log.WritableFile HostFiles :=
  ⟨fun data host => host.perform (.append name data), fun host => host.perform (.flush name)⟩

namespace VersionSet

variable (crc : Log.Crc)

/-- The numbers that `LogAndApply` adds to the edit. -/
def filled (s : VersionSet) (edit : VersionEdit Bytes) : VersionEdit Bytes :=
  { edit with
    logNumber := some (edit.logNumber.getD s.logNumber)
    prevLogNumber := some (edit.prevLogNumber.getD s.prevLogNumber)
    nextFileNumber := some s.nextFileNumber
    lastSequence := some s.lastSequence }

def descriptorName (s : VersionSet) : Bytes := descriptorFileName s.manifestFileNumber

/-- A new descriptor log with a snapshot, unless there is a descriptor log. -/
def openDescriptor (s : VersionSet) (host : HostFiles) : Bool × HostFiles × Option DescriptorLog :=
  match s.descriptorLog with
  | some log => (true, host, some log)
  | none =>
    let opened := host.perform (.create s.descriptorName)
    if opened.1 then
      let snapshot := writeSnapshot s.current s.compactPointer
      let written := Log.addRecord (descriptorFile s.descriptorName) crc snapshot.encodeTo ⟨opened.2, 0⟩
      (written.1, written.2.dest, some ⟨written.2.blockOffset, [snapshot], written.1⟩)
    else (false, opened.2, none)

def writeRecord (s : VersionSet) (edit : VersionEdit Bytes) (log : DescriptorLog) (host : HostFiles) :
    Bool × HostFiles × DescriptorLog :=
  let written := Log.addRecord (descriptorFile s.descriptorName) crc edit.encodeTo ⟨host, log.blockOffset⟩
  let synced := if written.1 then written.2.dest.perform (.flush s.descriptorName) else (false, written.2.dest)
  (synced.1, synced.2, ⟨written.2.blockOffset, log.edits ++ [edit], synced.1⟩)

/-- What `LogAndApply` does to files before it looks at the status. -/
def commit (s : VersionSet) (edit : VersionEdit Bytes) (host : HostFiles) : Bool × HostFiles × Option DescriptorLog :=
  match s.openDescriptor crc host with
  | (true, host, some log) =>
    match s.writeRecord crc edit log host with
    | (true, host, log) =>
      if s.descriptorLog.isNone then
        let status := setCurrentFile s.manifestFileNumber host
        (status.1, status.2, some log)
      else (true, host, some log)
    | (false, host, log) => (false, host, some log)
  | (_, host, log) => (false, host, log)

def dropDescriptor (s : VersionSet) (log : Option DescriptorLog) (host : HostFiles) : HostFiles :=
  let closed := if log.isSome then (host.perform (.close s.descriptorName)).2 else host
  (closed.perform (.delete s.descriptorName)).2

/-- `LogAndApply`: whether its status is OK, and the state.  Where the status is not, the caller records it
as the background error. -/
def logAndApply (s : VersionSet) (edit : VersionEdit Bytes) (outcome : HostOutcome) : Except Stop (Bool × VersionSet) :=
  if edit.logNumber.any fun n => n < s.logNumber ∨ s.nextFileNumber ≤ n then .error .abort
  else
    match s.current.applyEdit (s.filled edit) with
    | none => .error .abort
    | some version =>
      let s := { s with compactPointer := applyCompactPointers edit s.compactPointer }
      match s.commit crc (s.filled edit) ⟨s.dir, outcome, []⟩ with
      | (true, host, log) =>
        .ok (true, { s with
          dir := host.dir
          passed := host.passed
          current := version
          logNumber := edit.logNumber.getD s.logNumber
          prevLogNumber := edit.prevLogNumber.getD s.prevLogNumber
          descriptorLog := log })
      | (false, host, log) =>
        if s.descriptorLog.isNone then
          let host := s.dropDescriptor log host
          .ok (false, { s with dir := host.dir, passed := host.passed, bgError := true })
        else
          .ok (false, { s with dir := host.dir, passed := host.passed, bgError := true, descriptorLog := log })

/-! ## `DeleteObsoleteFiles` -/

/-- `keep`, for the tables and temporary files that are live. -/
def keeps (s : VersionSet) (live : Finset Nat) (number : Nat) : FileType → Bool
  | .logFile => decide (s.logNumber ≤ number ∨ number = s.prevLogNumber)
  | .descriptorFile => decide (s.manifestFileNumber ≤ number)
  | .tableFile | .tempFile => decide (number ∈ live)
  | .currentFile | .dbLockFile | .infoLogFile => true

def deleteObsolete (s : VersionSet) (live : Finset Nat) (host : HostFiles) (filename : Bytes) : HostFiles :=
  match parseFileName filename with
  | some (number, type) => if s.keeps live number type then host else (host.perform (.delete filename)).2
  | none => host

def deleteObsoleteFiles (s : VersionSet) (live : Finset Nat) (filenames : List Bytes) (outcome : HostOutcome) :
    VersionSet :=
  if s.bgError then { s with passed := [] }
  else
    let host := filenames.foldl (s.deleteObsolete live) ⟨s.dir, outcome, []⟩
    { s with dir := host.dir, passed := host.passed }

/-! ## Runs -/

inductive CommitEvent where
  /-- `NewFileNumber` and `SetLastSequence` -/
  | newNumbers (files sequences : Nat)
  | logAndApply (edit : VersionEdit Bytes) (outcome : HostOutcome)
  | deleteObsoleteFiles (live : Finset Nat) (filenames : List Bytes) (outcome : HostOutcome)

/-- Files are deleted only by a process that has its MANIFEST. -/
def step (s : VersionSet) : CommitEvent → Except Stop VersionSet
  | .newNumbers files sequences =>
    .ok { s with
      nextFileNumber := s.nextFileNumber + files
      lastSequence := s.lastSequence + sequences
      passed := [] }
  | .logAndApply edit outcome => (s.logAndApply crc edit outcome).map (·.2)
  | .deleteObsoleteFiles live filenames outcome =>
    if s.descriptorLog.isNone then .error .disabled else .ok (s.deleteObsoleteFiles live filenames outcome)

/-! ## `Recover` -/

structure ReuseOptions where
  options : Options
  reuseLogs : Bool
  /-- The host opens the MANIFEST for appending. -/
  opens : Bool

/-- `ReuseManifest`: the number of the MANIFEST that CURRENT names and a log that goes on at its end, wherever
its last record ends. -/
def reuseManifest (reuse : ReuseOptions) (files : Bytes → Option Bytes) : Option (Nat × DescriptorLog) :=
  let dscbase := ((files currentFileName).getD []).dropLast
  let manifestSize := ((files dscbase).getD []).length
  match parseFileName dscbase with
  | some (number, .descriptorFile) =>
    -- the `int` is converted to `uint64_t`
    if reuse.reuseLogs ∧ (manifestSize : Int) < targetFileSize reuse.options % 18446744073709551616 ∧ reuse.opens then
      some (number, ⟨manifestSize % Log.kBlockSize, [], false⟩)
    else none
  | _ => none

def recovered (reuse : ReuseOptions) (files : Bytes → Option Bytes) (found : Recovered Bytes) : VersionSet where
  dir name := (files name).map fun bytes => ⟨bytes, bytes.length⟩
  current := found.version
  compactPointer := found.compactPointer
  manifestFileNumber := ((reuseManifest reuse files).map Prod.fst).getD found.manifestFileNumber
  nextFileNumber := found.nextFileNumber
  lastSequence := found.lastSequence
  logNumber := found.logNumber
  prevLogNumber := found.prevLogNumber
  descriptorLog := (reuseManifest reuse files).map Prod.snd
  bgError := false
  passed := []

end VersionSet

end Elsm
