import Elsm.Format.FileName
import Elsm.Log.Reader
import Elsm.Version.EditBytes

/-!
# Reading the bytes of a MANIFEST (`db/version_edit.cpp`, `VersionSet::Recover`)

The records of a MANIFEST are decoded into edits, which `Builder::Apply` then works on.  The decoder
takes any byte string for a key.  What it needs to be shows when keys are compared:
`ExtractUserKey` asserts that there are eight bytes, and `InternalKey::Encode` that there is one.
-/

namespace Elsm

open Merkle (Digest)

/-! ## Keys -/

/-- `InternalKey::DecodeFrom`.  Fewer than eight bytes have no tag, for which a number stands that no
tag is. -/
def InternalKey.decodeFrom (rep : Bytes) : InternalKey Bytes :=
  if rep.length < 8 then ⟨rep, 2 ^ 64⟩ else ⟨rep.take (rep.length - 8), decodeFixed64 (rep.drop (rep.length - 8))⟩

def InternalKey.Formed (key : InternalKey Bytes) : Prop := key.tag < 2 ^ 64

instance (key : InternalKey Bytes) : Decidable key.Formed := inferInstanceAs (Decidable (_ < _))

/-- `!rep_.empty()` -/
def InternalKey.NonEmpty (key : InternalKey Bytes) : Prop := key.Formed ∨ key.userKey ≠ []

instance (key : InternalKey Bytes) : Decidable key.NonEmpty := inferInstanceAs (Decidable (_ ∨ _))

theorem InternalKey.decodeFrom_formed (rep : Bytes) : (decodeFrom rep).Formed ↔ 8 ≤ rep.length := by
  rw [decodeFrom, Formed]
  split
  case isTrue short => simp [short]
  case isFalse long =>
    have small := littleEndian_lt ((rep.drop (rep.length - 8)).take 8)
    have len : ((rep.drop (rep.length - 8)).take 8).length = 8 := by
      rw [List.length_take, List.length_drop]
      omega
    rw [len] at small
    exact ⟨fun _ => by omega, fun _ => small⟩

/-! ## `VersionEdit::DecodeFrom` -/

/-- The edit with its keys taken apart.  `rh` is what the local `f` holds in the field that is not read. -/
def EditRecord.toEdit (rh : Nat → Nat → Digest) (record : EditRecord) : VersionEdit Bytes where
  comparator := record.comparator.map fun name => toText name.1
  logNumber := record.logNumber.map Fin.val
  prevLogNumber := record.prevLogNumber.map Fin.val
  nextFileNumber := record.nextFileNumber.map Fin.val
  lastSequence := record.lastSequence.map Fin.val
  compactPointers := record.compactPointers.map fun entry => (entry.1, .decodeFrom entry.2.1)
  deletedFiles := record.deletedList.map fun entry => ((ofLex entry).1, (ofLex entry).2.val)
  newFiles := record.newFiles.map fun entry => (entry.1,
    ⟨entry.2.number, entry.2.fileSize, .decodeFrom entry.2.smallest.1, .decodeFrom entry.2.largest.1,
      rh entry.1 entry.2.number⟩)

def VersionEdit.decodeFrom (rh : Nat → Nat → Digest) (src : Bytes) : Except Status (VersionEdit Bytes) :=
  (EditRecord.decodeFrom .new src).map (EditRecord.toEdit rh)

/-! ## The assertions in `Builder` -/

namespace Builder

/-- `added_files->insert(f)`: an ordered set that is not empty compares the new key with one in it. -/
def addChecked (builder : Builder Bytes) (entry : Nat × FileMetaData Bytes) : Except Status (Builder Bytes) :=
  let added := (builder entry.1).addedFiles
  if added ≠ [] ∧ ∃ g ∈ entry.2 :: added, ¬g.smallest.Formed then .error .abort else .ok (builder.add entry)

/-- `Apply` with its assertions, those in `Encode` on the compaction pointers among them. -/
def applyChecked (builder : Builder Bytes) (edit : VersionEdit Bytes) : Except Status (Builder Bytes) :=
  if ∃ entry ∈ edit.compactPointers, ¬entry.2.NonEmpty then .error .abort
  else edit.newFiles.foldlM addChecked (edit.deletedFiles.foldl Builder.delete builder)

end Builder

/-- `MaybeAddFile` with the assertions that its comparison makes on the keys. -/
def maybeAddFileChecked (level : Nat) (deletedFiles : List Nat) (files : List (FileMetaData Bytes))
    (f : FileMetaData Bytes) : Option (List (FileMetaData Bytes)) :=
  if f.number ∉ deletedFiles ∧ 0 < level ∧
      files.getLast?.any (fun last => !decide (last.largest.Formed ∧ f.smallest.Formed)) then none
  else maybeAddFile level deletedFiles files f

def saveLevelChecked (level : Nat) (state : LevelState Bytes) : Option (List (FileMetaData Bytes)) :=
  state.addedFiles.foldlM (maybeAddFileChecked level state.deletedFiles) []

def saveToChecked (builder : Builder Bytes) : Option (Version Bytes) :=
  if (List.range kNumLevels).all fun level => (saveLevelChecked level (builder level)).isSome then
    some
      { files := fun level =>
          if level < kNumLevels then (saveLevelChecked level (builder level)).getD [] else []
        fileToCompact := none }
  else none

/-! ## `VersionSet::Recover` -/

/-- The status for an edit that was made with another comparator. -/
def VersionEdit.mismatch (edit : VersionEdit Bytes) : Option Status :=
  match edit.comparator with
  | some name =>
    if name ≠ bytewiseComparatorName then
      some (.invalidArgument (name ++ " does not match existing comparator " ++ bytewiseComparatorName))
    else none
  | none => none

/-- An edit is applied and its numbers are noted. -/
def RecoverState.recordChecked (state : RecoverState Bytes) (edit : VersionEdit Bytes) :
    Except Status (RecoverState Bytes) :=
  (state.builder.applyChecked edit).map fun builder => { state.record edit with builder }

def RecoverState.install (state : RecoverState Bytes) : Except Status (Recovered Bytes) :=
  match state.nextFile, state.logNumber, state.lastSequence with
  | none, _, _ => .error (.corruption "no meta-nextfile entry in descriptor")
  | some _, none, _ => .error (.corruption "no meta-lognumber entry in descriptor")
  | some _, some _, none => .error (.corruption "no last-sequence-number entry in descriptor")
  | some nextFile, some logNumber, some lastSequence =>
    match saveToChecked state.builder with
    | none => .error .abort
    | some version =>
      .ok { version
            compactPointer := state.compactPointer
            manifestFileNumber := nextFile
            nextFileNumber := nextFile + 1
            lastSequence
            logNumber
            prevLogNumber := state.prevLogNumber.getD 0 }

variable (crc : Log.Crc) (rh : Nat → Nat → Digest)

/-- The loop of `Recover` over the records.  The reporter turns the first report into the status. -/
def manifestLoop : Nat → Log.Reader → RecoverState Bytes → Except Status (RecoverState Bytes)
  | 0, _, state => .ok state
  | bound + 1, r, state =>
    match r.readRecord crc true with
    | (found, r) =>
      match r.reports, found with
      | report :: _, _ => .error (.corruption report.2)
      | [], none => .ok state
      | [], some record =>
        match VersionEdit.decodeFrom rh record with
        | .error status => .error status
        | .ok edit =>
          match edit.mismatch with
          | some status => .error status
          | none =>
            match state.recordChecked edit with
            | .error status => .error status
            | .ok state => manifestLoop bound r state

def recoverManifest (bytes : Bytes) : Except Status (Recovered Bytes) :=
  match manifestLoop crc rh (bytes.length + 1) (.start bytes) .init with
  | .error status => .error status
  | .ok state => state.install

def recoverFiles (files : Bytes → Option Bytes) : Except Status (Recovered Bytes) :=
  match files currentFileName with
  | none => .error (.ioError "CURRENT")
  | some current =>
    if current.getLast? ≠ some 10 then .error (.corruption "CURRENT file does not end with newline")
    else
      match files current.dropLast with
      | none => .error (.ioError (toText current.dropLast))
      | some bytes => recoverManifest crc rh bytes

end Elsm
