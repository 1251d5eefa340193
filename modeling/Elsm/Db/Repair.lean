import Elsm.Db.Get
import Elsm.Db.LogReplay
import Elsm.Log.Records
import Elsm.Table.RoundTrip
import Elsm.Version.Encode

/-!
# Repairing a database (`db/repair.cpp`)

`RepairDB` builds a new descriptor from the tables and logs it finds.  The environment has two sets of
calls for files: the ones of SGX, which encrypt what they write and open nothing else, and the plain ones
of the host.  A database is written and read through the plain ones.  `repair.cpp` opens the logs, and creates
the copies of damaged tables and the new MANIFEST, with the others: it reads no log, and what it writes cannot be
read.  So `DB::Open` fails whenever `RepairDB` has returned OK (`recoverFiles_repaired`).

The format of table files is a parameter, as are the answers of the host.
-/

namespace Elsm

open List Function
open Merkle (Record Digest)

/-! ## Files -/

/-- What a file holds, by the calls it was written with. -/
inductive FileContents where
  | plain (bytes : Bytes)
  | secure (bytes : Bytes)

abbrev RepairDir := Bytes → Option FileContents

/-- The formats of files.  Nothing can be read from a protected file with the plain calls. -/
structure FileFormats where
  crc : Log.Crc
  /-- The bytes of a protected file. -/
  cipher : Bytes → Bytes
  /-- The table that `BuildTable` makes of the entries of a memtable. -/
  tableOf : List Record → Bytes
  /-- The table that `TableBuilder` makes of a list of records. -/
  copyOf : List Record → Bytes
  /-- The entries that an iterator over a table file goes through, and its status then. -/
  scan : Bytes → List Record × Option Status
  noRecord : ∀ bytes, (Log.Reader.readAll crc true (cipher bytes)).1 = []
  noTable : ∀ bytes, (scan (cipher bytes)).1 = [] ∧ (scan (cipher bytes)).2 ≠ none

/-- The statuses of the calls that write files, where they are not OK, and what the host does without one. -/
structure RepairAnswers where
  /-- `NewWritableFile` opens the file. -/
  opens : Bytes → Bool
  /-- `BuildTable` for a table number. -/
  builds : Nat → Option Status
  /-- `Finish` and `Close` for a copy of a table. -/
  finishes : Bytes → Option Status
  /-- `AddRecord` and `Close` for the descriptor. -/
  descriptor : Option Status
  /-- `WriteStringToFileSync` for CURRENT. -/
  current : Option Status
  /-- The host renames a file, where no name is one in `lost/`.  `RenameFile` returns OK in any case. -/
  renames : Bytes → Option Bytes → Bool
  deletes : Bytes → Bool
  /-- The root in the metadata, which nobody sets. -/
  rh : Nat → Digest

section Files

variable (formats : FileFormats)

def FileContents.raw : FileContents → Bytes
  | .plain bytes => bytes
  | .secure bytes => formats.cipher bytes

def FileContents.unsealed : FileContents → Option Bytes
  | .plain _ => none
  | .secure bytes => some bytes

def plainFiles (dir : RepairDir) (name : Bytes) : Option Bytes := (dir name).map (FileContents.raw formats)

def removeIf (does : Bool) (dir : RepairDir) (name : Bytes) : RepairDir :=
  if does then update dir name none else dir

def archiveFile (answers : RepairAnswers) (dir : RepairDir) (name : Bytes) : RepairDir :=
  removeIf (answers.renames name none) dir name

def deleteFile (answers : RepairAnswers) (dir : RepairDir) (name : Bytes) : RepairDir :=
  removeIf (answers.deletes name) dir name

def renameFile (answers : RepairAnswers) (dir : RepairDir) (source target : Bytes) : RepairDir :=
  match dir source with
  | none => dir
  | some contents =>
    if answers.renames source (some target) then
      update (update dir source none) target (some contents)
    else dir

/-- The entries of a table that `FindTable` opens, under its name or the old one.  The size that it is opened with is
the one of a file with its name. -/
def tableEntries (dir : RepairDir) (number : Nat) : List Record × Option Status :=
  match dir (tableFileName number) with
  | some contents => formats.scan (contents.raw formats)
  | none =>
    match dir (sstTableFileName number) with
    | some _ => ([], some (.corruption "file is too short to be an sstable"))
    | none => ([], some (.ioError (toText (tableFileName number))))

def fileSizeOf (dir : RepairDir) (number : Nat) : Nat :=
  match dir (tableFileName number) with
  | none => 0
  | some contents => (contents.raw formats).length

end Files

/-! ## The repairer -/

/-- `TableInfo`, with the smallest and the largest key if any key was parsed. -/
structure TableInfo where
  number : Nat
  fileSize : Nat
  keys : Option (InternalKey Bytes × InternalKey Bytes)
  maxSequence : Nat

structure Repairer where
  dir : RepairDir
  manifests : List Bytes
  tableNumbers : List Nat
  logs : List Nat
  tables : List TableInfo
  nextFileNumber : Nat

namespace Repairer

def noteFile (r : Repairer) (filename : Bytes) : Repairer :=
  match parseFileName filename with
  | none => r
  | some (_, .descriptorFile) => { r with manifests := r.manifests ++ [filename] }
  | some (number, .logFile) =>
    { r with logs := r.logs ++ [number], nextFileNumber := max r.nextFileNumber (number + 1) }
  | some (number, .tableFile) =>
    { r with tableNumbers := r.tableNumbers ++ [number], nextFileNumber := max r.nextFileNumber (number + 1) }
  | some (number, _) => { r with nextFileNumber := max r.nextFileNumber (number + 1) }

def findFiles (dir : RepairDir) (filenames : List Bytes) : Repairer :=
  filenames.foldl noteFile ⟨dir, [], [], [], [], 1⟩

variable (formats : FileFormats) (answers : RepairAnswers)

/-- `ConvertLogToTable`, whose status is ignored. -/
def convertLogToTable (r : Repairer) (log : Nat) : Except Stop Repairer :=
  match (r.dir (logFileName log)).bind FileContents.unsealed with
  | none => .ok r
  | some bytes =>
    let batches := (Log.Reader.readAll formats.crc false bytes).1.filter Batch.isBatch
    match batches.foldlM (fun mem batch => insertFresh (Batch.entries batch) mem) [] with
    | .error _ => .error .abort
    | .ok mem =>
      let number := r.nextFileNumber
      let r := { r with nextFileNumber := number + 1 }
      if answers.builds number = none ∧ mem ≠ [] then
        .ok { r with
          dir := update r.dir (tableFileName number) (some (.plain (formats.tableOf mem)))
          tableNumbers := r.tableNumbers ++ [number] }
      else .ok r

def convertLog (r : Repairer) (log : Nat) : Except Stop Repairer :=
  (r.convertLogToTable formats answers log).map fun r => { r with dir := archiveFile answers r.dir (logFileName log) }

def tableInfo (r : Repairer) (number : Nat) : TableInfo :=
  let parsed := (tableEntries formats r.dir number).1.filter fun e => (parseInternalKey e.1).isSome
  { number
    fileSize := fileSizeOf formats r.dir number
    keys := parsed.head?.bind fun first => parsed.getLast?.map fun last => (first.1, last.1)
    maxSequence := parsed.foldl (fun maxSequence e => max maxSequence e.1.sequence) 0 }

/-- `RepairTable`.  `TableBuilder::Add` asserts that the keys increase. -/
def repairTable (r : Repairer) (info : TableInfo) : Except Stop Repairer :=
  let copy := tableFileName r.nextFileNumber
  let entries := (tableEntries formats r.dir info.number).1
  if answers.opens copy then
    if entries.Pairwise (fun a b => a.1 < b.1) then
      let dir := archiveFile answers r.dir (tableFileName info.number)
      match answers.finishes copy with
      | some _ => .ok { r with nextFileNumber := r.nextFileNumber + 1, dir := deleteFile answers dir copy }
      | none =>
        if entries = [] then
          .ok { r with nextFileNumber := r.nextFileNumber + 1, dir := update dir copy (some (.secure [])) }
        else
          .ok { r with
            nextFileNumber := r.nextFileNumber + 1
            dir := renameFile answers (update dir copy (some (.secure (formats.copyOf entries)))) copy
              (tableFileName info.number)
            tables := r.tables ++ [{ info with fileSize := (formats.copyOf entries).length }] }
    else .error .abort
  else .ok { r with nextFileNumber := r.nextFileNumber + 1 }

/-- `ScanTable`.  `GetFileSize` never fails. -/
def scanTable (r : Repairer) (number : Nat) : Except Stop Repairer :=
  match (tableEntries formats r.dir number).2 with
  | none => .ok { r with tables := r.tables ++ [r.tableInfo formats number] }
  | some _ => r.repairTable formats answers (r.tableInfo formats number)

/-- What `AddFile` adds for a table.  `InternalKey::Encode` asserts that there is a key. -/
def newFile (t : TableInfo) : Option (Nat × FileMetaData Bytes) :=
  t.keys.map fun keys => (0, ⟨t.number, t.fileSize, keys.1, keys.2, answers.rh t.number⟩)

def descriptorEdit (r : Repairer) : Option (VersionEdit Bytes) :=
  (r.tables.mapM (newFile answers)).map fun newFiles =>
    { VersionEdit.empty with
      comparator := some bytewiseComparatorName
      logNumber := some 0
      nextFileNumber := some r.nextFileNumber
      lastSequence := some (r.tables.foldl (fun maxSequence t => max maxSequence t.maxSequence) 0)
      newFiles }

def descriptorBytes (edit : VersionEdit Bytes) : Bytes :=
  (Log.addRecord Log.plainFile formats.crc edit.encodeTo ⟨[], 0⟩).2.dest

def installDescriptor (r : Repairer) (edit : VersionEdit Bytes) : RepairDir :=
  let dir := update r.dir (tempFileName 1) (some (.secure (descriptorBytes formats edit)))
  renameFile answers (r.manifests.foldl (archiveFile answers) dir) (tempFileName 1) (descriptorFileName 1)

/-- `SetCurrentFile`, which uses the plain calls. -/
def setCurrent (dir : RepairDir) : RepairDir :=
  renameFile answers (update dir (tempFileName 1) (some (.plain (descriptorFileName 1 ++ ascii ['\n']))))
    (tempFileName 1) currentFileName

def writeDescriptor (r : Repairer) : Except Stop (Option Status × RepairDir) :=
  if answers.opens (tempFileName 1) then
    match r.descriptorEdit answers with
    | none => .error .abort
    | some edit =>
      match answers.descriptor, answers.current with
      | some error, _ => .ok (some error, deleteFile answers r.dir (tempFileName 1))
      | none, some error =>
        .ok (some error, deleteFile answers (r.installDescriptor formats answers edit) (tempFileName 1))
      | none, none => .ok (none, setCurrent answers (r.installDescriptor formats answers edit))
  else .ok (some (.ioError (toText (tempFileName 1))), r.dir)

end Repairer

/-- `RepairDB` on a directory that is listed with these names. -/
def repairDB (formats : FileFormats) (answers : RepairAnswers) (dir : RepairDir) (filenames : List Bytes) :
    Except Stop (Option Status × RepairDir) :=
  if filenames = [] then .ok (some (.ioError "repair found no files"), dir)
  else
    ((Repairer.findFiles dir filenames).logs.foldlM (Repairer.convertLog formats answers)
      (Repairer.findFiles dir filenames)).bind fun r =>
      (r.tableNumbers.foldlM (Repairer.scanTable formats answers) r).bind fun r => r.writeDescriptor formats answers

/-! ## What a repair is for -/

section Purpose

variable (formats : FileFormats)

/-- An entry in a table file that is listed, or in a complete record of a log that is. -/
def HeldBefore (dir : RepairDir) (filenames : List Bytes) (e : Record) : Prop :=
  (∃ number ∈ (Repairer.findFiles dir filenames).tableNumbers, e ∈ (tableEntries formats dir number).1) ∨
    ∃ log ∈ (Repairer.findFiles dir filenames).logs, ∃ bytes, plainFiles formats dir (logFileName log) = some bytes ∧
      ∃ batch ∈ (Log.Reader.readAll formats.crc true bytes).1, Batch.isBatch batch ∧ e ∈ Batch.entries batch

/-- The newest entry for a user key, or none. -/
def NewestBefore (dir : RepairDir) (filenames : List Bytes) (userKey : Bytes) : Option Record → Prop
  | none => ∀ e, HeldBefore formats dir filenames e → e.1.userKey ≠ userKey
  | some e => HeldBefore formats dir filenames e ∧ e.1.userKey = userKey ∧
      ∀ other, HeldBefore formats dir filenames other → other.1.userKey = userKey → other.1.sequence ≤ e.1.sequence

/-- `VersionSet::Recover`, which `DB::Open` depends on, recovers the directory, and reads then give the newest
entries there were. -/
def KeepsNewest (rh : Nat → Nat → Digest) (dir : RepairDir) (filenames : List Bytes) (repaired : RepairDir) : Prop :=
  ∃ recovered, recoverFiles formats.crc rh (plainFiles formats repaired) = .ok recovered ∧
    ∀ userKey, ∃ newest, NewestBefore formats dir filenames userKey newest ∧
      recovered.version.get (fun number => (tableEntries formats repaired number).1)
        (lookupKey userKey recovered.lastSequence) = newest.elim .notFound fun e => (recordFound e).result

end Purpose

/-! ## Directories as the database leaves them -/

/-- A table as far as it was written: its keys parse and increase, and it has some if it is complete. -/
structure SoundTable (found : List Record × Option Status) : Prop where
  increasing : found.1.Pairwise fun a b => a.1 < b.1
  parses : ∀ e ∈ found.1, (parseInternalKey e.1).isSome
  complete : found.2 = none → found.1 ≠ []

/-- The logs were written with the plain calls, and the tables are sound. -/
structure LeftByDatabase (formats : FileFormats) (dir : RepairDir) (filenames : List Bytes) : Prop where
  logs : ∀ log ∈ (Repairer.findFiles dir filenames).logs, (dir (logFileName log)).bind FileContents.unsealed = none
  tables : ∀ number ∈ (Repairer.findFiles dir filenames).tableNumbers, SoundTable (tableEntries formats dir number)

variable {r : Repairer} {dir : RepairDir} {names : List Bytes}

namespace Repairer

variable {formats : FileFormats} (answers : RepairAnswers)

/-- What the loops keep: the tables can be scanned, and those that were have keys. -/
structure Sound (formats : FileFormats) (r : Repairer) : Prop where
  tables : ∀ number ∈ r.tableNumbers, SoundTable (tableEntries formats r.dir number)
  keys : ∀ t ∈ r.tables, t.keys.isSome
  notTemp : tempFileName 1 ∉ r.manifests

/-- Files are archived or replaced by protected ones. -/
def Fades (dir dir' : RepairDir) : Prop :=
  ∀ name, dir' name = dir name ∨ dir' name = none ∨ ∃ bytes, dir' name = some (.secure bytes)

theorem Fades.refl (dir : RepairDir) : Fades dir dir := fun _ => .inl rfl

theorem Fades.trans {dir' dir'' : RepairDir} (first : Fades dir dir') (snd : Fades dir' dir'') : Fades dir dir'' := by
  intro name
  rcases snd name with eq | replaced
  · rw [eq]
    exact first name
  · exact .inr replaced

theorem removeIf_eq (does : Bool) (dir : RepairDir) {name other : Bytes} :
    removeIf does dir name other = dir other ∨ removeIf does dir name other = none := by
  by_cases same : other = name
  · subst same
    cases does with
    | true => exact .inr (update_self ..)
    | false => exact .inl rfl
  · cases does with
    | true => exact .inl (update_of_ne same ..)
    | false => exact .inl rfl

theorem Fades.removeIf (does : Bool) (dir : RepairDir) (name : Bytes) : Fades dir (removeIf does dir name) :=
  fun _ => (removeIf_eq does dir).imp_right .inl

theorem Fades.secure (dir : RepairDir) (name bytes : Bytes) :
    Fades dir (update dir name (some (.secure bytes))) := by
  intro other
  by_cases same : other = name
  · subst same
    exact .inr (.inr ⟨bytes, update_self ..⟩)
  · exact .inl (update_of_ne same ..)

theorem Fades.rename {source bytes : Bytes} (isSecure : dir source = some (.secure bytes)) (target : Bytes) :
    Fades dir (renameFile answers dir source target) := by
  simp only [renameFile, isSecure]
  split
  · exact (Fades.removeIf true dir source).trans (.secure _ target bytes)
  · exact .refl dir

variable {n : Nat}

theorem Fades.soundTable {dir' : RepairDir} (fades : Fades dir dir')
    (sound : SoundTable (tableEntries formats dir n)) : SoundTable (tableEntries formats dir' n) := by
  have nothing : ∀ status : Status, SoundTable ([], some status) := fun _ => ⟨.nil, nofun, nofun⟩
  rcases fades (tableFileName n) with eq | gone | ⟨bytes, isSecure⟩
  · cases isTable : dir (tableFileName n) with
    | some contents => simpa only [tableEntries, eq, isTable] using sound
    | none =>
      simp only [tableEntries, eq, isTable]
      split <;> exact nothing _
  · simp only [tableEntries, gone]
    split <;> exact nothing _
  obtain ⟨noEntry, fails⟩ := formats.noTable bytes
  simp only [tableEntries, isSecure, FileContents.raw]
  exact ⟨noEntry ▸ .nil, fun e mem => (not_mem_nil (noEntry ▸ mem)).elim, fun ok => absurd ok fails⟩

theorem Sound.fades (sound : Sound formats r) (fades : Fades r.dir dir)
    (nextFileNumber : Nat) : Sound formats { r with dir, nextFileNumber } :=
  ⟨fun n mem => fades.soundTable (sound.tables n mem), sound.keys, sound.notTemp⟩

/-! ### The loops -/

/-- A log that was written with the plain calls cannot be opened, and is archived as it is. -/
theorem Sound.convertLogs {logs : List Nat} (sound : Sound formats r)
    (plain : ∀ log ∈ logs, (r.dir (logFileName log)).bind FileContents.unsealed = none) :
    ∃ r', logs.foldlM (convertLog formats answers) r = .ok r' ∧ Sound formats r' := by
  induction logs generalizing r with
  | nil => exact ⟨r, rfl, sound⟩
  | cons log rest ih =>
    have converted : r.convertLog formats answers log =
        .ok { r with dir := archiveFile answers r.dir (logFileName log) } := by
      simp only [convertLog, convertLogToTable, plain log mem_cons_self]
      rfl
    rw [foldlM_cons, converted]
    apply ih (sound.fades (.removeIf _ r.dir (logFileName log)) r.nextFileNumber)
    intro other mem
    obtain kept | gone := @removeIf_eq (answers.renames (logFileName log) none) r.dir (logFileName log)
      (logFileName other)
    · simp only [kept]
      exact plain other (mem_cons_of_mem _ mem)
    · simp only [gone, Option.bind_none]

theorem tableInfo_keys (sound : SoundTable (tableEntries formats r.dir n))
    (ne : (tableEntries formats r.dir n).1 ≠ []) : (r.tableInfo formats n).keys.isSome := by
  have all : (tableEntries formats r.dir n).1.filter (fun e => (parseInternalKey e.1).isSome) =
      (tableEntries formats r.dir n).1 := filter_eq_self.mpr sound.parses
  obtain ⟨first, rest, isCons⟩ := exists_cons_of_ne_nil ne
  simp only [tableInfo, all]
  rw [isCons, head?_cons, getLast?_cons]
  rfl

section

variable (sound : Sound formats r)

include sound

theorem Sound.push {t : TableInfo} (keys : t.keys.isSome) : Sound formats { r with tables := r.tables ++ [t] } :=
  ⟨sound.tables, SortedList.forall_mem_concat sound.keys keys, sound.notTemp⟩

theorem Sound.repairTable (listed : n ∈ r.tableNumbers) :
    ∃ r', r.repairTable formats answers (r.tableInfo formats n) = .ok r' ∧ Sound formats r' ∧
      r'.tableNumbers = r.tableNumbers := by
  have isSound := sound.tables n listed
  simp only [Repairer.repairTable]
  by_cases opens : answers.opens (tableFileName r.nextFileNumber)
  case neg =>
    simp only [opens]
    exact ⟨_, rfl, sound.fades (.refl _) _, rfl⟩
  have archived := Fades.removeIf (answers.renames (tableFileName n) none) r.dir (tableFileName n)
  have isNumber : (r.tableInfo formats n).number = n := rfl
  simp only [opens, if_true, isNumber, isSound.increasing]
  cases answers.finishes (tableFileName r.nextFileNumber) with
  | some error => exact ⟨_, rfl, sound.fades (archived.trans (.removeIf _ _ _)) _, rfl⟩
  | none =>
    by_cases empty : (tableEntries formats r.dir n).1 = []
    · simp only [empty, if_true]
      exact ⟨_, rfl, sound.fades (archived.trans (.secure _ _ _)) _, rfl⟩
    simp only [empty, if_false]
    have faded := (archived.trans (.secure _ (tableFileName r.nextFileNumber)
      (formats.copyOf (tableEntries formats r.dir n).1))).trans
      (.rename answers (update_self ..) (tableFileName n))
    exact ⟨_, rfl, (sound.fades faded _).push (tableInfo_keys isSound empty), rfl⟩

theorem Sound.scanTable (listed : n ∈ r.tableNumbers) :
    ∃ r', r.scanTable formats answers n = .ok r' ∧ Sound formats r' ∧ r'.tableNumbers = r.tableNumbers := by
  have isSound := sound.tables n listed
  cases status : (tableEntries formats r.dir n).2 with
  | none =>
    have keys := tableInfo_keys isSound (isSound.complete status)
    exact ⟨_, by simp only [Repairer.scanTable, status], sound.push keys, rfl⟩
  | some error =>
    obtain ⟨r', repairs, stillSound, eq⟩ := sound.repairTable answers listed
    exact ⟨r', by simp only [Repairer.scanTable, status, repairs], stillSound, eq⟩

theorem Sound.scanTables {nums : List Nat} (listed : ∀ n ∈ nums, n ∈ r.tableNumbers) :
    ∃ r', nums.foldlM (Repairer.scanTable formats answers) r = .ok r' ∧ Sound formats r' := by
  induction nums generalizing r with
  | nil => exact ⟨r, rfl, sound⟩
  | cons n rest ih =>
    obtain ⟨middle, scans, stillSound, eq⟩ := sound.scanTable answers (listed n mem_cons_self)
    rw [foldlM_cons, scans]
    apply ih stillSound
    rw [eq]
    exact (forall_mem_cons.mp listed).2

theorem Sound.descriptorEdit : ∃ edit, r.descriptorEdit answers = some edit := by
  have added : ∀ {ts : List TableInfo}, (∀ t ∈ ts, t.keys.isSome) →
      ∃ files, ts.mapM (newFile answers) = some files := by
    intro ts keys
    induction ts with
    | nil => exact ⟨[], rfl⟩
    | cons t rest ih =>
      obtain ⟨files, isFiles⟩ := ih (forall_mem_cons.mp keys).2
      obtain ⟨range, isRange⟩ := Option.isSome_iff_exists.mp (keys t mem_cons_self)
      exact ⟨_, by rw [mapM_cons, newFile, isRange, isFiles]; rfl⟩
  obtain ⟨files, isFiles⟩ := added sound.keys
  exact ⟨_, by rw [Repairer.descriptorEdit, isFiles]; rfl⟩

end

/-! ### The new descriptor -/

theorem foldl_archiveFile (names : List Bytes) {name : Bytes} (other : name ∉ names) :
    names.foldl (archiveFile answers) dir name = dir name := by
  induction names generalizing dir with
  | nil => rfl
  | cons first rest ih =>
    obtain ⟨notFirst, notRest⟩ := not_or.mp (mt mem_cons.mpr other)
    rw [foldl_cons, ih notRest, archiveFile, removeIf]
    split
    · rw [update_of_ne notFirst]
    · rfl

theorem renameFile_target {source target : Bytes} {contents : FileContents} (isSource : dir source = some contents)
    (renames : answers.renames source (some target) = true) :
    renameFile answers dir source target target = some contents := by
  simp only [renameFile, isSource, renames, if_true, update_self]

theorem renameFile_other {source target name : Bytes} (notSource : name ≠ source)
    (notTarget : name ≠ target) : renameFile answers dir source target name = dir name := by
  cases isSource : dir source with
  | none => simp only [renameFile, isSource]
  | some contents =>
    simp only [renameFile, isSource]
    split
    · rw [update_of_ne notTarget, update_of_ne notSource]
    · rfl

/-- CURRENT names a MANIFEST that was written with the calls of SGX. -/
theorem Sound.setCurrent (sound : Sound formats r) (edit : VersionEdit Bytes)
    (renames : ∀ target, answers.renames (tempFileName 1) (some target) = true) :
    setCurrent answers (r.installDescriptor formats answers edit) currentFileName =
        some (.plain (descriptorFileName 1 ++ ascii ['\n'])) ∧
      ∃ bytes, setCurrent answers (r.installDescriptor formats answers edit)
        (descriptorFileName 1) = some (.secure bytes) := by
  have notTemp : descriptorFileName 1 ≠ tempFileName 1 := (makeFileName_ne_descriptorFileName 1 1 _).symm
  refine ⟨renameFile_target answers (update_self ..) (renames _), ?_⟩
  rw [Repairer.setCurrent, renameFile_other answers notTemp (descriptorFileName_ne_currentFileName 1),
    update_of_ne notTemp]
  refine ⟨descriptorBytes formats edit, renameFile_target answers ?_ (renames _)⟩
  rw [foldl_archiveFile answers _ sound.notTemp, update_self]

theorem foldl_noteFile_manifests {name : Bytes} (mem : name ∈ (names.foldl noteFile r).manifests) :
    name ∈ r.manifests ∨ ∃ n, parseFileName name = some (n, .descriptorFile) := by
  induction names generalizing r with
  | nil => exact .inl mem
  | cons filename rest ih =>
    rcases ih mem with inNoted | parses
    · unfold noteFile at inNoted
      split at inNoted
      case h_2 n isDescriptor =>
        rcases mem_append.mp inNoted with old | new
        · exact .inl old
        · exact .inr ⟨n, mem_singleton.mp new ▸ isDescriptor⟩
      all_goals exact .inl inNoted
    · exact .inr parses

theorem findFiles_notTemp (dir : RepairDir) (names : List Bytes) :
    tempFileName 1 ∉ (findFiles dir names).manifests := by
  intro mem
  rcases foldl_noteFile_manifests mem with none | ⟨n, isDescriptor⟩
  · cases none
  · rw [parseFileName_tempFileName (by decide)] at isDescriptor
    cases isDescriptor

theorem findFiles_keeps (dir : RepairDir) (names : List Bytes) :
    (findFiles dir names).dir = dir ∧ (findFiles dir names).tables = [] := by
  have kept : ∀ r : Repairer, (names.foldl noteFile r).dir = r.dir ∧ (names.foldl noteFile r).tables = r.tables := by
    induction names with
    | nil => exact fun r => ⟨rfl, rfl⟩
    | cons filename rest ih =>
      intro r
      have noted : (r.noteFile filename).dir = r.dir ∧ (r.noteFile filename).tables = r.tables := by
        unfold noteFile
        split <;> exact ⟨rfl, rfl⟩
      rw [foldl_cons, (ih _).1, (ih _).2]
      exact noted
  exact kept _

theorem findFiles_sound (left : LeftByDatabase formats dir names) : Sound formats (findFiles dir names) := by
  obtain ⟨sameDir, noTables⟩ := findFiles_keeps dir names
  refine ⟨?_, ?_, findFiles_notTemp dir names⟩
  · rw [sameDir]
    exact left.tables
  · rw [noTables]
    nofun

end Repairer

/-- `Recover` finds nothing in a protected MANIFEST. -/
theorem recoverManifest_cipher (formats : FileFormats) (rh : Nat → Nat → Digest) (bytes : Bytes) :
    ∃ status, recoverManifest formats.crc rh (formats.cipher bytes) = .error status := by
  have nothing := (Log.Reader.readAll_yields formats.crc true (formats.cipher bytes)).1
  rw [formats.noRecord] at nothing
  cases nothing with
  | done ends =>
    rw [recoverManifest, manifestLoop, ends]
    cases reports : (Log.Reader.readAll formats.crc true (formats.cipher bytes)).2.reports with
    | nil | cons => exact ⟨_, by simp only [reports]; rfl⟩

/-- After a repair that succeeded, `DB::Open` does not. -/
theorem recoverFiles_repaired {formats : FileFormats} {answers : RepairAnswers} (sound : r.Sound formats)
    (edit : VersionEdit Bytes) (renames : ∀ target, answers.renames (tempFileName 1) (some target) = true)
    (rh : Nat → Nat → Digest) : ∃ status, recoverFiles formats.crc rh (plainFiles formats
      (Repairer.setCurrent answers (r.installDescriptor formats answers edit))) = .error status := by
  obtain ⟨isCurrent, bytes, isManifest⟩ := sound.setCurrent answers edit renames
  generalize Repairer.setCurrent answers (r.installDescriptor formats answers edit) = dir at isCurrent isManifest ⊢
  have cur : plainFiles formats dir currentFileName = some (descriptorFileName 1 ++ ascii ['\n']) := by
    rw [plainFiles, isCurrent]
    rfl
  have manifest : plainFiles formats dir (descriptorFileName 1) = some (formats.cipher bytes) := by
    rw [plainFiles, isManifest]
    rfl
  have newline : (descriptorFileName 1 ++ ascii ['\n']).getLast? = some 10 := by
    rw [getLast?_append]
    rfl
  have name : (descriptorFileName 1 ++ ascii ['\n']).dropLast = descriptorFileName 1 := dropLast_concat
  simp only [recoverFiles, cur, newline, name, manifest, ne_eq, not_true_eq_false, if_false]
  exact recoverManifest_cipher formats rh bytes

/-- The loops come to their ends without an assertion that fails, and a descriptor is written. -/
theorem repairDB_writes {formats : FileFormats} (answers : RepairAnswers)
    (left : LeftByDatabase formats dir names) (someNames : names ≠ []) :
    ∃ r : Repairer, r.Sound formats ∧ (∃ edit, r.descriptorEdit answers = some edit) ∧
      repairDB formats answers dir names = r.writeDescriptor formats answers := by
  have plainLogs : ∀ log ∈ (Repairer.findFiles dir names).logs,
      ((Repairer.findFiles dir names).dir (logFileName log)).bind FileContents.unsealed = none := by
    rw [(Repairer.findFiles_keeps dir names).1]
    exact left.logs
  obtain ⟨converted, converts, convertedSound⟩ := (Repairer.findFiles_sound left).convertLogs answers plainLogs
  obtain ⟨r, scans, sound⟩ := convertedSound.scanTables answers fun _ mem => mem
  refine ⟨r, sound, sound.descriptorEdit answers, ?_⟩
  rw [repairDB, if_neg someNames, converts]
  simp only [Except.bind, scans]

/-- Where the host renames the new descriptor and CURRENT, a repair does what it is for in just the cases where it gives
up: when it finds no file, or cannot write the descriptor or CURRENT. -/
theorem repairDB_keepsNewest_iff (formats : FileFormats) (answers : RepairAnswers) (rh : Nat → Nat → Digest)
    (dir : RepairDir) (filenames : List Bytes) (left : LeftByDatabase formats dir filenames)
    (renames : ∀ target, answers.renames (tempFileName 1) (some target) = true) :
    (∀ repaired, repairDB formats answers dir filenames = .ok (none, repaired) →
        KeepsNewest formats rh dir filenames repaired) ↔
      filenames = [] ∨ answers.opens (tempFileName 1) = false ∨ answers.descriptor ≠ none ∨ answers.current ≠ none := by
  by_cases noFiles : filenames = []
  · simp [repairDB, noFiles]
  obtain ⟨r, sound, ⟨edit, isEdit⟩, result⟩ := repairDB_writes answers left noFiles
  rw [result, Repairer.writeDescriptor, isEdit]
  simp only [noFiles, false_or]
  cases opens : answers.opens (tempFileName 1) with
  | false => simp
  | true =>
    cases answers.descriptor with
    | some error => simp
    | none =>
      cases answers.current with
      | some error => simp
      | none =>
        obtain ⟨status, fails⟩ := recoverFiles_repaired sound edit renames rh
        simp [KeepsNewest, fails]

/-! ### A directory with one table -/

/-- The entries that an iterator goes through from here on, and where it stops. -/
def iterate {σ K V : Type} (it : Cursor.Iterator σ K V) : Nat → Option σ → List (K × V) × Option σ
  | fuel + 1, some s =>
    match it.current s with
    | none => ([], some s)
    | some e =>
      let (rest, last) := iterate it fuel (it.move .next s)
      (e :: rest, last)
  | _, s => ([], s)

def iterateBlock (fuel : Nat) (block : BlockIterator) : List FormedEntry × Option Status :=
  let it := keyedIterator internalCoding
  match iterate it fuel (it.move .seekToFirst block) with
  | (entries, some last) => (entries, last.status)
  | (entries, none) => (entries, some .abort)

/-- A table is opened, and iterated block by block. -/
def iterateTable (bytes : Bytes) : List FormedEntry × Option Status :=
  let memory : HostMemory := ⟨[], fun _ => 0⟩
  match Table.openTable (fun _ => 0) memory ⟨false, none⟩ ⟨[], bytes⟩ bytes.length FooterSpace.zeros with
  | .error status => ([], some status)
  | .ok table =>
    let it := keyedIterator internalCoding
    match iterate it bytes.length (it.move .seekToFirst table.indexBlock.newIterator) with
    | (_, none) => ([], some .abort)
    | (index, some last) =>
      let blocks := index.map fun e => iterateBlock bytes.length (table.blockReader (fun _ => 0) memory false e.2)
      (blocks.flatMap (·.1), blocks.findSome? (·.2) <|> last.status)

def writeRecords (records : List Record) : Bytes :=
  writeTable (fun _ => 0) ⟨16, 2⟩ none (records.filterMap fun e =>
    if formed : e.1.Formed then some (⟨e.1, formed⟩, e.2) else none)

/-- Tables in small blocks.  Nothing is read from a protected file. -/
def smallTables : FileFormats where
  crc _ := 0
  cipher _ := []
  tableOf records := writeRecords (Merkle.zeroImage records)
  copyOf := writeRecords
  scan bytes := ((iterateTable bytes).1.map fun e => (e.1.1, e.2), (iterateTable bytes).2)
  noRecord _ := by decide
  noTable _ := by decide

/-- Every call succeeds, but for the one that writes CURRENT. -/
def repairAnswers (current : Option Status) : RepairAnswers :=
  ⟨fun _ => true, fun _ => none, fun _ => none, none, current, fun _ _ => true, fun _ => true,
    fun _ => Merkle.zeroDigest⟩

def oneTableDir : RepairDir :=
  update (fun _ => none) (tableFileName 5) (some (.plain (writeTable (fun _ => 0) ⟨16, 2⟩ none threeEntries)))

theorem oneTableDir_left : LeftByDatabase smallTables oneTableDir [tableFileName 5] := by
  have noted : Repairer.findFiles oneTableDir [tableFileName 5] = ⟨oneTableDir, [], [5], [], [], 6⟩ := by
    rw [Repairer.findFiles, foldl_cons, Repairer.noteFile, parseFileName_tableFileName (by decide)]
    rfl
  have scans : smallTables.scan (writeTable (fun _ => 0) ⟨16, 2⟩ none threeEntries) =
      (threeEntries.map fun e => (e.1.1, e.2), none) := by decide +kernel
  have entries : tableEntries smallTables oneTableDir 5 = (threeEntries.map fun e => (e.1.1, e.2), none) := by
    rw [tableEntries, oneTableDir, update_self]
    exact scans
  constructor
  · rw [noted]
    nofun
  intro n mem
  rw [noted] at mem
  rw [mem_singleton.mp mem, entries]
  exact ⟨by decide, by decide, by decide⟩

/-- A repair that cannot write CURRENT returns its error. -/
theorem repairDB_keepsNewest_noCurrent : LeftByDatabase smallTables oneTableDir [tableFileName 5] ∧
      ∀ rh repaired, repairDB smallTables (repairAnswers (some (.ioError "CURRENT"))) oneTableDir [tableFileName 5] =
        .ok (none, repaired) → KeepsNewest smallTables rh oneTableDir [tableFileName 5] repaired :=
  ⟨oneTableDir_left, fun rh => (repairDB_keepsNewest_iff _ (repairAnswers _) rh _ _ oneTableDir_left fun _ => rfl).mpr
    (.inr (.inr (.inr nofun)))⟩

/-- A repair of one sound table returns OK, and the database cannot be opened any more. -/
theorem repairDB_loses_database : LeftByDatabase smallTables oneTableDir [tableFileName 5] ∧
      ∃ repaired, repairDB smallTables (repairAnswers none) oneTableDir [tableFileName 5] = .ok (none, repaired) ∧
        ∀ rh, ¬KeepsNewest smallTables rh oneTableDir [tableFileName 5] repaired := by
  refine ⟨oneTableDir_left, ?_⟩
  obtain ⟨r, sound, ⟨edit, isEdit⟩, writes⟩ := repairDB_writes (repairAnswers none) oneTableDir_left (cons_ne_nil _ _)
  have result : repairDB smallTables (repairAnswers none) oneTableDir [tableFileName 5] =
      .ok (none, Repairer.setCurrent (repairAnswers none)
        (r.installDescriptor smallTables (repairAnswers none) edit)) := by
    rw [writes, Repairer.writeDescriptor, isEdit]
    rfl
  refine ⟨_, result, fun rh => ?_⟩
  obtain ⟨status, fails⟩ := @recoverFiles_repaired r smallTables (repairAnswers none) sound edit (fun _ => rfl) rh
  rintro ⟨recovered, recovers, -⟩
  rw [fails] at recovers
  cases recovers

end Elsm
