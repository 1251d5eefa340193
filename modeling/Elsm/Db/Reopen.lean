import Elsm.Db.Disjoint
import Elsm.Db.Recorded

/-!
# Closing and opening again (`DB::Open`, `DBImpl::Recover`)

What a process leaves behind is its tables and its MANIFEST.  The log files are empty: the call
of `AddRecord` in `DBImpl::Write` is commented out, so `RecoverLogFile` finds no record, and
opening only takes note of the numbers of the logs.  `Inv.openDb_reopened` says what the
database is after it was opened again.
-/

namespace Elsm

open List
open Merkle (Digest Record zeroDigest)

/-- What the files of a database directory hold. -/
structure Disk where
  manifest : List (VersionEdit Bytes)
  tables : Nat → List Record
  newestLog : Nat

/-- The database while `DB::Open` prepares its first `LogAndApply`: the MANIFEST was read, the logs
on disk had their numbers marked as used, and a new log has been created. -/
def Disk.afterRecover (disk : Disk) (history : List (Nat × Op)) (recovered : Recovered Bytes) : Db :=
  let next := max recovered.nextFileNumber (disk.newestLog + 1)
  { mem := []
    imm := none
    tables := disk.tables
    current := recovered.version
    compactPointer := recovered.compactPointer
    nextFileNumber := next + 1
    lastSequence := recovered.lastSequence
    logNumber := recovered.logNumber
    prevLogNumber := recovered.prevLogNumber
    logfileNumber := next
    snapshots := []
    compaction := none
    manifest := [writeSnapshot recovered.version recovered.compactPointer]
    history := history }

/-- `DB::Open`, with the bytes `DecodeFrom` finds in its local.  `none` is a status other than OK.
The history is that of the earlier sessions. -/
def Disk.openDb (disk : Disk) (history : List (Nat × Op)) (rh : Nat → Nat → Digest) : Option Db :=
  match recover (disk.manifest.map (VersionEdit.decoded rh)) with
  | .error _ => none
  | .ok recovered =>
    let opened := disk.afterRecover history recovered
    match opened.logAndApply { VersionEdit.empty with
        prevLogNumber := some 0, logNumber := some opened.logfileNumber } with
    | .error _ => none
    | .ok db => some db

/-- The directory holds what the database recorded.  Files that the current version does not list
may hold anything. -/
structure OnDisk (db : Db) (disk : Disk) : Prop where
  manifest : disk.manifest = db.manifest
  tables : ∀ l, ∀ f ∈ db.current.files l, disk.tables f.number = db.tables f.number

namespace Db

def disk (db : Db) : Disk := ⟨db.manifest, db.tables, db.logfileNumber⟩

theorem onDisk_disk (db : Db) : OnDisk db db.disk := ⟨rfl, fun _ _ _ => rfl⟩

def reopen (db : Db) (rh : Nat → Nat → Digest) : Option Db := db.disk.openDb db.history rh

def recordedSequence (db : Db) : Nat := (db.manifest.getLast?.bind (·.lastSequence)).getD 0

end Db

theorem Stored.relabel {v : Version Bytes} {ts : Nat → List Record} (stored : Stored v ts)
    (rh : Nat → Nat → Digest) : Stored (v.relabel rh) ts := by
  refine ⟨?_, ?_, ?_, ?_, ?_, ?_⟩
  · intro lv f mem
    obtain ⟨g, isFile, rfl⟩ := mem_map.mp mem
    obtain ⟨⟨sorted, first, last⟩, valid⟩ := stored.table lv g isFile
    exact ⟨⟨sorted, first, last⟩, valid⟩
  · exact fun lv pos => pairwise_map.mpr (stored.disjoint lv pos)
  · exact fun lv => pairwise_map.mpr (stored.inOrder lv)
  · intro lv above
    simp [Version.relabel, stored.depth lv above]
  · intro l f l' f' left right eq
    obtain ⟨g, isG, rfl⟩ := mem_map.mp left
    obtain ⟨g', isG', rfl⟩ := mem_map.mp right
    obtain ⟨rfl, rfl⟩ := stored.unique l g l' g' isG isG' eq
    exact ⟨rfl, rfl⟩
  · intro l f l' f' left right
    obtain ⟨g, isG, rfl⟩ := mem_map.mp left
    obtain ⟨g', isG', rfl⟩ := mem_map.mp right
    exact stored.once l g l' g' isG isG'

variable {db : Db}

namespace Db

structure Opened (db db' : Db) (rh : Nat → Nat → Digest) : Prop where
  mem : db'.mem = []
  imm : db'.imm = none
  current : db'.current = db.current.relabel rh
  snapshots : db'.snapshots = []
  compaction : db'.compaction = none
  history : db'.history = db.history
  lastSequence : db'.lastSequence = db.recordedSequence
  manifest : ∃ pointers, db'.manifest = [writeSnapshot db'.current pointers, { VersionEdit.empty with
    logNumber := some db'.logNumber
    prevLogNumber := some 0
    nextFileNumber := some db'.nextFileNumber
    lastSequence := some db'.lastSequence }]
  prevLogNumber : db'.prevLogNumber = 0
  logs : db'.logNumber = db'.logfileNumber ∧ db'.logfileNumber < db'.nextFileNumber
  nextFileNumber : ∀ l, ∀ f ∈ db.current.files l, f.number < db'.nextFileNumber

/-- What opening again leaves of a database. -/
structure Reopened (db db' : Db) (rh : Nat → Nat → Digest) : Prop extends Opened db db' rh where
  tables : ∀ l, ∀ f ∈ db.current.files l, db'.tables f.number = db.tables f.number
  last : ∃ record next, LastRecord db record next db'.lastSequence

theorem Replays.openDb_opened {db : Db} (filed : Filed db) (replays : Replays db) {disk : Disk}
    (isManifest : disk.manifest = db.manifest) (rh : Nat → Nat → Digest) :
    ∃ db', disk.openDb db.history rh = some db' ∧ db'.tables = disk.tables ∧ Opened db db' rh := by
  obtain ⟨front, r, next, last, split, ends⟩ := replays.last
  obtain ⟨pointers, recovers⟩ := replays.recover filed rh split ends
  have logBelow := ends.logBelow
  have isRecorded : last = db.recordedSequence := by
    rw [recordedSequence, split, getLast?_concat, Option.bind_some, ends.lastSequence]
    rfl
  rw [← isManifest] at recovers
  simp only [Disk.openDb, recovers]
  generalize isOpened : disk.afterRecover db.history
    ⟨db.current.relabel rh, pointers, next, next + 1, last, db.logNumber, db.prevLogNumber⟩ = opened
  have cur : opened.current = db.current.relabel rh := by rw [← isOpened]; rfl
  have saved : opened.current.applyEdit { VersionEdit.empty with
      prevLogNumber := some 0, logNumber := some opened.logfileNumber } = some (db.current.relabel rh) := by
    rw [cur]
    refine Version.applyEdit_nothing rfl rfl (fun l pos => ?_) fun l above => ?_
    · exact isChain_map_of_isChain (FileMetaData.relabel rh l) (fun _ _ lt => lt) (filed.chain l pos)
    · simp [Version.relabel, filed.depth l above]
  rw [logAndApply, if_neg, saved]
  · subst isOpened
    refine ⟨_, rfl, rfl, ⟨rfl, rfl, rfl, rfl, rfl, rfl, isRecorded, ⟨pointers, rfl⟩, rfl,
      ⟨rfl, Nat.lt_succ_self _⟩, fun l f isFile => ?_⟩⟩
    have below := ends.numbers l f isFile
    change f.number < max (next + 1) (disk.newestLog + 1) + 1
    omega
  · subst isOpened
    simp only [Option.any_some, decide_eq_true_eq, not_or, not_lt, not_le]
    change db.logNumber ≤ max (next + 1) (disk.newestLog + 1) ∧
      max (next + 1) (disk.newestLog + 1) < max (next + 1) (disk.newestLog + 1) + 1
    omega

variable {rh : Nat → Nat → Digest} {db' : Db}

theorem Opened.filed (opened : Opened db db' rh) (filed : Filed db) : Filed db' := by
  have files : ∀ l, db'.current.files l = (db.current.files l).map (FileMetaData.relabel rh l) := by
    intro l
    rw [opened.current]
    rfl
  have isFile : ∀ l f, f ∈ db'.current.files l → ∃ g ∈ db.current.files l, f = g.relabel rh l := by
    intro l f mem
    rw [files] at mem
    obtain ⟨g, isFile, rfl⟩ := mem_map.mp mem
    exact ⟨g, isFile, rfl⟩
  refine ⟨?_, ?_, ?_, ?_, ?_, ⟨opened.logs.1.le, opened.logs.2⟩, ?_, ?_, ?_⟩
  · intro l
    rw [files]
    exact pairwise_map.mpr (filed.inOrder l)
  · intro l pos
    rw [files]
    exact isChain_map_of_isChain (FileMetaData.relabel rh l) (fun _ _ lt => lt) (filed.chain l pos)
  · intro l above
    simp [files, filed.depth l above]
  · intro l f l' f' left right eq
    obtain ⟨g, isG, rfl⟩ := isFile l f left
    obtain ⟨g', isG', rfl⟩ := isFile l' f' right
    obtain ⟨rfl, rfl⟩ := filed.unique l g l' g' isG isG' eq
    exact ⟨rfl, rfl⟩
  · intro l f mem
    obtain ⟨g, isG, rfl⟩ := isFile l f mem
    exact opened.nextFileNumber l g isG
  · simp [opened.current, Version.relabel]
  · simp [opened.compaction]
  · simp [opened.compaction]

theorem Filed.numbers_distinct (filed : Filed db) (l : Nat) :
    (db.current.files l).Pairwise fun f g => f.number ≠ g.number := by
  refine List.Pairwise.imp_of_mem ?_ (filed.inOrder l)
  intro f g left right pre eq
  have equal := (filed.unique l f l g left right eq).2
  exact absurd pre (equal ▸ lt_irrefl _)

theorem Opened.replays (opened : Opened db db' rh) (filed : Filed db) : Replays db' := by
  have filed' := opened.filed filed
  obtain ⟨pointers, manifest⟩ := opened.manifest
  have snap : ∀ rh', Replayed rh' (replay rh' [writeSnapshot db'.current pointers]) db'.current.files := by
    intro rh'
    refine (Replayed.init rh').apply (writeSnapshot_distinct pointers filed'.numbers_distinct) ?_ ?_
    · simp [Builder.init]
    intro l f
    rw [mem_writeSnapshot]
    simp only [not_mem_nil, false_and, false_or]
    exact ⟨fun isFile => ⟨filed'.level_lt isFile, isFile⟩, fun both => both.2⟩
  have replayed : ∀ rh', Replayed rh' (replay rh' db'.manifest) db'.current.files := by
    intro rh'
    rw [manifest, ← singleton_append, replay_append]
    refine (snap rh').apply List.Pairwise.nil (by simp [VersionEdit.empty]) ?_
    simp [VersionEdit.empty, VersionEdit.Deletes]
  refine ⟨?_, ⟨[_], _, _, _, manifest, rfl, congrArg some opened.prevLogNumber.symm, rfl, rfl, ?_, filed'.numbers⟩,
    replayed, ?_⟩
  · rw [manifest]
    simp [writeSnapshot, VersionEdit.empty]
  · exact filed'.logs.1.trans_lt filed'.logs.2
  intro rh'
  have added : ∀ l, ∀ g ∈ (replay rh' db'.manifest l).addedFiles, ∃ f ∈ db'.current.files l, g.number = f.number := by
    intro l g mem
    have notDeleted : g.number ∉ (replay rh' db'.manifest l).deletedFiles := by
      rw [manifest, replay]
      simp [mem_apply_deleted, Builder.init, VersionEdit.decoded, writeSnapshot, VersionEdit.empty]
    obtain ⟨f, isFile, rfl⟩ := ((replayed rh').kept l g).mp ⟨mem, notDeleted⟩
    exact ⟨f, isFile, rfl⟩
  refine ⟨?_, ?_, by simp [opened.compaction]⟩
  · intro l g mem
    obtain ⟨f, isFile, eq⟩ := added l g mem
    exact eq ▸ filed'.numbers l f isFile
  intro l f isFile l' deeper g mem eq
  obtain ⟨h, isH, eqNum⟩ := added l' g mem
  have levels := (filed'.unique l' h l f isH isFile (eqNum ▸ eq)).1
  omega

theorem Inv.openDb_reopened (inv : Inv db) (recorded : Recorded db) {disk : Disk}
    (onDisk : OnDisk db disk) (rh : Nat → Nat → Digest) :
    ∃ db', disk.openDb db.history rh = some db' ∧ Reopened db db' rh := by
  obtain ⟨db', opens, tables, opened⟩ := recorded.toReplays.openDb_opened inv.filed onDisk.manifest rh
  obtain ⟨front, r, next, last, split, ofLast⟩ := recorded.lastRecord
  have isLast : last = db'.lastSequence := by
    rw [opened.lastSequence, recordedSequence, split, getLast?_concat, Option.bind_some, ofLast.lastSequence]
    rfl
  refine ⟨db', opens, opened, ?_, r, next, isLast ▸ ofLast⟩
  rw [tables]
  exact onDisk.tables

theorem Inv.reopened (inv : Inv db) (reopened : Reopened db db' rh) : Inv db' := by
  obtain ⟨r, next, ofLast⟩ := reopened.last
  have files : ∀ l, ∀ f ∈ db'.current.files l, ∃ g ∈ db.current.files l, f = g.relabel rh l := by
    intro l f member
    rw [reopened.current] at member
    obtain ⟨g, isFile, rfl⟩ := mem_map.mp member
    exact ⟨g, isFile, rfl⟩
  refine ⟨?_, ?_, ?_, ?_, ?_, ?_, ?_, ?_, ?_, ?_, ?_, ?_, ?_⟩
  · rw [reopened.current]
    refine (inv.stored.relabel rh).congr fun l f member => ?_
    obtain ⟨g, isFile, rfl⟩ := mem_map.mp member
    exact reopened.tables l g isFile
  · intro l f member
    obtain ⟨g, isFile, rfl⟩ := files l f member
    exact reopened.nextFileNumber l g isFile
  · exact ofLast.last_le.trans_lt inv.reserved
  · rw [reopened.mem]
    exact MemOk.nil _
  · rw [reopened.imm]
    exact MemOk.nil _
  · intro l f member e inT
    obtain ⟨g, isFile, rfl⟩ := files l f member
    change e ∈ db'.tables g.number at inT
    rw [reopened.tables l g isFile] at inT
    exact ofLast.entries l g isFile e inT
  · simp [reopened.mem]
  · simp [reopened.imm]
  · simp [reopened.snapshots]
  · simp [reopened.snapshots]
  · simp [reopened.current, Version.relabel]
  · exact ⟨reopened.logs.1.le, reopened.logs.2⟩
  · simp [reopened.compaction]

theorem Recorded.reopened (inv : Inv db) (reopened : Reopened db db' rh) : Recorded db' := by
  have inv' := inv.reopened reopened
  obtain ⟨pointers, manifest⟩ := reopened.manifest
  exact ⟨reopened.toOpened.replays inv.filed, [_], _, db'.nextFileNumber, db'.lastSequence, manifest,
    ⟨rfl, congrArg some reopened.prevLogNumber.symm, rfl, rfl, inv'.logs.1.trans_lt inv'.logs.2, inv'.numbers⟩, le_rfl,
    le_rfl, inv'.tablesOld⟩

/-! ## Runs over several sessions -/

end Db

/-- What happens to a database over its lifetime: steps, and closing it and opening it again. -/
inductive SessionStep where
  | run (label : Step)
  | reopen (rh : Nat → Nat → Digest)

namespace Db

def sessionStep (p : Params) (db : Db) : SessionStep → Option Db
  | .run label => (step p db label).toOption
  | .reopen rh => db.reopen rh

/-- The databases reached from a new one over any number of sessions. -/
abbrev SessionReachable (p : Params) (allowed : Db → SessionStep → Prop) (db : Db) : Prop :=
  Transition.Reaches (fun db label db' => sessionStep p db label = some db') allowed init db

def SessionRoom (db : Db) : SessionStep → Prop
  | .run label => db.HasRoom label
  | .reopen _ => True

theorem SessionReachable.of_reachable {p : Params} {allowed : Db → Step → Prop} {sessions : Db → SessionStep → Prop}
    (admits : ∀ db lbl, allowed db lbl → sessions db (.run lbl)) (run : Reachable p allowed db) :
    SessionReachable p sessions db := by
  induction run with
  | refl => exact .refl
  | tail _ adm taken ih =>
    refine ih.tail (admits _ _ adm) ?_
    change (step p _ _).toOption = some _
    rw [show step p _ _ = .ok _ from taken]
    rfl

variable {allowed : Db → SessionStep → Prop}

/-- A property that steps and openings keep, beside the invariant and the record of it. -/
theorem SessionReachable.keeps {p : Params} (P : Db → Prop)
    (room : ∀ db lbl, allowed db lbl → db.SessionRoom lbl) (initial : P init)
    (steps : ∀ {db db' : Db} {lbl : Step}, Inv db → P db → allowed db (.run lbl) → step p db lbl = .ok db' → P db')
    (reopens : ∀ {db db' : Db} {rh : Nat → Nat → Digest}, Inv db → P db → allowed db (.reopen rh) →
      Reopened db db' rh → P db')
    (run : SessionReachable p allowed db) : Inv db ∧ Recorded db ∧ P db := by
  refine run.invariant (fun db => Inv db ∧ Recorded db ∧ P db) ⟨init_inv, init_recorded, initial⟩ ?_
  intro pre after lbl ⟨inv, recorded, holds⟩ adm taken
  cases lbl with
  | run lbl =>
    have goes : step p pre lbl = .ok after := Transition.eq_ok_of_toOption taken
    have hasRoom := room pre (.run lbl) adm
    exact ⟨inv.step hasRoom goes, recorded.step inv hasRoom goes, steps inv holds adm goes⟩
  | reopen rh =>
    obtain ⟨opened, opens, reopened⟩ := inv.openDb_reopened recorded (onDisk_disk pre) rh
    have eq : opened = after := Option.some.inj (opens.symm.trans taken)
    subst eq
    exact ⟨inv.reopened reopened, Recorded.reopened inv reopened, reopens inv holds adm reopened⟩

/-! ## The MANIFEST of any session -/

def fileEntry (f : FileMetaData Bytes) : Nat × Nat × InternalKey Bytes × InternalKey Bytes :=
  (f.number, f.fileSize, f.smallest, f.largest)

theorem replays_of_sessions {p : Params} (run : SessionReachable p allowed db) : Filed db ∧ Replays db := by
  refine run.invariant (fun db => Filed db ∧ Replays db) ⟨init_filed, init_replays⟩ ?_
  intro pre after lbl ⟨filed, replays⟩ _ taken
  cases lbl with
  | run lbl =>
    have goes : step p pre lbl = .ok after := Transition.eq_ok_of_toOption taken
    exact ⟨filed.step goes, replays.step filed goes⟩
  | reopen rh =>
    obtain ⟨db', opens, -, opened⟩ := @Replays.openDb_opened pre filed replays pre.disk rfl rh
    cases opens.symm.trans taken
    exact ⟨opened.filed filed, opened.replays filed⟩

/-- `Recover` on the MANIFEST of a database, whatever it has been through, gives the lists of its
current version and the numbers of the last record. -/
theorem manifest_replay (p : Params) (db : Db) (run : SessionReachable p (fun _ _ => True) db)
    (rh : Nat → Nat → Digest) :
    ∃ front record recovered, db.manifest = front ++ [record] ∧
      recover (db.manifest.map (VersionEdit.decoded rh)) = .ok recovered ∧
      (∀ l, (recovered.version.files l).map fileEntry = (db.current.files l).map fileEntry) ∧
      record.logNumber = some recovered.logNumber ∧ record.prevLogNumber = some recovered.prevLogNumber ∧
      record.lastSequence = some recovered.lastSequence ∧
      record.nextFileNumber = some recovered.manifestFileNumber ∧
      recovered.nextFileNumber = recovered.manifestFileNumber + 1 := by
  obtain ⟨filed, replays⟩ := replays_of_sessions run
  obtain ⟨front, record, next, last, split, ends⟩ := replays.last
  obtain ⟨pointers, recovers⟩ := replays.recover filed rh split ends
  refine ⟨front, record, _, split, recovers, fun l => ?_, ends.logNumber, ends.prevLogNumber, ends.lastSequence,
    ends.nextFileNumber, rfl⟩
  change ((db.current.files l).map (FileMetaData.relabel rh l)).map fileEntry = _
  rw [map_map]
  rfl

/-- Four tables were written and a compaction with a flush in its middle was installed. -/
theorem manifest_replay_compacted : ∃ db recovered, compute sampleParams (fun _ _ => True) init
      (nestedFlush [100] ++ [.installCompaction fun _ => zeroDigest]) = some db ∧
    db.manifest.length = 8 ∧ (db.current.files 2).length = 2 ∧
    recover (db.manifest.map (VersionEdit.decoded fun _ _ => zeroDigest)) = .ok recovered ∧
    (recovered.version.files 2).map fileEntry = (db.current.files 2).map fileEntry := by
  obtain ⟨db, run, records, tables⟩ : ∃ db ∈ compute sampleParams (fun _ _ => True) init
      (nestedFlush [100] ++ [.installCompaction fun _ => zeroDigest]),
      db.manifest.length = 8 ∧ (db.current.files 2).length = 2 := by decide +kernel
  have reached := reachable_of_compute rfl (fun _ _ _ => trivial) .refl run
  obtain ⟨front, record, recovered, _, recovers, lists, _⟩ := manifest_replay sampleParams db
    (.of_reachable (fun _ _ _ => trivial) reached) fun _ _ => zeroDigest
  exact ⟨db, recovered, run, records, tables, recovers, lists 2⟩

end Db

end Elsm
