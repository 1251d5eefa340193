import Elsm.Db.Stored
import Elsm.Merkle.Completeness

/-!
# What every database state satisfies

`Running` ties a compaction that is under way to the version it started from, and `Db.Inv`
puts it together with the tables, the memtables and the sequence numbers.  There is one
lemma per kind of step; `Db.Inv.step` collects them.
-/

namespace Elsm

open List
open Merkle (Digest Mac Record)

structure MemOk (mem : List Record) (lastSequence : Nat) : Prop where
  sorted : mem.Pairwise fun a b => a.1 < b.1
  valid : ∀ e ∈ mem, e.1.Valid
  old : ∀ e ∈ mem, e.1.sequence ≤ lastSequence
  once : ∀ e ∈ mem, ∀ e' ∈ mem, e.1.sequence = e'.1.sequence → e.1 = e'.1

theorem MemOk.nil (lastSequence : Nat) : MemOk [] lastSequence :=
  ⟨List.Pairwise.nil, by simp, by simp, by simp⟩

theorem MemOk.mono {mem : List Record} {n m : Nat} (ok : MemOk mem n) (le : n ≤ m) : MemOk mem m :=
  ⟨ok.sorted, ok.valid, fun e member => (ok.old e member).trans le, ok.once⟩

def UserApart (f g : FileMetaData Bytes) : Prop :=
  f.largest.userKey < g.smallest.userKey ∨ g.largest.userKey < f.smallest.userKey

/-- A file that was flushed after the compaction started.  Its entries are newer than those the
compaction started from, and below level 0 it meets no file it was pushed past. -/
structure Arrived (db : Db) (c : Compaction Bytes) (level : Nat) (f : FileMetaData Bytes) : Prop where
  newer : ∀ l g, g ∈ c.inputVersion.files l → ∀ e ∈ db.tables f.number, ∀ e' ∈ db.tables g.number,
    e'.1.sequence < e.1.sequence
  clear : 0 < level → ∀ i ≤ level, ∀ g ∈ c.inputVersion.files i, UserApart f g

/-- A compaction chosen from a version that is still part of the current one; whatever came
since was flushed. -/
structure Underway (db : Db) (c : Compaction Bytes) : Prop where
  chosen : c.Chosen
  levelBound : c.level + 1 < kNumLevels
  stored : Stored c.inputVersion db.tables
  live : ∀ l, ∀ f ∈ c.inputVersion.files l, f ∈ db.current.files l
  arrived : ∀ l, ∀ f ∈ db.current.files l, f ∉ c.inputVersion.files l → Arrived db c l f
  edit : ∃ key, c.edit = VersionEdit.empty.setCompactPointer c.level key

/-- The loop of a compaction has done its work on what it has read, and its outputs are new. -/
structure Running (db : Db) (cs : CompactionState Bytes) : Prop extends Underway db cs.compaction where
  work : ∃ read, read ++ cs.input = Db.inputEntries db.tables cs.compaction ∧ WorkInvariant cs read
  numbers : (cs.allOutputs.map (·.number)).Pairwise (· ≠ ·)
  fresh : ∀ out ∈ cs.allOutputs, out.number < db.nextFileNumber ∧ ∀ l, ∀ f ∈ db.current.files l, f.number ≠ out.number
  snapshot : cs.smallestSnapshot ≤ db.lastSequence ∧ ∀ s ∈ db.snapshots, cs.smallestSnapshot ≤ s

structure Db.Inv (db : Db) : Prop where
  stored : Stored db.current db.tables
  numbers : ∀ l, ∀ f ∈ db.current.files l, f.number < db.nextFileNumber
  reserved : db.lastSequence < kMaxSequenceNumber
  memOk : MemOk db.mem db.lastSequence
  immOk : MemOk (db.imm.getD []) db.lastSequence
  tablesOld : ∀ l, ∀ f ∈ db.current.files l, ∀ e ∈ db.tables f.number, e.1.sequence ≤ db.lastSequence
  memNewer : ∀ m ∈ db.mem, (∀ i ∈ db.imm.getD [], i.1.sequence < m.1.sequence) ∧
    ∀ l, ∀ f ∈ db.current.files l, ∀ e ∈ db.tables f.number, e.1.sequence < m.1.sequence
  immNewer : ∀ i ∈ db.imm.getD [], ∀ l, ∀ f ∈ db.current.files l, ∀ e ∈ db.tables f.number, e.1.sequence < i.1.sequence
  snapshotsOrdered : db.snapshots.Pairwise (· ≤ ·)
  snapshotsOld : ∀ s ∈ db.snapshots, s ≤ db.lastSequence
  seek : ∀ f l, db.current.fileToCompact = some (f, l) → f ∈ db.current.files l ∧ l + 1 < kNumLevels
  logs : db.logNumber ≤ db.logfileNumber ∧ db.logfileNumber < db.nextFileNumber
  running : ∀ cs, db.compaction = some cs → Running db cs

/-- A write leaves the largest sequence number unused. -/
def Db.HasRoom (db : Db) : Step → Prop
  | .write ops => db.lastSequence + ops.length < kMaxSequenceNumber
  | _ => True

theorem Running.transfer {db db' : Db} {cs : CompactionState Bytes} (running : Running db cs)
    (ts : db'.tables = db.tables) (files : db'.current.files = db.current.files)
    (next : db.nextFileNumber ≤ db'.nextFileNumber) (last : db.lastSequence ≤ db'.lastSequence)
    (snapshots : ∀ s ∈ db'.snapshots, s ∈ db.snapshots ∨ s = db.lastSequence) : Running db' cs where
  chosen := running.chosen
  levelBound := running.levelBound
  stored := ts ▸ running.stored
  live := by rw [files]; exact running.live
  arrived := by
    rw [files]
    intro l f mem new
    obtain ⟨newer, clear⟩ := running.arrived l f mem new
    exact ⟨by rw [ts]; exact newer, clear⟩
  work := by rw [ts]; exact running.work
  numbers := running.numbers
  fresh := by
    rw [files]
    intro out mem
    exact ⟨(running.fresh out mem).1.trans_le next, (running.fresh out mem).2⟩
  snapshot := by
    refine ⟨running.snapshot.1.trans last, fun s mem => ?_⟩
    cases snapshots s mem with
    | inl old => exact running.snapshot.2 s old
    | inr isLast => exact isLast ▸ running.snapshot.1
  edit := running.edit

namespace Db

theorem init_inv : Inv init where
  stored := ⟨by simp [init, Version.empty], fun _ _ => List.Pairwise.nil, fun _ => List.Pairwise.nil,
    fun _ _ => rfl, by simp [init, Version.empty], by simp [init, Version.empty]⟩
  numbers := by simp [init, Version.empty]
  reserved := by decide
  memOk := MemOk.nil _
  immOk := MemOk.nil _
  tablesOld := by simp [init, Version.empty]
  memNewer := by simp [init]
  immNewer := by simp [init]
  snapshotsOrdered := List.Pairwise.nil
  snapshotsOld := by simp [init]
  seek := by simp [init, Version.empty]
  logs := by simp [init]
  running := by simp [init]

/-! ## Steps that leave the version alone -/

theorem entry_valid (op : Op) {q : Nat} (below : q < kMaxSequenceNumber) : (op.entry q).1.Valid := by
  cases op with
  | put | delete => exact ⟨⟨_, parseInternalKey_make _ _ _⟩, by simpa [Op.entry] using below⟩

variable {ops : List Op}

theorem numbered_inj {seq q : Nat} {op op' : Op} (left : (q, op) ∈ numbered seq ops)
    (right : (q, op') ∈ numbered seq ops) : op = op' := by
  induction ops generalizing seq with
  | nil => simp [numbered] at left
  | cons first rest ih =>
    simp only [numbered, mem_cons, Prod.mk.injEq] at left right
    obtain ⟨here, isFirst⟩ | later := left
    · obtain ⟨_, alsoFirst⟩ | later' := right
      · rw [isFirst, alsoFirst]
      · have := (mem_numbered later').1
        omega
    · obtain ⟨here, _⟩ | later' := right
      · have := (mem_numbered later).1
        omega
      · exact ih later later'

theorem memOk_insertInto {mem : List Record} {last : Nat} (ok : MemOk mem last)
    (room : last + ops.length < kMaxSequenceNumber) :
    MemOk (insertInto (last + 1) ops mem) (last + ops.length) where
  sorted := insertInto_sorted ok.sorted fun e member => Nat.lt_succ_of_le (ok.old e member)
  valid e member := by
    obtain old | ⟨q, op, new, isEntry⟩ := mem_insertInto.mp member
    · exact ok.valid e old
    · have bounds := mem_numbered new
      exact isEntry ▸ entry_valid op (by omega)
  old e member := by
    obtain old | ⟨q, op, new, isEntry⟩ := mem_insertInto.mp member
    · exact (ok.old e old).trans (Nat.le_add_right _ _)
    have bounds := mem_numbered new
    rw [isEntry, Op.entry_sequence]
    omega
  once e left e' right same := by
    obtain old | ⟨q, op, new, rfl⟩ := mem_insertInto.mp left
    · obtain old' | ⟨q', op', new', rfl⟩ := mem_insertInto.mp right
      · exact ok.once e old e' old' same
      have bound := ok.old e old
      have bounds := mem_numbered new'
      rw [Op.entry_sequence] at same
      omega
    · obtain old' | ⟨q', op', new', rfl⟩ := mem_insertInto.mp right
      · have bound := ok.old e' old'
        have bounds := mem_numbered new
        rw [Op.entry_sequence] at same
        omega
      · rw [Op.entry_sequence, Op.entry_sequence] at same
        subst same
        rw [numbered_inj new new']

variable {db db' : Db}

theorem Inv.write (inv : Inv db) (room : db.lastSequence + ops.length < kMaxSequenceNumber) : Inv (db.write ops) where
  stored := inv.stored
  numbers := inv.numbers
  reserved := room
  memOk := memOk_insertInto inv.memOk room
  immOk := inv.immOk.mono (Nat.le_add_right _ _)
  tablesOld l f mem e inT := (inv.tablesOld l f mem e inT).trans (Nat.le_add_right _ _)
  memNewer m mem := by
    obtain old | ⟨q, op, new, rfl⟩ := mem_insertInto.mp mem
    · exact inv.memNewer m old
    have bounds := mem_numbered new
    rw [Op.entry_sequence]
    refine ⟨fun i inImm => ?_, fun l f isFile e inT => ?_⟩
    · have := inv.immOk.old i inImm
      omega
    · have := inv.tablesOld l f isFile e inT
      omega
  immNewer := inv.immNewer
  snapshotsOrdered := inv.snapshotsOrdered
  snapshotsOld s mem := (inv.snapshotsOld s mem).trans (Nat.le_add_right _ _)
  seek := inv.seek
  logs := inv.logs
  running cs isRunning := (inv.running cs isRunning).transfer rfl rfl le_rfl (Nat.le_add_right _ _)
    fun _ mem => .inl mem

theorem switchMemTable_ok (run : db.switchMemTable = .ok db') : db.imm = none ∧ db' = { db with
      imm := some db.mem, mem := [], logfileNumber := db.nextFileNumber, nextFileNumber := db.nextFileNumber + 1 } := by
  simp only [switchMemTable] at run
  split at run
  · cases run
  case h_2 noImm =>
    cases run
    exact ⟨noImm, rfl⟩

theorem compactionIteration_ok (run : db.compactionIteration p = .ok db') :
    ∃ cs ent rest, db.compaction = some cs ∧ cs.input = ent :: rest ∧ db' = { db with
      nextFileNumber := (cs.compactEntry p.options p.size db.nextFileNumber ent).2
      compaction := some { (cs.compactEntry p.options p.size db.nextFileNumber ent).1 with input := rest } } := by
  simp only [compactionIteration] at run
  split at run
  · cases run
  case h_2 cs isRunning =>
    split at run
    · cases run
    case h_2 ent rest atEntry =>
      cases run
      exact ⟨cs, ent, rest, isRunning, atEntry, rfl⟩

theorem Inv.switchMemTable (inv : Inv db) (run : db.switchMemTable = .ok db') : Inv db' := by
  obtain ⟨-, rfl⟩ := switchMemTable_ok run
  have older := inv.logs
  exact
    { stored := inv.stored
      numbers := fun l f mem => Nat.lt_succ_of_lt (inv.numbers l f mem)
      reserved := inv.reserved
      memOk := MemOk.nil _
      immOk := inv.memOk
      tablesOld := inv.tablesOld
      memNewer := by simp
      immNewer := fun i mem => (inv.memNewer i mem).2
      snapshotsOrdered := inv.snapshotsOrdered
      snapshotsOld := inv.snapshotsOld
      seek := inv.seek
      logs := ⟨by change db.logNumber ≤ db.nextFileNumber; omega, Nat.lt_succ_self _⟩
      running := fun cs isRunning => (inv.running cs isRunning).transfer rfl rfl (Nat.le_succ _) le_rfl
        fun _ mem => .inl mem }

theorem Inv.snapshots (inv : Inv db) {snapshots : List Nat} (ord : snapshots.Pairwise (· ≤ ·))
    (known : ∀ s ∈ snapshots, s ∈ db.snapshots ∨ s = db.lastSequence) :
    Inv { db with snapshots := snapshots } :=
  { inv with
    snapshotsOrdered := ord
    snapshotsOld := fun s mem => by
      cases known s mem with
      | inl old => exact inv.snapshotsOld s old
      | inr isLast => exact isLast.le
    running := fun cs isRunning => (inv.running cs isRunning).transfer rfl rfl le_rfl le_rfl known }

variable {f : FileMetaData Bytes}

theorem chargeSeek_ok {key : InternalKey Bytes} (run : step p db (.chargeSeek key) = .ok db') :
    ∃ f lv, f ∈ db.current.files lv ∧ lv + 1 < kNumLevels ∧ db' = { db with current := { db.current with
      fileToCompact := some (db.current.fileToCompact.getD (f, lv)) } } := by
  simp only [step] at run
  split at run
  case h_1 seek isSeek =>
    cases run
    have ⟨member, bound⟩ := seekFile_some isSeek
    exact ⟨seek.1, seek.2, member, bound, rfl⟩
  case h_2 => cases run

/-- The file that is charged is live, and so is one that was charged before. -/
theorem charged_seek {v : Version Bytes} {lv : Nat}
    (seek : ∀ g l, v.fileToCompact = some (g, l) → g ∈ v.files l ∧ l + 1 < kNumLevels) (mem : f ∈ v.files lv)
    (bound : lv + 1 < kNumLevels) (g : FileMetaData Bytes) (l : Nat)
    (isSeek : some (v.fileToCompact.getD (f, lv)) = some (g, l)) : g ∈ v.files l ∧ l + 1 < kNumLevels := by
  cases charged : v.fileToCompact with
  | none =>
    simp only [charged, Option.getD_none, Option.some.injEq, Prod.mk.injEq] at isSeek
    exact isSeek.1 ▸ isSeek.2 ▸ ⟨mem, bound⟩
  | some old =>
    simp only [charged, Option.getD_some] at isSeek
    exact seek g l (charged.trans isSeek)

theorem Inv.chargeSeek (inv : Inv db) {lv : Nat} (mem : f ∈ db.current.files lv) (bound : lv + 1 < kNumLevels) :
    Inv { db with current := { db.current with
      fileToCompact := some (db.current.fileToCompact.getD (f, lv)) } } :=
  { inv with
    stored := ⟨inv.stored.table, inv.stored.disjoint, inv.stored.inOrder, inv.stored.depth,
      inv.stored.unique, inv.stored.once⟩
    seek := charged_seek inv.seek mem bound
    running := fun cs isRunning => (inv.running cs isRunning).transfer rfl rfl le_rfl le_rfl
      fun _ mem => .inl mem }

/-! ## Flushing a memtable -/

theorem logAndApply_ok {edit : VersionEdit Bytes} (applied : db.logAndApply edit = .ok db') :
    ∃ v, db.current.applyEdit edit = some v ∧
      db' = { db with
        current := v
        compactPointer := applyCompactPointers edit db.compactPointer
        manifest := db.manifest ++ [db.completeEdit edit]
        logNumber := edit.logNumber.getD db.logNumber
        prevLogNumber := edit.prevLogNumber.getD db.prevLogNumber } := by
  rw [logAndApply] at applied
  split at applied
  · cases applied
  split at applied
  · cases applied
  case h_2 v saved =>
    cases applied
    exact ⟨v, saved, rfl⟩

variable {records imm : List Record}

theorem mem_of_sameKeys (keys : records.map Prod.fst = imm.map Prod.fst)
    {e : Record} (mem : e ∈ records) : ∃ i ∈ imm, i.1 = e.1 := by
  have inKeys : e.1 ∈ imm.map Prod.fst := keys ▸ mem_map_of_mem mem
  simpa using inKeys

theorem sorted_of_sameKeys (keys : records.map Prod.fst = imm.map Prod.fst)
    (sorted : imm.Pairwise fun a b => a.1 < b.1) : records.Pairwise fun a b => a.1 < b.1 := by
  have ofKeys : (imm.map Prod.fst).Pairwise (· < ·) := pairwise_map.mpr sorted
  rw [← keys] at ofKeys
  exact pairwise_map.mp ofKeys

/-- What a flush adds to the version: nothing for an empty memtable, else one file that describes
the new table, at the level chosen for its range. -/
structure FlushedFile (p : Params) (db : Db) (records : List Record) (level : Nat) (f : FileMetaData Bytes) : Prop where
  number : f.number = db.nextFileNumber
  first : records.head?.map Prod.fst = some f.smallest
  last : records.getLast?.map Prod.fst = some f.largest
  level : level = pickLevelForMemTableOutput p.options db.current f.smallest.userKey f.largest.userKey

theorem flushEdit_cases (p : Params) (db : Db) (records : List Record) (rh : Digest) :
    (db.flushEdit p records rh).deletedFiles = [] ∧ (records = [] ∧ (db.flushEdit p records rh).newFiles = [] ∨
        ∃ l f, FlushedFile p db records l f ∧ (db.flushEdit p records rh).newFiles = [(l, f)]) := by
  cases records with
  | nil => exact ⟨rfl, .inl ⟨rfl, rfl⟩⟩
  | cons first rest =>
    cases isLast : (first :: rest).getLast? with
    | none => simp at isLast
    | some last =>
      simp only [flushEdit, isLast, head?_cons]
      refine ⟨rfl, .inr ⟨_, ⟨db.nextFileNumber, p.size.finished (first :: rest), first.1, last.1, rh⟩,
        ⟨rfl, rfl, ?_, rfl⟩, rfl⟩⟩
      rw [isLast]
      rfl

variable {p : Params}

section

variable (inv : Inv db) (isImm : db.imm = some imm) (keys : records.map Prod.fst = imm.map Prod.fst)

include inv isImm keys

/-- The flush edit keeps files and tables in step. -/
theorem Inv.flush_editOk (rh : Digest)
    (edit : VersionEdit Bytes) (new : edit.newFiles = (db.flushEdit p records rh).newFiles) :
    EditOk db.current db.tables (Function.update db.tables db.nextFileNumber records) edit := by
  have immOk := inv.immOk
  have immNewer := inv.immNewer
  rw [isImm, Option.getD_some] at immOk immNewer
  have oldTables : ∀ l, ∀ f ∈ db.current.files l,
      Function.update db.tables db.nextFileNumber records f.number = db.tables f.number :=
    fun l f mem => Function.update_of_ne (inv.numbers l f mem).ne _ _
  obtain ⟨-, none | ⟨lv, f, flushed, one⟩⟩ := flushEdit_cases p db records rh
  · rw [none.2] at new
    exact ⟨by rw [new]; exact List.Pairwise.nil, fun l f mem _ => oldTables l f mem,
      by simp [new], by simp [new], by simp [new], by simp [new], by simp [new], by simp [new]⟩
  rw [one] at new
  have newTable : Function.update db.tables db.nextFileNumber records f.number = records := by
    rw [flushed.number, Function.update_self]
  have isNew : ∀ l g, (l, g) ∈ edit.newFiles → l = lv ∧ g = f := by simp [new]
  refine ⟨by rw [new]; exact pairwise_singleton _ _, fun l f mem _ => oldTables l f mem,
    ?_, ?_, ?_, ?_, ?_, ?_⟩
  · intro l g added
    obtain ⟨rfl, rfl⟩ := isNew l g added
    rw [newTable]
    refine ⟨?_, ⟨sorted_of_sameKeys keys immOk.sorted, flushed.first, flushed.last⟩, ?_⟩
    · rw [flushed.level]
      exact (pickLevelForMemTableOutput_le p.options _ _ _).trans_lt (by decide)
    intro e mem
    obtain ⟨i, inImm, eq⟩ := mem_of_sameKeys keys mem
    exact eq ▸ immOk.valid i inImm
  · intro l g added b mem
    obtain ⟨rfl, rfl⟩ := isNew l g added
    rw [flushed.number]
    exact (inv.numbers l b mem).ne'
  · intro l g added l' b mem eq
    obtain ⟨rfl, rfl⟩ := isNew l g added
    rw [flushed.number] at eq
    exact absurd eq (inv.numbers l' b mem).ne
  · intro l g l' g' added added' _
    obtain ⟨rfl, rfl⟩ := isNew l g added
    obtain ⟨rfl, rfl⟩ := isNew l' g' added'
    exact ⟨rfl, rfl⟩
  · intro l g l' g' added added' e inG e' inG' eq
    obtain ⟨rfl, rfl⟩ := isNew l g added
    obtain ⟨rfl, rfl⟩ := isNew l' g' added'
    rw [newTable] at inG inG'
    obtain ⟨i, inImm, keyI⟩ := mem_of_sameKeys keys inG
    obtain ⟨i', inImm', keyI'⟩ := mem_of_sameKeys keys inG'
    exact ⟨rfl, keyI ▸ keyI' ▸ immOk.once i inImm i' inImm' (by rw [keyI, keyI']; exact eq)⟩
  · intro l g l' b added mem _ e inG e' inB
    obtain ⟨rfl, rfl⟩ := isNew l g added
    rw [newTable] at inG
    obtain ⟨i, inImm, keyI⟩ := mem_of_sameKeys keys inG
    exact (keyI ▸ immNewer i inImm l' b mem e' inB).ne'

/-- A flush: the immutable memtable has become a table, at most one file is new, and none is gone. -/
structure Flushed (p : Params) (db db' : Db) (imm records : List Record) : Prop where
  isImm : db.imm = some imm
  keys : records.map Prod.fst = imm.map Prod.fst
  others : ∃ current compactPointer manifest, db' = { db with
    imm := none
    tables := Function.update db.tables db.nextFileNumber records
    current := current
    compactPointer := compactPointer
    manifest := manifest
    nextFileNumber := db.nextFileNumber + 1
    logNumber := db.logfileNumber
    prevLogNumber := 0 }
  stored : Stored db'.current db'.tables
  seek : db'.current.fileToCompact = none
  kept : ∀ l, ∀ f ∈ db.current.files l, f ∈ db'.current.files l
  cases : ∀ l, ∀ f ∈ db'.current.files l, f ∈ db.current.files l ∨ FlushedFile p db records l f
  added : records ≠ [] → ∃ l, ∃ f ∈ db'.current.files l, FlushedFile p db records l f

variable {rh : Digest}

theorem Inv.commitFlush_flushed (run : db.commitFlush p records rh = .ok db') : Flushed p db db' imm records := by
  simp only [commitFlush] at run
  split at run
  · cases run
  case h_2 db₁ applied =>
    cases run
    obtain ⟨v, saved, rfl⟩ := logAndApply_ok applied
    have editOk := inv.flush_editOk (p := p) isImm keys rh
      { db.flushEdit p records rh with prevLogNumber := some 0, logNumber := some db.logfileNumber } rfl
    obtain ⟨noDeletes, contents⟩ := flushEdit_cases p db records rh
    have mem : ∀ l f, f ∈ v.files l ↔ f ∈ db.current.files l ∨ (l, f) ∈ (db.flushEdit p records rh).newFiles := by
      intro l f
      rw [inv.stored.mem_iff editOk saved]
      simp [VersionEdit.Deletes, noDeletes]
    refine ⟨isImm, keys, ⟨_, _, _, rfl⟩, inv.stored.applyEdit editOk saved, (saveTo_some saved).1,
      fun l f old => (mem l f).mpr (.inl old), ?_, ?_⟩
    · intro l f isFile
      cases (mem l f).mp isFile with
      | inl old => exact .inl old
      | inr new =>
        obtain none | ⟨lv, g, flushed, one⟩ := contents
        · simp [none.2] at new
        rw [one] at new
        simp only [mem_singleton, Prod.mk.injEq] at new
        exact .inr (new.1 ▸ new.2 ▸ flushed)
    · intro ne
      obtain none | ⟨lv, g, flushed, one⟩ := contents
      · exact absurd none.1 ne
      · exact ⟨lv, g, (mem lv g).mpr (.inr (by simp [one])), flushed⟩

end

theorem Flushed.table_old (flushed : Flushed p db db' imm records) {n : Nat} (old : n < db.nextFileNumber) :
    db'.tables n = db.tables n := by
  obtain ⟨_, _, _, rfl⟩ := flushed.others
  exact Function.update_of_ne old.ne _ _

section

variable {l : Nat} (flushed : Flushed p db db' imm records) (new : FlushedFile p db records l f)

include flushed new

theorem Flushed.table_new : db'.tables f.number = records := by
  obtain ⟨_, _, _, rfl⟩ := flushed.others
  simp [new.number]

theorem Flushed.key_mem {e : Record} (mem : e ∈ db'.tables f.number) : ∃ i ∈ db.imm.getD [], i.1 = e.1 := by
  rw [flushed.table_new new] at mem
  rw [flushed.isImm]
  exact mem_of_sameKeys flushed.keys mem

end

/-- A flushed file below level 0 was pushed past levels it does not meet. -/
theorem Inv.flushed_clear (inv : Inv db) {l : Nat} (new : FlushedFile p db records l f) (pos : 0 < l) :
    ∀ i ≤ l, ∀ g ∈ db.current.files i, UserApart f g := by
  intro i below g mem
  have spec := pickLevelForMemTableOutput_spec p.options inv.stored.sorted f.smallest.userKey f.largest.userKey
  rw [← new.level] at spec
  have misses := spec pos i below g mem
  rw [← Bool.not_eq_true, overlapsRange_iff] at misses
  simp only [Option.mem_def, Option.some.injEq, forall_eq'] at misses
  by_cases reaches : f.smallest.userKey ≤ g.largest.userKey
  · exact .inl (not_le.mp fun starts => misses ⟨reaches, starts⟩)
  · exact .inr (not_le.mp reaches)

theorem Inv.running_flushed (inv : Inv db)
    (flushed : Flushed p db db' imm records) {cs : CompactionState Bytes} (running : Running db cs) :
    Running db' cs := by
  have oldTable : ∀ l, ∀ f ∈ db.current.files l, db'.tables f.number = db.tables f.number :=
    fun l f mem => flushed.table_old (inv.numbers l f mem)
  have inputTable : ∀ l, ∀ f ∈ cs.compaction.inputVersion.files l,
      db'.tables f.number = db.tables f.number := fun l f mem => oldTable l f (running.live l f mem)
  have sameInput : inputEntries db'.tables cs.compaction = inputEntries db.tables cs.compaction := by
    have sameTables : ∀ f ∈ cs.compaction.inputs0 ++ cs.compaction.inputs1,
        db'.tables f.number = db.tables f.number := by
      intro f isInput
      obtain ⟨l, mem⟩ := inputs_mem running.chosen (mem_append.mp isInput)
      exact inputTable l f mem
    rw [inputEntries, inputEntries, flatMap_congr sameTables]
  obtain ⟨_, _, _, eq⟩ := flushed.others
  refine ⟨⟨running.chosen, running.levelBound, running.stored.congr inputTable,
    fun l f mem => flushed.kept l f (running.live l f mem), ?_, running.edit⟩, ?_, running.numbers, ?_, ?_⟩
  · intro l f mem outside
    cases flushed.cases l f mem with
    | inl old =>
      obtain ⟨newer, clear⟩ := running.arrived l f old outside
      refine ⟨fun l' g isInput => ?_, clear⟩
      rw [oldTable l f old, inputTable l' g isInput]
      exact newer l' g isInput
    | inr new =>
      refine ⟨fun l' g isInput e inF e' inG => ?_, fun pos i below g isInput => ?_⟩
      · obtain ⟨i, inImm, key⟩ := flushed.key_mem new inF
        rw [inputTable l' g isInput] at inG
        exact key ▸ inv.immNewer i inImm l' g (running.live l' g isInput) e' inG
      · exact inv.flushed_clear new pos i below g (running.live i g isInput)
  · rw [sameInput]
    exact running.work
  · intro out isOutput
    obtain ⟨below, apart⟩ := running.fresh out isOutput
    refine ⟨by rw [eq]; exact Nat.lt_succ_of_lt below, fun l f mem => ?_⟩
    cases flushed.cases l f mem with
    | inl old => exact apart l f old
    | inr new => rw [new.number]; exact below.ne'
  · rw [eq]
    exact running.snapshot

theorem Inv.flushed (inv : Inv db) (flushed : Flushed p db db' imm records) : Inv db' := by
  have oldTable : ∀ l, ∀ f ∈ db.current.files l, db'.tables f.number = db.tables f.number :=
    fun l f member => flushed.table_old (inv.numbers l f member)
  obtain ⟨_, _, _, eq⟩ := flushed.others
  have sameMem : db'.mem = db.mem := by rw [eq]
  have noImm : db'.imm.getD [] = [] := by rw [eq]; rfl
  have sameLast : db'.lastSequence = db.lastSequence := by rw [eq]
  have sameSnapshots : db'.snapshots = db.snapshots := by rw [eq]
  have sameCompaction : db'.compaction = db.compaction := by rw [eq]
  have next : db'.nextFileNumber = db.nextFileNumber + 1 := by rw [eq]
  refine ⟨flushed.stored, ?_, by rw [sameLast]; exact inv.reserved, by rw [sameMem, sameLast]; exact inv.memOk,
    by rw [noImm]; exact MemOk.nil _, ?_, ?_, by simp [noImm], by rw [sameSnapshots]; exact inv.snapshotsOrdered,
    by rw [sameSnapshots, sameLast]; exact inv.snapshotsOld, by simp [flushed.seek], ?_, ?_⟩
  · intro l f member
    rw [next]
    cases flushed.cases l f member with
    | inl old => exact Nat.lt_succ_of_lt (inv.numbers l f old)
    | inr new => rw [new.number]; exact Nat.lt_succ_self _
  · intro l f member e inT
    rw [sameLast]
    cases flushed.cases l f member with
    | inl old => exact inv.tablesOld l f old e (oldTable l f old ▸ inT)
    | inr new =>
      obtain ⟨i, inImm, key⟩ := flushed.key_mem new inT
      exact key ▸ inv.immOk.old i inImm
  · intro m inMem
    rw [sameMem] at inMem
    refine ⟨by simp [noImm], fun l f member e inT => ?_⟩
    cases flushed.cases l f member with
    | inl old => exact (inv.memNewer m inMem).2 l f old e (oldTable l f old ▸ inT)
    | inr new =>
      obtain ⟨i, inImm, key⟩ := flushed.key_mem new inT
      exact key ▸ (inv.memNewer m inMem).1 i inImm
  · rw [eq]
    exact ⟨le_rfl, Nat.lt_succ_of_lt inv.logs.2⟩
  · intro cs isRunning
    exact inv.running_flushed flushed (inv.running cs (sameCompaction ▸ isRunning))

variable {beyond : Nat → Nat → UInt8} {heap : Nat → Digest}

/-- A flush commits what `BuildTable` made of the memtable, and nothing for an empty one. -/
theorem commitFlush_ok {records : List Record} (run : db.commitFlush p records rh = .ok db') :
    db'.imm = none ∧ db'.tables = Function.update db.tables db.nextFileNumber records := by
  simp only [commitFlush] at run
  split at run
  · cases run
  case h_2 applied =>
    cases run
    obtain ⟨_, _, rfl⟩ := logAndApply_ok applied
    exact ⟨rfl, rfl⟩

theorem compactMemTable_built (run : db.compactMemTable p heap beyond rh = .ok db') :
    ∃ imm, db.imm = some imm ∧ (imm = [] ∧ db.commitFlush p [] rh = .ok db' ∨
      ∃ image, Merkle.buildTable p.mac heap beyond imm = .file image ∧
        db.commitFlush p image.records rh = .ok db') := by
  simp only [compactMemTable] at run
  split at run
  · cases run
  · cases run
  case h_3 imm isImm _ =>
    refine ⟨imm, isImm, ?_⟩
    split at run
    · cases run
    case h_2 built => exact .inl ⟨Merkle.buildTable_noFile built, run⟩
    case h_3 image built => exact .inr ⟨image, built, run⟩

/-- The records a flush commits are the memtable's, with the values `BuildTable` stores. -/
theorem compactMemTable_commits (run : db.compactMemTable p heap beyond rh = .ok db') :
    ∃ imm records node, db.imm = some imm ∧ records.map Prod.fst = imm.map Prod.fst ∧
      records = imm.mapIdx (fun q r => (r.1, Merkle.storedValue node beyond r.2 q)) ∧
      db.commitFlush p records rh = .ok db' := by
  obtain ⟨imm, isImm, ⟨rfl, commits⟩ | ⟨image, built, commits⟩⟩ := compactMemTable_built run
  · exact ⟨[], [], fun _ => rh, isImm, rfl, rfl, commits⟩
  · obtain ⟨_, node, isRecords⟩ := Merkle.buildTable_file built
    exact ⟨imm, image.records, node, isImm, Merkle.buildTable_keys built, isRecords, commits⟩

theorem Inv.compactMemTable_flushed (inv : Inv db) (run : db.compactMemTable p heap beyond rh = .ok db') :
    ∃ imm records node, Flushed p db db' imm records ∧
      records = imm.mapIdx fun q r => (r.1, Merkle.storedValue node beyond r.2 q) := by
  obtain ⟨imm, records, node, isImm, keys, values, commits⟩ := compactMemTable_commits run
  exact ⟨imm, records, node, inv.commitFlush_flushed isImm keys commits, values⟩

end Db

end Elsm
