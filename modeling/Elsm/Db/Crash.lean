import Elsm.Db.History
import Elsm.Db.Reopen

/-!
# Crashes

A step changes the directory by one host operation after another, and the process may stop
between any two of them or in the middle of one.  `Inv.crash_cases` says that what is on disk
then belongs to the database before the step or to the one after it, so opening it again gives
one of the two versions.  What was only in memory is gone, because no log holds it.
-/

namespace Elsm

open List Function
open Merkle (Digest Record zeroDigest)

/-- The host operations that matter to the next `DB::Open`.  Nothing is logged: `DBImpl::Write`
performs none of them. -/
inductive DiskOp where
  | createLog (number : Nat)
  | writeTable (number : Nat) (records : List Record)
  | appendManifest (record : VersionEdit Bytes)

namespace Disk

def apply (disk : Disk) : DiskOp → Disk
  | .createLog number => { disk with newestLog := number }
  | .writeTable number records => { disk with tables := update disk.tables number records }
  | .appendManifest record => { disk with manifest := disk.manifest ++ [record] }

/-- What may be on disk when the process stops on its way through the operations.  A table may be
there in part; the reader of the MANIFEST takes no notice of a record that is there in part. -/
inductive Crashes : Disk → List DiskOp → Disk → Prop
  | stop (disk : Disk) (ops : List DiskOp) : Crashes disk ops disk
  | torn (disk : Disk) (number : Nat) (records written : List Record) (ops : List DiskOp) :
    Crashes disk (.writeTable number records :: ops) (disk.apply (.writeTable number written))
  | done {disk disk' : Disk} {op : DiskOp} {ops : List DiskOp} (rest : Crashes (disk.apply op) ops disk') :
    Crashes disk (op :: ops) disk'

theorem Crashes.of_append {disk disk' : Disk} {ops : List DiskOp} {r : VersionEdit Bytes}
    (crash : Crashes disk (ops ++ [.appendManifest r]) disk') :
    Crashes disk ops disk' ∨ disk' = (ops.foldl apply disk).apply (.appendManifest r) := by
  induction ops generalizing disk with
  | nil =>
    cases crash with
    | stop => exact .inl (.stop _ _)
    | done rest =>
      cases rest
      exact .inr rfl
  | cons op ops ih =>
    cases crash with
    | stop => exact .inl (.stop _ _)
    | torn n records wr => exact .inl (.torn _ _ _ _ _)
    | done rest => exact (ih rest).imp .done id

end Disk

namespace Db

/-! ## The operations of a step -/

/-- `LogAndApply` writes its record when its checks pass. -/
def commitOps (db : Db) (edit : VersionEdit Bytes) : List DiskOp :=
  match db.logAndApply edit with
  | .ok _ => [.appendManifest (db.completeEdit edit)]
  | .error _ => []

def flushOps (p : Params) (db : Db) (records : List Record) (rh : Digest) : List DiskOp :=
  let edit := { db.flushEdit p records rh with prevLogNumber := some 0, logNumber := some db.logfileNumber }
  let built := { db with
    nextFileNumber := db.nextFileNumber + 1
    tables := update db.tables db.nextFileNumber records }
  .writeTable db.nextFileNumber records :: built.commitOps edit

/-- The operations of a step in their order.  Nobody reads the outputs of a compaction before it is
installed, so they are put here with the installation. -/
def diskOps (p : Params) (db : Db) : Step → List DiskOp
  | .switchMemTable => if db.imm.isSome then [] else [.createLog db.nextFileNumber]
  | .compactMemTable heap beyond rh =>
    match db.imm, db.compaction.any fun cs => cs.input.isEmpty with
    | some imm, false =>
      match Merkle.buildTable p.mac heap beyond imm with
      | .overrun => []
      | .noFile => db.flushOps p [] rh
      | .file image => db.flushOps p image.records rh
    | _, _ => []
  | .backgroundCompaction trigger rh =>
    if db.compaction.isSome ∨ db.imm.isSome then []
    else
      match db.pickCompaction p trigger with
      | none => []
      | some c =>
        match !trigger.isManual && c.isTrivialMove p.options, c.inputs0 with
        | true, f :: _ =>
          { db with compactPointer := applyCompactPointers c.edit db.compactPointer }.commitOps (moveEdit c f rh)
        | _, _ => []
  | .installCompaction rh =>
    match db.compaction with
    | none => []
    | some cs =>
      match cs.input with
      | _ :: _ => []
      | [] =>
        let cs := cs.finishCompactionOutputFile p.size
        cs.outputs.map (fun out => .writeTable out.number out.contents) ++
          { db with tables := withOutputs db.tables cs.outputs }.commitOps (resultsEdit cs rh)
  | _ => []

def Spares (db : Db) : DiskOp → Prop
  | .createLog _ => True
  | .writeTable number _ => ∀ l, ∀ f ∈ db.current.files l, f.number ≠ number
  | .appendManifest _ => False

end Db

namespace OnDisk

variable {db : Db} {disk disk' : Disk}

theorem apply (onDisk : OnDisk db disk) {op : DiskOp} (spares : db.Spares op) : OnDisk db (disk.apply op) := by
  cases op with
  | createLog n => exact ⟨onDisk.manifest, onDisk.tables⟩
  | writeTable n records =>
    refine ⟨onDisk.manifest, fun l f isFile => ?_⟩
    exact (update_of_ne (spares l f isFile) _ _).trans (onDisk.tables l f isFile)
  | appendManifest r => exact spares.elim

variable {ops : List DiskOp} (onDisk : OnDisk db disk) (spare : ∀ op ∈ ops, db.Spares op)

include onDisk spare

theorem crash (crash : disk.Crashes ops disk') : OnDisk db disk' := by
  induction crash with
  | stop => exact onDisk
  | torn disk n records wr ops =>
    have spares : db.Spares (.writeTable n records) := spare _ mem_cons_self
    exact @OnDisk.apply _ _ onDisk (.writeTable n wr) spares
  | done rest ih =>
    obtain ⟨spares, others⟩ := forall_mem_cons.mp spare
    exact ih (onDisk.apply spares) others

/-- Either the record is not there yet, or everything before it is. -/
theorem crash_commit {db₁ : Db} {edit : VersionEdit Bytes} (crash : disk.Crashes (ops ++ db₁.commitOps edit) disk') :
    OnDisk db disk' ∨ ∃ db₂, db₁.logAndApply edit = .ok db₂ ∧
      disk' = (ops.foldl Disk.apply disk).apply (.appendManifest (db₁.completeEdit edit)) := by
  rw [Db.commitOps] at crash
  cases applied : db₁.logAndApply edit with
  | error stop =>
    rw [applied, append_nil] at crash
    exact .inl (onDisk.crash spare crash)
  | ok db₂ =>
    rw [applied] at crash
    exact crash.of_append.imp (onDisk.crash spare) fun final => ⟨db₂, rfl, final⟩

end OnDisk

namespace Db

/-! ## Before or after -/

variable {db db' : Db}

theorem Inv.next_spared (inv : Inv db) (records : List Record) : db.Spares (.writeTable db.nextFileNumber records) :=
  fun l f isFile => (inv.numbers l f isFile).ne

variable {p : Params} {disk disk' : Disk} {rh : Digest}

/-- A flush stops before its record is there, or it has done all it does. -/
theorem Inv.crash_flush (inv : Inv db) (onDisk : OnDisk db disk) {imm records : List Record} (isImm : db.imm = some imm)
    (keys : records.map Prod.fst = imm.map Prod.fst) (crash : disk.Crashes (db.flushOps p records rh) disk') :
    OnDisk db disk' ∨ ∃ db', db.commitFlush p records rh = .ok db' ∧ OnDisk db' disk' := by
  rw [flushOps, ← singleton_append] at crash
  have spare : ∀ op ∈ [DiskOp.writeTable db.nextFileNumber records], db.Spares op := by
    intro op mem
    exact mem_singleton.mp mem ▸ inv.next_spared records
  obtain pre | ⟨db₂, applied, rfl⟩ := onDisk.crash_commit spare crash
  · exact .inl pre
  obtain ⟨db', run⟩ : ∃ db', db.commitFlush p records rh = .ok db' ∧ db' = { db₂ with imm := none } := by
    rw [commitFlush, applied]
    exact ⟨_, rfl, rfl⟩
  refine .inr ⟨db', run.1, ?_, fun l f isFile => ?_⟩
  · obtain ⟨v, _, isNext⟩ := logAndApply_ok applied
    rw [run.2, isNext]
    change disk.manifest ++ _ = db.manifest ++ _
    rw [onDisk.manifest]
  · have flushed := inv.commitFlush_flushed isImm keys run.1
    change update disk.tables db.nextFileNumber records f.number = _
    cases flushed.cases l f isFile with
    | inl old =>
      have below := inv.numbers l f old
      rw [flushed.table_old below, update_of_ne below.ne, onDisk.tables l f old]
    | inr new => rw [flushed.table_new new, new.number, update_self]

theorem Inv.crash_move (inv : Inv db) (onDisk : OnDisk db disk)
    {trigger : Trigger} (crash : disk.Crashes (db.diskOps p (.backgroundCompaction trigger rh)) disk') :
    OnDisk db disk' ∨ ∃ db', db.backgroundCompaction p trigger rh = .ok db' ∧ OnDisk db' disk' := by
  have nothing : disk.Crashes [] disk' → OnDisk db disk' := onDisk.crash (by simp)
  simp only [diskOps] at crash
  split at crash
  · exact .inl (nothing crash)
  case isFalse free =>
    split at crash
    · exact .inl (nothing crash)
    case h_2 c picks =>
      split at crash
      case h_1 f rest isMove inputs =>
        obtain pre | ⟨db', applied, rfl⟩ := onDisk.crash_commit (by simp)
          (show disk.Crashes ([] ++ _) disk' from crash)
        · exact .inl pre
        have run : db.backgroundCompaction p trigger rh = .ok db' := by
          simp only [backgroundCompaction, if_neg free, picks, isMove, inputs]
          exact applied
        have sameTables : db'.tables = db.tables ∧
            db'.manifest = db.manifest ++ [db.completeEdit (moveEdit c f rh)] := by
          obtain ⟨_, _, rfl⟩ := logAndApply_ok applied
          exact ⟨rfl, rfl⟩
        refine .inr ⟨db', run, ?_, fun l g isFile => ?_⟩
        · rw [sameTables.2, ← onDisk.manifest]
          rfl
        obtain ⟨l', old, isOld, eqNum⟩ : ∃ l', ∃ old ∈ db.current.files l', old.number = g.number := by
          cases @Inv.effect p db db' inv (.backgroundCompaction trigger rh) run with
          | moved picks' isInput comp =>
            obtain ⟨old, _⟩ | ⟨_, rfl⟩ := (comp.files l g).mp isFile
            · exact ⟨l, g, old, rfl⟩
            · have chosen := comp.underway.chosen.sublist0.subset isInput
              exact ⟨_, _, comp.underway.live _ _ chosen, rfl⟩
          | started => exact ⟨l, g, isFile, rfl⟩
        rw [sameTables.1, ← eqNum]
        exact onDisk.tables l' old isOld
      · exact .inl (nothing crash)

theorem withOutputs_congr {ts ts' : Nat → List Record} {outs : List (Output Bytes)} {n : Nat}
    (agree : ts n = ts' n ∨ ∃ out ∈ outs, out.number = n) :
    withOutputs ts outs n = withOutputs ts' outs n := by
  induction outs generalizing ts ts' with
  | nil => simpa [withOutputs] using agree
  | cons out rest ih =>
    apply ih
    beta_reduce
    by_cases here : n = out.number
    · exact .inl (by rw [here, update_self, update_self])
    rw [update_of_ne here, update_of_ne here]
    refine agree.imp id ?_
    rintro ⟨other, mem, num⟩
    cases mem_cons.mp mem with
    | inl isFirst => exact absurd (isFirst ▸ num).symm here
    | inr inR => exact ⟨other, inR, num⟩

theorem foldl_writeTable (disk : Disk) (outs : List (Output Bytes)) :
    (outs.map fun out => DiskOp.writeTable out.number out.contents).foldl Disk.apply disk =
      { disk with tables := withOutputs disk.tables outs } := by
  induction outs generalizing disk with
  | nil => rfl
  | cons out rest ih => exact ih _

theorem Inv.crash_install (inv : Inv db) (onDisk : OnDisk db disk)
    {rh : Nat → Digest} (crash : disk.Crashes (db.diskOps p (.installCompaction rh)) disk') :
    OnDisk db disk' ∨ ∃ db', db.installCompaction p rh = .ok db' ∧ OnDisk db' disk' := by
  have nothing : disk.Crashes [] disk' → OnDisk db disk' := onDisk.crash (by simp)
  simp only [diskOps] at crash
  cases isRunning : db.compaction with
  | none =>
    rw [isRunning] at crash
    exact .inl (nothing crash)
  | some cs =>
    simp only [isRunning] at crash
    split at crash
    · exact .inl (nothing crash)
    case h_2 done =>
      have ok := Running.outputsOk (inv.running cs isRunning) done p.size
      have spare : ∀ op ∈ (cs.finishCompactionOutputFile p.size).outputs.map
          (fun out => DiskOp.writeTable out.number out.contents), db.Spares op := by
        intro op mem
        obtain ⟨out, isOutput, rfl⟩ := mem_map.mp mem
        exact fun l f isFile => (ok.fresh out isOutput).2 l f isFile
      obtain pre | ⟨db₂, applied, rfl⟩ := onDisk.crash_commit spare crash
      · exact .inl pre
      obtain ⟨db', run, sameVersion⟩ : ∃ db', db.installCompaction p rh = .ok db' ∧
          db' = { db₂ with compaction := none } := by
        simp only [installCompaction, isRunning, done, applied]
        exact ⟨_, rfl, rfl⟩
      obtain ⟨_, comp⟩ := inv.install_compacted isRunning run
      obtain ⟨v, _, isNext⟩ := logAndApply_ok applied
      have ts : db'.tables = withOutputs db.tables (cs.finishCompactionOutputFile p.size).outputs := by
        rw [sameVersion, isNext]
      have manifest : db'.manifest = db.manifest ++
          [db.completeEdit (resultsEdit (cs.finishCompactionOutputFile p.size) rh)] := by
        rw [sameVersion, isNext]
        rfl
      rw [foldl_writeTable]
      refine .inr ⟨db', run, ?_, fun l f isFile => ?_⟩
      · rw [manifest, ← onDisk.manifest]
        rfl
      rw [ts]
      apply withOutputs_congr
      obtain ⟨old, _⟩ | ⟨_, out, isOutput, rfl⟩ := (comp.files l f).mp isFile
      · exact .inl (onDisk.tables l f old)
      · exact .inr ⟨out, isOutput, rfl⟩

/-- The entries that are nowhere but in memory when the process stops.  A flush has saved its
memtable once its record is there. -/
def volatile (db : Db) (label : Step) (disk : Disk) : List Record :=
  match label with
  | .compactMemTable _ _ _ =>
    if disk.manifest.length = db.manifest.length then db.mem ++ db.imm.getD [] else db.mem
  | _ => db.mem ++ db.imm.getD []

/-- The database whose version is found on disk after a crash in a step. -/
structure Survives (p : Params) (db : Db) (label : Step) (disk : Disk) (db' : Db) : Prop where
  turn : db' = db ∨ db.step p label = .ok db'
  onDisk : OnDisk db' disk
  history : db'.history = db.history
  volatile : ∀ e, e ∈ db.volatile label disk ↔ e ∈ db'.mem ∨ e ∈ db'.imm.getD []

theorem Survives.before {lbl : Step} (onDisk : OnDisk db disk) : Survives p db lbl disk db := by
  refine ⟨.inl rfl, onDisk, rfl, fun e => ?_⟩
  cases lbl <;> simp [Db.volatile, onDisk.manifest]

theorem Inv.survives_flush (inv : Inv db) (onDisk : OnDisk db disk) {heap : Nat → Digest} {beyond : Nat → Nat → UInt8}
    (crash : disk.Crashes (db.diskOps p (.compactMemTable heap beyond rh)) disk') :
    ∃ db', Survives p db (.compactMemTable heap beyond rh) disk' db' := by
  have nothing : disk.Crashes [] disk' → ∃ db', Survives p db (.compactMemTable heap beyond rh) disk' db' :=
    fun crash => ⟨db, .before (onDisk.crash (by simp) crash)⟩
  have through : ∀ {imm records : List Record}, db.imm = some imm → records.map Prod.fst = imm.map Prod.fst →
      (∀ db', db.commitFlush p records rh = .ok db' → db.compactMemTable p heap beyond rh = .ok db') →
      disk.Crashes (db.flushOps p records rh) disk' →
      ∃ db', Survives p db (.compactMemTable heap beyond rh) disk' db' := by
    intro imm records isImm keys goes crash
    obtain pre | ⟨db', run, after⟩ := inv.crash_flush onDisk isImm keys crash
    · exact ⟨db, .before pre⟩
    have flushed := inv.commitFlush_flushed isImm keys run
    have longer := congrArg length (flush_listed inv.filed run).manifest
    obtain ⟨_, _, _, eq⟩ := flushed.others
    refine ⟨db', .inr (goes db' run), after, by rw [eq], fun e => ?_⟩
    rw [← after.manifest, length_append, length_singleton] at longer
    rw [Db.volatile, if_neg (by omega), eq]
    simp
  simp only [diskOps] at crash
  split at crash
  case h_1 imm isImm isMem =>
    split at crash
    · exact nothing crash
    case h_2 built =>
      refine through isImm (by rw [Merkle.buildTable_noFile built]) (fun db' run => ?_) crash
      simp only [compactMemTable, isImm, isMem, built, run]
    case h_3 image built =>
      refine through isImm (Merkle.buildTable_keys built) (fun db' run => ?_) crash
      simp only [compactMemTable, isImm, isMem, built, run]
  · exact nothing crash

theorem Inv.survives (inv : Inv db) (onDisk : OnDisk db disk)
    {lbl : Step} (crash : disk.Crashes (db.diskOps p lbl) disk') : ∃ db', Survives p db lbl disk' db' := by
  cases lbl with
  | compactMemTable heap beyond rh => exact inv.survives_flush onDisk crash
  | backgroundCompaction trigger rh =>
    obtain pre | ⟨db', run, after⟩ := inv.crash_move onDisk crash
    · exact ⟨db, .before pre⟩
    refine ⟨db', ?_⟩
    cases @Inv.effect p db db' inv (.backgroundCompaction trigger rh) run with
    | moved _ _ comp =>
      exact ⟨.inr run, after, comp.history, by simp [Db.volatile, comp.mem, comp.imm]⟩
    | started => exact ⟨.inr run, after, rfl, fun e => mem_append⟩
  | installCompaction rh =>
    obtain pre | ⟨db', run, after⟩ := inv.crash_install onDisk crash
    · exact ⟨db, .before pre⟩
    refine ⟨db', ?_⟩
    cases @Inv.effect p db db' inv (.installCompaction rh) run with
    | installCompaction _ comp =>
      exact ⟨.inr run, after, comp.history, by simp [Db.volatile, comp.mem, comp.imm]⟩
  | switchMemTable =>
    refine ⟨db, .before (onDisk.crash (fun op member => ?_) crash)⟩
    simp only [diskOps] at member
    split at member
    · simp at member
    · exact mem_singleton.mp member ▸ trivial
  | write | getSnapshot | releaseSnapshot | chargeSeek | compactionIteration =>
    exact ⟨db, .before (onDisk.crash (by simp [diskOps]) crash)⟩

/-! ## What recovery finds -/

/-- An operation is in memory, or the MANIFEST knows a sequence number as large as its own. -/
def Durable (db : Db) : Prop :=
  ∀ h ∈ db.history, h.1 ≤ db.recordedSequence ∨ h.2.entry h.1 ∈ db.mem ∨ h.2.entry h.1 ∈ db.imm.getD []

theorem init_durable : Durable init := by
  simp [Durable, init]

theorem Listed.recordedSequence {edit : VersionEdit Bytes} (listed : Listed db db' edit) :
    db'.recordedSequence = db'.lastSequence := by
  simp [Db.recordedSequence, listed.manifest]

theorem Durable.step (inv : Inv db) (logged : Logged db) (durable : Durable db)
    {lbl : Step} (run : Db.step p db lbl = .ok db') : Durable db' := by
  have logged' := logged.step inv run
  cases inv.filed.commits run with
  | inr commits =>
    obtain ⟨edit, listed⟩ := commits
    exact fun h inH => .inl (listed.recordedSequence ▸ logged'.old h inH)
  | inl quiet =>
    have sameRecord : db'.recordedSequence = db.recordedSequence := by
      rw [Db.recordedSequence, quiet.manifest, Db.recordedSequence]
    unfold Durable
    rw [sameRecord]
    cases inv.effect run with
    | write =>
      intro h inH
      cases mem_append.mp inH with
      | inl old =>
        refine (durable h old).imp id fun inMemory => ?_
        exact inMemory.imp (fun inMem => mem_insertInto.mpr (.inl inMem)) id
      | inr new => exact .inr (.inl (mem_insertInto.mpr (.inr ⟨h.1, h.2, new, rfl⟩)))
    | switchMemTable free =>
      intro h inH
      refine (durable h inH).imp id fun inMemory => .inr ?_
      simpa [free] using inMemory
    | compactMemTable flushed =>
      obtain ⟨imm, records, _, isImm, keys, _, commits⟩ := compactMemTable_commits run
      have longer := congrArg length (flush_listed inv.filed commits).manifest
      rw [quiet.manifest] at longer
      simp at longer
    | moved _ _ comp | installCompaction _ comp =>
      rw [comp.history, comp.mem, comp.imm]
      exact durable
    | getSnapshot | releaseSnapshot | chargeSeek | started | compactionIteration => exact durable

def MemoryEmpty (db : Db) : Prop := db.mem = [] ∧ db.imm.getD [] = []

theorem Durable.all_recorded (durable : Durable db) (empty : db.MemoryEmpty) :
    ∀ h ∈ db.history, h.1 ≤ db.recordedSequence := by
  intro h inH
  simpa [empty.1, empty.2] using durable h inH

variable {rh : Nat → Nat → Digest}

theorem Reopened.held (reopened : Reopened db db' rh) {e : Record} :
    db'.Held e ↔ ∃ l, ∃ f ∈ db.current.files l, e ∈ db.tables f.number := by
  rw [Held, reopened.mem, reopened.imm, reopened.current]
  constructor
  · rintro (none | none | ⟨l, f, isFile, inT⟩)
    · simp at none
    · simp at none
    · obtain ⟨g, isG, rfl⟩ := mem_map.mp isFile
      exact ⟨l, g, isG, reopened.tables l g isG ▸ inT⟩
  · rintro ⟨l, f, isFile, inT⟩
    exact .inr (.inr ⟨l, _, mem_map_of_mem isFile, (reopened.tables l f isFile).symm ▸ inT⟩)

theorem Recency.reopened (recency : Recency db) (reopened : Reopened db db' rh) : Recency db' := by
  refine ⟨⟨fun i j lt f isF g isG => ?_, fun f isF g isG lt => ?_⟩, by simp [reopened.compaction]⟩
  all_goals
    rw [reopened.current] at isF isG
    obtain ⟨f', inF, rfl⟩ := mem_map.mp isF
    obtain ⟨g', inG, rfl⟩ := mem_map.mp isG
    change NewerTable (db'.tables f'.number) (db'.tables g'.number)
    rw [reopened.tables _ f' inF, reopened.tables _ g' inG]
  · exact recency.recent.levels i j lt f' inF g' inG
  · exact recency.recent.zero f' inF g' inG lt

theorem Logged.reopened (logged : Logged db) (durable : Durable db) (empty : db.MemoryEmpty)
    (reopened : Reopened db db' rh) : Logged db' := by
  refine ⟨reopened.history ▸ logged.ordered, ?_, by simp [reopened.mem, reopened.imm], ?_⟩
  · rw [reopened.history, reopened.lastSequence]
    exact durable.all_recorded empty
  intro l f isFile e inT
  rw [reopened.history]
  obtain ⟨l', g, isG, inG⟩ := reopened.held.mp (.inr (.inr ⟨l, f, isFile, inT⟩))
  exact logged.tables l' g isG e inG

theorem Complete.reopened (complete : Complete db) (durable : Durable db)
    (empty : db.MemoryEmpty) (reopened : Reopened db db' rh) : Complete db' := by
  have recorded := durable.all_recorded empty
  have sameHeld : ∀ e, db'.Held e ↔ db.Held e := by
    intro e
    rw [reopened.held, Held, empty.1, empty.2]
    simp
  intro s readable h newest
  rw [reopened.history] at newest
  have atLast : db'.lastSequence ≤ s := by simpa [Readable, reopened.snapshots] using readable
  have later : IsNewest db.history (max s db.lastSequence) h := by
    refine ⟨newest.mem, newest.seen.trans (le_max_left _ _), fun h' inH eqKey _ => ?_⟩
    have small := recorded h' inH
    rw [← reopened.lastSequence] at small
    exact newest.newest h' inH eqKey (small.trans atLast)
  obtain ⟨e, held, isEntry⟩ | ⟨isDelete, hidden⟩ := complete (max s db.lastSequence) (.inr (le_max_right _ _)) h later
  · exact .inl ⟨e, (sameHeld e).mpr held, isEntry⟩
  · refine .inr ⟨isDelete, fun e held eqKey => ?_⟩
    exact (le_max_left _ _).trans_lt (hidden e ((sameHeld e).mp held) eqKey)

theorem Answerable.reopened (ready : Answerable db) (durable : Durable db) (empty : db.MemoryEmpty)
    (reopened : Reopened db db' rh) : Answerable db' where
  inv := ready.inv.reopened reopened
  recency := ready.recency.reopened reopened
  logged := ready.logged.reopened durable empty reopened
  complete := ready.complete.reopened durable empty reopened
  whole := by simp [reopened.compaction]

theorem Durable.reopened (durable : Durable db) (empty : db.MemoryEmpty) (reopened : Reopened db db' rh) :
    Durable db' := by
  obtain ⟨_, manifest⟩ := reopened.manifest
  intro h inH
  rw [reopened.history] at inH
  have recorded := durable.all_recorded empty h inH
  left
  rw [← reopened.lastSequence] at recorded
  simpa [recordedSequence, manifest] using recorded

/-- The operation is found, or it is a deletion and nothing else of its key is. -/
def Recovers (db : Db) (h : Nat × Op) : Prop :=
  (∃ e, db.Held e ∧ StoredEntry h e) ∨ ((∃ key, h.2 = .delete key) ∧ ∀ e, db.Held e → e.1.userKey ≠ h.2.key)

theorem Answerable.recovers (ready : Answerable db) (empty : db.MemoryEmpty) {h : Nat × Op}
    (newest : IsNewest db.history db.lastSequence h) : db.Recovers h := by
  have inTables : ∀ {e}, db.Held e → ∃ l, ∃ f ∈ db.current.files l, e ∈ db.tables f.number := by
    intro e held
    simpa [Held, empty.1, empty.2] using held
  obtain ⟨e, held, isEntry⟩ | ⟨isDelete, hidden⟩ := ready.complete db.lastSequence (.inr le_rfl) h newest
  · obtain ⟨l, f, isFile, inT⟩ := inTables held
    obtain ⟨h', inH, isStored⟩ := ready.logged.tables l f isFile e inT
    have sameSequence := congrArg InternalKey.sequence (isStored.key.symm.trans isEntry)
    rw [Op.entry_sequence, Op.entry_sequence] at sameSequence
    have eq := ready.logged.unique inH newest.mem sameSequence
    exact .inl ⟨e, held, eq ▸ isStored⟩
  · refine .inr ⟨isDelete, fun e held eqKey => ?_⟩
    obtain ⟨l, f, isFile, inT⟩ := inTables held
    exact absurd (ready.inv.tablesOld l f isFile e inT) (not_le.mpr (hidden e held eqKey))

/-- Steps that leave room and whole keys, and sessions that end with nothing in memory. -/
def Saves (p : Params) (db : Db) : SessionStep → Prop
  | .run label => db.HasRoom label ∧ WholePicks p db label
  | .reopen _ => db.MemoryEmpty

theorem saved_of_sessions (run : SessionReachable p (Saves p) db) : Recorded db ∧ Answerable db ∧ Durable db := by
  refine (run.keeps (fun db => Answerable db ∧ Durable db) ?_ ⟨init_answerable, init_durable⟩ ?_ ?_).2
  · intro db lbl adm
    cases lbl with
    | run lbl => exact adm.1
    | reopen rh => trivial
  · intro db db' lbl _ ⟨ready, durable⟩ adm taken
    exact ⟨ready.step adm.1 adm.2 taken, durable.step ready.inv ready.logged taken⟩
  · intro db db' rh _ ⟨ready, durable⟩ empty reopened
    exact ⟨ready.reopened durable empty reopened, durable.reopened empty reopened⟩

/-- After a crash in any step the database opens again.  If nothing was in memory only, the newest
operation of every key is found with its number; what was in memory only is lost. -/
theorem acknowledged_survive_crash (p : Params) (db : Db) (run : SessionReachable p (Saves p) db)
    (label : Step) (admitted : db.HasRoom label ∧ WholePicks p db label) (disk disk' : Disk)
    (onDisk : OnDisk db disk) (crash : disk.Crashes (db.diskOps p label) disk') (rh : Nat → Nat → Digest) :
    ∃ db', disk'.openDb db.history rh = some db' ∧ (db.volatile label disk' = [] →
        (∀ h ∈ db.history, h.1 ≤ db'.lastSequence) ∧
        ∀ h, IsNewest db.history db'.lastSequence h → db'.Recovers h) ∧
      ∀ e ∈ db.volatile label disk', ∀ e', db'.Held e' → e'.1.sequence ≠ e.1.sequence := by
  obtain ⟨recorded, ready, durable⟩ := saved_of_sessions run
  obtain ⟨left, survives⟩ := ready.inv.survives onDisk crash
  obtain ⟨recorded', ready', durable'⟩ : Recorded left ∧ Answerable left ∧ Durable left := by
    cases survives.turn with
    | inl same => exact same ▸ ⟨recorded, ready, durable⟩
    | inr taken => exact ⟨recorded.step ready.inv admitted.1 taken, ready.step admitted.1 admitted.2 taken,
        durable.step ready.inv ready.logged taken⟩
  obtain ⟨db', opens, reopened⟩ := ready'.inv.openDb_reopened recorded' survives.onDisk rh
  rw [survives.history] at opens
  refine ⟨db', opens, fun nothing => ?_, fun e lost e' held => ?_⟩
  · have empty : left.MemoryEmpty := by
      have none := survives.volatile
      rw [nothing] at none
      simp only [not_mem_nil, false_iff, not_or] at none
      exact ⟨eq_nil_iff_forall_not_mem.mpr fun e => (none e).1, eq_nil_iff_forall_not_mem.mpr fun e => (none e).2⟩
    have opened := ready'.reopened durable' empty reopened
    have sameHistory := reopened.history.trans survives.history
    refine ⟨sameHistory ▸ opened.logged.old, fun h newest => ?_⟩
    exact opened.recovers ⟨reopened.mem, by rw [reopened.imm]; rfl⟩ (sameHistory ▸ newest)
  · obtain ⟨l, f, isFile, inTable⟩ := reopened.held.mp held
    cases (survives.volatile e).mp lost with
    | inl inMem => exact ((ready'.inv.memNewer e inMem).2 l f isFile e' inTable).ne
    | inr inImm => exact (ready'.inv.immNewer e inImm l f isFile e' inTable).ne

instance (db : Db) : Decidable db.MemoryEmpty := inferInstanceAs (Decidable (_ ∧ _))

/-- A key is written, becomes a table and is deleted, and the deletion becomes a table too. -/
theorem acknowledged_survive_crash_flushed : ∃ db db',
    compute sampleParams (fun db label => db.HasRoom label ∧ WholePicks sampleParams db label) init
      (sampleFlush (.put [97] [1]) ++ sampleFlush (.delete [97])) = some db ∧
    db.history = [(1, .put [97] [1]), (2, .delete [97])] ∧
    db.disk.Crashes (db.diskOps sampleParams (.write [])) db.disk ∧
    db.disk.openDb db.history (fun _ _ => zeroDigest) = some db' ∧
    2 ≤ db'.lastSequence ∧ db'.Recovers (2, .delete [97]) := by
  obtain ⟨db, run, empty, history, room⟩ : ∃ db ∈ compute sampleParams
      (fun db label => db.HasRoom label ∧ WholePicks sampleParams db label) init
      (sampleFlush (.put [97] [1]) ++ sampleFlush (.delete [97])),
      db.MemoryEmpty ∧ db.history = [(1, .put [97] [1]), (2, .delete [97])] ∧ db.HasRoom (.write []) := by
        decide +kernel
  have reached := reachable_of_compute rfl wholePicks_zeroed .refl run
  obtain ⟨db', opens, saved, _⟩ := acknowledged_survive_crash sampleParams db
    (.of_reachable (fun _ _ both => both) reached) (.write []) ⟨room, trivial⟩ db.disk db.disk (onDisk_disk db)
    (.stop _ _) fun _ _ => zeroDigest
  obtain ⟨known, found⟩ := saved (by simp [volatile, empty.1, empty.2])
  have last : 2 ≤ db'.lastSequence := known (2, .delete [97]) (by simp [history])
  refine ⟨db, db', run, history, .stop _ _, opens, last, found _ ⟨by simp [history], last, ?_⟩⟩
  simp [history]

/-- A `Put` that returned is gone when the process stops before the next flush. -/
theorem acknowledged_put_lost : ∃ db db',
    compute sampleParams (fun db label => db.HasRoom label ∧ WholePicks sampleParams db label) init
      [.write [.put [97] [1]]] = some db ∧
    Reachable sampleParams (fun db label => db.HasRoom label ∧ WholePicks sampleParams db label) db ∧
    db.history = [(1, .put [97] [1])] ∧ db.get [97] none = .ok [1] ∧
    db.disk.Crashes (db.diskOps sampleParams .switchMemTable) db.disk ∧
    db.disk.openDb db.history (fun _ _ => zeroDigest) = some db' ∧
    db'.lastSequence = 0 ∧ db'.get [97] none = .notFound := by
  obtain ⟨db, run, history, found, db', opens, after⟩ : ∃ db ∈ compute sampleParams
      (fun db label => db.HasRoom label ∧ WholePicks sampleParams db label) init [.write [.put [97] [1]]],
      db.history = [(1, .put [97] [1])] ∧ db.get [97] none = .ok [1] ∧
        ∃ db' ∈ db.disk.openDb db.history fun _ _ => zeroDigest,
          db'.lastSequence = 0 ∧ db'.get [97] none = .notFound := by decide +kernel
  exact ⟨db, db', run, reachable_of_compute rfl wholePicks_zeroed .refl run, history, found, .stop _ _, opens, after⟩

end Db

end Elsm
