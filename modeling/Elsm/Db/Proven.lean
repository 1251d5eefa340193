import Elsm.Db.Computed
import Elsm.Db.Reopen
import Elsm.Merkle.Verify

/-!
# Root hashes

A record of a table folds to the root it was stored under.  `BuildTable` leaves that root in its
own `FileMetaData`, but nothing carries it into a version: `AddFile` does not take it, the
MANIFEST does not hold it, and `DecodeFrom` cannot restore it.  What a version holds as `rh`
is what memory held.  `RootsCarried` says when that happens to be the root; a merging
compaction has to keep whole tables besides, since it copies the proofs with the values.
-/

namespace Elsm

open List
open Merkle (Digest Record recordRoot merkleRoot zeroDigest zeroMac FILE_RECORDS VSIZE)

namespace Db

/-- Every record of every table folds to the root hash of its file. -/
def Proven (p : Params) (db : Db) : Prop :=
  ∀ l, ∀ f ∈ db.current.files l, ∀ i e, (db.tables f.number)[i]? = some e → recordRoot p.mac i e = f.rh

/-- The bytes a step finds in memory are the roots of the files it describes.  A memtable fits the
tree and has values of the one size, and the outputs of a compaction are copies of inputs. -/
def RootsFound (p : Params) (db : Db) : Step → Prop
  | .compactMemTable heap _ rh =>
    ∀ imm ∈ db.imm, imm ≠ [] → imm.length ≤ FILE_RECORDS ∧ (∀ r ∈ imm, r.2.length = VSIZE) ∧
      rh = merkleRoot p.mac heap imm
  | .backgroundCompaction trigger rh =>
    ∀ c ∈ db.pickCompaction p trigger, trigger.isManual = false → c.isTrivialMove p.options = true →
      ∀ f ∈ c.inputs0, rh = f.rh
  | .installCompaction rh =>
    ∀ cs ∈ db.compaction, ∀ out ∈ cs.allOutputs, ∃ f ∈ cs.compaction.inputs0 ++ cs.compaction.inputs1,
      out.contents = db.tables f.number ∧ rh out.number = f.rh
  | _ => True

def RootsCarried (p : Params) (db : Db) : SessionStep → Prop
  | .run label => db.HasRoom label ∧ RootsFound p db label
  | .reopen rh => ∀ l, ∀ f ∈ db.current.files l, rh l f.number = f.rh

variable {p : Params} {db db' : Db}

theorem Proven.congr (proven : Proven p db)
    (files : db'.current.files = db.current.files) (ts : db'.tables = db.tables) : Proven p db' := by
  rw [Proven, files, ts]
  exact proven

variable {rh : Digest}

theorem flushEdit_rh {records : List Record} {l : Nat}
    {f : FileMetaData Bytes} (new : (l, f) ∈ (db.flushEdit p records rh).newFiles) : f.rh = rh := by
  rw [flushEdit] at new
  split at new
  · simp only [VersionEdit.addFile, VersionEdit.empty, nil_append, mem_singleton, Prod.mk.injEq] at new
    rw [new.2]
  · simp [VersionEdit.empty] at new

theorem Proven.commitFlush (inv : Inv db) (proven : Proven p db) {imm records : List Record} (isImm : db.imm = some imm)
    (keys : records.map Prod.fst = imm.map Prod.fst) (run : db.commitFlush p records rh = .ok db')
    (root : ∀ i e, records[i]? = some e → recordRoot p.mac i e = rh) : Proven p db' := by
  have flushed := inv.commitFlush_flushed isImm keys run
  obtain ⟨_, _, _, eq⟩ := flushed.others
  have ts : db'.tables = Function.update db.tables db.nextFileNumber records := by rw [eq]
  intro l f isFile i e at_i
  cases ((flush_listed inv.filed run).mem_iff inv.filed).mp isFile with
  | inl old =>
    rw [flushed.table_old (inv.numbers l f old.1)] at at_i
    exact proven l f old.1 i e at_i
  | inr new =>
    rw [ts, (flushEdit_new new).1.number, Function.update_self] at at_i
    rw [flushEdit_rh new]
    exact root i e at_i

theorem Proven.compactMemTable (inv : Inv db) (proven : Proven p db)
    {heap : Nat → Digest} {beyond : Nat → Nat → UInt8} (found : RootsFound p db (.compactMemTable heap beyond rh))
    (run : db.compactMemTable p heap beyond rh = .ok db') : Proven p db' := by
  obtain ⟨imm, isImm, ⟨rfl, commits⟩ | ⟨image, built, commits⟩⟩ := compactMemTable_built run
  · exact proven.commitFlush inv isImm rfl commits (by simp)
  obtain ⟨room, values, isRoot⟩ := found imm isImm (Merkle.buildTable_file built).1
  refine proven.commitFlush inv isImm (Merkle.buildTable_keys built) commits fun i e at_i => ?_
  rw [isRoot]
  exact Merkle.buildTable_recordRoot built room values at_i

theorem Proven.backgroundCompaction (inv : Inv db) (proven : Proven p db)
    {trigger : Trigger} (found : RootsFound p db (.backgroundCompaction trigger rh))
    (run : db.backgroundCompaction p trigger rh = .ok db') : Proven p db' := by
  obtain ⟨_, _, c, picks, ends⟩ := backgroundCompaction_ok run
  obtain ⟨f, rest, automatic, isMove, inputs, applied⟩ | started := ends
  · have isInput : f ∈ c.inputs0 := inputs ▸ mem_cons_self
    have pointed := inv.compactPointer (applyCompactPointers c.edit db.compactPointer)
    have underway := pointed.underway ((inv.picked picks).compactPointer _)
    have listed := move_listed pointed.filed underway.takes isInput applied
    obtain ⟨_, new, _⟩ := moveEdit_parts underway.edit f rh
    have isFile := underway.live _ f (underway.chosen.sublist0.subset isInput)
    have ts : db'.tables = db.tables := by
      obtain ⟨_, _, rfl⟩ := logAndApply_ok applied
      rfl
    intro l g isG i e at_i
    rw [ts] at at_i
    cases (listed.mem_iff pointed.filed).mp isG with
    | inl old => exact proven l g old.1 i e at_i
    | inr isNew =>
      rw [new, mem_singleton, Prod.mk.injEq] at isNew
      obtain ⟨rfl, rfl⟩ := isNew
      exact (proven c.level f isFile i e at_i).trans (found c picks automatic isMove f isInput).symm
  · rw [started]
    exact proven.congr rfl rfl

theorem Proven.installCompaction (inv : Inv db) (proven : Proven p db)
    {rh : Nat → Digest} (found : RootsFound p db (.installCompaction rh))
    (run : db.installCompaction p rh = .ok db') : Proven p db' := by
  cases isRunning : db.compaction with
  | none => simp [Db.installCompaction, isRunning] at run
  | some cs =>
    obtain ⟨done, comp⟩ := inv.install_compacted isRunning run
    have ok := Running.outputsOk (inv.running cs isRunning) done p.size
    have ts : db'.tables = withOutputs db.tables (cs.finishCompactionOutputFile p.size).outputs := by
      simp only [Db.installCompaction, isRunning, done] at run
      split at run
      · cases run
      case h_2 applied =>
        cases run
        obtain ⟨_, _, rfl⟩ := logAndApply_ok applied
        rfl
    intro l f isFile i e at_i
    obtain ⟨old, kept⟩ | ⟨_, out, isOutput, rfl⟩ := (comp.files l f).mp isFile
    · rw [comp.tables l f old kept] at at_i
      exact proven l f old i e at_i
    obtain ⟨pre, isBefore, eqNum, sameContents⟩ := CompactionState.finish_outputs isOutput
    obtain ⟨g, isInput, copied, isRh⟩ := found cs isRunning pre isBefore
    obtain ⟨l', inVersion⟩ := inputs_mem (inv.running cs isRunning).chosen (mem_append.mp isInput)
    have isLive := (inv.running cs isRunning).live l' g inVersion
    change (db'.tables out.number)[i]? = some e at at_i
    rw [ts, withOutputs_of_mem ok.numbers isOutput, ← sameContents, copied] at at_i
    have root := proven l' g isLive i e at_i
    rw [eqNum] at isRh
    exact root.trans isRh.symm

theorem Proven.step (inv : Inv db) (proven : Proven p db) {lbl : Step}
    (found : RootsFound p db lbl) (run : Db.step p db lbl = .ok db') : Proven p db' := by
  cases inv.effect run with
  | write | switchMemTable | getSnapshot | releaseSnapshot | chargeSeek | started | compactionIteration =>
    exact proven.congr rfl rfl
  | compactMemTable => exact proven.compactMemTable inv found run
  | moved => exact proven.backgroundCompaction inv found run
  | installCompaction => exact proven.installCompaction inv found run

theorem Proven.reopened (proven : Proven p db) {rh : Nat → Nat → Digest}
    (reopened : Reopened db db' rh) (found : ∀ l, ∀ f ∈ db.current.files l, rh l f.number = f.rh) :
    Proven p db' := by
  intro l f isFile i e at_i
  rw [reopened.current] at isFile
  obtain ⟨g, isG, rfl⟩ := mem_map.mp isFile
  change (db'.tables g.number)[i]? = some e at at_i
  rw [reopened.tables l g isG] at at_i
  exact (proven l g isG i e at_i).trans (found l g isG).symm

/-- Over any number of sessions in which memory happens to hold the right bytes, every record of
every table folds to the root hash of its file. -/
theorem records_fold_to_rh (p : Params) (db : Db) (run : SessionReachable p (RootsCarried p) db) :
    ∀ l, ∀ f ∈ db.current.files l, ∀ i e, (db.tables f.number)[i]? = some e → recordRoot p.mac i e = f.rh := by
  have all := SessionReachable.keeps (Proven p) (fun db label carried => by cases label with
      | run label => exact carried.1
      | reopen rh => trivial)
    (by simp [Proven, init, Version.empty])
    (fun inv proven carried taken => proven.step inv carried.2 taken)
    (fun _ proven carried reopened => proven.reopened reopened carried) run
  exact all.2.2

instance (p : Params) (db : Db) (label : Step) : Decidable (RootsFound p db label) := by
  induction label using Step.casesOn <;> simp only [RootsFound] <;> infer_instance

theorem rootsFound_zeroed (zero : p.mac = zeroMac) (db : Db) (lbl : Step)
    (both : db.HasRoom lbl ∧ RootsFound p db lbl) :
    db.HasRoom lbl.zeroed ∧ RootsFound p db lbl.zeroed := by
  refine ⟨hasRoom_zeroed db lbl both.1, ?_⟩
  cases lbl with
  | compactMemTable heap beyond rh =>
    intro imm isImm ne
    obtain ⟨room, values, root⟩ := both.2 imm isImm ne
    have constant : ∀ heap, merkleRoot p.mac heap imm = zeroDigest := by
      rw [zero]
      exact fun heap => Merkle.merkleRoot_const zeroDigest heap imm
    exact ⟨room, values, (root.trans (constant heap)).trans (constant _).symm⟩
  | _ => exact both.2

def sampleRecord : Op := .put (replicate 8 107) (replicate 112 118)

def allFiles (db : Db) : List (Nat × FileMetaData Bytes) :=
  (range kNumLevels).flatMap fun l => (db.current.files l).map fun f => (l, f)

theorem Inv.mem_allFiles (inv : Inv db) {l : Nat} {f : FileMetaData Bytes} (mem : f ∈ db.current.files l) :
    (l, f) ∈ db.allFiles := by
  simp only [allFiles, mem_flatMap, mem_range, mem_map, Prod.mk.injEq]
  exact ⟨l, inv.stored.level_lt mem, f, mem, rfl, rfl⟩

/-- One record, flushed with the right bytes in memory, and the database opened again likewise. -/
theorem records_fold_to_rh_reopened : ∃ db, SessionReachable sampleParams (RootsCarried sampleParams) db ∧
    ∃ f ∈ db.current.files 2, ∃ e, (db.tables f.number)[0]? = some e ∧ recordRoot sampleParams.mac 0 e = f.rh := by
  obtain ⟨before, run, roots, ⟨f, isFile, number⟩, one⟩ : ∃ db ∈ compute sampleParams
      (fun db label => db.HasRoom label ∧ RootsFound sampleParams db label) init (sampleFlush sampleRecord),
      (∀ entry ∈ db.allFiles, zeroDigest = entry.2.rh) ∧ (∃ f ∈ db.current.files 2, f.number = 5) ∧
        (db.tables 5).length = 1 := by decide +kernel
  have reached : SessionReachable sampleParams (RootsCarried sampleParams) before :=
    SessionReachable.of_reachable (fun _ _ both => both) (reachable_of_compute rfl (rootsFound_zeroed rfl) .refl run)
  obtain ⟨inv, recorded, _⟩ := SessionReachable.keeps (fun _ => True) (fun db label carried => by cases label with
      | run label => exact carried.1
      | reopen rh => trivial) trivial (fun _ _ _ _ => trivial) (fun _ _ _ _ => trivial) reached
  have zero : ∀ l, ∀ f ∈ before.current.files l, zeroDigest = f.rh :=
    fun l f isFile => roots (l, f) (inv.mem_allFiles isFile)
  obtain ⟨db, opens, reopened⟩ := inv.openDb_reopened recorded (onDisk_disk before) fun _ _ => zeroDigest
  have reached' : SessionReachable sampleParams (RootsCarried sampleParams) db :=
    @Transition.Reaches.tail _ _ _ _ _ _ _ (.reopen fun _ _ => zeroDigest) reached zero opens
  have isCurrent : f.relabel (fun _ _ => zeroDigest) 2 ∈ db.current.files 2 := by
    rw [reopened.current]
    exact mem_map_of_mem isFile
  obtain ⟨e, isFirst⟩ : ∃ e, (db.tables (f.relabel (fun _ _ => zeroDigest) 2).number)[0]? = some e := by
    change ∃ e, (db.tables f.number)[0]? = some e
    rw [reopened.tables 2 f isFile, number]
    exact ⟨_, getElem?_eq_getElem (by rw [one]; exact Nat.one_pos)⟩
  exact ⟨db, reached', _, isCurrent, e, isFirst, records_fold_to_rh sampleParams db reached' 2 _ isCurrent 0 e isFirst⟩

theorem length_ones : (replicate 16 (1 : UInt8)).length = 16 := rfl

def onesDigest : Digest := ⟨replicate 16 1, length_ones⟩

/-- The same flush with other bytes in memory: the record does not fold to the root hash of its
file. -/
theorem flush_leaves_wrong_rh : ∃ db, SessionReachable sampleParams SessionRoom db ∧
    ∃ f ∈ db.current.files 2, ∃ e, (db.tables f.number)[0]? = some e ∧ recordRoot sampleParams.mac 0 e ≠ f.rh := by
  obtain ⟨db, run, ⟨f, isFile, isEntry⟩, one⟩ : ∃ db ∈ compute sampleParams HasRoom init [.write [sampleRecord],
      .switchMemTable, .compactMemTable (fun _ => zeroDigest) (fun _ _ => 0) onesDigest],
      (∃ f ∈ db.current.files 2, f.number = 5 ∧ f.rh = onesDigest) ∧ (db.tables 5).length = 1 := by decide +kernel
  have reached : SessionReachable sampleParams SessionRoom db := SessionReachable.of_reachable (fun _ _ room => room)
      (reachable_of_compute rfl hasRoom_zeroed .refl run)
  obtain ⟨e, isFirst⟩ : ∃ e, (db.tables f.number)[0]? = some e := by
    rw [isEntry.1]
    exact ⟨_, getElem?_eq_getElem (by rw [one]; exact Nat.one_pos)⟩
  refine ⟨db, reached, f, isFile, e, isFirst, ?_⟩
  rw [isEntry.2]
  change recordRoot (fun _ => zeroDigest) _ _ ≠ _
  rw [Merkle.recordRoot_const]
  decide

end Db

end Elsm
