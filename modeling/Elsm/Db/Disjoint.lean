import Elsm.Db.Compacting
import Elsm.Db.Computed

/-!
# Levels stay sorted and disjoint

`VersionSet::Builder::MaybeAddFile` checks each file it adds against the one before it, and
the process ends when they overlap.  A flush made by `DoCompactionWork` chooses its level in
the version that still lists the compaction's inputs, so it may put a file between two of
them at the very level the outputs go to.  As long as no flush does so, the check never
fails.
-/

namespace Elsm

open List
open Merkle (Digest Mac Record zeroDigest)

def Compaction.Outside (c : Compaction Bytes) (smallest largest : InternalKey Bytes) : Prop :=
  (∀ f ∈ c.inputs0 ++ c.inputs1, largest < f.smallest) ∨ ∀ f ∈ c.inputs0 ++ c.inputs1, f.largest < smallest

def FileMetaData.Apart (f g : FileMetaData Bytes) : Prop := f.largest < g.smallest ∨ g.largest < f.smallest

theorem UserApart.apart {f g : FileMetaData Bytes} (apart : UserApart f g) : f.Apart g :=
  apart.imp InternalKey.lt_of_userKey_lt InternalKey.lt_of_userKey_lt

variable {c : Compaction Bytes}

theorem Compaction.SameInputs.outside {d : Compaction Bytes} (eq : c.SameInputs d)
    {smallest largest : InternalKey Bytes} (out : c.Outside smallest largest) :
    d.Outside smallest largest := by
  simpa only [Compaction.Outside, eq.inputs0, eq.inputs1] using out

theorem Compaction.Chosen.outside_of_not_input (chosen : c.Chosen)
    {g : FileMetaData Bytes} (isFile : g ∈ c.inputVersion.files (c.level + 1)) (left : g ∉ c.inputs1) :
    c.Outside g.smallest g.largest := by
  obtain ⟨first, snd⟩ | ⟨first, snd⟩ := chosen.outside g isFile left
  · refine .inl fun f isInput => ?_
    cases mem_append.mp isInput with
    | inl inFirst => exact InternalKey.lt_of_userKey_lt (first f inFirst)
    | inr inSecond => exact snd f inSecond
  · refine .inr fun f isInput => ?_
    cases mem_append.mp isInput with
    | inl inFirst => exact InternalKey.lt_of_userKey_lt (first f inFirst)
    | inr inSecond => exact snd f inSecond

/-- The checks of `SaveTo` pass when every new file is apart from the other new files and from
the old ones that stay. -/
theorem Stored.applyEdit_isSome {v : Version Bytes} {ts ts' : Nat → List Record}
    {edit : VersionEdit Bytes} (stored : Stored v ts) (ok : EditOk v ts ts' edit)
    (apartOld : ∀ l f g, 0 < l → (l, f) ∈ edit.newFiles → g ∈ v.files l → ¬ edit.Deletes l g.number → f.Apart g)
    (apartNew : ∀ l f g, 0 < l → (l, f) ∈ edit.newFiles → (l, g) ∈ edit.newFiles → f ≠ g → f.Apart g) :
    ∃ after, v.applyEdit edit = some after := by
  refine Elsm.applyEdit_isSome ok.distinct stored.inOrder ok.fresh ?_ ?_
  · intro l f source
    cases source with
    | inl old => exact (stored.table l f old).bounded
    | inr new => exact (ok.table l f new).2.bounded
  · intro l f g pos fromF keptF fromG keptG ne
    cases fromF with
    | inl oldF =>
      cases fromG with
      | inl oldG =>
        obtain eq | apart := SortedList.rel_or_rel (stored.disjoint l pos) oldF oldG
        · exact absurd eq ne
        · exact apart
      | inr newG => exact (apartOld l g f pos newG oldF keptF).symm
    | inr newF =>
      cases fromG with
      | inl oldG => exact apartOld l f g pos newF oldG keptG
      | inr newG => exact apartNew l f g pos newF newG ne

namespace Db

theorem logAndApply_isOk {db : Db} {edit : VersionEdit Bytes}
    (logs : ∀ n ∈ edit.logNumber, db.logNumber ≤ n ∧ n < db.nextFileNumber)
    (saves : ∃ v, db.current.applyEdit edit = some v) :
    ∃ db', db.logAndApply edit = .ok db' := by
  obtain ⟨v, saved⟩ := saves
  rw [logAndApply, if_neg, saved]
  · exact ⟨_, rfl⟩
  intro wrong
  obtain ⟨n, isLog, outOfRange⟩ := (Option.any_eq_true _ _).mp wrong
  have inRange := logs n isLog
  simp only [decide_eq_true_eq] at outOfRange
  omega

/-! ## The range of the outputs is guarded -/

/-- A flush during a compaction that lands at the level the compaction writes to stays outside
the key range of its inputs. -/
def FlushesOutside (p : Params) (db : Db) : Step → Prop
  | .compactMemTable _ _ _ => ∀ cs ∈ db.compaction, ∀ imm ∈ db.imm, ∀ first ∈ imm.head?, ∀ last ∈ imm.getLast?,
    pickLevelForMemTableOutput p.options db.current first.1.userKey last.1.userKey = cs.compaction.level + 1 →
      cs.compaction.Outside first.1 last.1
  | _ => True

/-- At the level a running compaction writes to, only its inputs are in the range of its
inputs. -/
def Guarded (db : Db) : Prop :=
  ∀ cs ∈ db.compaction, ∀ g ∈ db.current.files (cs.compaction.level + 1), g ∉ cs.compaction.inputs1 →
    cs.compaction.Outside g.smallest g.largest

variable {db : Db}

theorem Guarded.congr {db' : Db} (guarded : Guarded db) (compaction : db'.compaction = db.compaction)
    (files : db'.current.files = db.current.files) : Guarded db' := by
  rw [Guarded, compaction, files]
  exact guarded

theorem guarded_of_idle (idle : db.compaction = none) : Guarded db := by
  simp [Guarded, idle]

theorem Guarded.startWork (picked : Picked db c) : Guarded (db.startWork c) := by
  intro cs isRunning g isFile left
  simp only [Db.startWork, Option.mem_def, Option.some.injEq] at isRunning
  subst isRunning
  exact picked.chosen.outside_of_not_input (picked.current ▸ isFile) left

variable {p : Params}

theorem Guarded.flushed {db' : Db} (guarded : Guarded db) {imm records : List Record}
    (flushed : Flushed p db db' imm records) {heap : Nat → Digest} {beyond : Nat → Nat → UInt8} {rh : Digest}
    (out : FlushesOutside p db (.compactMemTable heap beyond rh)) : Guarded db' := by
  obtain ⟨_, _, _, eq⟩ := flushed.others
  have sameCompaction : db'.compaction = db.compaction := by rw [eq]
  intro cs isRunning g isFile left
  rw [sameCompaction] at isRunning
  cases flushed.cases _ g isFile with
  | inl old => exact guarded cs isRunning g old left
  | inr isNew =>
    have first : imm.head?.map Prod.fst = some g.smallest := by
      rw [← isNew.first, ← head?_map, ← head?_map, flushed.keys]
    have last : imm.getLast?.map Prod.fst = some g.largest := by
      rw [← isNew.last, ← getLast?_map, ← getLast?_map, flushed.keys]
    obtain ⟨e, isFirst, smallest⟩ := Option.map_eq_some_iff.mp first
    obtain ⟨e', isLast, largest⟩ := Option.map_eq_some_iff.mp last
    have lands := out cs isRunning imm flushed.isImm e isFirst e' isLast
    rw [smallest, largest] at lands
    exact lands isNew.level.symm

theorem Guarded.step {db db' : Db} (inv : Inv db) (guarded : Guarded db) {lbl : Step}
    (out : FlushesOutside p db lbl) (run : step p db lbl = .ok db') : Guarded db' := by
  cases inv.effect run with
  | write | switchMemTable | getSnapshot | releaseSnapshot | chargeSeek => exact guarded.congr rfl rfl
  | compactMemTable flushed => exact guarded.flushed flushed out
  | moved _ _ comp | installCompaction _ comp => exact guarded_of_idle comp.idle
  | started _ _ picked => exact Guarded.startWork (picked.compactPointer _)
  | compactionIteration isRunning eq =>
    intro cs₁ isCs g isFile left
    simp only [Option.mem_def, Option.some.injEq] at isCs
    subst isCs
    rw [eq.level] at isFile
    rw [eq.inputs1] at left
    exact eq.outside (guarded _ isRunning g isFile left)

/-! ## No check fails -/

theorem Inv.commitFlush_isOk {p : Params} {db : Db} (inv : Inv db) {imm records : List Record}
    (isImm : db.imm = some imm) (keys : records.map Prod.fst = imm.map Prod.fst) (rh : Digest) :
    ∃ db', db.commitFlush p records rh = .ok db' := by
  have editOk := inv.flush_editOk (p := p) isImm keys rh
    { db.flushEdit p records rh with prevLogNumber := some 0, logNumber := some db.logfileNumber } rfl
  have new : ∀ l f, (l, f) ∈ (db.flushEdit p records rh).newFiles → FlushedFile p db records l f := by
    intro l f added
    obtain ⟨_, none | ⟨lv, g, flushed, one⟩⟩ := flushEdit_cases p db records rh
    · simp [none.2] at added
    rw [one, mem_singleton] at added
    cases added
    exact flushed
  have saves := inv.stored.applyEdit_isSome editOk
    (fun l f g pos added old _ => (inv.flushed_clear (new l f added) pos l le_rfl g old).apart)
    (fun l f g _ added added' ne => by
      have eq := (editOk.uniqueNew l f l g added added' (by
        rw [(new l f added).number, (new l g added').number])).2
      exact absurd eq ne)
  obtain ⟨db', applied⟩ := @logAndApply_isOk
    { db with
      nextFileNumber := db.nextFileNumber + 1
      tables := Function.update db.tables db.nextFileNumber records } _
    (fun n isLog => by
      have logs := inv.logs
      simp only [Option.mem_def, Option.some.injEq] at isLog
      subst isLog
      exact ⟨logs.1, Nat.lt_succ_of_lt logs.2⟩) saves
  simp only [commitFlush, applied]
  exact ⟨_, rfl⟩

theorem Inv.move_isOk (inv : Inv db) (picked : Picked db c)
    (none : c.inputs1 = []) {f : FileMetaData Bytes} (isInput : f ∈ c.inputs0) (rh : Digest) :
    ∃ db', db.logAndApply (moveEdit c f rh) = .ok db' := by
  have underway := inv.underway picked
  have isFile : f ∈ db.current.files c.level := underway.live _ f (picked.chosen.sublist0.subset isInput)
  obtain ⟨_, new, noLog⟩ := moveEdit_parts underway.edit f rh
  refine logAndApply_isOk (by simp [noLog]) ?_
  refine inv.stored.applyEdit_isSome (inv.move_editOk underway isFile rh) ?_ ?_
  · intro l g old _ added isOld _
    rw [new, mem_singleton] at added
    cases added
    obtain pre | after := picked.chosen.outside_of_not_input (picked.current ▸ isOld) (by simp [none])
    · exact .inr (pre f (mem_append_left _ isInput))
    · exact .inl (after f (mem_append_left _ isInput))
  · intro l g g' _ added added' ne
    rw [new, mem_singleton] at added added'
    cases added
    cases added'
    exact absurd rfl ne

variable {cs : CompactionState Bytes}

theorem OutputsOk.in_range (ok : OutputsOk db cs) {out : Output Bytes} (isOutput : out ∈ cs.outputs) :
    (∃ f ∈ cs.compaction.inputs0 ++ cs.compaction.inputs1, f.smallest ≤ out.smallest) ∧
      ∃ f ∈ cs.compaction.inputs0 ++ cs.compaction.inputs1, out.largest ≤ f.largest := by
  have range : ∀ e ∈ out.contents, ∃ f ∈ cs.compaction.inputs0 ++ cs.compaction.inputs1,
      f.smallest ≤ e.1 ∧ e.1 ≤ f.largest := by
    intro e mem
    obtain ⟨f, isInput, inT⟩ := mem_inputEntries.mp (ok.contents_mem isOutput mem)
    obtain ⟨l, isFile⟩ := inputs_mem ok.underway.chosen isInput
    have table := ok.underway.stored.table l f isFile
    exact ⟨f, mem_append.mpr isInput, table.smallest_le e inT, table.le_largest e inT⟩
  have table := ok.table isOutput fun _ => zeroDigest
  obtain ⟨first, inFirst, smallest⟩ := table.smallest_mem
  obtain ⟨last, inLast, largest⟩ := table.largest_mem
  obtain ⟨f, isInput, low, _⟩ := range first inFirst
  obtain ⟨g, isInput', _, high⟩ := range last inLast
  rw [smallest] at low
  rw [largest] at high
  exact ⟨⟨f, isInput, low⟩, ⟨g, isInput', high⟩⟩

theorem Inv.results_isOk (inv : Inv db) (ok : OutputsOk db cs)
    (guarded : ∀ g ∈ db.current.files (cs.compaction.level + 1), g ∉ cs.compaction.inputs1 →
      cs.compaction.Outside g.smallest g.largest) (rh : Nat → Digest) :
    ∃ db', { db with tables := withOutputs db.tables cs.outputs }.logAndApply (resultsEdit cs rh) = .ok db' := by
  obtain ⟨_, new, noLog⟩ := resultsEdit_parts ok.underway.edit rh
  have isNew : ∀ l g, (l, g) ∈ (resultsEdit cs rh).newFiles →
      l = cs.compaction.level + 1 ∧ ∃ out ∈ cs.outputs, g = out.file rh := by
    intro l g added
    rw [new] at added
    obtain ⟨out, isOutput, eq⟩ := mem_map.mp added
    cases eq
    exact ⟨rfl, out, isOutput, rfl⟩
  refine logAndApply_isOk (by simp [noLog]) (inv.stored.applyEdit_isSome (inv.results_editOk ok rh) ?_ ?_)
  · intro l f g _ added isOld kept
    obtain ⟨rfl, out, isOutput, rfl⟩ := isNew l f added
    have left : g ∉ cs.compaction.inputs1 := fun isInput =>
      kept ((inv.resultsEdit_deletes ok rh isOld).mpr (.inr ⟨rfl, isInput⟩))
    obtain ⟨⟨low, lowInput, lowest⟩, high, highInput, highest⟩ := ok.in_range isOutput
    obtain pre | after := guarded g isOld left
    · exact .inr ((pre low lowInput).trans_le lowest)
    · exact .inl (highest.trans_lt (after high highInput))
  · intro l f g _ added added' ne
    obtain ⟨rfl, out, isOutput, rfl⟩ := isNew l f added
    obtain ⟨_, out', isOutput', rfl⟩ := isNew _ g added'
    obtain ⟨last, inOut, largest⟩ := (ok.table isOutput rh).largest_mem
    obtain ⟨first, inOut', smallest⟩ := (ok.table isOutput' rh).smallest_mem
    obtain ⟨first', inOut₁, smallest'⟩ := (ok.table isOutput rh).smallest_mem
    obtain ⟨last', inOut₂, largest'⟩ := (ok.table isOutput' rh).largest_mem
    obtain eq | pre | after := SortedList.rel_or_rel ok.sorted.2 isOutput isOutput'
    · exact absurd (eq ▸ rfl) ne
    · exact .inl (largest ▸ smallest ▸ pre last inOut first inOut')
    · exact .inr (largest' ▸ smallest' ▸ after last' inOut₂ first' inOut₁)

theorem Inv.compactMemTable_ne_abort (inv : Inv db) (heap : Nat → Digest)
    (beyond : Nat → Nat → UInt8) (rh : Digest) : db.compactMemTable p heap beyond rh ≠ .error .abort := by
  intro stopped
  simp only [compactMemTable] at stopped
  split at stopped
  · cases stopped
  · cases stopped
  case h_3 imm isImm _ =>
    split at stopped
    · cases stopped
    case h_2 built =>
      have empty := Merkle.buildTable_noFile built
      subst empty
      obtain ⟨db', commits⟩ := @Inv.commitFlush_isOk p db inv _ [] isImm rfl rh
      rw [commits] at stopped
      cases stopped
    case h_3 image built =>
      obtain ⟨db', commits⟩ := inv.commitFlush_isOk (p := p) isImm (Merkle.buildTable_keys built) rh
      rw [commits] at stopped
      cases stopped

theorem Inv.compactMemTable_isOk {p : Params} {db : Db} (inv : Inv db) {imm : List Record}
    (isImm : db.imm = some imm) (idle : db.compaction = none) (ne : imm ≠ [])
    (room : imm.length ≤ Merkle.FILE_RECORDS) (fits : ∀ r ∈ imm, Merkle.FitsRecord r)
    (heap : Nat → Digest) (beyond : Nat → Nat → UInt8) (rh : Digest) :
    ∃ db', db.compactMemTable p heap beyond rh = .ok db' := by
  obtain ⟨_, image, built, _⟩ := Merkle.buildTable_spec p.mac heap beyond imm ne room fits
  simp only [compactMemTable, isImm, idle, Option.any_none, built]
  exact inv.commitFlush_isOk isImm (Merkle.buildTable_keys built) rh

theorem Inv.backgroundCompaction_ne_abort (inv : Inv db) (trigger : Trigger)
    (rh : Digest) : db.backgroundCompaction p trigger rh ≠ .error .abort := by
  intro stopped
  simp only [backgroundCompaction] at stopped
  split at stopped
  · cases stopped
  split at stopped
  · cases stopped
  case h_2 c picks =>
    split at stopped
    case h_1 f rest isMove inputs =>
      have picked := (inv.picked picks).compactPointer (applyCompactPointers c.edit db.compactPointer)
      have none : c.inputs1 = [] := by
        simp only [Bool.and_eq_true, Compaction.isTrivialMove, decide_eq_true_eq] at isMove
        exact length_eq_zero_iff.mp isMove.2.2.1
      obtain ⟨db', moved⟩ := (inv.compactPointer _).move_isOk picked none (f := f) (by simp [inputs]) rh
      rw [moved] at stopped
      cases stopped
    case h_2 => cases stopped

/-- A finished compaction whose range is guarded is installed. -/
theorem Inv.installCompaction_isOk (inv : Inv db) (guarded : Guarded db) (isRunning : db.compaction = some cs)
    (done : cs.input = [])
    (rh : Nat → Digest) : ∃ db', db.installCompaction p rh = .ok db' := by
  have ok := Running.outputsOk (inv.running cs isRunning) done p.size
  have eq := (cs.finish_others p.size).1
  obtain ⟨db', inst⟩ := inv.results_isOk ok (by rw [eq]; exact guarded cs isRunning) rh
  rw [installCompaction]
  split
  case h_1 idle =>
    rw [isRunning] at idle
    cases idle
  case h_2 cs' isCs =>
    cases isRunning.symm.trans isCs
    simp only [done, inst]
    exact ⟨_, rfl⟩

theorem Inv.installCompaction_ne_abort (inv : Inv db) (guarded : Guarded db)
    (rh : Nat → Digest) : db.installCompaction p rh ≠ .error .abort := by
  cases isRunning : db.compaction with
  | none => simp [installCompaction, isRunning]
  | some cs =>
    cases done : cs.input with
    | nil =>
      obtain ⟨db', inst⟩ := inv.installCompaction_isOk (p := p) guarded isRunning done rh
      simp [inst]
    | cons e rest => simp [installCompaction, isRunning, done]

theorem Inv.step_ne_abort (inv : Inv db) (guarded : Guarded db) (lbl : Step) : Db.step p db lbl ≠ .error .abort := by
  cases lbl with
  | write | getSnapshot | releaseSnapshot => simp [Db.step]
  | switchMemTable =>
    simp only [Db.step, Db.switchMemTable]
    split <;> simp
  | compactMemTable heap beyond rh => exact inv.compactMemTable_ne_abort heap beyond rh
  | chargeSeek key =>
    simp only [Db.step]
    split <;> simp
  | backgroundCompaction trigger rh => exact inv.backgroundCompaction_ne_abort trigger rh
  | compactionIteration =>
    simp only [Db.step, compactionIteration]
    split
    · simp
    · split <;> simp
  | installCompaction rh => exact inv.installCompaction_ne_abort guarded rh

/-- In every run in which no flush puts a file between the inputs of a running compaction at
the level it writes to, levels stay sorted and disjoint and the process is never ended. -/
theorem levels_stay_disjoint (p : Params) (db : Db)
    (run : Reachable p (fun db label => db.HasRoom label ∧ FlushesOutside p db label) db) :
    (∀ level, 0 < level → DisjointSorted (db.current.files level)) ∧ ∀ label, step p db label ≠ .error .abort := by
  have both : Inv db ∧ Guarded db := by
    refine run.invariant (fun db => Inv db ∧ Guarded db) ⟨init_inv, guarded_of_idle rfl⟩ ?_
    intro before after label ⟨inv, guarded⟩ ⟨room, outside⟩ taken
    exact ⟨inv.step room taken, guarded.step inv outside taken⟩
  exact ⟨both.1.stored.disjoint, both.1.step_ne_abort both.2⟩

instance (c : Compaction Bytes) (smallest largest : InternalKey Bytes) : Decidable (c.Outside smallest largest) := by
  unfold Compaction.Outside
  infer_instance

instance (p : Params) (db : Db) (label : Step) : Decidable (FlushesOutside p db label) := by
  induction label using Step.casesOn <;> simp only [FlushesOutside] <;> infer_instance

/-- Two keys of level 2 that are both also at level 1, and a manual compaction of level 1 that
has read nothing when a third key is flushed. -/
def nestedFlush (key : Bytes) : List Step :=
  sampleFlush (.put [97] []) ++ sampleFlush (.put [99] []) ++
    sampleFlush (.put [97] []) ++ sampleFlush (.put [99] []) ++
    [.backgroundCompaction (.manual 1 (some (.make [97] kMaxSequenceNumber kValueTypeForSeek))
      (some (.make [99] 0 .deletion))) zeroDigest] ++
    sampleFlush (.put key []) ++ replicate 4 .compactionIteration

/-- A key after the range of the inputs goes to the same level and is no obstacle. -/
theorem levels_stay_disjoint_nestedFlush : ∃ db,
    compute sampleParams (fun db label => db.HasRoom label ∧ FlushesOutside sampleParams db label) init
      (nestedFlush [100] ++ [.installCompaction fun _ => zeroDigest]) = some db ∧
      (db.current.files 2).map (fun f => (f.smallest.userKey, f.largest.userKey)) = [([97], [99]), ([100], [100])] ∧
      (∀ level, 0 < level → DisjointSorted (db.current.files level)) ∧
      ∀ label, step sampleParams db label ≠ .error .abort := by
  refine Transition.exists_of_eval (by decide +kernel) (Q := fun db =>
    (db.current.files 2).map (fun f => (f.smallest.userKey, f.largest.userKey)) = [([97], [99]), ([100], [100])]) ?_
  intro db run files
  have reached := reachable_of_compute rfl
    (fun db label both => ⟨hasRoom_zeroed db label both.1, by cases label <;> exact both.2⟩) .refl run
  exact ⟨files, levels_stay_disjoint sampleParams db reached⟩

/-- A key between the inputs is flushed into the gap that the output will cover. -/
theorem nestedFlush_aborts : ∃ db, Reachable sampleParams HasRoom db ∧
    step sampleParams db (.installCompaction fun _ => zeroDigest) = .error .abort := by
  have computed : (compute sampleParams HasRoom init (nestedFlush [98])).any (fun db =>
      match step sampleParams db (.installCompaction fun _ => zeroDigest) with
      | .error .abort => true
      | _ => false) = true := by decide +kernel
  obtain ⟨db, run, stops⟩ := (Option.any_eq_true _ _).mp computed
  refine ⟨db, reachable_of_compute rfl hasRoom_zeroed .refl run, ?_⟩
  split at stops
  case h_1 aborts => exact aborts
  case h_2 => cases stops

/-- A live table has its records in order, from the smallest key of its metadata to the largest, and its number is that
of no other live table and of no output of a compaction. -/
theorem live_tables_exact (p : Params) (db : Db) (run : Reachable p HasRoom db) (l : Nat) (f : FileMetaData Bytes)
    (live : f ∈ db.current.files l) : TableOk f (db.tables f.number) ∧ f.number < db.nextFileNumber ∧
      (∀ l', ∀ g ∈ db.current.files l', f.number = g.number → l = l' ∧ f = g) ∧
      ∀ cs, db.compaction = some cs → ∀ out ∈ cs.allOutputs, f.number ≠ out.number := by
  have inv := inv_of_reachable (fun _ _ room => room) run
  exact ⟨inv.stored.table l f live, inv.numbers l f live, fun l' g => inv.stored.unique l f l' g live,
    fun cs isRunning out isOut => ((inv.running cs isRunning).fresh out isOut).2 l f live⟩

theorem live_tables_exact_flushed : ∃ db, compute sampleParams HasRoom init (nestedFlush [100]) = some db ∧
    ∃ f ∈ db.current.files 2, TableOk f (db.tables f.number) := by
  refine Transition.exists_of_eval (by decide +kernel) (Q := fun db => db.current.files 2 ≠ []) ?_
  intro db run ne
  obtain ⟨f, inF⟩ := exists_mem_of_ne_nil _ ne
  have reached := reachable_of_compute rfl hasRoom_zeroed .refl run
  exact ⟨f, inF, (live_tables_exact sampleParams db reached 2 f inF).1⟩

end Db

end Elsm
