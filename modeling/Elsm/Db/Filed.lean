import Elsm.Db.Compacting
import Elsm.Version.Recover

/-!
# File numbers and the lists of files

What holds of the lists of files whatever the tables contain: each level is in order and passed
the check of `SaveTo`, a number stands for one file, and the numbers of a compaction's outputs
are taken by no file.  `Filed.commits` says which steps append a record to the MANIFEST and what
the record lists.
-/

namespace Elsm

open List
open Merkle (Digest Record)

/-! ## Inputs are files of the version -/

section Inputs

variable {K : Type*} [LinearOrder K] {options : Options} {current : Version K} {level : Nat}

theorem getOverlappingInputs_subset (v : Version K) (level : Nat) (begin_ end_ : Option (InternalKey K)) :
    getOverlappingInputs v level begin_ end_ ⊆ v.files level :=
  (getOverlappingInputs_sublist v level begin_ end_).subset

structure Compaction.Takes (c : Compaction K) (files : Nat → List (FileMetaData K)) : Prop where
  levelBound : c.level + 1 < kNumLevels
  first : c.inputs0 ⊆ files c.level
  second : c.inputs1 ⊆ files (c.level + 1)
  edit : ∃ key, c.edit = VersionEdit.empty.setCompactPointer c.level key

variable {inputs0 : List (FileMetaData K)}

theorem setupOtherInputs_takes {c : Compaction K} (bound : level + 1 < kNumLevels)
    (subset : inputs0 ⊆ current.files level)
    (setup : setupOtherInputs options current level inputs0 = some c) : c.Takes current.files := by
  simp only [setupOtherInputs, Option.bind_eq_bind, Option.bind_eq_some_iff] at setup
  obtain ⟨⟨chosen0, chosen1, largest⟩, chosen, _, _, built⟩ := setup
  obtain ⟨_, -, rfl, source⟩ := chooseInputs_cases chosen
  cases built
  refine ⟨bound, ?_, getOverlappingInputs_subset _ _ _ _, largest, rfl⟩
  obtain rfl | ⟨_, _, -, -, rfl, -, -⟩ := source
  · exact subset
  · exact getOverlappingInputs_subset _ _ _ _

theorem InitialInputs.subset {fromPick : Bool}
    (seekFile : ∀ f, current.fileToCompact = some (f, level) → f ∈ current.files level)
    (initial : InitialInputs options current level fromPick inputs0) : inputs0 ⊆ current.files level := by
  have around : ∀ f ∈ current.files level,
      (if level = 0 then getOverlappingInputs current 0 (some f.smallest)
        (some f.largest) else [f]) ⊆ current.files level := by
    intro f mem
    split
    case isTrue isZero =>
      subst isZero
      exact getOverlappingInputs_subset _ _ _ _
    case isFalse => simpa using mem
  cases initial with
  | size picked => exact around _ (pickFile_mem picked)
  | seek picked => exact around _ (seekFile _ picked)
  | range =>
    split
    · exact List.Subset.trans (truncateInputs_initial _ _ _).subset (getOverlappingInputs_subset _ _ _ _)
    · exact getOverlappingInputs_subset _ _ _ _

end Inputs

namespace Db

variable {c : Compaction Bytes}

theorem pickCompaction_takes {p : Params} {db : Db}
    (seek : ∀ f l, db.current.fileToCompact = some (f, l) → f ∈ db.current.files l ∧ l + 1 < kNumLevels)
    {trigger : Trigger} (picks : db.pickCompaction p trigger = some c) :
    c.Takes db.current.files := by
  obtain ⟨l, _, _, bound, initial, setup⟩ := pickCompaction_initial seek picks
  exact setupOtherInputs_takes bound (initial.subset fun f isSeek => (seek f l isSeek).1) setup

/-! ## The invariant -/

/-- The outputs of a compaction have numbers of their own. -/
structure OutputNumbers (db : Db) (cs : CompactionState Bytes) : Prop where
  distinct : (cs.allOutputs.map (·.number)).Pairwise (· ≠ ·)
  taken : ∀ out ∈ cs.allOutputs, out.number < db.nextFileNumber
  fresh : ∀ out ∈ cs.allOutputs, ∀ l, ∀ f ∈ db.current.files l, f.number ≠ out.number

structure Filed (db : Db) : Prop where
  inOrder : ∀ l, InOrder (db.current.files l)
  chain : ∀ l, 0 < l → (db.current.files l).IsChain fun f g => f.largest < g.smallest
  depth : ∀ l, kNumLevels ≤ l → db.current.files l = []
  unique : ∀ l f l' f', f ∈ db.current.files l → f' ∈ db.current.files l' → f.number = f'.number → l = l' ∧ f = f'
  numbers : ∀ l, ∀ f ∈ db.current.files l, f.number < db.nextFileNumber
  logs : db.logNumber ≤ db.logfileNumber ∧ db.logfileNumber < db.nextFileNumber
  seek : ∀ f l, db.current.fileToCompact = some (f, l) → f ∈ db.current.files l ∧ l + 1 < kNumLevels
  inputs : ∀ cs ∈ db.compaction, cs.compaction.Takes db.current.files
  outputs : ∀ cs ∈ db.compaction, OutputNumbers db cs

variable {f : FileMetaData Bytes}

theorem Filed.level_lt {db : Db} (filed : Filed db) {l : Nat} (isFile : f ∈ db.current.files l) : l < kNumLevels := by
  by_contra above
  rw [filed.depth l (Nat.le_of_not_lt above)] at isFile
  cases isFile

theorem init_filed : Filed init := by
  constructor <;> simp [init, Version.empty, InOrder]

/-! ## Records -/

structure Quiet (db db' : Db) : Prop where
  manifest : db'.manifest = db.manifest
  files : db'.current.files = db.current.files
  tables : db'.tables = db.tables
  logNumber : db'.logNumber = db.logNumber
  prevLogNumber : db'.prevLogNumber = db.prevLogNumber
  lastSequence : db.lastSequence ≤ db'.lastSequence
  nextFileNumber : db.nextFileNumber ≤ db'.nextFileNumber
  outputs : ∀ cs' ∈ db'.compaction, ∀ out ∈ cs'.allOutputs,
    (∃ cs ∈ db.compaction, ∃ old ∈ cs.allOutputs, old.number = out.number) ∨ out.number = db.nextFileNumber

theorem Quiet.of_same {db db' : Db} (manifest : db'.manifest = db.manifest)
    (files : db'.current.files = db.current.files) (ts : db'.tables = db.tables)
    (logNumber : db'.logNumber = db.logNumber) (prevLogNumber : db'.prevLogNumber = db.prevLogNumber)
    (lastSequence : db.lastSequence ≤ db'.lastSequence) (nextFileNumber : db.nextFileNumber ≤ db'.nextFileNumber)
    (compaction : db'.compaction = db.compaction) : Quiet db db' :=
  ⟨manifest, files, ts, logNumber, prevLogNumber, lastSequence, nextFileNumber,
    fun cs isRunning out isOutput => .inl ⟨cs, compaction ▸ isRunning, out, isOutput, rfl⟩⟩

/-- Where the number of a new file comes from: it was just taken, it belongs to an output of the
running compaction, or the file comes from a smaller level. -/
def NumberKnown (db : Db) (l : Nat) (f : FileMetaData Bytes) : Prop :=
  f.number = db.nextFileNumber ∨ (∃ cs ∈ db.compaction, ∃ out ∈ cs.allOutputs, out.number = f.number) ∨
    ∃ l' < l, ∃ g ∈ db.current.files l', g.number = f.number

/-- A step that ends in `LogAndApply`, as far as the files go. -/
structure Listed (db db' : Db) (edit : VersionEdit Bytes) : Prop where
  saved : db.current.applyEdit edit = some db'.current
  distinct : DistinctNumbers edit.newFiles
  bound : ∀ l f, (l, f) ∈ edit.newFiles → l < kNumLevels
  renumbered : ∀ l f, (l, f) ∈ edit.newFiles → ∀ l' g, g ∈ db.current.files l' → g.number = f.number →
    l' ≠ l ∧ edit.Deletes l' g.number
  uniqueNew : ∀ l f l' f', (l, f) ∈ edit.newFiles → (l', f') ∈ edit.newFiles → f.number = f'.number → l = l' ∧ f = f'
  manifest : db'.manifest = db.manifest ++ [{ edit with
    logNumber := some db'.logNumber
    prevLogNumber := some db'.prevLogNumber
    nextFileNumber := some db'.nextFileNumber
    lastSequence := some db'.lastSequence }]
  comparator : edit.comparator = none
  nextFileNumber : db.nextFileNumber ≤ db'.nextFileNumber
  lastSequence : db'.lastSequence = db.lastSequence
  compaction : ∀ cs ∈ db'.compaction, cs ∈ db.compaction
  known : ∀ l f, (l, f) ∈ edit.newFiles → NumberKnown db l f
  below : ∀ l f, (l, f) ∈ edit.newFiles → f.number < db'.nextFileNumber

section Commit

variable {db db' : Db} {edit : VersionEdit Bytes}

theorem Listed.mem_iff (filed : Filed db) (listed : Listed db db' edit) {l : Nat} : f ∈ db'.current.files l ↔
      (f ∈ db.current.files l ∧ ¬ edit.Deletes l f.number) ∨ (l, f) ∈ edit.newFiles :=
  mem_applyEdit_iff filed.depth listed.bound listed.distinct listed.saved

theorem Listed.unique (filed : Filed db) (listed : Listed db db' edit) :
    ∀ l f l' f', f ∈ db'.current.files l → f' ∈ db'.current.files l' → f.number = f'.number → l = l' ∧ f = f' := by
  intro l f l' f' left right eq
  obtain old | new := (listed.mem_iff filed).mp left
  · obtain old' | new' := (listed.mem_iff filed).mp right
    · exact filed.unique l f l' f' old.1 old'.1 eq
    · exact absurd (listed.renumbered l' f' new' l f old.1 eq).2 old.2
  obtain old' | new' := (listed.mem_iff filed).mp right
  · exact absurd (listed.renumbered l f new l' f' old'.1 eq.symm).2 old'.2
  · exact listed.uniqueNew l f l' f' new new' eq

theorem Listed.filed (filed : Filed db) (listed : Listed db db' edit)
    (logs : db'.logNumber ≤ db'.logfileNumber ∧ db'.logfileNumber < db'.nextFileNumber)
    (inputs : ∀ cs ∈ db'.compaction, cs.compaction.Takes db'.current.files)
    (fresh : ∀ cs ∈ db'.compaction, ∀ out ∈ cs.allOutputs, ∀ l f, (l, f) ∈ edit.newFiles → f.number ≠ out.number) :
    Filed db' where
  inOrder := applyEdit_inOrder listed.distinct listed.saved filed.inOrder fun l f new g isFile eq =>
    (listed.renumbered l f new l g isFile eq.symm).1 rfl
  chain _ positive := saveTo_isChain listed.saved positive
  depth := (saveTo_some listed.saved).2.1
  unique := listed.unique filed
  numbers l f isFile := by
    obtain old | new := (listed.mem_iff filed).mp isFile
    · exact (filed.numbers l f old.1).trans_le listed.nextFileNumber
    · exact listed.below l f new
  logs := logs
  seek := by simp [(saveTo_some listed.saved).1]
  inputs := inputs
  outputs cs isRunning := by
    have pre := filed.outputs cs (listed.compaction cs isRunning)
    refine ⟨pre.distinct, fun out isOutput => (pre.taken out isOutput).trans_le listed.nextFileNumber, ?_⟩
    intro out isOutput l f isFile
    obtain old | new := (listed.mem_iff filed).mp isFile
    · exact pre.fresh out isOutput l f old.1
    · exact fresh cs isRunning out isOutput l f new

end Commit

/-! ## The steps -/

section Steps

variable {p : Params} {db db' : Db}

theorem Filed.congr (filed : Filed db) (files : db'.current.files = db.current.files)
    (next : db.nextFileNumber ≤ db'.nextFileNumber)
    (logs : db'.logNumber ≤ db'.logfileNumber ∧ db'.logfileNumber < db'.nextFileNumber)
    (seek : ∀ f l, db'.current.fileToCompact = some (f, l) → f ∈ db.current.files l ∧ l + 1 < kNumLevels)
    (inputs : ∀ cs ∈ db'.compaction, cs.compaction.Takes db.current.files)
    (outs : ∀ cs ∈ db'.compaction, OutputNumbers db' cs) : Filed db' where
  inOrder := files ▸ filed.inOrder
  chain := files ▸ filed.chain
  depth := files ▸ filed.depth
  unique := files ▸ filed.unique
  numbers l f isFile := (filed.numbers l f (files ▸ isFile)).trans_le next
  logs := logs
  seek := files ▸ seek
  inputs := files ▸ inputs
  outputs := outs

variable {cs : CompactionState Bytes}

theorem OutputNumbers.mono (nums : OutputNumbers db cs)
    (files : db'.current.files = db.current.files) (next : db.nextFileNumber ≤ db'.nextFileNumber) :
    OutputNumbers db' cs :=
  ⟨nums.distinct, fun out isOutput => (nums.taken out isOutput).trans_le next, by rw [files]; exact nums.fresh⟩

theorem Filed.pointed (filed : Filed db) (pointer : Nat → Option (InternalKey Bytes)) :
    Filed { db with compactPointer := pointer } :=
  filed.congr rfl le_rfl filed.logs filed.seek filed.inputs fun cs isRunning =>
    (filed.outputs cs isRunning).mono rfl le_rfl

variable {rh : Digest} {records : List Record}

theorem flushEdit_new {l : Nat} (new : (l, f) ∈ (db.flushEdit p records rh).newFiles) :
    FlushedFile p db records l f ∧ (db.flushEdit p records rh).newFiles = [(l, f)] := by
  obtain ⟨_, ⟨_, none⟩ | ⟨level, g, flushed, one⟩⟩ := flushEdit_cases p db records rh
  · simp [none] at new
  rw [one, mem_singleton, Prod.mk.injEq] at new
  obtain ⟨rfl, rfl⟩ := new
  exact ⟨flushed, one⟩

section

variable (filed : Filed db)

include filed

theorem flush_listed (run : db.commitFlush p records rh = .ok db') :
    Listed db db' { db.flushEdit p records rh with
      prevLogNumber := some 0, logNumber := some db.logfileNumber } := by
  simp only [commitFlush] at run
  split at run
  · cases run
  case h_2 db₁ applied =>
    cases run
    obtain ⟨v, saved, rfl⟩ := logAndApply_ok applied
    refine ⟨saved, ?_, ?_, ?_, ?_, rfl, ?_, Nat.le_succ _, rfl, fun _ eq => eq, ?_, ?_⟩
    · obtain ⟨_, ⟨_, none⟩ | ⟨level, g, _, one⟩⟩ := flushEdit_cases p db records rh
      · simp [DistinctNumbers, none]
      · simp [DistinctNumbers, one]
    · intro l f new
      rw [(flushEdit_new new).1.level]
      exact (pickLevelForMemTableOutput_le p.options _ _ _).trans_lt (by decide)
    · intro l f new l' g isFile eq
      have below := filed.numbers l' g isFile
      rw [eq, (flushEdit_new new).1.number] at below
      exact absurd below (lt_irrefl _)
    · intro l f l' f' new new' _
      have one := (flushEdit_new new).2
      change (l', f') ∈ (db.flushEdit p records rh).newFiles at new'
      rw [one, mem_singleton, Prod.mk.injEq] at new'
      exact ⟨new'.1.symm, new'.2.symm⟩
    · change (db.flushEdit p records rh).comparator = none
      rw [flushEdit]
      split <;> rfl
    · exact fun l f new => .inl (flushEdit_new new).1.number
    · intro l f new
      rw [(flushEdit_new new).1.number]
      exact Nat.lt_succ_self _

theorem flush_filed (run : db.commitFlush p records rh = .ok db') : Filed db' := by
  have listed := flush_listed filed run
  have noDeleted := (flushEdit_cases p db records rh).1
  have others : db'.compaction = db.compaction ∧ db'.logNumber = db.logfileNumber ∧
      db'.logfileNumber = db.logfileNumber ∧ db'.nextFileNumber = db.nextFileNumber + 1 := by
    simp only [commitFlush] at run
    split at run
    · cases run
    case h_2 db₁ applied =>
      cases run
      obtain ⟨v, _, rfl⟩ := logAndApply_ok applied
      exact ⟨rfl, rfl, rfl, rfl⟩
  obtain ⟨compaction, logNumber, logfileNumber, next⟩ := others
  refine listed.filed filed ?_ ?_ ?_
  · rw [logNumber, logfileNumber, next]
    exact ⟨le_rfl, filed.logs.2.trans (Nat.lt_succ_self _)⟩
  · intro cs isRunning
    have takes := filed.inputs cs (compaction ▸ isRunning)
    have stays : ∀ {l f}, f ∈ db.current.files l → f ∈ db'.current.files l := by
      intro l f isFile
      refine (listed.mem_iff filed).mpr (.inl ⟨isFile, fun deletes => ?_⟩)
      have listedDeleted := deletes.1
      simp [noDeleted] at listedDeleted
    exact ⟨takes.levelBound, fun f isInput => stays (takes.first isInput),
      fun f isInput => stays (takes.second isInput), takes.edit⟩
  · intro cs isRunning out isOutput l f new eq
    have below := (filed.outputs cs (compaction ▸ isRunning)).taken out isOutput
    rw [← eq, (flushEdit_new new).1.number] at below
    exact absurd below (lt_irrefl _)

theorem move_listed (takes : c.Takes db.current.files) (isInput : f ∈ c.inputs0)
    (run : db.logAndApply (moveEdit c f rh) = .ok db') : Listed db db' (moveEdit c f rh) := by
  have isFile := takes.first isInput
  obtain ⟨_, new, _⟩ := moveEdit_parts takes.edit f rh
  obtain ⟨v, saved, rfl⟩ := logAndApply_ok run
  have isNew : ∀ {l g}, (l, g) ∈ (moveEdit c f rh).newFiles → l = c.level + 1 ∧ g = movedFile f rh := by
    intro l g mem
    rwa [new, mem_singleton, Prod.mk.injEq] at mem
  refine ⟨saved, by simp [DistinctNumbers, new], ?_, ?_, ?_, rfl, ?_, le_rfl, rfl, fun _ eq => eq, ?_, ?_⟩
  · intro l g mem
    rw [(isNew mem).1]
    exact takes.levelBound
  · intro l g mem l' h isOld eq
    obtain ⟨rfl, rfl⟩ := isNew mem
    obtain ⟨rfl, rfl⟩ := filed.unique l' h c.level f isOld isFile eq
    exact ⟨Nat.ne_of_lt (Nat.lt_succ_self _), (moveEdit_deletes takes.edit).mpr ⟨rfl, rfl⟩⟩
  · intro l g l' g' mem mem' _
    obtain ⟨rfl, rfl⟩ := isNew mem
    obtain ⟨rfl, rfl⟩ := isNew mem'
    exact ⟨rfl, rfl⟩
  · obtain ⟨key, isEdit⟩ := takes.edit
    rw [moveEdit, isEdit]
    rfl
  · intro l g mem
    obtain ⟨rfl, rfl⟩ := isNew mem
    exact .inr (.inr ⟨c.level, Nat.lt_succ_self _, f, isFile, rfl⟩)
  · intro l g mem
    obtain ⟨rfl, rfl⟩ := isNew mem
    exact filed.numbers c.level f isFile

theorem move_filed (idle : db.compaction = none) (takes : c.Takes db.current.files) (isInput : f ∈ c.inputs0)
    (run : db.logAndApply (moveEdit c f rh) = .ok db') : Filed db' := by
  have listed := move_listed filed takes isInput run
  obtain ⟨_, _, noLog⟩ := moveEdit_parts takes.edit f rh
  obtain ⟨v, _, rfl⟩ := logAndApply_ok run
  refine listed.filed filed ?_ (by simp [idle]) (by simp [idle])
  rw [noLog]
  exact filed.logs

theorem Filed.finished (isRunning : db.compaction = some cs) (size : TableSize Bytes) :
    (cs.finishCompactionOutputFile size).compaction.Takes db.current.files ∧
      ((cs.finishCompactionOutputFile size).outputs.Pairwise fun out out' => out.number ≠ out'.number) ∧
      ∀ out ∈ (cs.finishCompactionOutputFile size).outputs, ∃ old ∈ cs.allOutputs, old.number = out.number := by
  refine ⟨?_, ?_, ?_⟩
  · rw [(CompactionState.finish_others size cs).1]
    exact filed.inputs cs isRunning
  · have all := (filed.outputs cs isRunning).distinct
    rw [← CompactionState.finish_numbers size cs, CompactionState.allOutputs, CompactionState.finish_builder,
      pairwise_map] at all
    simpa using all
  · intro out isOutput
    obtain ⟨old, isOld, eq, _⟩ := CompactionState.finish_outputs isOutput
    exact ⟨old, isOld, eq⟩

theorem install_listed (isRunning : db.compaction = some cs)
    {rh : Nat → Digest} (run : db.installCompaction p rh = .ok db') :
    Listed db db' (resultsEdit (cs.finishCompactionOutputFile p.size) rh) := by
  obtain ⟨_, v, isRunning', _, saved, isDb⟩ := installCompaction_ok run
  cases isRunning.symm.trans isRunning'
  have nums := filed.outputs cs isRunning
  obtain ⟨takes, dist, known⟩ := filed.finished isRunning p.size
  generalize cs.finishCompactionOutputFile p.size = final at *
  obtain ⟨_, new, _⟩ := resultsEdit_parts takes.edit rh
  have isNew : ∀ {l f}, (l, f) ∈ (resultsEdit final rh).newFiles →
      ∃ out ∈ final.outputs, l = final.compaction.level + 1 ∧ f = out.file rh := by
    intro l f mem
    rw [new] at mem
    obtain ⟨out, isOutput, eq⟩ := mem_map.mp mem
    rw [Prod.mk.injEq] at eq
    exact ⟨out, isOutput, eq.1.symm, eq.2.symm⟩
  subst isDb
  refine ⟨saved, ?_, ?_, ?_, ?_, rfl, ?_, le_rfl, rfl, by simp, ?_, ?_⟩
  · rw [DistinctNumbers, new, pairwise_map]
    refine dist.imp ?_
    intro out out' apart _
    exact apart
  · intro l f mem
    obtain ⟨out, _, rfl, _⟩ := isNew mem
    exact takes.levelBound
  · intro l f mem l' g isFile eq
    obtain ⟨out, isOutput, _, rfl⟩ := isNew mem
    obtain ⟨old, isOld, eqNum⟩ := known out isOutput
    exact absurd (eq.trans eqNum.symm) (nums.fresh old isOld l' g isFile)
  · intro l f l' f' mem mem' eq
    obtain ⟨out, isOutput, rfl, rfl⟩ := isNew mem
    obtain ⟨out', isOutput', rfl, rfl⟩ := isNew mem'
    obtain equal | apart | apart := SortedList.rel_or_rel dist isOutput isOutput'
    · exact ⟨rfl, by rw [equal]⟩
    · exact absurd eq apart
    · exact absurd eq.symm apart
  · obtain ⟨key, isEdit⟩ := takes.edit
    simp [resultsEdit, Compaction.addInputDeletions, isEdit, foldl_addFile, foldl_deleteFile,
      VersionEdit.setCompactPointer, VersionEdit.empty]
  · intro l f mem
    obtain ⟨out, isOutput, _, rfl⟩ := isNew mem
    obtain ⟨old, isOld, eqNum⟩ := known out isOutput
    exact .inr (.inl ⟨cs, isRunning, old, isOld, eqNum⟩)
  · intro l f mem
    obtain ⟨out, isOutput, _, rfl⟩ := isNew mem
    obtain ⟨old, isOld, eqNum⟩ := known out isOutput
    change out.number < db.nextFileNumber
    exact eqNum ▸ nums.taken old isOld

theorem install_filed {rh : Nat → Digest} (run : db.installCompaction p rh = .ok db') : Filed db' := by
  obtain ⟨cs, v, isRunning, _, _, isDb⟩ := installCompaction_ok run
  have listed := install_listed filed isRunning run
  obtain ⟨_, _, noLog⟩ := resultsEdit_parts (filed.finished isRunning p.size).1.edit rh
  subst isDb
  refine listed.filed filed ?_ (by simp) (by simp)
  rw [noLog]
  exact filed.logs

end

theorem startWork_quiet (db : Db) (c : Compaction Bytes) :
    Quiet db ({ db with compactPointer := applyCompactPointers c.edit db.compactPointer }.startWork c) := by
  refine ⟨rfl, rfl, rfl, rfl, rfl, le_rfl, le_rfl, fun cs isCs out isOutput => ?_⟩
  simp only [Db.startWork, Option.mem_def, Option.some.injEq] at isCs
  subst isCs
  simp [CompactionState.allOutputs] at isOutput

theorem iteration_quiet (run : db.compactionIteration p = .ok db') : Quiet db db' := by
  obtain ⟨cs, e, rest, isRunning, atEntry, rfl⟩ := compactionIteration_ok run
  have nums := cs.compactEntry_numbers p.options p.size db.nextFileNumber e
  generalize cs.compactEntry p.options p.size db.nextFileNumber e = next at nums
  refine ⟨rfl, rfl, rfl, rfl, rfl, le_rfl, ?_, ?_⟩
  · obtain ⟨unchanged, _⟩ | ⟨run, _⟩ := nums
    · exact unchanged.ge
    · exact (Nat.le_succ _).trans_eq run.symm
  intro cs' isCs out isOutput
  simp only [Option.mem_def, Option.some.injEq] at isCs
  subst isCs
  have isNumber : out.number ∈ next.1.allOutputs.map (·.number) := mem_map_of_mem isOutput
  have old : out.number ∈ cs.allOutputs.map (·.number) → ∃ cs ∈ db.compaction,
      ∃ old ∈ cs.allOutputs, old.number = out.number := by
    intro mem
    obtain ⟨pre, isBefore, eq⟩ := mem_map.mp mem
    exact ⟨cs, isRunning, pre, isBefore, eq⟩
  obtain ⟨_, sameNumbers⟩ | ⟨_, oneMore⟩ := nums
  · exact .inl (old (sameNumbers ▸ isNumber))
  rw [oneMore] at isNumber
  cases mem_append.mp isNumber with
  | inl isOld => exact .inl (old isOld)
  | inr new => exact .inr (mem_singleton.mp new)

def mayLog : Step → Bool
  | .compactMemTable _ _ _ => true
  | .backgroundCompaction _ _ => true
  | .installCompaction _ => true
  | _ => false

theorem quiet_of_step {lbl : Step} (never : mayLog lbl = false) (run : Db.step p db lbl = .ok db') : Quiet db db' := by
  cases lbl with
  | compactMemTable | backgroundCompaction | installCompaction => cases never
  | compactionIteration => exact iteration_quiet run
  | write ops =>
    cases run
    exact .of_same rfl rfl rfl rfl rfl (Nat.le_add_right _ _) le_rfl rfl
  | switchMemTable =>
    obtain ⟨-, rfl⟩ := switchMemTable_ok run
    exact .of_same rfl rfl rfl rfl rfl le_rfl (Nat.le_succ _) rfl
  | getSnapshot | releaseSnapshot =>
    cases run
    exact .of_same rfl rfl rfl rfl rfl le_rfl le_rfl rfl
  | chargeSeek key =>
    obtain ⟨_, _, _, _, rfl⟩ := chargeSeek_ok run
    exact .of_same rfl rfl rfl rfl rfl le_rfl le_rfl rfl

theorem iteration_filed (filed : Filed db) (run : db.compactionIteration p = .ok db') : Filed db' := by
  obtain ⟨cs, e, rest, isRunning, -, rfl⟩ := compactionIteration_ok run
  have eq := cs.compactEntry_same p.options p.size db.nextFileNumber e
  obtain ⟨distinct, taken, fresh⟩ := filed.outputs cs isRunning
  have nums := CompactionState.compactEntry_fresh p.options p.size e filed.numbers distinct fun out isOutput =>
    ⟨taken out isOutput, fresh out isOutput⟩
  generalize cs.compactEntry p.options p.size db.nextFileNumber e = next at eq nums
  obtain ⟨larger, distinct', fresh'⟩ := nums
  refine filed.congr rfl larger ⟨filed.logs.1, filed.logs.2.trans_le larger⟩ filed.seek ?_ ?_
  · intro cs' isCs
    cases isCs
    have takes := filed.inputs cs isRunning
    refine ⟨?_, ?_, ?_, ?_⟩
    · rw [eq.level]
      exact takes.levelBound
    · rw [eq.level, eq.inputs0]
      exact takes.first
    · rw [eq.level, eq.inputs1]
      exact takes.second
    · rw [eq.level, eq.edit]
      exact takes.edit
  · intro cs' isCs
    cases isCs
    exact ⟨distinct', fun out isOutput => (fresh' out isOutput).1, fun out isOutput => (fresh' out isOutput).2⟩

variable {lbl : Step} (filed : Filed db) (run : Db.step p db lbl = .ok db')

include filed run

/-- A step either writes no record or ends in `LogAndApply`. -/
theorem Filed.commits : Quiet db db' ∨ ∃ edit, Listed db db' edit := by
  cases lbl with
  | compactMemTable heap beyond rh =>
    obtain ⟨_, _, _, _, _, _, commits⟩ := compactMemTable_commits run
    exact .inr ⟨_, flush_listed filed commits⟩
  | backgroundCompaction trigger rh =>
    obtain ⟨_, _, c, picks, ⟨f, rest, _, _, inputs, applied⟩ | started⟩ := backgroundCompaction_ok run
    · have takes := pickCompaction_takes filed.seek picks
      have listed := move_listed (filed.pointed (applyCompactPointers c.edit db.compactPointer)) takes
        (inputs ▸ mem_cons_self) applied
      exact .inr ⟨_, listed.saved, listed.distinct, listed.bound, listed.renumbered, listed.uniqueNew,
        listed.manifest, listed.comparator, listed.nextFileNumber, listed.lastSequence, listed.compaction,
        listed.known, listed.below⟩
    · exact .inl (started ▸ startWork_quiet db c)
  | installCompaction rh =>
    obtain ⟨cs, _, isRunning, _, _, _⟩ := installCompaction_ok run
    exact .inr ⟨_, install_listed filed isRunning run⟩
  | write | switchMemTable | getSnapshot | releaseSnapshot | chargeSeek | compactionIteration =>
    exact .inl (quiet_of_step (by rfl) run)

theorem Filed.step : Filed db' := by
  have eq : db'.current.files = db.current.files → db'.compaction = db.compaction →
      db.nextFileNumber ≤ db'.nextFileNumber → db'.logNumber ≤ db'.logfileNumber ∧
        db'.logfileNumber < db'.nextFileNumber →
      (∀ f l, db'.current.fileToCompact = some (f, l) → f ∈ db.current.files l ∧ l + 1 < kNumLevels) → Filed db' := by
    intro files compaction next logs seek
    refine filed.congr files next logs seek (compaction ▸ filed.inputs) fun cs isRunning => ?_
    exact (filed.outputs cs (compaction ▸ isRunning)).mono files next
  cases lbl with
  | compactMemTable heap beyond rh =>
    obtain ⟨_, _, _, _, _, _, commits⟩ := compactMemTable_commits run
    exact flush_filed filed commits
  | backgroundCompaction trigger rh =>
    obtain ⟨idle, _, c, picks, ends⟩ := backgroundCompaction_ok run
    have takes := pickCompaction_takes filed.seek picks
    obtain ⟨f, rest, _, _, inputs, applied⟩ | started := ends
    · exact move_filed (filed.pointed (applyCompactPointers c.edit db.compactPointer))
        idle takes (inputs ▸ mem_cons_self) applied
    subst started
    refine filed.congr rfl le_rfl filed.logs filed.seek ?_ ?_
    · intro cs isCs
      cases isCs
      exact takes
    intro cs isCs
    cases isCs
    constructor <;> simp [CompactionState.allOutputs]
  | compactionIteration => exact iteration_filed filed run
  | installCompaction rh => exact install_filed filed run
  | write | getSnapshot | releaseSnapshot =>
    cases run
    exact eq rfl rfl le_rfl filed.logs filed.seek
  | switchMemTable =>
    obtain ⟨-, rfl⟩ := switchMemTable_ok run
    have logs := filed.logs
    refine eq rfl rfl (Nat.le_succ _) ⟨?_, Nat.lt_succ_self _⟩ filed.seek
    change db.logNumber ≤ db.nextFileNumber
    omega
  | chargeSeek key =>
    obtain ⟨f, lv, member, bound, rfl⟩ := chargeSeek_ok run
    exact eq rfl rfl le_rfl filed.logs (charged_seek filed.seek member bound)

end Steps

end Db

end Elsm
