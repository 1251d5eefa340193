import Mathlib.Tactic.IntervalCases
import Elsm.Db.History
import Elsm.Db.Scan

/-!
# Iterators over the database (`DBImpl::NewIterator`, `VersionSet::MakeInputIterator`)

An iterator of the database merges the memtables and all tables, and `DBIter` shows what a reader may see of their
entries.  `iterator_shows_gets` says that these are the pairs that `Get` returns one by one.  A compaction merges its
input tables, and `input_iterator_tracks` says that this yields all their entries in order.
-/

namespace Elsm

open List
open Merkle (Record)
open Cursor (Iterator Tracks Ascending)

variable {τ : Type} (cache : TableCache τ) (fuel : Nat)

/-! ## The code -/

namespace Db

variable (db : Db)

/-- An iterator over a memtable, a table or a level. -/
abbrev SourceIterator (τ : Type) := Cursor.ListCursor (InternalKey Bytes) Bytes ⊕ TableCache.LevelIterator τ

def sourceIterator : Iterator (SourceIterator τ) (InternalKey Bytes) Bytes :=
  Cursor.listIterator.sum (cache.levelIterator fuel)

def internalIterators : List (SourceIterator τ) :=
  .inl ⟨db.mem, none⟩ :: ((db.imm.toList.map fun imm => .inl ⟨imm, none⟩) ++
    (db.current.addIterators cache fuel).map .inr)

def newInternalIterator : MergedIterator (SourceIterator τ) (InternalKey Bytes) :=
  newMergingIterator (sourceIterator cache fuel) (db.internalIterators cache fuel)

def iterSetting (snapshot : Option Nat) :
    DbIterSetting (MergedIterator (SourceIterator τ) (InternalKey Bytes)) Bytes Bytes :=
  ⟨mergedIterator (sourceIterator cache fuel), snapshot.getD db.lastSequence,
    fun e => e.1.encode.length + e.2.length, fuel⟩

/-- `NewIterator`, with the first number that `RandomPeriod` draws. -/
def newIterator (period : UInt32) : DbIter (MergedIterator (SourceIterator τ) (InternalKey Bytes)) Bytes Bytes :=
  .new (db.newInternalIterator cache fuel) period

end Db

namespace Compaction

/-- A round of the loop of `MakeInputIterator`: level 0 file by file, another level as a whole. -/
def inputIterators (level : Nat) (files : List (FileMetaData Bytes)) : List (TableCache.LevelIterator τ) :=
  if files = [] then []
  else if level = 0 then files.map fun f => .inl (cache.newIterator f.number f.fileSize)
  else [.inr (.new (cache.concatenating fuel) (.new files))]

def makeInputIterator (c : Compaction Bytes) : MergedIterator (TableCache.LevelIterator τ) (InternalKey Bytes) :=
  newMergingIterator (cache.levelIterator fuel)
    (inputIterators cache fuel c.level c.inputs0 ++ inputIterators cache fuel (c.level + 1) c.inputs1)

end Compaction

/-! ## Lists in order -/

section

variable {K V : Type} [LinearOrder K] {l l' : List (K × V)}

theorem Cursor.Ascending.nodup (asc : Ascending l) : l.Nodup := asc.imp fun lt eq => absurd (congrArg Prod.fst eq) lt.ne

theorem Cursor.Ascending.ext (asc : Ascending l) (asc' : Ascending l') (same : ∀ e, e ∈ l ↔ e ∈ l') : l = l' :=
  Perm.eq_of_pairwise (fun _ _ _ _ lt gt => absurd lt (lt_asymm gt)) asc asc'
    ((perm_ext_iff_of_nodup asc.nodup asc'.nodup).mpr same)

end

namespace Laid

variable {version : Version Bytes} {tables : Nat → List Record} (laid : Laid version tables)

include laid

theorem files_lt : ∃ bound, ∀ level, (version.files level).length < bound := by
  refine ⟨((range kNumLevels).flatMap version.files).length + 1, fun level => Nat.lt_succ_of_le ?_⟩
  by_cases bound : level < kNumLevels
  · exact (sublist_flatten_of_mem (mem_map_of_mem (mem_range.mpr bound))).length_le
  · rw [laid.depth level (Nat.le_of_not_lt bound)]
    exact Nat.zero_le _

theorem sublist {part : Version Bytes} (sub : ∀ l, (part.files l).Sublist (version.files l)) : Laid part tables where
  table l f inF := laid.table l f ((sub l).subset inF)
  disjoint l pos := (laid.disjoint l pos).sublist (sub l)
  depth l beyond := sublist_nil.mp (laid.depth l beyond ▸ sub l)
  numbers := laid.numbers.sublist (sub 0)

end Laid

namespace Db

variable {db : Db}

/-! ## `NewIterator` -/

def internalLists (db : Db) : List (List Record) := db.mem :: (db.imm.toList ++ Laid.scanned db.current db.tables)

section

variable (inv : Inv db)

include inv

theorem Inv.mem_internalLists {e : Record} : (∃ l ∈ db.internalLists, e ∈ l) ↔ db.Held e := by
  have tables := inv.stored.laid.mem_scanned (e := e)
  cases isImm : db.imm <;> simp [internalLists, Held, isImm, or_and_right, exists_or, tables, Version.Holds]

theorem Inv.internalLists_ascending : ∀ l ∈ db.internalLists, Ascending l := by
  have immSorted := inv.immOk.sorted
  intro l isList
  obtain rfl | isImm | isTable := by simpa [internalLists] using isList
  · exact inv.memOk.sorted
  · rwa [isImm] at immSorted
  · exact inv.stored.laid.scanned_ascending l isTable

variable (recent : Recent db.current db.tables)

include recent

/-- What is in a memtable is newer than what is in the older one and in the tables. -/
theorem Inv.internalLists_distinct : db.internalLists.Pairwise fun l l' => ∀ a ∈ l, ∀ b ∈ l', a.1 ≠ b.1 := by
  have laid := inv.stored.laid
  have apart : ∀ {a b : Record}, b.1.sequence < a.1.sequence → a.1 ≠ b.1 := fun lt eq => absurd lt (eq ▸ lt_irrefl _)
  refine pairwise_cons.mpr ⟨?_, pairwise_append.mpr ⟨?_, laid.scanned_distinct recent, ?_⟩⟩
  · intro l isList a inMem b inL
    obtain isImm | isTable := mem_append.mp isList
    · exact apart ((inv.memNewer a inMem).1 b (Option.mem_toList.mp isImm ▸ inL))
    · obtain ⟨level, f, inF, inTable⟩ := laid.mem_scanned.mp ⟨l, isTable, inL⟩
      exact apart ((inv.memNewer a inMem).2 level f inF b inTable)
  · cases db.imm <;> simp
  · intro imm isImm l isTable a inImm b inL
    obtain ⟨level, f, inF, inTable⟩ := laid.mem_scanned.mp ⟨l, isTable, inL⟩
    exact apart (inv.immNewer a (Option.mem_toList.mp isImm ▸ inImm) level f inF b inTable)

end

theorem Logged.newestEntry_eq (logged : Logged db) {merged : List Record} (asc : Ascending merged)
    (ms : ∀ e, e ∈ merged ↔ db.Held e) {k : Bytes} {s : Nat} {ent : Option Record} (reads : db.Reads k s ent) :
    newestEntry merged s k = ent := by
  cases ent with
  | none => exact find?_eq_none.mpr fun e mem seen => reads e ((ms e).mp mem) (by simpa [Visible] using seen)
  | some e =>
    obtain ⟨held, seen, newest⟩ := reads
    refine (newestEntry_iff asc).mpr ⟨(ms e).mpr held, seen.1, seen.2, fun z inZ eqKey vis => ?_⟩
    have heldZ := (ms z).mp inZ
    cases (newest z heldZ ⟨eqKey, vis⟩).lt_or_eq with
    | inl older => exact InternalKey.le_iff.mpr (.inr ⟨seen.1.trans eqKey.symm, tag_le_of_sequence_lt older⟩)
    | inr same => exact (logged.held_once heldZ held same).ge

/-- The iterator of the database shows the keys that `Get` finds with the values it returns, in order, whatever moves
are made on it. -/
theorem iterator_shows_gets (p : Params) (db : Db)
    (run : Reachable p (fun db label => db.HasRoom label ∧ ClosedPicks p db label) db) (cache : TableCache τ)
    (serves : cache.Serves db.current db.tables) (snapshot : Option Nat) :
    ∃ bound, ∀ fuel ≥ bound, ∀ period, ∃ shown, Ascending shown ∧
      (∀ key value, (key, value) ∈ shown ↔ db.get key snapshot = .ok value) ∧
      Tracks (dbIterator (db.iterSetting cache fuel snapshot)) shown (db.newIterator cache fuel period) none := by
  obtain ⟨inv, recent, -⟩ := recency_of_reachable run
  have logged := logged_of_reachable (fun _ _ adm => adm.1) run
  have laid := inv.stored.laid
  obtain ⟨enough, files⟩ := laid.files_lt
  refine ⟨enough + db.internalLists.flatten.length, fun fuel above period => ?_⟩
  have cursors : List.Forall₂ (fun s l => Tracks (sourceIterator cache fuel) l s none)
      (db.internalIterators cache fuel) db.internalLists := by
    refine .cons (Cursor.listIterator_tracks _ _).inl (rel_append ?_ ?_)
    · rw [forall₂_map_left_iff, forall₂_same]
      exact fun imm _ => (Cursor.listIterator_tracks _ _).inl
    · rw [forall₂_map_left_iff]
      exact (laid.addIterators_tracks serves fun level => (files level).trans_le (by omega)).imp fun _ _ => Tracks.inr
  obtain ⟨merged, ascending, members, tracks⟩ :=
    newMergingIterator_tracks cursors inv.internalLists_ascending (inv.internalLists_distinct recent)
  have held : ∀ e, e ∈ merged ↔ db.Held e := fun e => (members e).trans inv.mem_internalLists
  have fits : merged.length ≤ db.internalLists.flatten.length :=
    (subperm_of_subset ascending.nodup fun e mem => mem_flatten.mpr ((members e).mp mem)).length_le
  have wellFormed : DbIter.WellFormed merged := by
    intro e mem
    obtain ⟨h, inH, isEntry⟩ := logged.held ((held e).mp mem)
    rw [isEntry]
    exact (entry_valid h.2 ((logged.old h inH).trans_lt inv.reserved)).isSome
  refine ⟨visibleMap merged (snapshot.getD db.lastSequence), visibleMap_ascending ascending, ?_, ?_⟩
  · intro key value
    obtain ⟨ent, reads, isGet⟩ := inv.get_reads recent key snapshot
    rw [mem_visibleMap, isGet, logged.newestEntry_eq ascending held reads]
    cases ent with
    | none => simp
    | some e =>
      simp only [Option.some.injEq, exists_eq_left', Option.map_some, Option.getD_some,
        recordFound_result (wellFormed e ((held e).mpr reads.1))]
      cases entryValue e <;> simp
  · have enoughRounds : merged.length ≤ fuel := by omega
    exact DbIter.Inv.tracks ascending wellFormed enoughRounds (DbIter.inv_new ⟨none, tracks⟩ period)

/-- A key is written again after it went through a flush and a compaction. -/
theorem iterator_shows_gets_rewritten : ∃ db,
    compute sampleParams (fun db label => db.HasRoom label ∧ ClosedPicks sampleParams db label) init
      (nestedFlush [100] ++ [.installCompaction fun _ => Merkle.zeroDigest, .write [.put [97] [7]]]) = some db ∧
      ∃ bound, ∀ fuel ≥ bound, ∀ period, ∃ shown, ([97], [7]) ∈ shown ∧
        Tracks (dbIterator (db.iterSetting db.listTables fuel none))
          shown (db.newIterator db.listTables fuel period) none := by
  refine Transition.exists_of_eval (by decide +kernel) (Q := fun db => db.get [97] none = .ok [7]) ?_
  intro db run isGet
  have reached := reachable_of_compute rfl
    (fun db label both => ⟨hasRoom_zeroed db label both.1, by cases label <;> exact both.2⟩) .refl run
  obtain ⟨bound, shows⟩ := iterator_shows_gets sampleParams db reached db.listTables
    (fun _ _ _ => Cursor.listIterator_tracks _ _) none
  refine ⟨bound, fun fuel above period => ?_⟩
  obtain ⟨shown, -, gets, tracks⟩ := shows fuel above period
  exact ⟨shown, (gets _ _).mpr isGet, tracks⟩

/-! ## `MakeInputIterator` -/

def inputFiles (c : Compaction Bytes) : Version Bytes :=
  ⟨fun l => if l = c.level then c.inputs0 else if l = c.level + 1 then c.inputs1 else [], none⟩

theorem inputFiles_sublist {c : Compaction Bytes} (chosen : c.Chosen) (l : Nat) :
    ((inputFiles c).files l).Sublist (c.inputVersion.files l) := by
  simp only [inputFiles]
  split
  case isTrue first => exact first ▸ chosen.sublist0
  split
  case isTrue snd => exact snd ▸ chosen.sublist1
  · exact nil_sublist _

theorem inputIterators_eq {c : Compaction Bytes} (bound : c.level + 1 < kNumLevels) (tables : Nat → List Record) :
    c.makeInputIterator cache fuel =
        newMergingIterator (cache.levelIterator fuel) ((inputFiles c).addIterators cache fuel) ∧
      (Laid.scanned (inputFiles c) tables).flatten = (c.inputs0 ++ c.inputs1).flatMap fun f => tables f.number := by
  have below : c.level < 6 := Nat.lt_of_succ_lt_succ bound
  by_cases empty0 : c.inputs0 = [] <;> by_cases empty1 : c.inputs1 = [] <;> interval_cases h : c.level <;>
    simp [Compaction.makeInputIterator, Compaction.inputIterators, Version.addIterators, Version.deeperLevels,
      inputFiles,
      Laid.scanned, levelRecords, Version.newConcatenatingIterator, h, empty0, empty1, show kNumLevels - 1 = 6 from rfl,
      List.range'_succ, flatMap_def]

/-- What a compaction still has to read is the end of what its input iterator yields: the entries of all its inputs, in
order. -/
theorem input_iterator_tracks (p : Params) (db : Db) (run : Reachable p HasRoom db) (cs : CompactionState Bytes)
    (isRunning : db.compaction = some cs) (cache : TableCache τ)
    (serves : cache.Serves cs.compaction.inputVersion db.tables) :
    cs.input <:+ inputEntries db.tables cs.compaction ∧ ∃ bound, ∀ fuel ≥ bound,
      Tracks (mergedIterator (cache.levelIterator fuel)) (inputEntries db.tables cs.compaction)
        (cs.compaction.makeInputIterator cache fuel) none := by
  have running := (inv_of_reachable (fun _ _ room => room) run).running cs isRunning
  obtain ⟨read, isInput, -⟩ := running.work
  have sub := inputFiles_sublist running.chosen
  have laid := running.stored.laid.sublist sub
  obtain ⟨bound, files⟩ := laid.files_lt
  refine ⟨⟨read, isInput⟩, bound, fun fuel above => ?_⟩
  obtain ⟨isMerging, entries⟩ := inputIterators_eq cache fuel running.levelBound db.tables
  have sorted := inputEntries_sorted running.chosen running.stored
  have perm := perm_insertionSort (fun a b : Record => a.1 ≤ b.1)
    (Laid.scanned (inputFiles cs.compaction) db.tables).flatten
  rw [entries] at perm
  have apart := perm.pairwise (sorted.imp fun lt => lt.ne) Ne.symm
  rw [← entries] at apart
  obtain ⟨merged, ascending, members, tracks⟩ := newMergingIterator_tracks
    (laid.addIterators_tracks (fun l f inF => serves l f ((sub l).subset inF)) fun l => (files l).trans_le above)
    laid.scanned_ascending (pairwise_flatten.mp apart).2
  have isMerged : merged = inputEntries db.tables cs.compaction := by
    refine ascending.ext sorted fun e => (members e).trans ?_
    rw [← mem_flatten, entries]
    exact perm.mem_iff.symm
  rwa [isMerging, ← isMerged]

/-- A compaction of two levels with two files each. -/
theorem input_iterator_tracks_nested : ∃ db,
    compute sampleParams HasRoom init (nestedFlush [100]) = some db ∧ ∃ cs, db.compaction = some cs ∧
      ∃ bound, ∀ fuel ≥ bound, Tracks (mergedIterator (db.listTables.levelIterator fuel))
        (inputEntries db.tables cs.compaction) (cs.compaction.makeInputIterator db.listTables fuel) none := by
  refine Transition.exists_of_eval (by decide +kernel) (Q := fun db => db.compaction.isSome) ?_
  intro db run isSome
  obtain ⟨cs, isRunning⟩ := Option.isSome_iff_exists.mp isSome
  have reached := reachable_of_compute rfl hasRoom_zeroed .refl run
  exact ⟨cs, isRunning, (input_iterator_tracks sampleParams db reached cs isRunning db.listTables
    fun _ _ _ => Cursor.listIterator_tracks _ _).2⟩

end Db

end Elsm
