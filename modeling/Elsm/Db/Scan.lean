import Mathlib.Algebra.Order.BigOperators.Group.List
import Mathlib.Data.List.Perm.Subperm
import Elsm.Db.Get
import Elsm.Db.DbIter
import Elsm.Table.TwoLevel

/-!
# Lookup and scan (`Version::Get`, `Version::AddIterators`)

`Version::Get` asks one file of a level and stops at the first answer.  A scan merges all tables: those of level 0 one
by one, those of a deeper level through one concatenating iterator.  `get_eq_scan` says that the two agree wherever
levels are sorted and smaller levels are newer.
-/

namespace Elsm

open List
open Merkle (Record)
open Cursor (Move Iterator Tracks Stands First Ascending Position entryAt)

/-! ## The code -/

structure LevelFileNumIterator where
  flist : List (FileMetaData Bytes)
  index : Nat

namespace LevelFileNumIterator

/-- The index after the last file marks the iterator as invalid. -/
def new (flist : List (FileMetaData Bytes)) : LevelFileNumIterator := ⟨flist, flist.length⟩

/-- The key is the last one of the file, the value its number and size. -/
def fileEntry (f : FileMetaData Bytes) : InternalKey Bytes × (Nat × Nat) := (f.largest, f.number, f.fileSize)

def entry (i : LevelFileNumIterator) : Option (InternalKey Bytes × (Nat × Nat)) := i.flist[i.index]?.map fileEntry

def move (i : LevelFileNumIterator) : Move (InternalKey Bytes) → Option LevelFileNumIterator
  | .seek target => some { i with index := findFile i.flist target }
  | .seekToFirst => some { i with index := 0 }
  | .seekToLast => some { i with index := if i.flist = [] then 0 else i.flist.length - 1 }
  | .next => if i.index < i.flist.length then some { i with index := i.index + 1 } else none
  | .prev =>
    if i.index < i.flist.length then
      some { i with index := if i.index = 0 then i.flist.length else i.index - 1 }
    else none

end LevelFileNumIterator

def levelFileNumIterator : Iterator LevelFileNumIterator (InternalKey Bytes) (Nat × Nat) where
  current := LevelFileNumIterator.entry
  move m i := i.move m

structure TableCache (τ : Type) where
  iterator : Iterator τ (InternalKey Bytes) Bytes
  /-- `NewIterator`, for a file number and size -/
  newIterator : Nat → Nat → τ

namespace TableCache

variable {τ : Type} (cache : TableCache τ)

/-- The two-level iterator of `NewConcatenatingIterator`, with `GetFileIterator`. -/
def concatenating (fuel : Nat) : TwoLevelSetting LevelFileNumIterator τ (InternalKey Bytes) Bytes (Nat × Nat) :=
  ⟨levelFileNumIterator, cache.iterator, fun file => cache.newIterator file.1 file.2, fuel⟩

abbrev LevelIterator (τ : Type) := τ ⊕ TwoLevelIterator LevelFileNumIterator τ (InternalKey Bytes) (Nat × Nat)

def levelIterator (fuel : Nat) : Iterator (LevelIterator τ) (InternalKey Bytes) Bytes :=
  cache.iterator.sum (twoLevelIterator (cache.concatenating fuel))

def Serves (version : Version Bytes) (tables : Nat → List Record) : Prop :=
  ∀ level, ∀ f ∈ version.files level, Tracks cache.iterator (tables f.number)
    (cache.newIterator f.number f.fileSize) none

end TableCache

namespace Version

variable {τ : Type} (cache : TableCache τ) (fuel : Nat) (version : Version Bytes)

def newConcatenatingIterator (level : Nat) : TwoLevelIterator LevelFileNumIterator τ (InternalKey Bytes) (Nat × Nat) :=
  .new (cache.concatenating fuel) (.new (version.files level))

def deeperLevels : List Nat := (List.range' 1 (kNumLevels - 1)).filter fun level => version.files level ≠ []

def addIterators : List (TableCache.LevelIterator τ) :=
  ((version.files 0).map fun f => .inl (cache.newIterator f.number f.fileSize)) ++
    version.deeperLevels.map fun level => .inr (version.newConcatenatingIterator cache fuel level)

def scanSetting (sequence : Nat) :
    DbIterSetting (MergedIterator (TableCache.LevelIterator τ) (InternalKey Bytes)) Bytes Bytes :=
  ⟨mergedIterator (cache.levelIterator fuel), sequence, fun e => e.1.encode.length + e.2.length, fuel⟩

/-- The iterator is put on the key, and what it shows is the answer if it is of the key. -/
def scan (sequence : Nat) (userKey : Bytes) (period : UInt32) : Option GetResult := do
  let merged := newMergingIterator (cache.levelIterator fuel) (version.addIterators cache fuel)
  let d ← DbIter.seek (scanSetting cache fuel sequence) userKey (.new merged period)
  match d.entry (scanSetting cache fuel sequence) with
  | some (key, value) => if key = userKey then return .ok value else return .notFound
  | none => return .notFound

end Version

/-! ## The files of a level -/

theorem levelFileNumIterator_tracks {files : List (FileMetaData Bytes)} (sorted : DisjointSorted files)
    (ord : ∀ f ∈ files, f.smallest ≤ f.largest) :
    Tracks levelFileNumIterator (files.map LevelFileNumIterator.fileEntry) (.new files) none := by
  generalize isIndex : files.map LevelFileNumIterator.fileEntry = index
  have sameLength : index.length = files.length := by rw [← isIndex, length_map]
  refine Cursor.tracks_of_simulation (fun i p => i.flist = files ∧ p = Cursor.settle index i.index) ?_ ?_
    ⟨rfl, (Cursor.settle_of_le sameLength.le).symm⟩
  · rintro ⟨_, i⟩ _ ⟨rfl, rfl⟩
    rw [Cursor.entryAt_settle, ← isIndex, getElem?_map]
    rfl
  rintro ⟨flist, i⟩ _ m ⟨rfl, rfl⟩ ok
  dsimp only at isIndex sameLength sorted ord
  cases m with
  | seekToFirst => exact ⟨_, rfl, rfl, rfl⟩
  | seekToLast =>
    refine ⟨_, rfl, rfl, ?_⟩
    simp only [Move.apply]
    cases flist with
    | nil => rw [← isIndex]; rfl
    | cons f rest =>
      have notEmpty : index ≠ [] := by rw [← isIndex]; exact cons_ne_nil _ _
      rw [if_neg notEmpty, if_neg (cons_ne_nil _ _), sameLength]
  | seek target =>
    refine ⟨_, rfl, rfl, ?_⟩
    simp only [Move.apply, findFile_eq sorted ord]
    rw [← isIndex, findIdx_map]
    rfl
  | next =>
    have ins := Cursor.isSome_settle.mp ok
    refine ⟨_, if_pos (sameLength ▸ ins), rfl, ?_⟩
    rw [Move.apply, Cursor.settle_of_lt ins, Option.bind_some]
  | prev =>
    have ins := Cursor.isSome_settle.mp ok
    refine ⟨_, if_pos (sameLength ▸ ins), rfl, ?_⟩
    rw [Move.apply, Cursor.settle_of_lt ins, Option.bind_some]
    dsimp only
    split
    · exact (Cursor.settle_of_le sameLength.le).symm
    · rfl

variable {l : Nat}

namespace Laid

variable {version : Version Bytes} {tables : Nat → List Record} {τ : Type} {cache : TableCache τ}

theorem eq_of_number (laid : Laid version tables) (pos : 0 < l) {f g : FileMetaData Bytes}
    (inF : f ∈ version.files l) (inG : g ∈ version.files l) (eq : f.number = g.number) : f = g := by
  have apart : ∀ {f g : FileMetaData Bytes}, f ∈ version.files l → g ∈ version.files l → f.number = g.number →
      ¬f.largest < g.smallest := by
    intro f g inF inG eq pre
    obtain ⟨e, mem, isLargest⟩ := (laid.table l f inF).largest_mem
    have notBefore := (laid.table l g inG).smallest_le e (eq ▸ mem)
    exact absurd pre (not_lt.mpr (isLargest ▸ notBefore))
  obtain isSame | pre | pre := SortedList.rel_or_rel (laid.disjoint l pos) inF inG
  · exact isSame
  · exact absurd pre (apart inF inG eq)
  · exact absurd pre (apart inG inF eq.symm)

theorem layout (laid : Laid version tables) (pos : 0 < l) :
    Layout ((version.files l).map LevelFileNumIterator.fileEntry) fun file => tables file.1 where
  handles := by
    rw [pairwise_map]
    refine List.Pairwise.imp_of_mem ?_ (laid.disjoint l pos)
    intro f g inF inG pre eq
    have isSame := laid.eq_of_number pos inF inG (congrArg (·.1) eq)
    exact absurd pre (not_lt.mpr (isSame ▸ (laid.table l f inF).ordered))
  upTo := by
    intro a mem
    obtain ⟨f, inF, rfl⟩ := mem_map.mp mem
    exact (laid.table l f inF).le_largest
  above := by
    rw [pairwise_map]
    refine List.Pairwise.imp_of_mem ?_ (laid.disjoint l pos)
    exact fun _ inG pre x inX => pre.trans_le ((laid.table l _ inG).smallest_le x inX)

/-! ## The merged tables -/

theorem level_tracks (laid : Laid version tables) (serves : cache.Serves version tables)
    (pos : 0 < l) {fuel : Nat} (le : (version.files l).length < fuel) :
    Tracks (twoLevelIterator (cache.concatenating fuel)) (levelRecords version tables l)
      (version.newConcatenatingIterator cache fuel l) none := by
  have isRecords : levelRecords version tables l =
      concatenation ((version.files l).map LevelFileNumIterator.fileEntry) fun file => tables file.1 := by
    rw [concatenation, flatMap_map]
    rfl
  rw [isRecords]
  apply tracks_twoLevelIterator (laid.layout pos)
  · exact ⟨none, levelFileNumIterator_tracks (laid.disjoint l pos) fun f inF => (laid.table l f inF).ordered⟩
  · intro a mem
    obtain ⟨f, inF, rfl⟩ := mem_map.mp mem
    exact ⟨none, serves l f inF⟩
  · rwa [length_map]

def scanned (version : Version Bytes) (tables : Nat → List Record) : List (List Record) :=
  ((version.files 0).map fun f => tables f.number) ++ version.deeperLevels.map (levelRecords version tables)

theorem mem_deeperLevels : l ∈ version.deeperLevels ↔ 0 < l ∧ l < kNumLevels ∧ version.files l ≠ [] := by
  rw [Version.deeperLevels, mem_filter, mem_range'_1, decide_eq_true_eq, and_assoc]
  rfl

theorem addIterators_tracks (laid : Laid version tables) (serves : cache.Serves version tables) {fuel : Nat}
    (le : ∀ lv, (version.files lv).length < fuel) :
    List.Forall₂ (fun s l => Tracks (cache.levelIterator fuel) l s none) (version.addIterators cache fuel)
      (scanned version tables) := by
  refine rel_append ?_ ?_
  · rw [forall₂_map_left_iff, forall₂_map_right_iff, forall₂_same]
    exact fun f inF => (serves 0 f inF).inl
  · rw [forall₂_map_left_iff, forall₂_map_right_iff, forall₂_same]
    exact fun lv isDeeper => (laid.level_tracks serves (mem_deeperLevels.mp isDeeper).1 (le lv)).inr

theorem mem_scanned (laid : Laid version tables) {e : Record} :
    (∃ l ∈ scanned version tables, e ∈ l) ↔ version.Holds tables e := by
  simp only [scanned, mem_append, mem_map]
  constructor
  · rintro ⟨_, ⟨f, inF, rfl⟩ | ⟨lv, -, rfl⟩, mem⟩
    · exact ⟨0, f, inF, mem⟩
    · obtain ⟨f, inF, inT⟩ := mem_flatMap.mp mem
      exact ⟨lv, f, inF, inT⟩
  · rintro ⟨lv, f, inF, mem⟩
    cases lv with
    | zero => exact ⟨_, .inl ⟨f, inF, rfl⟩, mem⟩
    | succ lv =>
      have notEmpty : version.files (lv + 1) ≠ [] := ne_nil_of_mem inF
      have bound : lv + 1 < kNumLevels := by
        by_contra beyond
        exact notEmpty (laid.depth _ (Nat.le_of_not_lt beyond))
      exact ⟨_, .inr ⟨lv + 1, mem_deeperLevels.mpr ⟨Nat.succ_pos _, bound, notEmpty⟩, rfl⟩,
        mem_flatMap.mpr ⟨f, inF, mem⟩⟩

theorem scanned_ascending (laid : Laid version tables) : ∀ l ∈ scanned version tables, Ascending l := by
  intro l isSource
  simp only [scanned, mem_append, mem_map] at isSource
  obtain ⟨f, inF, rfl⟩ | ⟨lv, isDeeper, rfl⟩ := isSource
  · exact (laid.table 0 f inF).sorted
  · exact laid.levelRecords_sorted (mem_deeperLevels.mp isDeeper).1

theorem newerTable_apart {newer older : List Record} (isNewer : NewerTable newer older) :
    ∀ a ∈ newer, ∀ b ∈ older, a.1 ≠ b.1 := by
  intro a inA b inB eq
  have lt := isNewer a inA b inB (congrArg (·.userKey) eq)
  rw [eq] at lt
  exact lt_irrefl _ lt

/-- Where tables are newer one than the other, no key is in two of them. -/
theorem scanned_distinct (laid : Laid version tables) (recent : Recent version tables) :
    (scanned version tables).Pairwise fun l l' => ∀ a ∈ l, ∀ b ∈ l', a.1 ≠ b.1 := by
  refine pairwise_append.mpr ⟨?_, ?_, ?_⟩
  · rw [pairwise_map]
    refine List.Pairwise.imp_of_mem ?_ laid.numbers
    intro f g inF inG differ a inA b inB
    obtain lt | lt := Nat.lt_or_gt_of_ne differ
    · exact (newerTable_apart (recent.zero g inG f inF lt) b inB a inA).symm
    · exact newerTable_apart (recent.zero f inF g inG lt) a inA b inB
  · rw [pairwise_map]
    have inOrder : version.deeperLevels.Pairwise (· < ·) := (pairwise_lt_range' (s := 1)).filter _
    refine inOrder.imp fun lt a inA b inB => ?_
    obtain ⟨f, inF, memberA⟩ := mem_flatMap.mp inA
    obtain ⟨g, inG, memberB⟩ := mem_flatMap.mp inB
    exact newerTable_apart (recent.levels _ _ lt f inF g inG) a memberA b memberB
  · intro l isZero l' isDeeper a inA b inB
    obtain ⟨f, inF, rfl⟩ := mem_map.mp isZero
    obtain ⟨lv, isLevel, rfl⟩ := mem_map.mp isDeeper
    obtain ⟨g, inG, memberB⟩ := mem_flatMap.mp inB
    exact newerTable_apart (recent.levels 0 lv (mem_deeperLevels.mp isLevel).1 f inF g inG) a inA b memberB

end Laid

/-! ## The answer -/

theorem recordFound_result {e : Record} (parses : (parseInternalKey e.1).isSome) :
    (recordFound e).result = (entryValue e).elim .notFound .ok := by
  obtain ⟨ikey, parsed⟩ := Option.isSome_iff_exists.mp parses
  have code : e.1.typeCode = ikey.type.code := by
    rw [parseInternalKey_eq_some parsed, InternalKey.make_typeCode]
  rw [DbIter.entryValue_eq parsed, recordFound, code]
  cases ikey.type with
  | value | deletion => rfl

theorem Version.Newest.newestEntry_eq {version : Version Bytes} {tables : Nat → List Record} {merged : List Record}
    (asc : Ascending merged) (ms : ∀ e, e ∈ merged ↔ version.Holds tables e) {k : Bytes} {s : Nat}
    {ent : Option Record} (newest : version.Newest tables k s ent) : newestEntry merged s k = ent := by
  cases ent with
  | none =>
    rw [newestEntry, find?_eq_none]
    intro e mem seen
    have both : e.1.userKey = k ∧ e.1.sequence ≤ s := by simpa using seen
    exact newest e ((ms e).mp mem) both
  | some e =>
    obtain ⟨held, seen, greatest⟩ := newest
    refine (newestEntry_iff asc).mpr ⟨(ms e).mpr held, seen.1, seen.2, fun z mem eqKey vis => ?_⟩
    have above := greatest z ((ms z).mp mem) ⟨eqKey, vis⟩
    exact InternalKey.le_iff.mpr (.inr ⟨seen.1.trans eqKey.symm, above⟩)

/-- A cursor over the visible map that seeks a key finds its value, if it has one. -/
theorem found_of_seek {merged : List Record} {k : Bytes} {s : Nat} {e : Option (Bytes × Bytes)}
    (asc : Ascending merged) (first : First (· ≤ ·) (visibleMap merged s) (k ≤ ·) e) :
    (match e with
      | some (key, val) => if key = k then GetResult.ok val else .notFound
      | none => .notFound) = ((newestEntry merged s k).bind entryValue).elim .notFound .ok := by
  cases isValue : (newestEntry merged s k).bind entryValue with
  | some v =>
    obtain ⟨x, newest, hasValue⟩ := Option.bind_eq_some_iff.mp isValue
    have vis : (k, v) ∈ visibleMap merged s := mem_visibleMap.mpr ⟨x, newest, hasValue⟩
    cases e with
    | none => exact absurd le_rfl (first _ vis)
    | some found =>
      obtain ⟨mem, reaches, least⟩ := first
      have eqKey : found.1 = k := le_antisymm (least _ vis le_rfl) reaches
      obtain rfl : found = (k, v) := (visibleMap_ascending asc).eq_of_key mem vis eqKey
      exact if_pos rfl
  | none =>
    cases e with
    | none => rfl
    | some found =>
      obtain ⟨mem, -, -⟩ := first
      obtain ⟨x, newest, hasValue⟩ := mem_visibleMap.mp mem
      refine if_neg fun eqKey => ?_
      rw [eqKey] at newest
      rw [newest, Option.bind_some, hasValue] at isValue
      cases isValue

/-- Lookup and scan give the same answer: the newest entry of the key at `s` over all files. -/
theorem get_eq_scan {τ : Type} (cache : TableCache τ) (version : Version Bytes) (tables : Nat → List Record)
    (laid : Laid version tables) (recent : Recent version tables) (serves : cache.Serves version tables)
    (userKey : Bytes) (s : Nat) :
    (∃ entry, version.Newest tables userKey s entry ∧
      version.get tables (lookupKey userKey s) = (entry.map fun e => (recordFound e).result).getD .notFound) ∧
    ∃ bound, ∀ fuel ≥ bound, ∀ period,
      version.scan cache fuel s userKey period = some (version.get tables (lookupKey userKey s)) := by
  obtain ⟨entry, newest, answer⟩ := laid.get_newest recent userKey s
  refine ⟨⟨entry, newest, answer⟩, ?_⟩
  refine ⟨(Laid.scanned version tables).flatten.length +
    ((range kNumLevels).map fun level => (version.files level).length).sum + 1, fun fuel enough period => ?_⟩
  have enoughFiles : ∀ level, (version.files level).length < fuel := by
    intro level
    by_cases bound : level < kNumLevels
    · have atMost := single_le_sum (fun _ _ => Nat.zero_le _) _
        (mem_map_of_mem (f := fun level => (version.files level).length) (mem_range.mpr bound))
      omega
    · rw [laid.depth level (Nat.le_of_not_lt bound), length_nil]
      omega
  obtain ⟨merged, ascending, members, tracks⟩ := newMergingIterator_tracks (laid.addIterators_tracks serves enoughFiles)
    laid.scanned_ascending (laid.scanned_distinct recent)
  have held : ∀ e, e ∈ merged ↔ version.Holds tables e := fun e => (members e).trans laid.mem_scanned
  have wellFormed : DbIter.WellFormed merged := by
    intro e member
    obtain ⟨level, f, inF, inTable⟩ := (held e).mp member
    exact (laid.table level f inF).parses e inTable
  have fits : merged.length ≤ fuel := by
    have distinct : merged.Nodup := ascending.imp fun less same => absurd (congrArg (·.1) same) less.ne
    have subset : merged ⊆ (Laid.scanned version tables).flatten := fun e member =>
      mem_flatten.mpr ((members e).mp member)
    have atMost := (subperm_of_subset distinct subset).length_le
    omega
  obtain ⟨d, e, sought, inv, first⟩ := DbIter.seek_spec (c := Version.scanSetting cache fuel s)
    ascending wellFormed fits
    (DbIter.inv_new ⟨none, tracks⟩ period) userKey
  have result := found_of_seek (s := s) ascending first
  rw [newest.newestEntry_eq ascending held] at result
  have same : (entry.map fun e => (recordFound e).result).getD .notFound =
      (entry.bind entryValue).elim .notFound .ok := by
    cases entry with
    | none => rfl
    | some e => exact recordFound_result (wellFormed e ((held e).mpr newest.1))
  rw [answer, same, ← result]
  simp only [Version.scan, sought, Option.bind_eq_bind, Option.bind_some, inv.entry]
  cases e with
  | none => rfl
  | some found =>
    dsimp only
    split
    · rfl
    · rfl

namespace Db

def listTables (db : Db) : TableCache (Cursor.ListCursor (InternalKey Bytes) Bytes) :=
  ⟨Cursor.listIterator, fun number _ => ⟨db.tables number, none⟩⟩

/-- Four updates of a key in tables of their own, at levels 2 and 1 and two at level 0. -/
def layeredFlushes : List Step := [1, 2, 3, 4].flatMap fun value => sampleFlush (.put [97] [value])

/-- Reads behind the first update are answered at level 2, those behind the third at level 0. -/
theorem get_eq_scan_layered : ∃ db,
    compute sampleParams (fun db label => db.HasRoom label ∧ ClosedPicks sampleParams db label) init layeredFlushes =
      some db ∧ (range 3).map (fun level => (db.current.files level).length) = [2, 1, 1] ∧
    db.current.get db.tables (lookupKey [97] 1) ≠ db.current.get db.tables (lookupKey [97] 3) ∧
    ∀ s ∈ [1, 3], db.current.get db.tables (lookupKey [97] s) ≠ .notFound ∧ ∃ bound, ∀ fuel ≥ bound, ∀ period,
      db.current.scan db.listTables fuel s [97] period = some (db.current.get db.tables (lookupKey [97] s)) := by
  refine Transition.exists_of_eval (by decide +kernel)
    (Q := fun db => (range 3).map (fun level => (db.current.files level).length) = [2, 1, 1] ∧
      db.current.get db.tables (lookupKey [97] 1) ≠ db.current.get db.tables (lookupKey [97] 3) ∧
      ∀ s ∈ [1, 3], db.current.get db.tables (lookupKey [97] s) ≠ .notFound) ?_
  rintro db run ⟨files, differ, found⟩
  have reached := reachable_of_compute rfl
    (fun db label both => ⟨hasRoom_zeroed db label both.1, by cases label <;> exact both.2⟩) .refl run
  obtain ⟨inv, recency⟩ := recency_of_reachable reached
  refine ⟨files, differ, fun s isS => ⟨found s isS, ?_⟩⟩
  exact (get_eq_scan db.listTables db.current db.tables inv.stored.laid recency.recent
    (fun _ _ _ => Cursor.listIterator_tracks _ _) [97] s).2

end Db

end Elsm
