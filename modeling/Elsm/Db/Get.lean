import Elsm.Db.Recency
import Elsm.Lib.ReadOrder

/-!
# Reads (`DBImpl::Get`, `Version::Get`, `db/table_cache.cpp`)

`Get` asks the memtables, then the files of one level after the other.  Below level 0 it asks
one file of a level, the one `FindFile` names.  `get_answers` reduces all this to a search
through sources in read order: where smaller levels are newer, the answer is the newest entry
the reader may see.
-/

namespace Elsm

open List
open Merkle (Record)
open ReadOrder (Answers NewestIn Covers)

/-! ## The code -/

inductive GetResult where
  | ok (value : Bytes)
  | notFound
  | corruption (userKey : Bytes)
  deriving DecidableEq, Repr

inductive SaverState where
  | notFound
  | found (value : Bytes)
  | deleted
  | corrupt
  deriving DecidableEq, Repr

/-- `SaveValue`, as called on the entry a table finds. -/
def saveValue (userKey : Bytes) (e : Record) : SaverState :=
  match parseInternalKey e.1 with
  | none => .corrupt
  | some parsed =>
    if parsed.userKey = userKey then
      if parsed.type = .value then .found e.2 else .deleted
    else .notFound

def tableGet (records : List Record) (key : InternalKey Bytes) : SaverState :=
  match records.find? fun e => key ≤ e.1 with
  | none => .notFound
  | some e => saveValue key.userKey e

/-- The inner loop of `Version::Get`. -/
def searchFiles (tables : Nat → List Record) (key : InternalKey Bytes) : List (FileMetaData Bytes) → GetResult
  | [] => .notFound
  | f :: rest =>
    match tableGet (tables f.number) key with
    | .notFound => searchFiles tables key rest
    | .found value => .ok value
    | .deleted => .notFound
    | .corrupt => .corruption key.userKey

/-- `Version::Get`: the files of all levels in the order the loops visit them. -/
def Version.get (version : Version Bytes) (tables : Nat → List Record) (key : InternalKey Bytes) : GetResult :=
  searchFiles tables key ((range kNumLevels).flatMap (filesToSearch version key))

/-- The status and value `MemTable::Get` returns when it found an entry. -/
def Found.result : Found → GetResult
  | .value v => .ok v
  | .deletion => .notFound

/-- `DBImpl::Get`, with the sequence number of the snapshot if one is given. -/
def Db.get (db : Db) (userKey : Bytes) (snapshot : Option Nat) : GetResult :=
  let key := lookupKey userKey (snapshot.getD db.lastSequence)
  match memTableGet db.mem key with
  | some found => found.result
  | none =>
    match db.imm.bind fun imm => memTableGet imm key with
    | some found => found.result
    | none => db.current.get db.tables key

/-! ## One source -/

/-- A reader at `s` sees the entries of its key up to that sequence number. -/
def Visible (userKey : Bytes) (s : Nat) (e : Record) : Prop :=
  e.1.userKey = userKey ∧ e.1.sequence ≤ s

def lookupEntry (userKey : Bytes) (s : Nat) (records : List Record) : Option Record :=
  (records.find? fun e => lookupKey userKey s ≤ e.1).filter fun e => e.1.userKey = userKey

def recordFound (e : Record) : Found :=
  if e.1.typeCode = ValueType.value.code then .value e.2 else .deletion

variable {k : InternalKey Bytes}

theorem type_cases (parses : (parseInternalKey k).isSome) :
    k.typeCode = ValueType.value.code ∨ k.typeCode = ValueType.deletion.code := by
  obtain ⟨ikey, parsed⟩ := Option.isSome_iff_exists.mp parses
  rw [parseInternalKey_eq_some parsed, InternalKey.make_typeCode]
  cases ikey.type with
  | value => exact .inl rfl
  | deletion => exact .inr rfl

theorem lookupKey_le_iff (parses : (parseInternalKey k).isSome) {ukey : Bytes} {s : Nat}
    (eq : k.userKey = ukey) : lookupKey ukey s ≤ k ↔ k.sequence ≤ s := by
  have code : k.typeCode ≤ 1 := by
    cases type_cases parses with
    | inl isValue => exact isValue.le
    | inr isDeletion => exact isDeletion.le.trans (Nat.zero_le 1)
  rw [InternalKey.le_iff]
  simp only [lookupKey, InternalKey.make_userKey, InternalKey.make_tag, kValueTypeForSeek, ValueType.code,
    eq, lt_irrefl, true_and, false_or]
  simp only [InternalKey.typeCode, InternalKey.sequence] at code ⊢
  omega

/-- The entry found is the newest visible one: the seek skips the newer ones, and older ones come
later. -/
theorem lookupEntry_answers {records : List Record} (sorted : records.Pairwise fun a b => a.1 < b.1)
    (parses : ∀ e ∈ records, (parseInternalKey e.1).isSome) (k : Bytes) (s : Nat) :
    Answers (Visible k s) (·.1.tag) records (lookupEntry k s records) := by
  have hit : ∀ y ∈ records, Visible k s y → decide (lookupKey k s ≤ y.1) = true :=
    fun y mem seen => decide_eq_true ((lookupKey_le_iff (parses y mem) seen.1).mpr seen.2)
  rw [lookupEntry]
  cases found : records.find? fun e => lookupKey k s ≤ e.1 with
  | none =>
    intro y mem seen
    exact find?_eq_none.mp found y mem (hit y mem seen)
  | some e =>
    have isMember := mem_of_find?_eq_some found
    have above : lookupKey k s ≤ e.1 := by
      simpa using find?_some found
    by_cases same : e.1.userKey = k
    · rw [Option.filter_some, if_pos (decide_eq_true same)]
      refine ⟨isMember, ⟨same, (lookupKey_le_iff (parses e isMember) same).mp above⟩, ?_⟩
      intro y mem seen
      cases SortedList.find?_first sorted found mem (hit y mem seen) with
      | inl isE => exact (congrArg (·.1.tag) isE).ge
      | inr lt => exact (InternalKey.tag_lt_of_lt (same.trans seen.1.symm) lt).le
    · rw [Option.filter_some, if_neg (by simpa using same)]
      intro y mem seen
      cases SortedList.find?_first sorted found mem (hit y mem seen) with
      | inl isE => exact same (isE ▸ seen.1)
      | inr lt =>
        have atLeast : k ≤ e.1.userKey := InternalKey.userKey_le_of_le above
        have atMost := InternalKey.userKey_le_of_le lt.le
        rw [seen.1] at atMost
        exact same (le_antisymm atMost atLeast)

theorem memTableGet_eq {mem : List Record} (parses : ∀ e ∈ mem, (parseInternalKey e.1).isSome) (k : Bytes) (s : Nat) :
    memTableGet mem (lookupKey k s) = (lookupEntry k s mem).map recordFound := by
  rw [memTableGet, lookupEntry]
  cases found : mem.find? fun e => lookupKey k s ≤ e.1 with
  | none => rfl
  | some e =>
    simp only [lookupKey, InternalKey.make_userKey, Option.filter_some]
    by_cases same : e.1.userKey = k
    · cases type_cases (parses e (mem_of_find?_eq_some found)) with
      | inl isValue => simp [same, isValue, recordFound]
      | inr isDeletion => simp [same, isDeletion, recordFound, ValueType.code, ValueType.ofCode?]
    · simp [same]

theorem tableGet_eq {records : List Record} (parses : ∀ e ∈ records, (parseInternalKey e.1).isSome) (k : Bytes)
    (s : Nat) :
    tableGet records (lookupKey k s) = match (lookupEntry k s records).map recordFound with
      | none => .notFound
      | some (.value v) => .found v
      | some .deletion => .deleted := by
  rw [tableGet, lookupEntry]
  cases found : records.find? fun e => lookupKey k s ≤ e.1 with
  | none => rfl
  | some e =>
    simp only [lookupKey, InternalKey.make_userKey, Option.filter_some, saveValue, parseInternalKey]
    by_cases same : e.1.userKey = k
    · cases type_cases (parses e (mem_of_find?_eq_some found)) with
      | inl isValue => simp [same, isValue, recordFound]
      | inr isDeletion => simp [same, isDeletion, recordFound, ValueType.code, ValueType.ofCode?]
    cases type_cases (parses e (mem_of_find?_eq_some found)) with
    | inl isValue => simp [same, isValue]
    | inr isDeletion => simp [same, isDeletion]

variable {tables : Nat → List Record}

theorem searchFiles_eq {files : List (FileMetaData Bytes)}
    (parses : ∀ f ∈ files, ∀ e ∈ tables f.number, (parseInternalKey e.1).isSome) (k : Bytes) (s : Nat) :
    searchFiles tables (lookupKey k s) files = ((files.findSome? fun f => lookupEntry k s (tables f.number)).map
        fun e => (recordFound e).result).getD .notFound := by
  induction files with
  | nil => rfl
  | cons f rest ih =>
    have ofRest := ih fun g inR => parses g (mem_cons_of_mem _ inR)
    rw [searchFiles, tableGet_eq (parses f mem_cons_self), findSome?_cons]
    cases lookupEntry k s (tables f.number) with
    | none => exact ofRest
    | some e =>
      cases found : recordFound e with
      | value | deletion => simp [found, Found.result]

/-! ## A sorted level -/

def levelRecords (version : Version Bytes) (tables : Nat → List Record) (level : Nat) : List Record :=
  (version.files level).flatMap fun f => tables f.number

/-- The files of a version describe their tables.  Below level 0 they are in order with no key in common, and no number
occurs twice at level 0. -/
structure Laid (version : Version Bytes) (tables : Nat → List Record) : Prop where
  table : ∀ level, ∀ f ∈ version.files level, Tabled f (tables f.number)
  disjoint : ∀ level, 0 < level → DisjointSorted (version.files level)
  depth : ∀ level, kNumLevels ≤ level → version.files level = []
  numbers : (version.files 0).Pairwise fun f g => f.number ≠ g.number

variable {version : Version Bytes}

theorem Stored.laid (stored : Stored version tables) : Laid version tables :=
  ⟨fun l f isFile => (stored.table l f isFile).tabled, stored.disjoint, stored.depth, stored.numbers_distinct 0⟩

variable {e : Record} {l : Nat}

namespace Laid

variable {version : Version Bytes} {tables : Nat → List Record} (laid : Laid version tables)

include laid

theorem levelRecords_sorted (pos : 0 < l) : (levelRecords version tables l).Pairwise fun a b => a.1 < b.1 := by
  rw [levelRecords, pairwise_flatMap]
  refine ⟨fun f isFile => (laid.table l f isFile).sorted, ?_⟩
  refine List.Pairwise.imp_of_mem ?_ (laid.disjoint l pos)
  intro f g isF isG pre e inF e' inG
  exact ((laid.table l f isF).le_largest e inF).trans_lt (pre.trans_le ((laid.table l g isG).smallest_le e' inG))

theorem levelRecords_parses (mem : e ∈ levelRecords version tables l) : (parseInternalKey e.1).isSome := by
  obtain ⟨f, isFile, inT⟩ := mem_flatMap.mp mem
  exact (laid.table l f isFile).parses e inT

/-- The one file `Version::Get` reads answers for its whole level. -/
theorem findSome?_filesToSearch (pos : 0 < l) (k : Bytes) (s : Nat) :
    ((filesToSearch version (lookupKey k s) l).findSome? fun f => lookupEntry k s (tables f.number)) =
      lookupEntry k s (levelRecords version tables l) := by
  have table := laid.table l
  have reaches : ∀ f ∈ version.files l, decide (lookupKey k s ≤ f.largest) = true ↔
      ∃ e ∈ tables f.number, decide (lookupKey k s ≤ e.1) = true := by
    intro f isFile
    simp only [decide_eq_true_eq]
    constructor
    · intro below
      obtain ⟨e, mem, isLargest⟩ := (table f isFile).largest_mem
      exact ⟨e, mem, isLargest ▸ below⟩
    · intro ⟨e, mem, below⟩
      exact below.trans ((table f isFile).le_largest e mem)
  rw [filesToSearch, if_neg pos.ne', findFile_get (laid.disjoint l pos) (fun f isFile => (table f isFile).ordered)]
  conv_rhs => rw [lookupEntry, levelRecords, SortedList.find?_flatMap_of_hits reaches]
  cases found : (version.files l).find? fun f => lookupKey k s ≤ f.largest with
  | none => rfl
  | some f =>
    have isFile := mem_of_find?_eq_some found
    change ((if k < f.smallest.userKey then [] else [f]).findSome?
      fun f => lookupEntry k s (tables f.number)) = lookupEntry k s (tables f.number)
    split
    case isTrue past =>
      symm
      rw [findSome?_nil, lookupEntry, Option.filter_eq_none_iff]
      intro e isFirst eq
      have inT := mem_of_find?_eq_some isFirst
      have range := (table f isFile).userKey_range inT
      rw [decide_eq_true_eq] at eq
      rw [eq] at range
      exact absurd range.1 (not_le.mpr past)
    case isFalse =>
      rw [findSome?_singleton]

end Laid

/-! ## All tables -/

def tableSources (version : Version Bytes) (tables : Nat → List Record) (key : InternalKey Bytes) :
    List (List Record) :=
  ((filesToSearch version key 0).map fun f => tables f.number) ++ (List.range' 1 6).map (levelRecords version tables)

def Version.Holds (version : Version Bytes) (tables : Nat → List Record) (e : Record) : Prop :=
  ∃ l, ∃ f ∈ version.files l, e ∈ tables f.number

/-- The newest entry that a reader at `s` sees, where the tag orders by sequence number and then by type. -/
def Version.Newest (version : Version Bytes) (tables : Nat → List Record) (userKey : Bytes) (s : Nat) :
    Option Record → Prop
  | some e => version.Holds tables e ∧ Visible userKey s e ∧
      ∀ y, version.Holds tables y → Visible userKey s y → y.1.tag ≤ e.1.tag
  | none => ∀ y, version.Holds tables y → ¬Visible userKey s y

theorem holds_of_mem_tableSources {key : InternalKey Bytes}
    {source : List Record} (isSource : source ∈ tableSources version tables key) (mem : e ∈ source) :
    version.Holds tables e := by
  cases mem_append.mp isSource with
  | inl zero =>
    obtain ⟨f, searched, rfl⟩ := mem_map.mp zero
    exact ⟨0, f, mem_filesToSearch searched, mem⟩
  | inr deeper =>
    obtain ⟨l, _, rfl⟩ := mem_map.mp deeper
    obtain ⟨f, isFile, inT⟩ := mem_flatMap.mp mem
    exact ⟨l, f, isFile, inT⟩

theorem tag_le_of_sequence_lt {k' : InternalKey Bytes} (lt : k.sequence < k'.sequence) : k.tag ≤ k'.tag := by
  simp only [InternalKey.sequence] at lt
  omega

theorem covers_of_newerTable {newer older : List Record} (isNewer : NewerTable newer older)
    (k : Bytes) (s : Nat) : Covers (Visible k s) (·.1.tag) newer older :=
  fun e inNewer e' inOlder seen seen' =>
    tag_le_of_sequence_lt (isNewer e inNewer e' inOlder (seen.1.trans seen'.1.symm))

namespace Laid

variable {version : Version Bytes} {tables : Nat → List Record} (laid : Laid version tables)

include laid

theorem get_eq (k : Bytes) (s : Nat) : version.get tables (lookupKey k s) =
      (((tableSources version tables (lookupKey k s)).findSome? (lookupEntry k s)).map
        fun e => (recordFound e).result).getD .notFound := by
  have levels : range kNumLevels = 0 :: List.range' 1 6 := by decide
  have deeper : ((List.range' 1 6).flatMap (filesToSearch version (lookupKey k s))).findSome?
      (fun f => lookupEntry k s (tables f.number)) =
      (List.range' 1 6).findSome? (lookupEntry k s ∘ levelRecords version tables) := by
    refine ReadOrder.findSome?_flatMap_eq fun l inRange => ?_
    exact laid.findSome?_filesToSearch (mem_range'_1.mp inRange).1 k s
  rw [Version.get, searchFiles_eq, levels, flatMap_cons, findSome?_append, deeper, tableSources,
    findSome?_append, findSome?_map, findSome?_map]
  · rfl
  intro f mem e inT
  obtain ⟨l, _, searched⟩ := mem_flatMap.mp mem
  exact (laid.table l f (mem_filesToSearch searched)).parses e inT

/-- Nothing a reader may see is missing from the sources. -/
theorem mem_tableSources {k : Bytes} {s : Nat} (held : version.Holds tables e) (seen : Visible k s e) :
    e ∈ (tableSources version tables (lookupKey k s)).flatten := by
  obtain ⟨l, f, isFile, inT⟩ := held
  rw [tableSources, flatten_append, mem_append]
  by_cases zero : l = 0
  · subst zero
    refine .inl (mem_flatten.mpr ⟨_, mem_map.mpr ⟨f, ?_, rfl⟩, inT⟩)
    have range := (laid.table 0 f isFile).userKey_range inT
    rw [seen.1] at range
    rw [filesToSearch, if_pos rfl, mem_insertionSort, mem_filter]
    exact ⟨isFile, decide_eq_true range⟩
  · have bound : l < kNumLevels := by
      by_contra beyond
      rw [laid.depth l (Nat.le_of_not_lt beyond)] at isFile
      cases isFile
    have inRange : l ∈ List.range' 1 6 := by
      rw [mem_range'_1]
      exact ⟨Nat.pos_of_ne_zero zero, bound⟩
    exact .inr (mem_flatten.mpr ⟨_, mem_map_of_mem inRange, mem_flatMap.mpr ⟨f, isFile, inT⟩⟩)

theorem sources_answer (k : Bytes) (s : Nat) :
    ∀ source ∈ tableSources version tables (lookupKey k s),
      Answers (Visible k s) (·.1.tag) source (lookupEntry k s source) := by
  intro source isSource
  simp only [tableSources, mem_append, mem_map] at isSource
  obtain ⟨f, searched, rfl⟩ | ⟨l, inRange, rfl⟩ := isSource
  · have table := laid.table 0 f (mem_filesToSearch searched)
    exact lookupEntry_answers table.sorted table.parses k s
  · exact lookupEntry_answers (laid.levelRecords_sorted (mem_range'_1.mp inRange).1)
      (fun _ => laid.levelRecords_parses) k s

/-- Where smaller levels are newer, what is asked earlier is newer. -/
theorem sources_cover (recent : Recent version tables) (k : Bytes) (s : Nat) :
    (tableSources version tables (lookupKey k s)).Pairwise (Covers (Visible k s) (·.1.tag)) := by
  refine pairwise_append.mpr ⟨?_, ?_, ?_⟩
  · rw [pairwise_map, filesToSearch, if_pos rfl]
    generalize isFilter : ((version.files 0).filter fun f => decide
      (f.smallest.userKey ≤ (lookupKey k s).userKey ∧ (lookupKey k s).userKey ≤ f.largest.userKey)) = files
    have sublist : files.Sublist (version.files 0) := isFilter ▸ filter_sublist
    have total : Std.Total fun a b : FileMetaData Bytes => b.number ≤ a.number :=
      ⟨fun a b => le_total b.number a.number⟩
    have transitive : IsTrans (FileMetaData Bytes) fun a b => b.number ≤ a.number :=
      ⟨fun a b c first snd => snd.trans first⟩
    have descending := pairwise_insertionSort (fun a b : FileMetaData Bytes => b.number ≤ a.number) files
    have dist := (perm_insertionSort (fun a b : FileMetaData Bytes => b.number ≤ a.number) files).symm.pairwise
      (laid.numbers.sublist sublist) fun {_ _} apart => Ne.symm apart
    refine List.Pairwise.imp_of_mem ?_ (descending.and dist)
    rintro f g isF isG ⟨below, apart⟩
    rw [mem_insertionSort] at isF isG
    exact covers_of_newerTable (recent.zero f (sublist.subset isF) g (sublist.subset isG)
      (lt_of_le_of_ne below (Ne.symm apart))) k s
  · rw [pairwise_map]
    refine List.Pairwise.imp ?_ (pairwise_lt_range' (s := 1) (n := 6))
    intro i j lt e inI e' inJ seen seen'
    obtain ⟨f, isF, inF⟩ := mem_flatMap.mp inI
    obtain ⟨g, isG, inG⟩ := mem_flatMap.mp inJ
    exact covers_of_newerTable (recent.levels i j lt f isF g isG) k s e inF e' inG seen seen'
  · intro zero isZero deeper isDeeper e inZero e' inDeeper seen seen'
    obtain ⟨f, searched, rfl⟩ := mem_map.mp isZero
    obtain ⟨j, inRange, rfl⟩ := mem_map.mp isDeeper
    obtain ⟨g, isG, inG⟩ := mem_flatMap.mp inDeeper
    exact covers_of_newerTable (recent.levels 0 j (mem_range'_1.mp inRange).1 f
      (mem_filesToSearch searched) g isG) k s e inZero e' inG seen seen'

theorem get_newest (recent : Recent version tables) (k : Bytes) (s : Nat) :
    ∃ ent, version.Newest tables k s ent ∧
      version.get tables (lookupKey k s) = (ent.map fun e => (recordFound e).result).getD .notFound := by
  have answers := ReadOrder.answers_findSome? (laid.sources_answer k s) (laid.sources_cover recent k s)
  refine ⟨_, ?_, laid.get_eq k s⟩
  cases found : (tableSources version tables (lookupKey k s)).findSome? (lookupEntry k s) with
  | none =>
    rw [found] at answers
    exact fun y held seen => answers y (laid.mem_tableSources held seen) seen
  | some e =>
    rw [found] at answers
    obtain ⟨source, isSource, inSource⟩ := mem_flatten.mp answers.mem
    exact ⟨holds_of_mem_tableSources isSource inSource, answers.seen,
      fun y held seen => answers.newest y (laid.mem_tableSources held seen) seen⟩

end Laid

/-! ## Memtables and tables -/

namespace Db

def Held (db : Db) (e : Record) : Prop :=
  e ∈ db.mem ∨ e ∈ db.imm.getD [] ∨ ∃ l, ∃ f ∈ db.current.files l, e ∈ db.tables f.number

def sources (db : Db) (key : InternalKey Bytes) : List (List Record) :=
  db.mem :: db.imm.getD [] :: (((filesToSearch db.current key 0).map fun f => db.tables f.number) ++
      (List.range' 1 6).map (levelRecords db.current db.tables))

theorem sources_eq (db : Db) (key : InternalKey Bytes) :
    db.sources key = db.mem :: db.imm.getD [] :: tableSources db.current db.tables key := rfl

variable {db : Db} (inv : Inv db)

include inv

theorem Inv.get_eq (k : Bytes) (snap : Option Nat) : db.get k snap =
      (((db.sources (lookupKey k (snap.getD db.lastSequence))).findSome?
        (lookupEntry k (snap.getD db.lastSequence))).map fun e => (recordFound e).result).getD
          .notFound := by
  generalize isLimit : snap.getD db.lastSequence = s
  have immGet : (db.imm.bind fun imm => memTableGet imm (lookupKey k s)) =
      (lookupEntry k s (db.imm.getD [])).map recordFound := by
    have valid := inv.immOk.valid
    cases isImm : db.imm with
    | none => rfl
    | some imm =>
      rw [isImm] at valid
      exact memTableGet_eq (fun e member => (valid e member).isSome) k s
  simp only [get, isLimit, sources_eq, findSome?_cons]
  rw [memTableGet_eq (fun e member => (inv.memOk.valid e member).isSome), immGet, inv.stored.laid.get_eq]
  cases lookupEntry k s db.mem with
  | some e => rfl
  | none =>
    cases lookupEntry k s (db.imm.getD []) with
    | some | none => rfl

theorem Inv.held_in_sources {k : Bytes} {s : Nat}
    (held : db.Held e) (seen : Visible k s e) : e ∈ (db.sources (lookupKey k s)).flatten := by
  simp only [sources_eq, flatten_cons, mem_append]
  obtain inMem | inImm | inTables := held
  · exact .inl inMem
  · exact .inr (.inl inImm)
  · exact .inr (.inr (inv.stored.laid.mem_tableSources inTables seen))

theorem Inv.sources_answer (k : Bytes) (s : Nat) : ∀ source ∈ db.sources (lookupKey k s),
      Answers (Visible k s) (·.1.tag) source (lookupEntry k s source) := by
  intro source isSource
  rw [sources_eq, mem_cons, mem_cons] at isSource
  obtain rfl | rfl | isTable := isSource
  · exact lookupEntry_answers inv.memOk.sorted (fun e mem => (inv.memOk.valid e mem).isSome) k s
  · exact lookupEntry_answers inv.immOk.sorted (fun e mem => (inv.immOk.valid e mem).isSome) k s
  · exact inv.stored.laid.sources_answer k s source isTable

theorem Inv.sources_cover (recent : Recent db.current db.tables) (k : Bytes) (s : Nat) :
    (db.sources (lookupKey k s)).Pairwise (Covers (Visible k s) (·.1.tag)) := by
  refine pairwise_cons.mpr ⟨?_, pairwise_cons.mpr ⟨?_, inv.stored.laid.sources_cover recent k s⟩⟩
  · intro source isSource m inMem e inSource _ _
    cases mem_cons.mp isSource with
    | inl isImm => exact tag_le_of_sequence_lt ((inv.memNewer m inMem).1 e (isImm ▸ inSource))
    | inr isTable =>
      obtain ⟨l, f, isFile, inT⟩ := holds_of_mem_tableSources isTable inSource
      exact tag_le_of_sequence_lt ((inv.memNewer m inMem).2 l f isFile e inT)
  · intro source isSource i inImm e inSource _ _
    obtain ⟨l, f, isFile, inT⟩ := holds_of_mem_tableSources isSource inSource
    exact tag_le_of_sequence_lt (inv.immNewer i inImm l f isFile e inT)

/-- The entry a read goes by: the newest that is held and visible. -/
def Reads (db : Db) (userKey : Bytes) (s : Nat) : Option Record → Prop
  | some e => db.Held e ∧ Visible userKey s e ∧ ∀ y, db.Held y → Visible userKey s y → y.1.sequence ≤ e.1.sequence
  | none => ∀ y, db.Held y → ¬ Visible userKey s y

theorem Inv.get_reads (recent : Recent db.current db.tables) (k : Bytes)
    (snap : Option Nat) : ∃ ent, db.Reads k (snap.getD db.lastSequence) ent ∧
      db.get k snap = (ent.map fun e => (recordFound e).result).getD .notFound := by
  rw [inv.get_eq]
  generalize snap.getD db.lastSequence = s
  have answers := ReadOrder.answers_findSome? (inv.sources_answer k s) (inv.sources_cover recent k s)
  refine ⟨_, ?_, rfl⟩
  cases found : (db.sources (lookupKey k s)).findSome? (lookupEntry k s) with
  | none =>
    rw [found] at answers
    exact fun y held seen => answers y (inv.held_in_sources held seen) seen
  | some e =>
    rw [found] at answers
    refine ⟨?_, answers.seen, fun y held seen =>
      Nat.div_le_div_right (answers.newest y (inv.held_in_sources held seen) seen)⟩
    obtain ⟨source, isSource, inSource⟩ := mem_flatten.mp answers.mem
    obtain isMem | later := mem_cons.mp isSource
    · exact .inl (isMem ▸ inSource)
    obtain isImm | isTable := mem_cons.mp later
    · exact .inr (.inl (isImm ▸ inSource))
    · exact .inr (.inr (holds_of_mem_tableSources isTable inSource))

end Db

end Elsm
