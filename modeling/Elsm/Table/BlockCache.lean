import Elsm.Lib.Transition
import Elsm.Table.RoundTrip

/-!
# The block cache (`Table::BlockReader`, `ShardedLRUCache`)

Tables share one cache of blocks, under the id that a table gets when it is opened and the offset of the block.  An
id is given out once, and the data blocks of a table have different offsets.  So what is found in the cache is
what a read of the file gives, whatever the cache has evicted.
-/

namespace Elsm

open List Function
open Log (Crc)
open Cursor (Ascending)

/-! ## The code -/

structure BlockCache where
  /-- By `cache_id` and offset. -/
  blocks : Nat → Nat → Option Block
  lastId : Nat

def BlockCache.insert (cache : BlockCache) (id offset : Nat) (block : Block) : BlockCache :=
  { cache with blocks := update cache.blocks id (update (cache.blocks id) offset (some block)) }

structure CachedTable where
  table : Table
  cacheId : Nat

structure TableReaders where
  cache : BlockCache
  opened : List CachedTable

inductive ReaderEvent where
  | openTable (memory : HostMemory) (options : Table.Options) (file : RandomAccessFile) (size : Nat)
    (space : FooterSpace)
  /-- Blocks are evicted, erased or pruned. -/
  | drop (kept : Nat → Nat → Bool)
  | read (t : CachedTable) (memory : HostMemory) (verifyChecksums fillCache : Bool) (indexValue : Bytes)

variable (crc : Crc)

/-- `BlockReader` with a cache.  What `ReadBlock` returns is always cachable. -/
def CachedTable.blockReader (t : CachedTable) (memory : HostMemory) (verifyChecksums fillCache : Bool)
    (indexValue : Bytes) (cache : BlockCache) : BlockIterator × BlockCache :=
  match BlockHandle.decodeFrom indexValue with
  | .error s => (.error s, cache)
  | .ok (handle, _) =>
    match cache.blocks t.cacheId handle.offset with
    | some block => (block.newIterator, cache)
    | none =>
      match readToBlock crc memory t.table.file verifyChecksums handle with
      | .error s => (.error s, cache)
      | .ok block => (block.newIterator, if fillCache then cache.insert t.cacheId handle.offset block else cache)

namespace TableReaders

def init : TableReaders := ⟨⟨fun _ _ => none, 0⟩, []⟩

def step (s : TableReaders) : ReaderEvent → TableReaders
  | .openTable memory options file size space =>
    match Table.openTable crc memory options file size space with
    | .error _ => s
    | .ok table => ⟨{ s.cache with lastId := s.cache.lastId + 1 }, ⟨table, s.cache.lastId + 1⟩ :: s.opened⟩
  | .drop kept =>
    { s with cache := { s.cache with
        blocks := fun id offset => if kept id offset then s.cache.blocks id offset else none } }
  | .read t memory verifyChecksums fillCache indexValue =>
    { s with cache := (t.blockReader crc memory verifyChecksums fillCache indexValue s.cache).2 }

end TableReaders

/-- The value of an entry that the index iterator of the table shows. -/
def CachedTable.IsIndexValue (t : CachedTable) (indexValue : Bytes) : Prop :=
  ∃ moves it key, (keyedIterator internalCoding).Permitted t.table.indexBlock.newIterator moves ∧
    (keyedIterator internalCoding).moveAll moves t.table.indexBlock.newIterator = some it ∧
    (keyedIterator internalCoding).current it = some (key, indexValue)

/-- A whole file that `TableBuilder` wrote. -/
def RandomAccessFile.IsTable (file : RandomAccessFile) (size : Nat) : Prop :=
  size = file.contents.length ∧ size < 2 ^ 31 ∧ ∃ options userPolicy l, Ascending l ∧
    file.contents = writeTable crc options userPolicy l

/-- Table files are as they were written, and blocks are read for entries of an index. -/
def TableReaders.Admits (s : TableReaders) : ReaderEvent → Prop
  | .openTable _ _ file size _ => file.IsTable crc size
  | .drop _ => True
  | .read t _ _ _ indexValue => t ∈ s.opened ∧ t.IsIndexValue indexValue

/-! ## The blocks of a table -/

variable {crc}

/-- The blocks of the table, by their offsets.  Every index value is the handle of one. -/
def CachedTable.HasBlocks (crc : Crc) (t : CachedTable) (blockAt : Nat → Bytes) : Prop :=
  ∀ indexValue, t.IsIndexValue indexValue → ∃ handle, BlockHandle.decodeFrom indexValue = .ok (handle, []) ∧
    HoldsBlock crc t.table.file.contents handle (blockAt handle.offset)

theorem TableFile.hasBlocks {interval : Nat} {policy : Option FilterPolicy} {l : List FormedEntry} {t : CachedTable}
    (file : TableFile crc interval policy l t.table.file.contents) (short : t.table.file.contents.length < 2 ^ 31)
    {out : Nat → UInt8} (isIndex : t.table.indexBlock =
      .new (BlockBuilder.addAll 1 (internalCoding.stored (Draft.indexEntries file.pieces))).finish out) :
    ∃ blockAt, t.HasBlocks crc blockAt := by
  obtain ⟨blockAt, isBlock⟩ : ∃ blockAt : Nat → Bytes, ∀ p ∈ file.pieces,
      blockAt p.handle.offset = (BlockBuilder.addAll interval (internalCoding.stored p.entries)).finish := by
    refine ⟨fun offset => ((file.pieces.find? (·.handle.offset = offset)).map fun p =>
      (BlockBuilder.addAll interval (internalCoding.stored p.entries)).finish).getD [], fun p inPieces => ?_⟩
    obtain ⟨q, found⟩ : ∃ q, file.pieces.find? (·.handle.offset = p.handle.offset) = some q :=
      Option.isSome_iff_exists.mp (find?_isSome.mpr ⟨p, inPieces, decide_eq_true rfl⟩)
    have sameOffset : q.handle.offset = p.handle.offset := by simpa using find?_some found
    simp only [found, file.eq_of_offset (mem_of_find?_eq_some found) inPieces sameOffset, Option.map_some,
      Option.getD_some]
  refine ⟨blockAt, fun indexValue isValue => ?_⟩
  obtain ⟨moves, it, key, permitted, moved, shows⟩ := isValue
  rw [isIndex] at permitted moved
  have tracks := tracks_finish internalCoding 1 file.ascending_index out (file.isIndex.block_lt short)
  obtain ⟨p, inPieces, isEntry⟩ := mem_map.mp (tracks.shown_mem permitted moved shows)
  cases isEntry
  have stored := file.blocks.inFile p inPieces
  refine ⟨p.handle, (stored.fits short).decodeFrom, ?_⟩
  rw [isBlock p inPieces]
  exact stored.holdsBlock short

theorem RandomAccessFile.IsTable.hasBlocks {memory : HostMemory} {opts : Table.Options} {file : RandomAccessFile}
    {size : Nat} {space : FooterSpace} (isTable : file.IsTable crc size) {table : Table}
    (opens : Table.openTable crc memory opts file size space = .ok table) (id : Nat) :
    ∃ blockAt, CachedTable.HasBlocks crc ⟨table, id⟩ blockAt := by
  obtain ⟨isSize, short, built, userPolicy, l, asc, isContents⟩ := isTable
  subst isSize
  obtain ⟨wr⟩ := @finish_tableFile crc built (userPolicy.map internalFilterPolicy) l asc
  rw [← writeTable, ← isContents] at wr
  obtain ⟨long, isFooter⟩ := wr.footer_at short
  obtain ⟨out, isIndex⟩ := @HoldsBlock.readToBlock crc memory file _ _ (wr.isIndex.holdsBlock short) opts.paranoidChecks
  rw [Table.openTable_footer (wr.isMetaindex.fits short) (wr.isIndex.fits short) long isFooter, isIndex] at opens
  cases filter : Table.readMeta crc memory opts file ⟨wr.metaindex, wr.index⟩ with
  | error status => simp [filter, bind, Except.bind] at opens
  | ok filter =>
    simp only [filter, bind, Except.bind, pure, Except.pure, Except.ok.injEq] at opens
    subst opens
    exact @TableFile.hasBlocks crc _ _ _ ⟨_, id⟩ wr short out rfl

/-! ## Runs -/

/-- Ids are not given out twice, and what the cache has under one are blocks of its table. -/
structure TableReaders.Inv (crc : Crc) (s : TableReaders) : Prop where
  fresh : ∀ id, s.cache.lastId < id → ∀ offset, s.cache.blocks id offset = none
  given : ∀ t ∈ s.opened, t.cacheId ≤ s.cache.lastId
  distinct : ∀ t ∈ s.opened, ∀ t' ∈ s.opened, t.cacheId = t'.cacheId → t = t'
  cached : ∀ t ∈ s.opened, ∃ blockAt, t.HasBlocks crc blockAt ∧ ∀ offset, ∀ block ∈ s.cache.blocks t.cacheId offset,
    ∃ outside, block = .new (blockAt offset) outside

theorem CachedTable.HasBlocks.blockReader {t : CachedTable} {blockAt : Nat → Bytes} (has : t.HasBlocks crc blockAt)
    {cache : BlockCache}
    (cached : ∀ offset, ∀ block ∈ cache.blocks t.cacheId offset, ∃ outside, block = .new (blockAt offset) outside)
    {indexValue : Bytes} (isValue : t.IsIndexValue indexValue) (memory : HostMemory) (verify fill : Bool) :
    ∃ offset outside outside', t.table.blockReader crc memory verify indexValue =
        (Block.new (blockAt offset) outside).newIterator ∧
      (t.blockReader crc memory verify fill indexValue cache).1 = (Block.new (blockAt offset) outside').newIterator ∧
      ((t.blockReader crc memory verify fill indexValue cache).2 = cache ∨
        (t.blockReader crc memory verify fill indexValue cache).2 =
          cache.insert t.cacheId offset (.new (blockAt offset) outside')) := by
  obtain ⟨handle, decodes, holds⟩ := has indexValue isValue
  obtain ⟨outside, isRead⟩ := @HoldsBlock.readToBlock crc memory t.table.file _ _ holds verify
  have direct : t.table.blockReader crc memory verify indexValue =
      (Block.new (blockAt handle.offset) outside).newIterator := by
    simp only [Table.blockReader, decodes, isRead]
  cases found : cache.blocks t.cacheId handle.offset with
  | some block =>
    obtain ⟨outside', rfl⟩ := cached handle.offset block found
    refine ⟨handle.offset, outside, outside', direct, ?_, .inl ?_⟩
    · simp only [CachedTable.blockReader, decodes, found]
    · simp only [CachedTable.blockReader, decodes, found]
  | none =>
    refine ⟨handle.offset, outside, outside, direct, ?_, ?_⟩
    · simp only [CachedTable.blockReader, decodes, found, isRead]
    simp only [CachedTable.blockReader, decodes, found, isRead]
    cases fill
    · exact .inl rfl
    · exact .inr rfl

namespace TableReaders

theorem Inv.step {s : TableReaders} (inv : Inv crc s) {event : ReaderEvent} (adm : s.Admits crc event) :
    Inv crc (s.step crc event) := by
  cases event with
  | openTable memory opts file size space =>
    simp only [TableReaders.step]
    cases opens : Table.openTable crc memory opts file size space with
    | error status => exact inv
    | ok table =>
      have unused : ∀ t ∈ s.opened, t.cacheId ≠ s.cache.lastId + 1 :=
        fun t mem => (Nat.lt_succ_of_le (inv.given t mem)).ne
      obtain ⟨blockAt, has⟩ := adm.hasBlocks opens (s.cache.lastId + 1)
      refine ⟨fun id beyond => inv.fresh id (Nat.lt_of_succ_lt beyond), ?_, ?_, ?_⟩
      · exact forall_mem_cons.mpr ⟨le_rfl, fun t mem => Nat.le_succ_of_le (inv.given t mem)⟩
      · refine forall_mem_cons.mpr ⟨forall_mem_cons.mpr ⟨fun _ => rfl, fun t mem eq => ?_⟩, fun t mem => ?_⟩
        · exact absurd eq.symm (unused t mem)
        · exact forall_mem_cons.mpr ⟨fun eq => absurd eq (unused t mem), inv.distinct t mem⟩
      refine forall_mem_cons.mpr ⟨⟨blockAt, has, fun offset block found => ?_⟩, inv.cached⟩
      cases (inv.fresh _ (Nat.lt_succ_self _) offset).symm.trans found
  | drop kept =>
    refine { inv with fresh := fun id beyond offset => ?_, cached := fun t mem => ?_ }
    · simp [TableReaders.step, inv.fresh id beyond offset]
    obtain ⟨blockAt, has, cached⟩ := inv.cached t mem
    refine ⟨blockAt, has, fun offset block found => cached offset block ?_⟩
    simp only [TableReaders.step, Option.mem_def, Option.ite_none_right_eq_some] at found
    exact found.2
  | read t memory verify fill indexValue =>
    obtain ⟨mem, isValue⟩ := adm
    obtain ⟨blockAt, has, cached⟩ := inv.cached t mem
    obtain ⟨offset, outside, outside', -, -, same | inserted⟩ := has.blockReader cached isValue memory verify fill
    · simp only [TableReaders.step, same]
      exact inv
    simp only [TableReaders.step, inserted]
    refine { inv with fresh := fun id beyond other => ?_, cached := fun t' mem' => ?_ }
    · have differs : id ≠ t.cacheId := ((inv.given t mem).trans_lt beyond).ne'
      simp only [BlockCache.insert, update_of_ne differs]
      exact inv.fresh id beyond other
    by_cases here : t'.cacheId = t.cacheId
    · cases inv.distinct t' mem' t mem here
      refine ⟨blockAt, has, fun other block found => ?_⟩
      simp only [BlockCache.insert, update_self] at found
      by_cases there : other = offset
      · subst there
        rw [update_self, Option.mem_some_iff] at found
        exact ⟨outside', found.symm⟩
      · rw [update_of_ne there] at found
        exact cached other block found
    · simp only [BlockCache.insert, update_of_ne here]
      exact inv.cached t' mem'

/-- Whatever tables were opened, read and dropped from the cache before: a read of a block through the cache shows the
same contents as one that goes to the file. -/
theorem cached_reads_direct (crc : Crc) (s : TableReaders)
    (run : Transition.Reaches (fun s event s' => s.step crc event = s') (Admits crc) init s)
    (t : CachedTable) (isOpen : t ∈ s.opened) (indexValue : Bytes) (isValue : t.IsIndexValue indexValue)
    (memory : HostMemory) (verifyChecksums fillCache : Bool) : ∃ contents outside outside',
      t.table.blockReader crc memory verifyChecksums indexValue = (Block.new contents outside).newIterator ∧
      (t.blockReader crc memory verifyChecksums fillCache indexValue s.cache).1 =
        (Block.new contents outside').newIterator := by
  have inv : Inv crc s := by
    apply run.invariant (Inv crc)
    · constructor <;> simp [init]
    · rintro before _ event inv adm rfl
      exact inv.step adm
  obtain ⟨blockAt, has, cached⟩ := inv.cached t isOpen
  obtain ⟨offset, outside, outside', direct, isCached, -⟩ :=
    has.blockReader cached isValue memory verifyChecksums fillCache
  exact ⟨blockAt offset, outside, outside', direct, isCached⟩

def threeTable : RandomAccessFile := ⟨[], writeTable (fun _ => 0) ⟨16, 2⟩ none threeEntries⟩

/-- A block of a table with three entries is read twice, the second time from the cache. -/
theorem cached_reads_direct_twice : let memory : HostMemory := ⟨[], fun _ => 0⟩
    let space : FooterSpace := ⟨replicate 48 0, rfl⟩; ∃ table indexValue contents outside outside',
    Table.openTable (fun _ => 0) memory ⟨true, none⟩ threeTable threeTable.contents.length space = .ok table ∧
    table.blockReader (fun _ => 0) memory true indexValue = (Block.new contents outside).newIterator ∧
    (CachedTable.blockReader (fun _ => 0) ⟨table, 1⟩ memory true false indexValue
      (CachedTable.blockReader (fun _ => 0) ⟨table, 1⟩ memory false true indexValue ⟨fun _ _ => none, 1⟩).2).1 =
        (Block.new contents outside').newIterator := by
  intro memory space
  have asc : Ascending threeEntries := by decide +kernel
  have short : threeTable.contents.length < 2 ^ 31 := by decide +kernel
  obtain ⟨file⟩ := @finish_tableFile (fun _ => 0) ⟨16, 2⟩ none threeEntries asc
  obtain ⟨table, opens, isOpened⟩ : ∃ table, Table.openTable (fun _ => 0) memory ⟨true, none⟩ threeTable
      threeTable.contents.length space = .ok table ∧ file.Opened [] table := file.openTable short true [] space
  obtain ⟨indexValue, isValue⟩ : ∃ indexValue, CachedTable.IsIndexValue ⟨table, 1⟩ indexValue := by
    obtain ⟨out, isIndex⟩ := isOpened.indexBlock
    have tracks := tracks_finish internalCoding 1 file.ascending_index out (file.isIndex.block_lt short)
    rw [← isIndex] at tracks
    obtain ⟨it, moved, shows⟩ := tracks.scan (Nat.zero_le _)
    have isList := file.isList
    cases isPieces : file.pieces with
    | nil => simp [isPieces, threeEntries] at isList
    | cons p rest =>
      rw [isPieces] at shows
      exact ⟨p.handle.encode, [.seekToFirst], it, p.separator, by simp [Cursor.Iterator.Permitted, Cursor.Move.Allowed],
        moved, shows⟩
  have isTable : Admits (fun _ => 0) init (.openTable memory ⟨true, none⟩
      threeTable threeTable.contents.length space) :=
    ⟨rfl, short, ⟨16, 2⟩, none, threeEntries, asc, rfl⟩
  have opened : Transition.Reaches (fun s event s' => s.step (fun _ => 0) event = s') (Admits fun _ => 0) init
      ⟨⟨fun _ _ => none, 1⟩, [⟨table, 1⟩]⟩ := .tail .refl isTable (by simp only [step, opens]; rfl)
  have isRead : Admits (fun _ => 0) ⟨⟨fun _ _ => none, 1⟩, [⟨table, 1⟩]⟩ (.read _ memory false true indexValue) :=
    ⟨mem_cons_self, isValue⟩
  have filled := opened.tail isRead rfl
  obtain ⟨contents, outside, outside', direct, cached⟩ := cached_reads_direct (fun _ => 0) _ filled ⟨table, 1⟩
    mem_cons_self indexValue isValue memory true false
  exact ⟨table, indexValue, contents, outside, outside', opens, direct, cached⟩

end TableReaders

end Elsm
