import Elsm.Db.Get
import Elsm.Merkle.Verify
import Elsm.Table.BlockCache

/-!
# Reading tables of an untrusted host (`TableCache::Get`, `Table::InternalGet`, `Version::Get`)

The table files are the host's, and so is what a read of one returns.  The enclave keeps the index of a
table it has opened and the blocks it has read in caches, and asks the host for the rest.  Behind
`InternalGet`, `TableCache::Get` goes through the motions of a Merkle check: it tags two local buffers that
nobody has written to, and forgets the tags.  So a value is only as good as the file it was read
from: `saved_values_written` is for hosts that leave the files alone, and `forged_value_saved` for the others.

A run is what can happen to tables in the life of a database: they are written, listed in versions, opened, read,
evicted and deleted.
-/

namespace Elsm

open List Function
open Log (Crc)
open Cursor (Ascending First)
open Merkle (Record Mac Digest TREE_HEIGHT recordRoot)

/-! ## The code -/

/-- How a database writes and opens its tables. -/
structure TableSetting where
  crc : Crc
  mac : Mac
  options : TableOptions
  userPolicy : Option FilterPolicy
  paranoidChecks : Bool

/-- What a call of `TableCache::Get` finds: memory of the host, the read options, and the bytes in its locals. -/
structure ReadCall where
  memory : HostMemory
  footerSpace : FooterSpace
  verifyChecksums : Bool
  fillCache : Bool
  record : Bytes
  tmp : Bytes

/-- The files of the host, and what the enclave knows about them.  `written` is what `BuildTable` or a
compaction wrote under a number. -/
structure TableStore where
  written : Nat → Option (List FormedEntry)
  /-- By name. -/
  disk : Bytes → Option Bytes
  version : Version Bytes
  tableCache : Nat → Option CachedTable
  blockCache : BlockCache
  /-- The global `cmac`. -/
  cmac : Digest

inductive TableAnswer where
  /-- The saver stored the value of an entry of a file. -/
  | found (f : FileMetaData Bytes) (e : Record)
  | deleted
  | notFound
  | failed (status : Status)

inductive TableEvent where
  /-- `BuildTable` or a compaction finishes a table. -/
  | write (number : Nat) (records : List FormedEntry)
  | install (version : Version Bytes)
  | get (key : FormedKey) (call : Nat → ReadCall)
  /-- `TableCache::NewIterator`, as for the check at the end of `BuildTable`. -/
  | openTable (number : Nat) (call : ReadCall)
  | read (number : Nat) (key : FormedKey) (call : ReadCall)
  | evictTable (number : Nat)
  | evictBlock (id offset : Nat)
  | deleteFile (number : Nat)
  /-- The database is closed and opened, with new caches. -/
  | restart
  /-- The host puts other bytes in the place of a file, or removes it. -/
  | host (name : Bytes) (file : Option Bytes)

def FormedEntry.record (e : FormedEntry) : Record := (e.1.1, e.2)

/-- `SaveValue`, as called on the bytes of an entry. -/
def saveEntry (userKey : Bytes) (e : Bytes × Bytes) : SaverState :=
  if e.1.length < 8 then .corrupt else saveValue userKey (.decodeFrom e.1, e.2)

namespace TableSetting

variable (c : TableSetting)

def tableFile (records : List FormedEntry) : Bytes := writeTable c.crc c.options c.userPolicy records

def openTable (file : RandomAccessFile) (size : Nat) (call : ReadCall) : Except Status Table :=
  Table.openTable c.crc call.memory ⟨c.paranoidChecks, c.userPolicy.map internalFilterPolicy⟩ file size call.footerSpace

/-- `Table::InternalGet`, with the entry that it passes to the saver.  An assertion ends the process. -/
def internalGet (t : CachedTable) (k : Bytes) (call : ReadCall) (cache : BlockCache) :
    Option (Bytes × Bytes) × Option Status × BlockCache :=
  match (blockIterator internalCompare).move (.seek k) t.table.indexBlock.newIterator with
  | none => (none, some .abort, cache)
  | some iiter =>
    match (blockIterator internalCompare).current iiter with
    | none => (none, iiter.status, cache)
    | some (_, handleValue) =>
      if t.table.filterRefuses handleValue k then (none, iiter.status, cache)
      else
        match t.blockReader c.crc call.memory call.verifyChecksums call.fillCache handleValue cache with
        | (block, cache) =>
          match (blockIterator internalCompare).move (.seek k) block with
          | none => (none, some .abort, cache)
          | some blockIter =>
            ((blockIterator internalCompare).current blockIter, blockIter.status <|> iiter.status, cache)

def tagLocals (call : ReadCall) : Digest :=
  (range TREE_HEIGHT).foldl (fun _ _ => c.mac call.tmp) (c.mac call.record)

end TableSetting

/-- A read of the file of an open table asks the host, too. -/
def CachedTable.reserved (t : CachedTable) (name contents : Bytes) : CachedTable :=
  if t.table.file.filename = name then { t with table := { t.table with file := ⟨name, contents⟩ } } else t

namespace TableStore

variable (c : TableSetting)

def noFile (number : Nat) : Status := .ioError (toText (tableFileName number))

/-- `NewRandomAccessFile` for a table, under its name or the old one. -/
def randomAccessFile (s : TableStore) (number : Nat) : Option RandomAccessFile :=
  match s.disk (tableFileName number) with
  | some contents => some ⟨tableFileName number, contents⟩
  | none => (s.disk (sstTableFileName number)).map fun contents => ⟨sstTableFileName number, contents⟩

def insertTable (s : TableStore) (number : Nat) (table : Table) : TableStore :=
  { s with
    tableCache := update s.tableCache number (some ⟨table, s.blockCache.lastId + 1⟩)
    blockCache := { s.blockCache with lastId := s.blockCache.lastId + 1 } }

def findTable (s : TableStore) (number size : Nat) (call : ReadCall) : Except Status CachedTable × TableStore :=
  match s.tableCache number with
  | some table => (.ok table, s)
  | none =>
    match s.randomAccessFile number with
    | none => (.error (noFile number), s)
    | some file =>
      match c.openTable file size call with
      | .error error => (.error error, s)
      | .ok table => (.ok ⟨table, s.blockCache.lastId + 1⟩, s.insertTable number table)

def tableCacheGet (s : TableStore) (number size : Nat) (key : FormedKey) (call : ReadCall) :
    Option (Bytes × Bytes) × Option Status × TableStore :=
  match s.findTable c number size call with
  | (.error error, s) => (none, some error, s)
  | (.ok table, s) =>
    match c.internalGet table key.1.encode call s.blockCache with
    | (entry, status, blockCache) => (entry, status, { s with blockCache, cmac := c.tagLocals call })

/-- The loops of `Version::Get`, over the files they visit. -/
def searchTables (key : FormedKey) (call : Nat → ReadCall) :
    List (FileMetaData Bytes) → TableStore → TableAnswer × TableStore
  | [], s => (.notFound, s)
  | f :: rest, s =>
    match s.tableCacheGet c f.number f.fileSize key (call f.number) with
    | (_, some error, s) => (.failed error, s)
    | (none, none, s) => searchTables key call rest s
    | (some e, none, s) =>
      match saveEntry key.1.userKey e with
      | .notFound => searchTables key call rest s
      | .found value => (.found f (.decodeFrom e.1, value), s)
      | .deleted => (.deleted, s)
      | .corrupt => (.failed (.corruption ("corrupted key for : " ++ toText key.1.userKey)), s)

def get (s : TableStore) (key : FormedKey) (call : Nat → ReadCall) : TableAnswer × TableStore :=
  searchTables c key call ((range kNumLevels).flatMap (filesToSearch s.version key.1)) s

def allFiles (version : Version Bytes) : List (FileMetaData Bytes) := (range kNumLevels).flatMap version.files

def hasFile (s : TableStore) (f : FileMetaData Bytes) : Bool :=
  match s.written f.number with
  | some records => f.fileSize = (c.tableFile records).length
  | none => false

def step (s : TableStore) : TableEvent → Except Stop TableStore
  | .write number records =>
    if s.written number = none then
      -- the assertion in `TableBuilder::Add`
      if Ascending records then
        .ok { s with
          written := update s.written number (some records)
          disk := update s.disk (tableFileName number) (some (c.tableFile records)) }
      else .error .abort
    else .error .disabled
  | .install version =>
    if (allFiles version).all (s.hasFile c) then .ok { s with version }
    else .error .disabled
  | .get key call =>
    match s.get c key call with
    | (.failed .abort, _) => .error .abort
    | (_, s) => .ok s
  | .openTable number call =>
    match s.written number with
    | none => .error .disabled
    | some records =>
      match s.findTable c number (c.tableFile records).length call with
      | (.error .abort, _) => .error .abort
      | (_, s) => .ok s
  | .read number key call =>
    match s.written number with
    | none => .error .disabled
    | some records =>
      match s.tableCacheGet c number (c.tableFile records).length key call with
      | (_, some .abort, _) => .error .abort
      | (_, _, s) => .ok s
  | .evictTable number => .ok { s with tableCache := update s.tableCache number none }
  | .evictBlock id offset => .ok { s with
      blockCache := { s.blockCache with
        blocks := update s.blockCache.blocks id (update (s.blockCache.blocks id) offset none) } }
  | .deleteFile number =>
    .ok { s with
      disk := update (update s.disk (tableFileName number) none) (sstTableFileName number) none
      tableCache := update s.tableCache number none }
  | .restart => .ok { s with tableCache := fun _ => none, blockCache := ⟨fun _ _ => none, 0⟩ }
  | .host name none => .ok { s with disk := update s.disk name none }
  | .host name (some contents) =>
    .ok { s with
      disk := update s.disk name (some contents)
      tableCache := fun number => (s.tableCache number).map (·.reserved name contents) }

def init : TableStore where
  written := fun _ => none
  disk := fun _ => none
  version := .empty
  tableCache := fun _ => none
  blockCache := ⟨fun _ _ => none, 0⟩
  cmac := Merkle.zeroDigest

abbrev Reachable (allowed : TableStore → TableEvent → Prop) : TableStore → Prop :=
  Transition.Reaches (Transition.Steps (step c)) allowed init

/-! ## A host that leaves the files alone -/

def PassesCheck (root : Digest) (e : Record) : Prop := ∃ position, recordRoot c.mac position e = root

def Rooted (records : List FormedEntry) (root : Digest) : Prop :=
  ∀ position e, records[position]? = some e → recordRoot c.mac position e.record = root

/-- The host puts nothing but what was written in the place of a table, tables have less than two gigabytes, and the
versions have the right roots. -/
def Untouched (s : TableStore) : TableEvent → Prop
  | .write _ records => (c.tableFile records).length < 2 ^ 31
  | .host name file => ∀ contents, file = some contents → ∀ number, name ≠ sstTableFileName number ∧
      ∀ records, s.written number = some records → name = tableFileName number → contents = c.tableFile records
  | .install version => ∀ f ∈ allFiles version, ∀ records,
      s.written f.number = some records → Rooted c records f.rh
  | _ => True

/-- What a lookup finds in the block is one of the records. -/
def Within (records : List FormedEntry) (block : Block) : Prop :=
  ∀ key : FormedKey, ∃ it, (blockIterator internalCompare).move (.seek key.1.encode) block.newIterator = some it ∧
    ∀ shown, (blockIterator internalCompare).current it = some shown → ∃ e ∈ records, shown = (e.1.1.encode, e.2)

def IsOpen (number : Nat) (records : List FormedEntry) (table : Table) : Prop :=
  ∃ file : TableFile c.crc c.options.blockRestartInterval (c.userPolicy.map internalFilterPolicy) records
    (c.tableFile records), file.Opened (tableFileName number) table

/-- What the metadata say about the files, and the host has of them, is what was written. -/
structure FilesIntact (s : TableStore) : Prop where
  listed : ∀ f ∈ allFiles s.version, ∃ records, s.written f.number = some records ∧
    f.fileSize = (c.tableFile records).length ∧ Rooted c records f.rh
  valid : ∀ {number records}, s.written number = some records → Ascending records ∧
    (c.tableFile records).length < 2 ^ 31
  intact : ∀ {number records file}, s.written number = some records → s.disk (tableFileName number) = some file →
    file = c.tableFile records
  noOld : ∀ number, s.disk (sstTableFileName number) = none

/-- What is in the caches was read from the tables as they were written.  `owner` is the table that got an id
of the block cache. -/
structure CachesIntact (owner : Nat → Nat) (s : TableStore) : Prop where
  opened : ∀ {number table}, s.tableCache number = some table → table.cacheId ≤ s.blockCache.lastId ∧
    owner table.cacheId = number ∧ ∃ records, s.written number = some records ∧ IsOpen c number records table.table
  blocks : ∀ {id offset block}, s.blockCache.blocks id offset = some block → id ≤ s.blockCache.lastId ∧
    ∃ records, s.written (owner id) = some records ∧ Within records block

def Intact (s : TableStore) : Prop := FilesIntact c s ∧ ∃ owner, CachesIntact c owner s

structure SameFiles (s s' : TableStore) : Prop where
  written : s'.written = s.written
  disk : s'.disk = s.disk
  version : s'.version = s.version

structure Kept (s s' : TableStore) : Prop extends SameFiles s s' where
  inv : Intact c s'

variable {c}

theorem SameFiles.refl (s : TableStore) : SameFiles s s := ⟨rfl, rfl, rfl⟩

theorem SameFiles.trans {s s' s'' : TableStore} (first : SameFiles s s') (snd : SameFiles s' s'') : SameFiles s s'' :=
  ⟨snd.written.trans first.written, snd.disk.trans first.disk, snd.version.trans first.version⟩

variable {s s' : TableStore}

theorem FilesIntact.of_same (files : FilesIntact c s) (eq : SameFiles s s') : FilesIntact c s' where
  listed := by
    rw [eq.version, eq.written]
    exact files.listed
  valid := by
    rw [eq.written]
    exact files.valid
  intact := by
    rw [eq.written, eq.disk]
    exact files.intact
  noOld := by
    rw [eq.disk]
    exact files.noOld

/-! ### The blocks of a table -/

variable {records : List FormedEntry} {n : Nat} {table : CachedTable} {cache : BlockCache}

theorem within_finish {entries : List FormedEntry} {interval : Nat} {out : Nat → UInt8} (asc : Ascending entries)
    (short : (BlockBuilder.addAll interval (internalCoding.stored entries)).finish.length < 2 ^ 32)
    (sub : ∀ e ∈ entries, e ∈ records) :
    Within records (.new (BlockBuilder.addAll interval (internalCoding.stored entries)).finish out) := by
  intro key
  obtain ⟨it, moved, -, shows⟩ := seek_finish internalCoding interval asc out short key
  refine ⟨it, moved, fun shown isShown => ?_⟩
  obtain ⟨e, isAt, rfl⟩ := Option.map_eq_some_iff.mp (shows.symm.trans isShown)
  exact ⟨e, sub e (mem_of_getElem? isAt), rfl⟩

theorem isOpen_of_openTable {call : ReadCall} {opened : Table} (asc : Ascending records)
    (short : (c.tableFile records).length < 2 ^ 31)
    (opens : c.openTable ⟨tableFileName n, c.tableFile records⟩ (c.tableFile records).length call = .ok opened) :
    IsOpen c n records opened := by
  obtain ⟨file⟩ := @finish_tableFile c.crc c.options (c.userPolicy.map internalFilterPolicy) records asc
  obtain ⟨table, opensTo, isOpened⟩ := @TableFile.openTable c.crc call.memory _ _ _ _ file short c.paranoidChecks
    (tableFileName n) call.footerSpace
  cases opens.symm.trans opensTo
  exact ⟨file, isOpened⟩

section

variable (file : TableFile c.crc c.options.blockRestartInterval (c.userPolicy.map internalFilterPolicy) records
    (c.tableFile records)) (isOpened : file.Opened (tableFileName n) table.table) (asc : Ascending records)
  (short : (c.tableFile records).length < 2 ^ 31)
  (cached : ∀ {offset block}, cache.blocks table.cacheId offset = some block → Within records block)
  (call : ReadCall)

include isOpened asc short cached

/-- The block of an index entry is in the cache or read from the file, and holds records of the table. -/
theorem blockReader_within {p : Piece} (mem : p ∈ file.pieces) : ∃ block, Within records block ∧
    (table.blockReader c.crc call.memory call.verifyChecksums call.fillCache p.handle.encode cache).1 =
      block.newIterator ∧
    ((table.blockReader c.crc call.memory call.verifyChecksums call.fillCache p.handle.encode cache).2 = cache ∨
      ∃ offset, (table.blockReader c.crc call.memory call.verifyChecksums call.fillCache p.handle.encode cache).2 =
        cache.insert table.cacheId offset block) := by
  have stored := file.blocks.inFile p mem
  have decodes := (stored.fits short).decodeFrom
  cases hit : cache.blocks table.cacheId p.handle.offset with
  | some block =>
    refine ⟨block, cached hit, ?_, .inl ?_⟩
    · simp only [CachedTable.blockReader, decodes, hit]
    · simp only [CachedTable.blockReader, decodes, hit]
  | none =>
    have within : ∀ out, Within records
        (.new (BlockBuilder.addAll c.options.blockRestartInterval (internalCoding.stored p.entries)).finish out) := by
      refine fun out => within_finish (file.ascending_entries asc mem) (stored.block_lt short) fun e inPiece => ?_
      rw [file.isList]
      exact mem_flatMap.mpr ⟨p, mem, inPiece⟩
    obtain ⟨out, isBlock⟩ := @HoldsBlock.readToBlock c.crc call.memory ⟨tableFileName n, c.tableFile records⟩ _ _
      (stored.holdsBlock short) call.verifyChecksums
    refine ⟨_, within out, ?_, ?_⟩
    · simp only [CachedTable.blockReader, decodes, hit, isOpened.file, isBlock]
    · simp only [CachedTable.blockReader, decodes, hit, isOpened.file, isBlock]
      split
      · exact .inr ⟨_, rfl⟩
      · exact .inl rfl

theorem internalGet_within (key : FormedKey) :
    (∀ shown, (c.internalGet table key.1.encode call cache).1 = some shown →
      ∃ e ∈ records, shown = (e.1.1.encode, e.2)) ∧
    ((c.internalGet table key.1.encode call cache).2.2 = cache ∨ ∃ offset block, Within records block ∧
      (c.internalGet table key.1.encode call cache).2.2 = cache.insert table.cacheId offset block) := by
  obtain ⟨out, isIndex⟩ := isOpened.indexBlock
  obtain ⟨iiter, moved, -, shows⟩ := seek_finish internalCoding 1 file.ascending_index out (file.isIndex.block_lt short)
    key
  rw [← isIndex] at moved
  have isMoved : (blockIterator internalCompare).move (.seek key.1.encode) table.table.indexBlock.newIterator =
      some iiter := moved
  cases isShown : (blockIterator internalCompare).current iiter with
  | none => simp [TableSetting.internalGet, isMoved, isShown]
  | some shown =>
    obtain ⟨e, isAt, rfl⟩ := Option.map_eq_some_iff.mp (shows.symm.trans isShown)
    obtain ⟨p, mem, rfl⟩ := mem_map.mp (mem_of_getElem? isAt)
    by_cases refuses : table.table.filterRefuses p.handle.encode key.1.encode
    · simp [TableSetting.internalGet, isMoved, isShown, refuses]
    · obtain ⟨block, within, isBlock, leaves⟩ := blockReader_within file isOpened asc short cached call mem
      obtain ⟨it, movedIn, found⟩ := within key
      rw [← isBlock] at movedIn
      simp only [TableSetting.internalGet, isMoved, isShown, refuses, movedIn, Bool.false_eq_true, if_false]
      refine ⟨found, leaves.imp_right ?_⟩
      rintro ⟨offset, inserted⟩
      exact ⟨offset, block, within, inserted⟩

end

/-! ### One read -/

theorem Intact.kept (inv : Intact c s) : Kept c s s := ⟨.refl s, inv⟩

theorem Kept.trans {s'' : TableStore} (first : Kept c s s') (snd : Kept c s' s'') : Kept c s s'' :=
  ⟨first.toSameFiles.trans snd.toSameFiles, snd.inv⟩

theorem update_eq_some {α β : Type*} [DecidableEq α] {f : α → Option β} {a a' : α} {entry : Option β} {b : β}
    (hit : update f a entry a' = some b) : (a' = a ∧ entry = some b) ∨ f a' = some b := by
  by_cases same : a' = a
  · subst same
    exact .inl ⟨rfl, by rwa [update_self] at hit⟩
  · rw [update_of_ne same] at hit
    exact .inr hit

theorem Intact.insertTable (inv : Intact c s) (isWritten : s.written n = some records) {opened : Table}
    (isOpen : IsOpen c n records opened) :
    Intact c (s.insertTable n opened) := by
  obtain ⟨files, owner, caches⟩ := inv
  refine ⟨files.of_same ⟨rfl, rfl, rfl⟩, update owner (s.blockCache.lastId + 1) n, ?_, ?_⟩
  · intro other table cached
    obtain ⟨rfl, isNew⟩ | cached := update_eq_some cached
    · cases isNew
      exact ⟨le_rfl, update_self .., records, isWritten, isOpen⟩
    · obtain ⟨old, owned, rest⟩ := caches.opened cached
      refine ⟨Nat.le_succ_of_le old, ?_, rest⟩
      rw [update_of_ne (Nat.ne_of_lt (Nat.lt_succ_of_le old))]
      exact owned
  · intro id offset block cached
    obtain ⟨old, rest⟩ := caches.blocks cached
    refine ⟨Nat.le_succ_of_le old, ?_⟩
    rw [update_of_ne (Nat.ne_of_lt (Nat.lt_succ_of_le old))]
    exact rest

theorem FilesIntact.randomAccessFile (files : FilesIntact c s) (isWritten : s.written n = some records)
    {file : RandomAccessFile} (present : s.randomAccessFile n = some file) :
    file = ⟨tableFileName n, c.tableFile records⟩ := by
  unfold TableStore.randomAccessFile at present
  split at present
  case h_1 contents onDisk =>
    cases present
    rw [files.intact isWritten onDisk]
  case h_2 => simp [files.noOld] at present

theorem Intact.findTable (inv : Intact c s) (isWritten : s.written n = some records) (call : ReadCall) :
    Kept c s (s.findTable c n (c.tableFile records).length call).2 ∧
      ∀ {table}, (s.findTable c n (c.tableFile records).length call).1 = .ok table →
        (s.findTable c n (c.tableFile records).length call).2.tableCache n = some table := by
  unfold TableStore.findTable
  split
  case h_1 table cached =>
    refine ⟨inv.kept, ?_⟩
    rintro _ ⟨⟩
    exact cached
  case h_2 =>
    split
    case h_1 => exact ⟨inv.kept, nofun⟩
    case h_2 file present =>
      cases inv.1.randomAccessFile isWritten present
      split
      case h_1 => exact ⟨inv.kept, nofun⟩
      case h_2 opened opens =>
        obtain ⟨asc, short⟩ := inv.1.valid isWritten
        have isOpen := isOpen_of_openTable asc short opens
        refine ⟨⟨⟨rfl, rfl, rfl⟩, inv.insertTable isWritten isOpen⟩, ?_⟩
        rintro _ ⟨⟩
        exact update_self ..

theorem update₂_eq_some {α β γ : Type*} [DecidableEq α] [DecidableEq β] {f : α → β → Option γ} {a a' : α} {b b' : β}
    {entry : Option γ} {value : γ} (hit : update f a (update (f a) b entry) a' b' = some value) :
    (a' = a ∧ b' = b ∧ entry = some value) ∨ f a' b' = some value := by
  by_cases same : a' = a
  · subst same
    rw [update_self] at hit
    exact (update_eq_some hit).imp_left fun inner => ⟨rfl, inner⟩
  · rw [update_of_ne same] at hit
    exact .inr hit

/-- A lookup in an open table shows a record that was written, and leaves only blocks of the table in the cache. -/
theorem Intact.internalGet (inv : Intact c s) (isWritten : s.written n = some records)
    (isCached : s.tableCache n = some table) (key : FormedKey) (call : ReadCall) (cmac : Digest) :
    Intact c { s with blockCache := (c.internalGet table key.1.encode call s.blockCache).2.2, cmac } ∧
      ∀ {shown}, (c.internalGet table key.1.encode call s.blockCache).1 = some shown →
        ∃ e ∈ records, shown = (e.1.1.encode, e.2) := by
  obtain ⟨files, owner, caches⟩ := inv
  obtain ⟨asc, short⟩ := files.valid isWritten
  obtain ⟨given, owned, others, isWritten', file, isOpened⟩ := caches.opened isCached
  cases isWritten.symm.trans isWritten'
  have cached : ∀ {offset block}, s.blockCache.blocks table.cacheId offset = some block → Within records block := by
    intro offset block hit
    obtain ⟨-, others, isWritten', within⟩ := caches.blocks hit
    rw [owned] at isWritten'
    cases isWritten.symm.trans isWritten'
    exact within
  obtain ⟨found, leaves⟩ := internalGet_within file isOpened asc short cached call key
  refine ⟨⟨files.of_same ⟨rfl, rfl, rfl⟩, owner, ?_⟩, found _⟩
  obtain same | ⟨offset, block, within, inserted⟩ := leaves
  · rw [same]
    exact ⟨caches.opened, caches.blocks⟩
  · rw [inserted]
    refine ⟨caches.opened, fun hit => ?_⟩
    obtain ⟨rfl, rfl, isNew⟩ | hit := update₂_eq_some hit
    · cases isNew
      exact ⟨given, records, owned ▸ isWritten, within⟩
    · exact caches.blocks hit

section

variable (inv : Intact c s)

include inv

theorem Intact.tableCacheGet (isWritten : s.written n = some records) (key : FormedKey) (call : ReadCall) :
    Kept c s (s.tableCacheGet c n (c.tableFile records).length key call).2.2 ∧
      ∀ {shown}, (s.tableCacheGet c n (c.tableFile records).length key call).1 = some shown →
        ∃ e ∈ records, shown = (e.1.1.encode, e.2) := by
  obtain ⟨kept, cached⟩ := inv.findTable isWritten call
  unfold TableStore.tableCacheGet
  split
  case h_1 fails =>
    rw [fails] at kept
    exact ⟨kept, nofun⟩
  case h_2 table s' finds =>
    rw [finds] at kept cached
    have isWritten' : s'.written n = some records := by rw [kept.written, isWritten]
    obtain ⟨read, found⟩ := kept.inv.internalGet isWritten' (cached rfl) key call (c.tagLocals call)
    exact ⟨kept.trans ⟨⟨rfl, rfl, rfl⟩, read⟩, found⟩

omit inv in
theorem saveEntry_found {e : FormedEntry} {userKey value : Bytes}
    (saved : saveEntry userKey (e.1.1.encode, e.2) = .found value) :
    (InternalKey.decodeFrom e.1.1.encode, value) = e.record ∧ saveValue userKey e.record = .found value := by
  have decoded := InternalKey.decodeFrom_encode e.1.2
  unfold saveEntry at saved
  split at saved
  case isTrue => cases saved
  case isFalse =>
    rw [decoded] at saved ⊢
    refine ⟨?_, saved⟩
    unfold saveValue at saved
    split at saved
    · cases saved
    split at saved
    · split at saved <;> cases saved
      rfl
    · cases saved

/-- The entry that a search stores from a file of the version was written into it. -/
theorem Intact.searchTables (key : FormedKey) (call : Nat → ReadCall) {files : List (FileMetaData Bytes)}
    (listed : ∀ f ∈ files, f ∈ allFiles s.version) :
    Kept c s (searchTables c key call files s).2 ∧
      ∀ {f e}, (searchTables c key call files s).1 = .found f e →
        f ∈ files ∧ (∃ records, s.written f.number = some records ∧ ∃ r ∈ records, e = r.record) ∧
          saveValue key.1.userKey e = .found e.2 := by
  induction files generalizing s with
  | nil => exact ⟨inv.kept, nofun⟩
  | cons f rest ih =>
    obtain ⟨records, isWritten, isSize, -⟩ := inv.1.listed f (listed f mem_cons_self)
    obtain ⟨kept, found⟩ := inv.tableCacheGet isWritten key (call f.number)
    rw [← isSize] at kept found
    have goesOn : ∀ {s'}, Kept c s s' → Kept c s (TableStore.searchTables c key call rest s').2 ∧
          ∀ {g e}, (TableStore.searchTables c key call rest s').1 = .found g e → g ∈ f :: rest ∧
            (∃ records, s.written g.number = some records ∧ ∃ r ∈ records, e = r.record) ∧
              saveValue key.1.userKey e = .found e.2 := by
      intro s' kept
      have listed' : ∀ g ∈ rest, g ∈ allFiles s'.version := by
        rw [kept.version]
        exact (forall_mem_cons.mp listed).2
      obtain ⟨keptRest, foundRest⟩ := ih kept.inv listed'
      refine ⟨kept.trans keptRest, fun isFound => ?_⟩
      obtain ⟨mem, rest⟩ := foundRest isFound
      rw [kept.written] at rest
      exact ⟨mem_cons_of_mem _ mem, rest⟩
    rw [TableStore.searchTables]
    split
    case h_1 reads =>
      rw [reads] at kept
      exact ⟨kept, nofun⟩
    case h_2 reads =>
      rw [reads] at kept
      exact goesOn kept
    case h_3 shown s' reads =>
      rw [reads] at kept found
      cases saved : saveEntry key.1.userKey shown with
      | notFound => exact goesOn kept
      | deleted | corrupt => exact ⟨kept, nofun⟩
      | found value =>
        refine ⟨kept, ?_⟩
        rintro g e' ⟨⟩
        obtain ⟨r, inRecords, rfl⟩ := found rfl
        obtain ⟨isRecord, saves⟩ := saveEntry_found saved
        refine ⟨mem_cons_self, ⟨records, isWritten, r, inRecords, isRecord⟩, ?_⟩
        rw [isRecord, saves, ← isRecord]

theorem Intact.get (key : FormedKey) (call : Nat → ReadCall) :
    Kept c s (s.get c key call).2 ∧
      ∀ {f e}, (s.get c key call).1 = .found f e → f ∈ allFiles s.version ∧
        (∃ records, s.written f.number = some records ∧ ∃ r ∈ records, e = r.record) ∧
          saveValue key.1.userKey e = .found e.2 := by
  have listed : ∀ f ∈ (range kNumLevels).flatMap (filesToSearch s.version key.1),
      f ∈ allFiles s.version := by
    intro f mem
    obtain ⟨l, inRange, mem⟩ := mem_flatMap.mp mem
    exact mem_flatMap.mpr ⟨l, inRange, mem_filesToSearch mem⟩
  obtain ⟨kept, found⟩ := inv.searchTables key call listed
  refine ⟨kept, fun isFound => ?_⟩
  obtain ⟨mem, rest⟩ := found isFound
  exact ⟨listed _ mem, rest⟩

/-! ### Whole runs -/

omit inv in
theorem tableFileName_ne_sst (m : Nat) : tableFileName m ≠ sstTableFileName n := by
  intro same
  exact absurd (makeFileName_inj same).2 (by decide)

theorem Intact.write (fresh : s.written n = none) (asc : Ascending records)
    (short : (c.tableFile records).length < 2 ^ 31) :
    Intact c { s with
      written := update s.written n (some records)
      disk := update s.disk (tableFileName n) (some (c.tableFile records)) } := by
  obtain ⟨files, owner, caches⟩ := inv
  have kept : ∀ {other others}, s.written other = some others →
      update s.written n (some records) other = some others := by
    intro other others isWritten
    have ne : other ≠ n := by
      rintro rfl
      cases fresh.symm.trans isWritten
    rw [update_of_ne ne]
    exact isWritten
  refine ⟨⟨fun f mem => ?_, fun isWritten => ?_, ?_, fun other => ?_⟩, owner, fun cached => ?_, fun cached => ?_⟩
  · obtain ⟨others, isWritten, rest⟩ := files.listed f mem
    exact ⟨others, kept isWritten, rest⟩
  · obtain ⟨rfl, isNew⟩ | isWritten := update_eq_some isWritten
    · cases isNew
      exact ⟨asc, short⟩
    · exact files.valid isWritten
  · intro other others file isWritten onDisk
    by_cases isNew : other = n
    · subst isNew
      simp only [update_self, Option.some.injEq] at isWritten onDisk
      rw [← isWritten, ← onDisk]
    · have otherName : tableFileName other ≠ tableFileName n := fun same => isNew (makeFileName_inj same).1
      simp only [update_of_ne isNew, update_of_ne otherName] at isWritten onDisk
      exact files.intact isWritten onDisk
  · change update s.disk (tableFileName n) _ _ = none
    rw [update_of_ne (tableFileName_ne_sst n).symm]
    exact files.noOld other
  · obtain ⟨old, owned, others, isWritten, opens⟩ := caches.opened cached
    exact ⟨old, owned, others, kept isWritten, opens⟩
  · obtain ⟨old, others, isWritten, within⟩ := caches.blocks cached
    exact ⟨old, others, kept isWritten, within⟩

end

theorem FilesIntact.replace (files : FilesIntact c s) {name : Bytes} {file : Option Bytes}
    (ok : Untouched c s (.host name file)) : FilesIntact c { s with disk := update s.disk name file } := by
  refine ⟨files.listed, files.valid, ?_, fun number => Option.eq_none_iff_forall_ne_some.mpr fun contents onDisk => ?_⟩
  · intro number records contents isWritten onDisk
    obtain ⟨isName, isFile⟩ | onDisk := update_eq_some onDisk
    · exact (ok contents isFile number).2 records isWritten isName.symm
    · exact files.intact isWritten onDisk
  · obtain ⟨isName, isFile⟩ | onDisk := update_eq_some onDisk
    · exact (ok contents isFile number).1 isName.symm
    · exact absurd onDisk (by simp [files.noOld])

theorem CachesIntact.evictTable {owner : Nat → Nat} (caches : CachesIntact c owner s) (n : Nat) :
    CachesIntact c owner { s with tableCache := update s.tableCache n none } := by
  refine ⟨?_, caches.blocks⟩
  intro other table cached
  obtain ⟨-, isNone⟩ | cached := update_eq_some cached
  · cases isNone
  · exact caches.opened cached

theorem IsOpen.reserved (isOpen : IsOpen c n records table.table) (isWritten : s.written n = some records)
    {name contents : Bytes} (ok : Untouched c s (.host name (some contents))) :
    table.reserved name contents = table := by
  obtain ⟨file, isOpened⟩ := isOpen
  unfold CachedTable.reserved
  split
  case isFalse => rfl
  case isTrue isName =>
    rw [isOpened.file] at isName
    have same := (ok contents rfl n).2 records isWritten isName.symm
    rw [same, ← isName, ← isOpened.file]

theorem Intact.step (inv : Intact c s) {ev : TableEvent} (untouched : Untouched c s ev)
    (run : s.step c ev = .ok s') : Intact c s' := by
  cases ev with
  | write n records =>
    simp only [TableStore.step] at run
    split at run
    case isTrue fresh =>
      split at run
      case isTrue asc =>
        cases run
        exact inv.write fresh asc untouched
      case isFalse => cases run
    case isFalse => cases run
  | install v =>
    simp only [TableStore.step] at run
    split at run
    case isTrue known =>
      cases run
      obtain ⟨files, owner, caches⟩ := inv
      refine ⟨⟨fun f mem => ?_, files.valid, files.intact, files.noOld⟩, owner, caches.opened, caches.blocks⟩
      have isKnown := all_eq_true.mp known f mem
      unfold hasFile at isKnown
      split at isKnown
      case h_1 records isWritten =>
        exact ⟨records, isWritten, of_decide_eq_true isKnown, untouched f mem records isWritten⟩
      case h_2 => cases isKnown
    case isFalse => cases run
  | get key call =>
    have kept := (inv.get key call).1
    simp only [TableStore.step] at run
    split at run
    case h_1 => cases run
    case h_2 reads =>
      cases run
      rw [reads] at kept
      exact kept.inv
  | openTable n call =>
    simp only [TableStore.step] at run
    split at run
    case h_1 => cases run
    case h_2 records isWritten =>
      have kept := (inv.findTable isWritten call).1
      split at run
      case h_1 => cases run
      case h_2 finds =>
        cases run
        rw [finds] at kept
        exact kept.inv
  | read n key call =>
    simp only [TableStore.step] at run
    split at run
    case h_1 => cases run
    case h_2 records isWritten =>
      have kept := (inv.tableCacheGet isWritten key call).1
      split at run
      case h_1 => cases run
      case h_2 reads =>
        cases run
        rw [reads] at kept
        exact kept.inv
  | evictTable n =>
    cases run
    obtain ⟨files, owner, caches⟩ := inv
    exact ⟨files.of_same ⟨rfl, rfl, rfl⟩, owner, caches.evictTable n⟩
  | evictBlock id offset =>
    cases run
    obtain ⟨files, owner, caches⟩ := inv
    refine ⟨files.of_same ⟨rfl, rfl, rfl⟩, owner, caches.opened, fun hit => ?_⟩
    obtain ⟨-, -, isNone⟩ | hit := update₂_eq_some hit
    · cases isNone
    · exact caches.blocks hit
  | deleteFile n =>
    cases run
    obtain ⟨files, owner, caches⟩ := inv
    have removed : ∀ (s : TableStore) name, Untouched c s (.host name none) := by
      intro s name contents isFile
      cases isFile
    have replaced := (files.replace (removed s (tableFileName n))).replace (removed _ (sstTableFileName n))
    exact ⟨replaced.of_same ⟨rfl, rfl, rfl⟩, owner, (caches.evictTable n).opened, caches.blocks⟩
  | restart =>
    cases run
    exact ⟨inv.1.of_same ⟨rfl, rfl, rfl⟩, fun _ => 0, nofun, nofun⟩
  | host name file =>
    obtain ⟨files, owner, caches⟩ := inv
    cases file with
    | none =>
      cases run
      exact ⟨files.replace untouched, owner, caches.opened, caches.blocks⟩
    | some contents =>
      cases run
      refine ⟨(files.replace untouched).of_same ⟨rfl, rfl, rfl⟩, owner, fun cached => ?_, caches.blocks⟩
      obtain ⟨table, isCached, rfl⟩ := Option.map_eq_some_iff.mp cached
      obtain ⟨given, owned, records, isWritten, isOpen⟩ := caches.opened isCached
      rw [isOpen.reserved isWritten untouched]
      exact ⟨given, owned, records, isWritten, isOpen⟩

theorem Intact.init : Intact c init := by
  refine ⟨⟨fun f mem => ?_, nofun, nofun, fun _ => rfl⟩, fun _ => 0, nofun, nofun⟩
  obtain ⟨l, -, mem⟩ := mem_flatMap.mp mem
  cases mem

/-- Where the host leaves the table files alone and the versions have the right roots, a value that the
saver stores is that of a record written into the file, and the record passes the check against the
root of the file. -/
theorem saved_values_written {c : TableSetting} {s : TableStore}
    (reached : Reachable c (Untouched c) s) {key : FormedKey} {call : Nat → ReadCall} {f : FileMetaData Bytes}
    {e : Record} (found : (s.get c key call).1 = .found f e) :
    saveValue key.1.userKey e = .found e.2 ∧
      (∃ records, s.written f.number = some records ∧ ∃ r ∈ records, e = r.record) ∧ PassesCheck c f.rh e := by
  have inv : Intact c s :=
    Transition.Reaches.invariant (Intact c) .init (fun inv untouched taken => inv.step untouched taken) reached
  obtain ⟨member, ⟨records, written, r, isRecord, rfl⟩, saves⟩ := (inv.get key call).2 found
  obtain ⟨records', written', -, rooted⟩ := inv.1.listed f member
  cases written.symm.trans written'
  obtain ⟨position, isAt⟩ := getElem?_of_mem isRecord
  exact ⟨saves, ⟨records, written, r, isRecord, rfl⟩, position, rooted position r isAt⟩

/-! ## A host that does not -/

theorem internalGet_uncached {k : Bytes} {call : ReadCall} {entry : Option (Bytes × Bytes)} {status : Option Status}
    (uncached : ∀ offset, cache.blocks table.cacheId offset = none)
    (finds : table.table.internalGet c.crc call.memory call.verifyChecksums k = some (entry, status)) :
    ∃ cache', c.internalGet table k call cache = (entry, status, cache') := by
  have reads : ∀ value, (table.blockReader c.crc call.memory call.verifyChecksums call.fillCache value cache).1 =
      table.table.blockReader c.crc call.memory call.verifyChecksums value := by
    intro value
    cases decodes : BlockHandle.decodeFrom value with
    | error error => simp only [CachedTable.blockReader, Table.blockReader, decodes]
    | ok decoded =>
      cases reads : readToBlock c.crc call.memory table.table.file call.verifyChecksums decoded.1 with
      | error error => simp only [CachedTable.blockReader, Table.blockReader, decodes, uncached, reads]
      | ok block => simp only [CachedTable.blockReader, Table.blockReader, decodes, uncached, reads]
  simp only [Table.internalGet, Option.bind_eq_bind, Option.bind_eq_some_iff] at finds
  obtain ⟨iiter, moved, finds⟩ := finds
  unfold TableSetting.internalGet
  rw [moved]
  split at finds
  case h_1 shows =>
    cases finds
    simp only [shows]
    exact ⟨_, rfl⟩
  case h_2 shows =>
    split at finds
    case isTrue refuses =>
      cases finds
      simp only [shows, refuses, if_true]
      exact ⟨_, rfl⟩
    case isFalse refuses =>
      simp only [Option.bind_eq_some_iff] at finds
      obtain ⟨blockIter, movedIn, finds⟩ := finds
      cases finds
      rw [← reads] at movedIn
      simp only [shows, refuses, Bool.false_eq_true, if_false, movedIn]
      exact ⟨_, rfl⟩

def defaultSetting (mac : Mac) : TableSetting := ⟨fun _ => 0, mac, .default, none, false⟩

def firstKey : FormedKey := ⟨.make [107] 1 .value, by decide⟩

def fileLength (mac : Mac) (stored : Bytes) : Nat := ((defaultSetting mac).tableFile [(firstKey, stored)]).length

def firstFile (mac : Mac) (stored : Bytes) : FileMetaData Bytes :=
  ⟨1, fileLength mac stored, firstKey.1, firstKey.1,
    recordRoot mac 0 (firstKey.1, stored)⟩

def firstVersion (mac : Mac) (stored : Bytes) : Version Bytes :=
  ⟨fun level => if level = 0 then [firstFile mac stored] else [], none⟩

def plainCall : Nat → ReadCall := fun _ => ⟨⟨[], fun _ => 0⟩, FooterSpace.zeros, false, true, [], []⟩

/-- A flush of the record: the table was written and listed at level 0, and the database is opened again.  The host
now serves the table of another value. -/
def served (mac : Mac) (stored other : Bytes) : TableStore where
  written := update (fun _ => none) 1 (some [(firstKey, stored)])
  disk := update (fun _ => none) (tableFileName 1) (some ((defaultSetting mac).tableFile [(firstKey, other)]))
  version := firstVersion mac stored
  tableCache := fun _ => none
  blockCache := ⟨fun _ _ => none, 0⟩
  cmac := Merkle.zeroDigest

theorem mem_firstVersion {mac : Mac} {stored : Bytes} {f : FileMetaData Bytes}
    (mem : f ∈ allFiles (firstVersion mac stored)) : f = firstFile mac stored := by
  obtain ⟨l, -, mem⟩ := mem_flatMap.mp mem
  simp only [firstVersion] at mem
  split at mem
  · exact mem_singleton.mp mem
  · cases mem

theorem rooted_singleton (mac : Mac) (e : FormedEntry) :
    Rooted (defaultSetting mac) [e] (recordRoot mac 0 e.record) := by
  intro position other isAt
  cases position with
  | zero =>
    cases isAt
    rfl
  | succ position => cases isAt

theorem oneFile_searched {f : FileMetaData Bytes} {key : InternalKey Bytes}
    (ins : f.smallest.userKey ≤ key.userKey ∧ key.userKey ≤ f.largest.userKey) :
    (range kNumLevels).flatMap (filesToSearch ⟨fun l => if l = 0 then [f] else [], none⟩ key) = [f] := by
  have above : ∀ l, filesToSearch ⟨fun l => if l = 0 then [f] else [], none⟩ key (l + 1) = [] := by
    intro l
    simp [filesToSearch]
  have atZero : filesToSearch ⟨fun l => if l = 0 then [f] else [], none⟩ key 0 = [f] := by
    simp [filesToSearch, ins]
  simp only [kNumLevels, range_succ_eq_map, range_zero, map_cons, map_nil, flatMap_cons,
    flatMap_nil, atZero, above, append_nil]

section

variable (mac : Mac) {stored other : Bytes}

theorem served_reached (short : fileLength mac stored < 2 ^ 31) :
    Reachable (defaultSetting mac) (Untouched (defaultSetting mac)) (served mac stored stored) := by
  have afterWrite : Reachable (defaultSetting mac) (Untouched (defaultSetting mac))
      { served mac stored stored with version := .empty } :=
    .tail .refl (show Untouched (defaultSetting mac) init (.write 1 [(firstKey, stored)]) from short) rfl
  have known : ∀ f ∈ allFiles (firstVersion mac stored),
      hasFile (defaultSetting mac) { served mac stored stored with version := .empty } f = true := by
    intro f mem
    rw [mem_firstVersion mem]
    simp [hasFile, served, firstFile, fileLength]
  have listed : Untouched (defaultSetting mac) { served mac stored stored with version := .empty }
      (.install (firstVersion mac stored)) := by
    intro f mem records isWritten
    rw [mem_firstVersion mem] at isWritten ⊢
    cases isWritten
    exact rooted_singleton mac _
  apply afterWrite.tail listed
  rw [Transition.Steps, step, if_pos (all_eq_true.mpr known)]
  rfl

theorem served_get (short : fileLength mac other < 2 ^ 31) (sameSize : fileLength mac stored = fileLength mac other) :
    ((served mac stored other).get (defaultSetting mac) firstKey plainCall).1 =
      .found (firstFile mac stored) (firstKey.1, other) := by
  have ins : (firstFile mac stored).smallest.userKey ≤ firstKey.1.userKey ∧
      firstKey.1.userKey ≤ (firstFile mac stored).largest.userKey := ⟨le_rfl, le_rfl⟩
  have noPolicy : ∀ p ∈ (none : Option FilterPolicy), p.NoFalseNegatives := nofun
  obtain ⟨table, opens, -, -, finds⟩ := table_roundTrip (fun _ => 0) .default none noPolicy
    (pairwise_singleton _ (firstKey, other)) short (plainCall 1).memory (tableFileName 1) false false
    (plainCall 1).footerSpace
  have isFirst : First (· ≤ ·) [(firstKey, other)] (firstKey ≤ ·) (some (firstKey, other)) := by simp [First]
  obtain ⟨cache, isGet⟩ := @internalGet_uncached (defaultSetting mac) ⟨table, 1⟩
    ⟨fun _ _ => none, 1⟩ _ (plainCall 1) _ _
    (fun _ => rfl) (finds firstKey _ isFirst rfl)
  have isOpened : (defaultSetting mac).openTable ⟨tableFileName 1, (defaultSetting mac).tableFile [(firstKey, other)]⟩
      (fileLength mac stored) (plainCall 1) = .ok table := by
    rw [sameSize]
    exact opens
  have decoded := InternalKey.decodeFrom_encode firstKey.2
  have saves : saveEntry firstKey.1.userKey (firstKey.1.encode, other) = .found other := by
    rw [saveEntry, if_neg (show ¬firstKey.1.encode.length < 8 by decide), decoded]
    simp [saveValue, firstKey]
  rw [get]
  simp only [served, firstVersion, oneFile_searched ins]
  simp [searchTables, tableCacheGet, findTable, randomAccessFile, insertTable, firstFile, isOpened, isGet, saves,
    decoded]

theorem forged_sizes : fileLength mac [118] < 2 ^ 31 ∧ fileLength mac [102] < 2 ^ 31 ∧
    fileLength mac [118] = fileLength mac [102] := by
  change (writeTable (fun _ => 0) .default none [(firstKey, [118])]).length < 2 ^ 31 ∧
    (writeTable (fun _ => 0) .default none [(firstKey, [102])]).length < 2 ^ 31 ∧
    (writeTable (fun _ => 0) .default none [(firstKey, [118])]).length =
      (writeTable (fun _ => 0) .default none [(firstKey, [102])]).length
  decide +kernel

end

/-- The record of a flush is found in its table. -/
theorem saved_value_of_flush : ∃ mac s f e,
    Reachable (defaultSetting mac) (Untouched (defaultSetting mac)) s ∧
      (s.get (defaultSetting mac) firstKey plainCall).1 = .found f e ∧ e.2 = [118] ∧
      (∃ records, s.written f.number = some records ∧ ∃ r ∈ records, e = r.record) ∧
        PassesCheck (defaultSetting mac) f.rh e := by
  have short := (forged_sizes fun _ => Merkle.zeroDigest).1
  have reached := served_reached _ short
  have found := served_get _ short rfl
  exact ⟨_, _, _, _, reached, found, rfl, (saved_values_written reached found).2⟩

/-- Whatever the tags are, a value that the host puts into the file of a table is returned as found,
though no such record was written and the root of the table is the right one. -/
theorem forged_value_saved : ¬∃ mac : Mac, ∀ s f e records,
    Reachable (defaultSetting mac) (fun _ _ => True) s →
      (s.get (defaultSetting mac) firstKey plainCall).1 = .found f e → saveValue firstKey.1.userKey e = .found e.2 →
      s.written f.number = some records → Rooted (defaultSetting mac) records f.rh → ∃ r ∈ records, e = r.record := by
  rintro ⟨mac, kept⟩
  obtain ⟨short, shortForged, sameSize⟩ := forged_sizes mac
  have flushed := (served_reached mac short).mono fun _ _ _ => trivial
  have replaces : step (defaultSetting mac) (served mac [118] [118])
      (.host (tableFileName 1) (some ((defaultSetting mac).tableFile [(firstKey, [102])]))) =
        .ok (served mac [118] [102]) := by
    simp only [step, served, update_idem, Option.map_none]
  obtain ⟨r, isWritten, isRecord⟩ := kept _ _ _ [(firstKey, [118])] (flushed.tail trivial replaces)
    (served_get mac shortForged sameSize) (by simp [saveValue, firstKey]) rfl (rooted_singleton mac _)
  rw [mem_singleton.mp isWritten] at isRecord
  exact absurd (congrArg Prod.snd isRecord) (by decide)

end TableStore

end Elsm
