import Elsm.Table.FilterBlock
import Elsm.Table.TwoLevel
import Elsm.Version.Encode

/-!
# Opening and reading tables (`table/table.cpp`)

`Table::Open` reads the footer of the file and the index block it points to, and looks for a filter.  What is then read
goes through the index block: an iterator, or a lookup that asks the filter first.  A block is read anew each time
here; `Table.BlockCache` has the cache.
-/

namespace Elsm

open Log (Crc)
open Cursor (Move Iterator)

/-! ## Keys of a table -/

/-- Internal keys with a tag of eight bytes. -/
abbrev FormedKey := { k : InternalKey Bytes // k.Formed }

/-- `InternalKeyComparator::Compare` over `BytewiseComparator`. -/
def internalCompare (akey bkey : Bytes) : Ordering :=
  match sliceCompare (extractUserKey akey) (extractUserKey bkey) with
  | .eq =>
    let anum := decodeFixed64 (akey.drop (akey.length - 8))
    let bnum := decodeFixed64 (bkey.drop (bkey.length - 8))
    if bnum < anum then .lt else if anum < bnum then .gt else .eq
  | r => r

theorem extractUserKey_encode (k : InternalKey Bytes) : extractUserKey k.encode = k.userKey := by
  rw [extractUserKey, InternalKey.encode_length, Nat.add_sub_cancel, InternalKey.encode, List.take_left]

theorem internalCompare_encode {a b : InternalKey Bytes} (formedA : a.Formed) (formedB : b.Formed) :
    (internalCompare a.encode b.encode = .lt ↔ a < b) ∧ (internalCompare a.encode b.encode = .gt ↔ b < a) := by
  have tagOf : ∀ {k : InternalKey Bytes}, k.Formed → decodeFixed64 (k.encode.drop (k.encode.length - 8)) = k.tag := by
    intro k formed
    rw [InternalKey.encode_length, Nat.add_sub_cancel, InternalKey.encode, List.drop_left,
      decodeFixed64_encodeFixed64 formed]
  have isLess := sliceCompare_eq_lt a.userKey b.userKey
  have isGreater := sliceCompare_eq_gt a.userKey b.userKey
  rw [internalCompare, extractUserKey_encode, extractUserKey_encode, tagOf formedA, tagOf formedB, InternalKey.lt_iff,
    InternalKey.lt_iff]
  cases compared : sliceCompare a.userKey b.userKey with
  | lt =>
    have less : a.userKey < b.userKey := isLess.mp compared
    simp [less, less.ne', less.not_gt]
  | gt =>
    have greater : b.userKey < a.userKey := isGreater.mp compared
    simp [greater, greater.ne', greater.not_gt]
  | eq =>
    have same : a.userKey = b.userKey := by
      rw [compared] at isLess isGreater
      exact le_antisymm (not_lt.mp fun greater => by simpa using isGreater.mpr greater)
        (not_lt.mp fun less => by simpa using isLess.mpr less)
    obtain less | equal | greater := lt_trichotomy a.tag b.tag
    · simp [same, less, less.not_gt]
    · simp [same, equal]
    · simp [same, greater, greater.not_gt]

theorem encodeFixed_littleEndian (bytes : Bytes) :
    ((List.range bytes.length).map fun i => UInt8.ofNat (littleEndian bytes / 256 ^ i)) = bytes := by
  induction bytes with
  | nil => rfl
  | cons byte bytes ih =>
    have small := byte.toNat_lt
    have first : UInt8.ofNat (byte.toNat + 256 * littleEndian bytes) = byte := by
      apply UInt8.toNat_inj.mp
      rw [UInt8.toNat_ofNat']
      omega
    rw [List.length_cons, List.range_succ_eq_map, List.map_cons, List.map_map, littleEndian, List.foldr_cons,
      ← littleEndian, Nat.pow_zero,
      Nat.div_one, first]
    refine congrArg (byte :: ·) (Eq.trans (List.map_congr_left fun i _ => ?_) ih)
    rw [Function.comp_apply, Nat.pow_succ', ← Nat.div_div_eq_div_mul]
    congr 2
    omega

theorem encode_decodeFrom {rep : Bytes} (long : 8 ≤ rep.length) : (InternalKey.decodeFrom rep).encode = rep := by
  have eight : (rep.drop (rep.length - 8)).length = 8 := by
    rw [List.length_drop]
    omega
  rw [InternalKey.decodeFrom, if_neg (by omega), InternalKey.encode, decodeFixed64, List.take_of_length_le eight.le]
  have tag := encodeFixed_littleEndian (rep.drop (rep.length - 8))
  rw [eight] at tag
  rw [encodeFixed64, tag, List.take_append_drop]

theorem internalCompare_decodeFrom {a b : Bytes} (longA : 8 ≤ a.length) (longB : 8 ≤ b.length) :
    (internalCompare a b = .lt ↔ InternalKey.decodeFrom a < .decodeFrom b) ∧
      (internalCompare a b = .gt ↔ InternalKey.decodeFrom b < .decodeFrom a) := by
  have formedA := (InternalKey.decodeFrom_formed a).mpr longA
  have formedB := (InternalKey.decodeFrom_formed b).mpr longB
  have compared := internalCompare_encode formedA formedB
  rwa [encode_decodeFrom longA, encode_decodeFrom longB] at compared

theorem internalCompare_eq_eq {a b : Bytes} (longA : 8 ≤ a.length) (longB : 8 ≤ b.length) :
    internalCompare a b = .eq ↔ a = b := by
  obtain ⟨isLess, isGreater⟩ := internalCompare_decodeFrom longA longB
  constructor
  · intro equal
    rw [equal] at isLess isGreater
    have same : InternalKey.decodeFrom a = .decodeFrom b :=
      le_antisymm (not_lt.mp fun greater => by simpa using isGreater.mpr greater)
        (not_lt.mp fun less => by simpa using isLess.mpr less)
    rw [← encode_decodeFrom longA, same, encode_decodeFrom longB]
  · rintro rfl
    cases compared : internalCompare a a with
    | eq => rfl
    | lt => exact absurd (isLess.mp compared) (lt_irrefl _)
    | gt => exact absurd (isGreater.mp compared) (lt_irrefl _)

/-- Internal keys in the order of `InternalKeyComparator`. -/
def internalCoding : KeyCoding FormedKey where
  encode k := k.1.encode
  decode rep := if formed : (InternalKey.decodeFrom rep).Formed then ⟨.decodeFrom rep, formed⟩ else ⟨⟨[], 0⟩, by decide⟩
  compare := internalCompare
  decode_encode k := by
    have same := InternalKey.decodeFrom_encode k.2
    rw [dif_pos (by rw [same]; exact k.2)]
    exact Subtype.ext same
  compare_lt a b := (internalCompare_encode a.2 b.2).1
  compare_gt a b := (internalCompare_encode a.2 b.2).2

/-! ## Open -/

/-- Memory of the host: what is in a buffer before it is filled, and what is around it. -/
structure HostMemory where
  buf : Bytes
  beyond : Nat → UInt8

/-- What the options say about opening a table. -/
structure Table.Options where
  paranoidChecks : Bool
  filterPolicy : Option FilterPolicy

abbrev FooterSpace := { bytes : Bytes // bytes.length = Footer.kEncodedLength }

def FooterSpace.zeros : FooterSpace := ⟨List.replicate 48 0, rfl⟩

structure Table where
  options : Table.Options
  file : RandomAccessFile
  metaindexHandle : BlockHandle
  indexHandle : BlockHandle
  indexBlock : Block
  filter : Option FilterBlockReader

variable (crc : Crc) (memory : HostMemory)

def BlockContents.block (contents : BlockContents) : Block :=
  Block.new (bytesAt contents.buffer memory.beyond 0 contents.size) fun i =>
    contents.buffer.getD i (memory.beyond i)

def readToBlock (file : RandomAccessFile) (verifyChecksums : Bool) (handle : BlockHandle) : Except Status Block :=
  match (readBlock crc file verifyChecksums handle memory.buf memory.beyond).result with
  | .error s => .error s
  | .ok contents => .ok (contents.block memory)

namespace Table

def readFilter (options : Table.Options) (file : RandomAccessFile) (filterHandleValue : Bytes) :
    Except Status (Option FilterBlockReader) :=
  match BlockHandle.decodeFrom filterHandleValue with
  | .error _ => .ok none
  | .ok (filterHandle, _) =>
    match (readBlock crc file options.paranoidChecks filterHandle memory.buf memory.beyond).result with
    | .error .abort => .error .abort
    | .error _ => .ok none
    | .ok contents => .ok (some (.new (bytesAt contents.buffer memory.beyond 0 contents.size)))

def filterKey (policy : FilterPolicy) : Bytes := ascii ['f', 'i', 'l', 't', 'e', 'r', '.'] ++ policy.name

/-- `ReadMeta`, which reports no errors.  The end of the process is none. -/
def readMeta (options : Table.Options) (file : RandomAccessFile) (footer : Footer) :
    Except Status (Option FilterBlockReader) :=
  match options.filterPolicy with
  | none => .ok none
  | some policy =>
    match readToBlock crc memory file options.paranoidChecks footer.metaindexHandle with
    | .error .abort => .error .abort
    | .error _ => .ok none
    | .ok metaBlock =>
      match (blockIterator sliceCompare).move (.seek (filterKey policy)) metaBlock.newIterator with
      -- an assertion
      | none => .error .abort
      | some iter =>
        match (blockIterator sliceCompare).current iter with
        | some (key, value) =>
          if key = filterKey policy then readFilter crc memory options file value else .ok none
        | none => .ok none

/-- `Table::Open` -/
def openTable (options : Table.Options) (file : RandomAccessFile) (size : Nat) (footerSpace : FooterSpace) :
    Except Status Table :=
  if size < Footer.kEncodedLength then .error (.corruption "file is too short to be an sstable")
  else
    match file.read true (size - Footer.kEncodedLength) Footer.kEncodedLength footerSpace.1 with
    | (.error s, _) => .error s
    | (.ok footerInput, footerSpace) => do
      let footer ← Footer.decodeFrom footerSpace footerInput.length
      let indexBlock ← readToBlock crc memory file options.paranoidChecks footer.indexHandle
      let filter ← readMeta crc memory options file footer
      return ⟨options, file, footer.metaindexHandle, footer.indexHandle, indexBlock, filter⟩

/-! ## Reading -/

def blockReader (table : Table) (verifyChecksums : Bool) (indexValue : Bytes) : BlockIterator :=
  match BlockHandle.decodeFrom indexValue with
  | .error s => .error s
  | .ok (handle, _) =>
    match readToBlock crc memory table.file verifyChecksums handle with
    | .error s => .error s
    | .ok block => block.newIterator

/-- The parts of the iterator of a table.  An entry of the index takes a byte, which bounds the rounds of the loops. -/
def setting (table : Table) (verifyChecksums : Bool) :
    TwoLevelSetting BlockIterator BlockIterator FormedKey Bytes Bytes where
  index := keyedIterator internalCoding
  data := keyedIterator internalCoding
  blockFunction := table.blockReader crc memory verifyChecksums
  fuel := table.indexBlock.restartOffset + 1

def newIterator (table : Table) (verifyChecksums : Bool) :
    TwoLevelIterator BlockIterator BlockIterator FormedKey Bytes :=
  .new (table.setting crc memory verifyChecksums) table.indexBlock.newIterator

/-- The filter is asked for the block under the index iterator, if there is a filter and a handle. -/
def filterRefuses (table : Table) (handleValue k : Bytes) : Bool :=
  match table.filter, table.options.filterPolicy, BlockHandle.decodeFrom handleValue with
  | some filter, some policy, .ok (handle, _) => !filter.keyMayMatch policy handle.offset k
  | _, _, _ => false

/-- `InternalGet`: what the saver is called with, and the status. -/
def internalGet (table : Table) (verifyChecksums : Bool) (k : Bytes) :
    Option (Option (Bytes × Bytes) × Option Status) := do
  let it := blockIterator internalCompare
  let iiter ← it.move (.seek k) table.indexBlock.newIterator
  match it.current iiter with
  | none => return (none, iiter.status)
  | some (_, handleValue) =>
    if table.filterRefuses handleValue k then return (none, iiter.status)
    else
      let blockIter ← it.move (.seek k) (table.blockReader crc memory verifyChecksums handleValue)
      return (it.current blockIter, blockIter.status <|> iiter.status)

end Table

end Elsm
