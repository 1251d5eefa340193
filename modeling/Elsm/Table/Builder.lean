import Elsm.Format.Coding
import Elsm.Version.CompactionWork

/-!
# Writing a table (`table/block_builder.cpp`, `table/table_builder.cpp`, `table/format.cpp`)

`TableBuilder` collects entries in a data block and appends the block to the file when its
size estimate reaches the block size; `FileSize()` counts only what has been appended.
`Finish()` adds the metaindex block, the index block and the footer.  There is no filter
policy and no compression, as in the default options.
-/

namespace Elsm

structure TableOptions where
  blockSize : Nat
  blockRestartInterval : Nat

def TableOptions.default : TableOptions := ⟨4096, 16⟩

/-! ## Blocks -/

structure BlockBuilder where
  buffer : Bytes
  restarts : List Nat
  counter : Nat
  lastKey : Bytes

namespace BlockBuilder

def empty : BlockBuilder := ⟨[], [0], 0, []⟩

def currentSizeEstimate (block : BlockBuilder) : Nat := block.buffer.length + block.restarts.length * 4 + 4

def add (blockRestartInterval : Nat) (block : BlockBuilder) (key value : Bytes) : BlockBuilder :=
  let (shared, block) := if block.counter < blockRestartInterval then (commonLength block.lastKey key, block)
    else (0, { block with restarts := block.restarts ++ [block.buffer.length], counter := 0 })
  { block with
    buffer := block.buffer ++ encodeVarint32 shared ++ encodeVarint32 (key.length - shared) ++
      encodeVarint32 value.length ++ key.drop shared ++ value
    lastKey := key
    counter := block.counter + 1 }

def finish (block : BlockBuilder) : Bytes :=
  block.buffer ++ block.restarts.flatMap encodeFixed32 ++ encodeFixed32 block.restarts.length

theorem add_buffer_length (interval : Nat) (block : BlockBuilder) (key val : Bytes) :
    block.buffer.length + val.length ≤ (block.add interval key val).buffer.length := by
  simp only [add]
  split <;> simp <;> omega

theorem buffer_length_le_finish (block : BlockBuilder) : block.buffer.length ≤ block.finish.length := by
  simp [finish]

end BlockBuilder

/-! ## Tables -/

structure BlockHandle where
  offset : Nat
  size : Nat

def BlockHandle.encode (handle : BlockHandle) : Bytes := encodeVarint64 handle.offset ++ encodeVarint64 handle.size

/-- `TableBuilder::Rep`: what has been appended to the file, the two blocks being built, the
last key, and the handle of a data block that has no index entry yet. -/
structure TableBuilder where
  file : Bytes
  dataBlock : BlockBuilder
  indexBlock : BlockBuilder
  lastKey : Option (InternalKey Bytes)
  pendingHandle : Option BlockHandle

namespace TableBuilder

def init : TableBuilder := ⟨[], .empty, .empty, none, none⟩

/-- `WriteBlock`: the contents, the type byte of an uncompressed block, and the masked checksum
`crc` of both. -/
def writeBlock (crc : Bytes → Nat) (file contents : Bytes) : Bytes × BlockHandle :=
  (file ++ contents ++ [0] ++ encodeFixed32 (crc (contents ++ [0])), ⟨file.length, contents.length⟩)

def flush (crc : Bytes → Nat) (table : TableBuilder) : TableBuilder :=
  if table.dataBlock.buffer = [] then table
  else
    let (file, handle) := writeBlock crc table.file table.dataBlock.finish
    { table with file := file, dataBlock := .empty, pendingHandle := some handle }

def indexPending (table : TableBuilder) (separator : InternalKey Bytes → InternalKey Bytes) : TableBuilder :=
  match table.pendingHandle, table.lastKey with
  | some handle, some lastKey =>
    { table with
      indexBlock := table.indexBlock.add 1 (separator lastKey).encode handle.encode
      pendingHandle := none }
  | _, _ => table

def add (crc : Bytes → Nat) (options : TableOptions) (table : TableBuilder) (entry : Entry Bytes) :
    TableBuilder :=
  let table := table.indexPending fun lastKey => findShortestSeparator lastKey entry.1
  let table := { table with
    lastKey := some entry.1
    dataBlock := table.dataBlock.add options.blockRestartInterval entry.1.encode entry.2 }
  if options.blockSize ≤ table.dataBlock.currentSizeEstimate then table.flush crc else table

/-- `Footer::EncodeTo`: two handles padded to 40 bytes, and the magic number. -/
def encodeFooter (metaindex index : BlockHandle) : Bytes :=
  let handles := metaindex.encode ++ index.encode
  handles ++ List.replicate (40 - handles.length) 0 ++ encodeFixed64 0xdb4775248b80fb57

def finish (crc : Bytes → Nat) (table : TableBuilder) : Bytes :=
  let table := table.flush crc
  let (file, metaindex) := writeBlock crc table.file BlockBuilder.empty.finish
  let table := table.indexPending findShortSuccessor
  let (file, index) := writeBlock crc file table.indexBlock.finish
  file ++ encodeFooter metaindex index

def fileSize (table : TableBuilder) : Nat := table.file.length

def build (crc : Bytes → Nat) (options : TableOptions) (entries : List (Entry Bytes)) : TableBuilder :=
  entries.foldl (add crc options) init

end TableBuilder

/-- `FileSize()` while the entries are added and after `Finish()`. -/
def tableSize (crc : Bytes → Nat) (options : TableOptions) : TableSize Bytes where
  building entries := (TableBuilder.build crc options entries).fileSize
  finished entries := ((TableBuilder.build crc options entries).finish crc).length

/-! ## What is in the file and what is still in the block -/

namespace TableBuilder

variable (crc : Bytes → Nat) (options : TableOptions)

theorem flush_size (table : TableBuilder) : table.file.length + table.dataBlock.buffer.length ≤
        (table.flush crc).file.length + (table.flush crc).dataBlock.buffer.length ∧
      (table.flush crc).dataBlock.buffer.length = 0 := by
  rw [flush]
  split
  case isTrue empty => simp [empty]
  case isFalse =>
    have := table.dataBlock.buffer_length_le_finish
    simp [writeBlock, BlockBuilder.empty]
    omega

theorem indexPending_size (table : TableBuilder) (separator : InternalKey Bytes → InternalKey Bytes) :
    (table.indexPending separator).file = table.file ∧ (table.indexPending separator).dataBlock = table.dataBlock := by
  rw [indexPending]
  split <;> exact ⟨rfl, rfl⟩

theorem add_size (table : TableBuilder) (e : Entry Bytes) :
    table.file.length + table.dataBlock.buffer.length + e.2.length ≤
        (table.add crc options e).file.length + (table.add crc options e).dataBlock.buffer.length ∧
      ((table.add crc options e).dataBlock.buffer.length = 0 ∨
        (table.add crc options e).dataBlock.buffer.length < options.blockSize) := by
  obtain ⟨file, dataBlock⟩ := table.indexPending_size fun lastKey => findShortestSeparator lastKey e.1
  have grows := table.dataBlock.add_buffer_length options.blockRestartInterval e.1.encode e.2
  simp only [add, dataBlock]
  generalize table.dataBlock.add options.blockRestartInterval e.1.encode e.2 = block at grows
  generalize table.indexPending (fun lastKey => findShortestSeparator lastKey e.1) = indexed at file
  split
  · have flushed := flush_size crc { indexed with lastKey := some e.1, dataBlock := block }
    simp only at flushed
    rw [← file]
    omega
  case isFalse small =>
    simp only [BlockBuilder.currentSizeEstimate] at small
    rw [← file]
    simp only
    omega

theorem build_grows (es : List (Entry Bytes)) :
    (es.map (·.2.length)).sum ≤ (build crc options es).file.length + (build crc options es).dataBlock.buffer.length ∧
      ((build crc options es).dataBlock.buffer.length = 0 ∨
        (build crc options es).dataBlock.buffer.length < options.blockSize) := by
  have carried : ∀ (es : List (Entry Bytes)) (table : TableBuilder),
      (table.dataBlock.buffer.length = 0 ∨ table.dataBlock.buffer.length < options.blockSize) →
      let last := es.foldl (add crc options) table
      table.file.length + table.dataBlock.buffer.length + (es.map (·.2.length)).sum ≤
          last.file.length + last.dataBlock.buffer.length ∧
        (last.dataBlock.buffer.length = 0 ∨ last.dataBlock.buffer.length < options.blockSize) := by
    intro es
    induction es with
    | nil => exact fun table small => ⟨le_rfl, small⟩
    | cons e rest ih =>
      intro table _
      have grows := add_size crc options table e
      have later := ih (table.add crc options e) grows.2
      simp only [List.map_cons, List.sum_cons, List.foldl_cons]
      omega
  have whole := carried es init (.inl rfl)
  simp only [init, BlockBuilder.empty, List.length_nil] at whole
  simp only [build, init, BlockBuilder.empty]
  omega

theorem build_size (es : List (Entry Bytes)) :
    (es.map (·.2.length)).sum ≤ (build crc options es).fileSize + options.blockSize := by
  have grows := build_grows crc options es
  rw [fileSize]
  omega

theorem finish_size (es : List (Entry Bytes)) :
    (es.map (·.2.length)).sum ≤ ((build crc options es).finish crc).length := by
  have grows := build_grows crc options es
  have flushed := flush_size crc (build crc options es)
  simp only [finish, writeBlock, List.length_append]
  omega

end TableBuilder

end Elsm
