import Elsm.Table.Table

/-!
# What `Table::Open` depends on (`table/table.cpp`)

`footer_space` is not initialised, and a read may be short.  `ocall_fread` copies a whole buffer back, so that what was
not read is zero, and the magic number does not end in a zero.  The footer is looked for at the claimed size, which
goes through an `int`: `openTable_onlyBytes_iff` says for which sizes a file that is too short is refused.
-/

namespace Elsm

open List
open Log (Crc)
open Cursor (Move Tracks)

/-! ## The footer -/

theorem read_true {file : RandomAccessFile} {o n : Nat} {scratch : Bytes} (nFits : n < 2 ^ 31)
    (isScratch : scratch.length = n) : file.read true o n scratch =
      (.ok ((file.contents.drop (seekPosition o)).take n), (file.contents.drop (seekPosition o)).take n ++
        replicate (n - ((file.contents.drop (seekPosition o)).take n).length) 0) := by
  apply Prod.ext
  · exact read_of_fits nFits
  simp only [RandomAccessFile.read, fseek_position, HostFile.ocallFread, toInt32_of_lt nFits, if_true,
    if_neg (show ¬(n : Int) < 0 by omega), HostFile.fread, toSizeT_ofNat nFits, Int.toNat_natCast,
    drop_of_length_le isScratch.le, append_nil]

theorem decodeFrom_zero {data : Bytes} {size : Nat} (len : data.length = Footer.kEncodedLength)
    (isZero : data[47]? = some 0) : ∃ status, Footer.decodeFrom data size = .error status := by
  obtain ⟨front, isData⟩ : ∃ front, data = front ++ [0] := by
    refine ⟨data.take 47, ?_⟩
    have h : 47 < data.length := by rw [len]; decide
    have last : data[47] = 0 := by rw [getElem?_eq_getElem h] at isZero; exact Option.some.inj isZero
    conv_lhs => rw [← take_append_drop 47 data, drop_eq_getElem_cons h, last]
    rw [drop_of_length_le (by rw [len]; decide)]
  have frontLength : front.length = 47 := by
    rw [isData, length_append, length_singleton] at len
    exact Nat.succ.inj len
  have hiLess : decodeFixed32 ((data.drop (Footer.kEncodedLength - 8)).drop 4) < 2 ^ 24 := by
    have isHi : (data.drop (Footer.kEncodedLength - 8)).drop 4 = front.drop 44 ++ [0] := by
      rw [drop_drop, isData, drop_append_of_le_length (by rw [frontLength]; decide)]
      rfl
    have small := littleEndian_lt (front.drop 44)
    rw [length_drop, frontLength] at small
    rw [isHi, decodeFixed32, take_of_length_le (by simp [frontLength]), littleEndian, foldr_append]
    simpa [littleEndian] using small
  have loLess : decodeFixed32 (data.drop (Footer.kEncodedLength - 8)) < 2 ^ 32 := by
    have small := littleEndian_lt ((data.drop (Footer.kEncodedLength - 8)).take 4)
    have short := length_take_le 4 (data.drop (Footer.kEncodedLength - 8))
    exact small.trans_le (Nat.pow_le_pow_right (by decide) short)
  rw [Footer.decodeFrom]
  generalize decodeFixed32 ((data.drop (Footer.kEncodedLength - 8)).drop 4) = high at hiLess
  generalize decodeFixed32 (data.drop (Footer.kEncodedLength - 8)) = lo at loLess
  refine ⟨_, if_pos fun isMagic => ?_⟩
  rw [← Nat.shiftLeft_add_eq_or_of_lt loLess, Nat.shiftLeft_eq] at isMagic
  simp only [Footer.kTableMagicNumber] at isMagic
  omega

theorem encodeVarint64Loop_length_le (rem v : Nat) : (encodeVarint64Loop rem v).length ≤ rem + 1 := by
  induction rem generalizing v with
  | zero => exact Nat.le_refl _
  | succ rem ih =>
    rw [encodeVarint64Loop]
    split
    case isTrue => exact Nat.succ_le_succ (ih _)
    case isFalse => simp

theorem encode_length_le (handle : BlockHandle) : handle.encode.length ≤ BlockHandle.kMaxEncodedLength := by
  rw [BlockHandle.encode, length_append]
  exact Nat.add_le_add (encodeVarint64Loop_length_le 9 _) (encodeVarint64Loop_length_le 9 _)

theorem encodeFooter_length (metaindex index : BlockHandle) :
    (TableBuilder.encodeFooter metaindex index).length = Footer.kEncodedLength := by
  have metaindexShort := encode_length_le metaindex
  have indexShort := encode_length_le index
  have max : BlockHandle.kMaxEncodedLength = 20 := rfl
  have total : Footer.kEncodedLength = 48 := rfl
  simp only [TableBuilder.encodeFooter, length_append, length_replicate, encodeFixed64_length]
  omega

/-- Handles that are 64-bit numbers. -/
def BlockHandle.Fits (handle : BlockHandle) : Prop := handle.offset < 2 ^ 64 ∧ handle.size < 2 ^ 64

variable {metaindex index : BlockHandle}

theorem decodeFrom_encodeFooter (metaindexFits : metaindex.Fits) (indexFits : index.Fits) :
    Footer.decodeFrom (TableBuilder.encodeFooter metaindex index) Footer.kEncodedLength = .ok ⟨metaindex, index⟩ := by
  have len := encodeFooter_length metaindex index
  have isTail : (TableBuilder.encodeFooter metaindex index).drop (Footer.kEncodedLength - 8) =
      encodeFixed64 Footer.kTableMagicNumber := by
    rw [TableBuilder.encodeFooter, length_append, encodeFixed64_length] at len
    rw [TableBuilder.encodeFooter]
    exact drop_left' (by omega)
  have isMagic : decodeFixed32 ((encodeFixed64 Footer.kTableMagicNumber).drop 4) <<< 32 |||
      decodeFixed32 (encodeFixed64 Footer.kTableMagicNumber) = Footer.kTableMagicNumber := by decide +kernel
  obtain ⟨padding, isFooter⟩ : ∃ padding, TableBuilder.encodeFooter metaindex index =
      metaindex.encode ++ (index.encode ++ padding) := by
    simp only [TableBuilder.encodeFooter, append_assoc]
    exact ⟨_, rfl⟩
  rw [Footer.decodeFrom, isTail, isMagic, if_neg (fun differs => differs rfl), take_of_length_le len.le, isFooter,
    BlockHandle.decodeFrom_encode metaindexFits.1 metaindexFits.2]
  change BlockHandle.decodeFrom (index.encode ++ padding) >>= _ = _
  rw [BlockHandle.decodeFrom_encode indexFits.1 indexFits.2]
  rfl

/-! ## Blocks in the file -/

/-- The block with its trailer is in the file where the handle says. -/
structure HoldsBlock (crc : Crc) (contents : Bytes) (handle : BlockHandle) (block : Bytes) : Prop where
  size : handle.size = block.length
  offsetFits : handle.offset < 2 ^ 31
  sizeFits : handle.size + kBlockTrailerSize < 2 ^ 31
  holds : (contents.drop handle.offset).take (handle.size + kBlockTrailerSize) = withTrailer crc block

variable {crc : Crc} {memory : HostMemory} {file : RandomAccessFile} {handle : BlockHandle} {block : Bytes}

theorem HoldsBlock.of_append {front : Bytes} (crc : Crc) (block rest : Bytes) (frontFits : front.length < 2 ^ 31)
    (blockFits : block.length + kBlockTrailerSize < 2 ^ 31) :
    HoldsBlock crc (front ++ (withTrailer crc block ++ rest)) ⟨front.length, block.length⟩ block where
  size := rfl
  offsetFits := frontFits
  sizeFits := blockFits
  holds := by
    rw [drop_left]
    exact take_left' (withTrailer_length crc block)

theorem HoldsBlock.readBlock (holds : HoldsBlock crc file.contents handle block) (verify : Bool) (buf : Bytes)
    (beyond : Nat → UInt8) :
    (Elsm.readBlock crc file verify handle buf beyond).result = .ok ⟨withTrailer crc block, block.length⟩ := by
  have sizeFits := holds.sizeFits
  have trailer : kBlockTrailerSize = 5 := rfl
  have len := congrArg length holds.holds
  rw [withTrailer_length, length_take, length_drop, holds.size] at len
  rw [readBlock_eq (Nat.mod_eq_of_lt (sizeFits.trans (by decide))) sizeFits, seekPosition_of_lt holds.offsetFits,
    holds.holds, if_neg (by rw [holds.size]; omega)]
  simp only [holds.size, examineBlock_withTrailer]

theorem HoldsBlock.contents (crc : Crc) (memory : HostMemory) (block : Bytes) :
    bytesAt (withTrailer crc block) memory.beyond 0 block.length = block := by
  rw [bytesAt_of_le (by rw [withTrailer_length]; omega), drop_zero, withTrailer, append_assoc, take_left]

theorem HoldsBlock.readToBlock (holds : HoldsBlock crc file.contents handle block) (verify : Bool) :
    ∃ out, Elsm.readToBlock crc memory file verify handle = .ok (Block.new block out) := by
  refine ⟨fun i => (withTrailer crc block).getD i (memory.beyond i), ?_⟩
  rw [Elsm.readToBlock, holds.readBlock]
  simp only [BlockContents.block, HoldsBlock.contents]

/-! ## Open -/

namespace Table

variable {options : Table.Options} {size : Nat}

theorem openTable_footer (metaindexFits : metaindex.Fits) (indexFits : index.Fits) (long : Footer.kEncodedLength ≤ size)
    (isFooter : (file.contents.drop (seekPosition (size - Footer.kEncodedLength))).take Footer.kEncodedLength =
      TableBuilder.encodeFooter metaindex index) (space : FooterSpace) :
    openTable crc memory options file size space = (do
      let indexBlock ← Elsm.readToBlock crc memory file options.paranoidChecks index
      let filter ← readMeta crc memory options file ⟨metaindex, index⟩
      return ⟨options, file, metaindex, index, indexBlock, filter⟩) := by
  rw [openTable, if_neg (Nat.not_lt.mpr long), read_true (by decide) space.2, isFooter]
  simp only [encodeFooter_length, Nat.sub_self, replicate_zero, append_nil,
    decodeFrom_encodeFooter metaindexFits indexFits]
  rfl

theorem openTable_space (space space' : FooterSpace) :
    openTable crc memory options file size space = openTable crc memory options file size space' := by
  rw [openTable, openTable, read_true (by decide) space.2, read_true (by decide) space'.2]

theorem openTable_short (fits : size < 2 ^ 31 + Footer.kEncodedLength) (short : file.contents.length < size)
    (space : FooterSpace) : ∃ status, openTable crc memory options file size space = .error status := by
  rw [openTable]
  split
  case isTrue => exact ⟨_, rfl⟩
  case isFalse long =>
    have total : Footer.kEncodedLength = 48 := rfl
    rw [read_true (by decide) space.2, seekPosition_of_lt (by omega)]
    generalize isRead : (file.contents.drop (size - Footer.kEncodedLength)).take Footer.kEncodedLength = read
    have few : read.length < Footer.kEncodedLength := by
      rw [← isRead, length_take, length_drop]
      omega
    have isZero : (read ++ replicate (Footer.kEncodedLength - read.length) 0)[47]? = some 0 := by
      rw [getElem?_append_right (by omega), getElem?_replicate, if_pos (by omega)]
    obtain ⟨status, fails⟩ := @decodeFrom_zero (read ++ replicate (Footer.kEncodedLength - read.length) 0)
      read.length
      (by rw [length_append, length_replicate]; omega) isZero
    exact ⟨status, by simp only [fails]; rfl⟩

theorem readMeta_empty (holds : HoldsBlock crc file.contents metaindex BlockBuilder.empty.finish) :
    readMeta crc memory options file ⟨metaindex, index⟩ = .ok none := by
  rw [readMeta]
  cases options.filterPolicy with
  | none => rfl
  | some policy =>
    obtain ⟨out, isBlock⟩ := @HoldsBlock.readToBlock crc memory file _ _ holds options.paranoidChecks
    obtain ⟨s, moved, -, shows⟩ := @seek_finish Bytes _ [] bytewise 1 .nil out (by decide) (filterKey policy)
    have isMoved : (blockIterator sliceCompare).move (.seek (filterKey policy))
        (Block.new BlockBuilder.empty.finish out).newIterator = some s := moved
    have isNone : (blockIterator sliceCompare).current s = none := shows
    simp only [isBlock, isMoved, isNone]

def handles (opened : Except Status Table) : Except Status (BlockHandle × BlockHandle) :=
  opened.map fun table => (table.indexHandle, table.metaindexHandle)

/-- What `Open` makes of a file does not depend on what was in `footer_space`, and a file that is shorter than the
claimed size is refused. -/
structure OnlyBytes (crc : Crc) (memory : HostMemory) (options : Table.Options) (file : RandomAccessFile) (size : Nat) :
    Prop where
  same : ∀ space space', handles (openTable crc memory options file size space) =
    handles (openTable crc memory options file size space')
  refused : file.contents.length < size → ∀ space, ∃ status,
    openTable crc memory options file size space = .error status

theorem openTable_empty {index : BlockHandle} (indexFits : index.Fits) (long : Footer.kEncodedLength ≤ size)
    (isFooter : (file.contents.drop (seekPosition (size - Footer.kEncodedLength))).take Footer.kEncodedLength =
      TableBuilder.encodeFooter index index) (holds : HoldsBlock crc file.contents index BlockBuilder.empty.finish)
    (space : FooterSpace) : ∃ table, openTable crc memory options file size space = .ok table := by
  obtain ⟨out, isBlock⟩ := @HoldsBlock.readToBlock crc memory file _ _ holds options.paranoidChecks
  rw [openTable_footer indexFits indexFits long isFooter, isBlock, readMeta_empty holds]
  exact ⟨_, rfl⟩

theorem exists_short (crc : Crc) (memory : HostMemory) (options : Table.Options)
    (wide : 2 ^ 31 + Footer.kEncodedLength ≤ size)
    (space : FooterSpace) : ∃ contents : Bytes, contents.length < size ∧
      ∃ table, openTable crc memory options ⟨[], contents⟩ size space = .ok table := by
  have total : Footer.kEncodedLength = 48 := rfl
  have pre := seekPosition_of_le (show 2 ^ 31 ≤ size - Footer.kEncodedLength by omega)
  generalize isPlace : seekPosition (size - Footer.kEncodedLength) = place at pre
  have isEmpty : BlockBuilder.empty.finish.length = 8 := rfl
  have trailer : kBlockTrailerSize = 5 := rfl
  have len := withTrailer_length crc BlockBuilder.empty.finish
  by_cases roomy : place + Footer.kEncodedLength < 2 ^ 31
  case pos =>
    generalize isIndex : TableBuilder.encodeFooter ⟨place + 48, 8⟩ ⟨place + 48, 8⟩ = footer
    have footerLength : footer.length = 48 := by rw [← isIndex, encodeFooter_length]; rfl
    have front : (replicate place 0 ++ footer).length = place + 48 := by
      rw [length_append, length_replicate, footerLength]
    have holds := HoldsBlock.of_append crc BlockBuilder.empty.finish [] (front.trans_lt roomy) (by decide)
    rw [front, isEmpty, append_nil] at holds
    refine ⟨_, ?_, @openTable_empty crc memory ⟨[], _⟩ options size ⟨place + 48, 8⟩
      ⟨by simp only; omega, by simp⟩ (by omega)
      ?_ holds space⟩
    · rw [length_append, front, len]
      omega
    · rw [isPlace, append_assoc, drop_left' length_replicate, isIndex]
      exact take_left' (footerLength.trans total.symm)
  case neg =>
    generalize isIndex : TableBuilder.encodeFooter ⟨0, 8⟩ ⟨0, 8⟩ = footer
    have footerLength : footer.length = 48 := by rw [← isIndex, encodeFooter_length]; rfl
    have holds := @HoldsBlock.of_append [] crc BlockBuilder.empty.finish (replicate (place - 13) 0 ++ footer)
      (by decide) (by decide)
    rw [length_nil, isEmpty, nil_append, ← append_assoc] at holds
    have front : (withTrailer crc BlockBuilder.empty.finish ++ replicate (place - 13) 0).length = place := by
      rw [length_append, len, length_replicate]
      omega
    refine ⟨_, ?_, @openTable_empty crc memory ⟨[], _⟩ options size ⟨0, 8⟩ ⟨by decide, by decide⟩
      (by omega) ?_ holds space⟩
    · rw [length_append, front, footerLength]
      omega
    · rw [isPlace, drop_left' front, isIndex]
      exact take_of_length_le (footerLength.trans total.symm).le

/-- The claimed sizes for which opening a table depends on its bytes alone. -/
theorem openTable_onlyBytes_iff (crc : Crc) (memory : HostMemory) (options : Table.Options) (size : Nat) :
    (∀ file, OnlyBytes crc memory options file size) ↔ size < 2 ^ 31 + Footer.kEncodedLength := by
  constructor
  · intro onlyBytes
    by_contra wide
    have space : FooterSpace := ⟨replicate Footer.kEncodedLength 0, length_replicate⟩
    obtain ⟨contents, short, table, opens⟩ := exists_short crc memory options (Nat.le_of_not_lt wide) space
    obtain ⟨status, fails⟩ := (onlyBytes ⟨[], contents⟩).refused short space
    rw [opens] at fails
    cases fails
  · intro fits file
    exact ⟨fun space space' => by rw [openTable_space space space'],
      fun short space => openTable_short fits short space⟩

def shortFile : Bytes :=
  withTrailer (fun _ => 0) BlockBuilder.empty.finish ++ TableBuilder.encodeFooter ⟨0, 8⟩ ⟨0, 8⟩

/-- Opened with a claimed size of more than four gigabytes, the file of sixty-one bytes is accepted. -/
theorem openTable_accepts_shortFile : shortFile.length = 61 ∧
    (∀ space, handles (openTable (fun _ => 0) ⟨[], fun _ => 0⟩ ⟨true, none⟩ ⟨[], shortFile⟩ (2 ^ 32 + 61) space) =
      .ok (⟨0, 8⟩, ⟨0, 8⟩)) ∧
    ¬OnlyBytes (fun _ => 0) ⟨[], fun _ => 0⟩ ⟨true, none⟩ ⟨[], shortFile⟩ (2 ^ 32 + 61) := by
  have opens : ∀ space, handles (openTable (fun _ => 0) ⟨[], fun _ => 0⟩ ⟨true, none⟩ ⟨[], shortFile⟩ (2 ^ 32 + 61)
      space) = .ok (⟨0, 8⟩, ⟨0, 8⟩) := by
    intro space
    rw [openTable_space space ⟨replicate Footer.kEncodedLength 0, length_replicate⟩]
    rfl
  have length : shortFile.length = 61 := by decide +kernel
  refine ⟨length, opens, fun onlyBytes => ?_⟩
  have space : FooterSpace := ⟨replicate Footer.kEncodedLength 0, length_replicate⟩
  obtain ⟨status, fails⟩ := onlyBytes.refused (length.trans_lt (by decide)) space
  have isOk := opens space
  rw [fails] at isOk
  cases isOk

end Table

end Elsm
