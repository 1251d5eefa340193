import Elsm.Env.RandomAccess
import Elsm.Log.Writer
import Elsm.Table.Builder

/-!
# Handles, footers and the reading of blocks (`table/format.cpp`)

A handle says where a block is in the file.  `ReadBlock` takes a buffer outside of the enclave for the block and its
trailer, lets the file be read into it and checks what it got.  `readBlock_sound_iff` says for which handles the
result is always the bytes that the handle points to, or an error.
-/

namespace Elsm

open List
open Log (Crc)

/-! ## Handles and footers -/

namespace BlockHandle

def kMaxEncodedLength : Nat := 10 + 10

def decodeFrom (input : Bytes) : Except Status (BlockHandle × Bytes) :=
  match getVarint64 input with
  | none => .error (.corruption "bad block handle")
  | some (offset, input) =>
    match getVarint64 input with
    | none => .error (.corruption "bad block handle")
    | some (size, input) => .ok (⟨offset, size⟩, input)

theorem decodeFrom_encode {handle : BlockHandle} (offsetFits : handle.offset < 2 ^ 64) (sizeFits : handle.size < 2 ^ 64)
    (rest : Bytes) : decodeFrom (handle.encode ++ rest) = .ok (handle, rest) := by
  rw [decodeFrom, encode, append_assoc, getVarint64_encodeVarint64 offsetFits]
  simp only [getVarint64_encodeVarint64 sizeFits]

end BlockHandle

structure Footer where
  metaindexHandle : BlockHandle
  indexHandle : BlockHandle

namespace Footer

def kEncodedLength : Nat := 2 * BlockHandle.kMaxEncodedLength + 8

def kTableMagicNumber : Nat := 0xdb4775248b80fb57

/-- `Footer::DecodeFrom`.  The magic number is taken from where the data are, whatever the size of the slice. -/
def decodeFrom (data : Bytes) (size : Nat) : Except Status Footer :=
  let magicPtr := data.drop (kEncodedLength - 8)
  let magicLo := decodeFixed32 magicPtr
  let magicHi := decodeFixed32 (magicPtr.drop 4)
  if magicHi <<< 32 ||| magicLo ≠ kTableMagicNumber then .error (.corruption "not an sstable (bad magic number)")
  else do
    let (metaindexHandle, input) ← BlockHandle.decodeFrom (data.take size)
    let (indexHandle, _) ← BlockHandle.decodeFrom input
    return ⟨metaindexHandle, indexHandle⟩

end Footer

/-! ## ReadBlock -/

def kBlockTrailerSize : Nat := 5

/-- The slice over the buffer that `ReadBlock` returns. -/
structure BlockContents where
  buffer : Bytes
  size : Nat
  deriving DecidableEq

/-- What `ReadBlock` does: the size it asks the host to allocate, which is also the count it passes for the read, the
places in the buffer that it looks at, as a start and a length, and its result. -/
structure BlockRead where
  requested : Int
  accessed : List (Nat × Nat)
  /-- Whether the `delete[]` of the enclave gets the buffer, which is memory of the host. -/
  deleted : Bool
  result : Except Status BlockContents

/-- Bytes from a place of the buffer on.  `beyond` are those that are not in it. -/
def bytesAt (buffer : Bytes) (beyond : Nat → UInt8) (start length : Nat) : Bytes :=
  (range length).map fun i => buffer.getD (start + i) (beyond (start + i))

/-- The end of `ReadBlock`, from the checksum on: the places it looks at, and the result. -/
def examineBlock (crc : Crc) (verifyChecksums : Bool) (n : Nat) (data : Bytes) (beyond : Nat → UInt8) :
    List (Nat × Nat) × Except Status BlockContents :=
  let checks := if verifyChecksums then [(n + 1, 4), (0, n + 1)] else []
  if verifyChecksums ∧ crc (bytesAt data beyond 0 (n + 1)) ≠
      Crc32c.unmask (UInt32.ofNat (decodeFixed32 (bytesAt data beyond (n + 1) 4))) then
    (checks, .error (.corruption "block checksum mismatch"))
  else
    (checks ++ [(n, 1)], match (data.getD n (beyond n)).toNat with
      | 0 => .ok ⟨data, n⟩
      -- there is no Snappy in the build
      | 1 => .error (.corruption "corrupted compressed block contents")
      | _ => .error (.corruption "bad block type"))

/-- `ReadBlock` with `READBUFFER_OUT`.  For a negative size the `new` of the host throws, and the process ends. -/
def readBlock (crc : Crc) (file : RandomAccessFile) (verifyChecksums : Bool) (handle : BlockHandle) (buf : Bytes)
    (beyond : Nat → UInt8) : BlockRead :=
  let n := handle.size
  let total := (n + kBlockTrailerSize) % 2 ^ 64
  let requested := toInt32 total
  if requested < 0 then ⟨requested, [], false, .error .abort⟩
  else
    match (file.read false handle.offset total buf).1 with
    | .error s => ⟨requested, [], true, .error s⟩
    | .ok contents =>
      if contents.length ≠ total then ⟨requested, [], true, .error (.corruption "truncated block read")⟩
      else
        let (accessed, result) := examineBlock crc verifyChecksums n contents beyond
        ⟨requested, accessed, !result.isOk, result⟩

/-- The call returns, only bytes of the buffer are looked at, and what is returned are the bytes that the handle points
to, in a buffer that was asked for with their number and that of the trailer.  The buffer is kept exactly for a
block. -/
structure BlockRead.Sound (contents : Bytes) (handle : BlockHandle) (call : BlockRead) : Prop where
  returns : call.result ≠ .error .abort
  kept : call.deleted = !call.result.isOk
  inBuffer : ∀ range ∈ call.accessed, (range.1 + range.2 : Nat) ≤ call.requested
  isBlock : ∀ block, call.result = .ok block → call.requested = (handle.size + kBlockTrailerSize : Nat) ∧
    handle.offset + handle.size ≤ contents.length ∧ block.size = handle.size ∧
    block.buffer.take block.size = (contents.drop handle.offset).take handle.size

/-! ## The bytes that are looked at -/

variable {crc : Crc} {file : RandomAccessFile} {verify : Bool} {handle : BlockHandle} {buf data : Bytes} {n : Nat}
  {beyond : Nat → UInt8}

theorem bytesAt_of_le {start len : Nat} (ins : start + len ≤ data.length) :
    bytesAt data beyond start len = (data.drop start).take len := by
  apply ext_getElem
  · rw [bytesAt, length_map, length_range, length_take, length_drop]
    omega
  intro i here there
  rw [bytesAt, length_map, length_range] at here
  simp [bytesAt, getElem?_eq_getElem (show start + i < data.length by omega)]

theorem examineBlock_accessed : ∀ range ∈ (examineBlock crc verify n data beyond).1, range.1 + range.2 ≤ n + 5 := by
  intro range mem
  have checks : ∀ range ∈ if verify then [(n + 1, 4), (0, n + 1)] else [], range.1 + range.2 ≤ n + 5 := by
    cases verify <;> simp
  rw [examineBlock] at mem
  split at mem
  case isTrue => exact checks range mem
  case isFalse =>
    obtain inChecks | isType := mem_append.mp mem
    · exact checks range inChecks
    · rw [mem_singleton.mp isType]
      omega

theorem examineBlock_looks : ∃ range ∈ (examineBlock crc verify n data beyond).1, n < range.1 + range.2 := by
  rw [examineBlock]
  split
  case isTrue failed =>
    refine ⟨(n + 1, 4), ?_, by simp only; omega⟩
    rw [if_pos failed.1]
    exact mem_cons_self
  case isFalse => exact ⟨(n, 1), mem_append_right _ mem_cons_self, Nat.lt_succ_self n⟩

theorem examineBlock_ok {block : BlockContents} (isOk : (examineBlock crc verify n data beyond).2 = .ok block) :
    block = ⟨data, n⟩ := by
  rw [examineBlock] at isOk
  split at isOk
  case isTrue => cases isOk
  case isFalse =>
    simp only at isOk
    split at isOk
    case h_1 => exact (Except.ok.inj isOk).symm
    case h_2 => cases isOk
    case h_3 => cases isOk

/-- A block with its trailer, as `WriteRawBlock` writes it. -/
def withTrailer (crc : Crc) (contents : Bytes) : Bytes :=
  contents ++ [0] ++ encodeFixed32 (Crc32c.mask (crc (contents ++ [0]))).toNat

@[simp] theorem withTrailer_length (crc : Crc) (contents : Bytes) :
    (withTrailer crc contents).length = contents.length + 5 := by
  simp [withTrailer, encodeFixed32]

theorem examineBlock_withTrailer (crc : Crc) (verify : Bool) (contents : Bytes) (beyond : Nat → UInt8) :
    (examineBlock crc verify contents.length (withTrailer crc contents) beyond).2 =
      .ok ⟨withTrailer crc contents, contents.length⟩ := by
  have len : (contents ++ [0]).length = contents.length + 1 := by simp
  have checked : bytesAt (withTrailer crc contents) beyond 0 (contents.length + 1) = contents ++ [0] := by
    rw [bytesAt_of_le (by rw [withTrailer_length]; omega), drop_zero, withTrailer, ← len, take_left]
  have isCrc : bytesAt (withTrailer crc contents) beyond (contents.length + 1) 4 =
      encodeFixed32 (Crc32c.mask (crc (contents ++ [0]))).toNat := by
    rw [bytesAt_of_le (by rw [withTrailer_length]), withTrailer, ← len, drop_left]
    rfl
  have unmasked : Crc32c.unmask (UInt32.ofNat (decodeFixed32 (encodeFixed32
      (Crc32c.mask (crc (contents ++ [0]))).toNat))) = crc (contents ++ [0]) := by
    have decoded := @decodeFixed32_encodeFixed32 (Crc32c.mask (crc (contents ++ [0]))).toNat (UInt32.toNat_lt _) []
    rw [append_nil] at decoded
    rw [decoded, UInt32.ofNat_toNat, Crc32c.unmask_mask]
  have isType : (withTrailer crc contents).getD contents.length (beyond contents.length) = 0 := by
    simp [withTrailer]
  rw [examineBlock, checked, isCrc, unmasked, if_neg (fun failed => failed.2 rfl), isType]
  rfl

/-! ## ReadBlock -/

theorem readBlock_long (long : 2 ^ 31 ≤ (handle.size + kBlockTrailerSize) % 2 ^ 64)
    (positive : (handle.size + kBlockTrailerSize) % 2 ^ 64 % 2 ^ 32 < 2 ^ 31) :
    ∃ requested status, readBlock crc file verify handle buf beyond = ⟨requested, [], true, .error status⟩ ∧
      status ≠ .abort := by
  have allocates : ¬toInt32 ((handle.size + kBlockTrailerSize) % 2 ^ 64) < 0 := by
    rw [toInt32, if_pos positive]
    omega
  rw [readBlock, if_neg allocates, read_answer]
  split
  case h_1 status fails =>
    split at fails
    case isTrue => exact ⟨_, status, rfl, by simp [← Except.error.inj fails]⟩
    case isFalse => cases fails
  case h_2 contents isRead =>
    have short : contents.length < 2 ^ 31 := by
      split at isRead
      case isTrue => cases isRead
      case isFalse =>
        rw [← Except.ok.inj isRead]
        have := toInt32_lt (stored file.contents false handle.offset
          ((handle.size + kBlockTrailerSize) % 2 ^ 64)).length
        rw [length_take]
        omega
    rw [if_pos (by omega)]
    exact ⟨_, _, rfl, by simp⟩

theorem readBlock_eq {total : Nat} (isTotal : (handle.size + kBlockTrailerSize) % 2 ^ 64 = total)
    (fits : total < 2 ^ 31) :
    readBlock crc file verify handle buf beyond =
      if file.contents.length < seekPosition handle.offset + total ∧ total ≠ 0 then
        ⟨total, [], true, .error (.corruption "truncated block read")⟩
      else
        let data := (file.contents.drop (seekPosition handle.offset)).take total
        ⟨total, (examineBlock crc verify handle.size data beyond).1,
          !(examineBlock crc verify handle.size data beyond).2.isOk,
          (examineBlock crc verify handle.size data beyond).2⟩ := by
  have len : ((file.contents.drop (seekPosition handle.offset)).take total).length =
      min total (file.contents.length - seekPosition handle.offset) := by
    rw [length_take, length_drop]
  rw [readBlock, isTotal, toInt32_of_lt fits, if_neg (by omega), read_of_fits fits]
  simp only [len]
  by_cases short : file.contents.length < seekPosition handle.offset + total ∧ total ≠ 0
  · rw [if_pos (by omega), if_pos short]
  · rw [if_neg (by omega), if_neg short]

theorem examineBlock_returns : (examineBlock crc verify n data beyond).2 ≠ .error .abort := by
  rw [examineBlock]
  split
  case isTrue => simp
  case isFalse => simp only; split <;> simp

theorem readBlock_sound (sizeFits : handle.size + kBlockTrailerSize < 2 ^ 64)
    (positive : (handle.size + kBlockTrailerSize) % 2 ^ 32 < 2 ^ 31)
    (offsetFits : handle.offset < 2 ^ 31 ∨ 2 ^ 31 ≤ handle.size + kBlockTrailerSize) :
    (readBlock crc file verify handle buf beyond).Sound file.contents handle := by
  have isTotal := Nat.mod_eq_of_lt sizeFits
  by_cases long : 2 ^ 31 ≤ handle.size + kBlockTrailerSize
  · obtain ⟨requested, status, isCall, isStatus⟩ := @readBlock_long crc file verify handle buf beyond (by rwa [isTotal])
      (by rwa [isTotal])
    rw [isCall]
    exact ⟨by simpa using isStatus, rfl, nofun, nofun⟩
  · have trailer : kBlockTrailerSize = 5 := rfl
    rw [readBlock_eq isTotal (Nat.lt_of_not_le long), seekPosition_of_lt (offsetFits.resolve_right long)]
    split
    case isTrue => exact ⟨by simp, rfl, nofun, nofun⟩
    case isFalse le =>
      refine ⟨examineBlock_returns, rfl, fun range mem => ?_, fun block isOk => ?_⟩
      · have ins := examineBlock_accessed range mem
        simp only
        omega
      obtain rfl := examineBlock_ok isOk
      refine ⟨rfl, by omega, rfl, ?_⟩
      rw [take_take, Nat.min_eq_left (Nat.le_add_right ..)]

/-- The handles for which a block is what the handle points to, or is not returned, whatever is in the file. -/
theorem readBlock_sound_iff (crc : Crc) (verify : Bool) (offset size : UInt64) :
    (∀ file buf beyond, (readBlock crc file verify ⟨offset.toNat, size.toNat⟩ buf beyond).Sound file.contents
      ⟨offset.toNat, size.toNat⟩) ↔
      size.toNat + kBlockTrailerSize < 2 ^ 64 ∧ (size.toNat + kBlockTrailerSize) % 2 ^ 32 < 2 ^ 31 ∧
        (offset.toNat < 2 ^ 31 ∨ 2 ^ 31 ≤ size.toNat + kBlockTrailerSize) := by
  have size64 := size.toNat_lt
  have trailer : kBlockTrailerSize = 5 := rfl
  refine ⟨fun sound => ?_, fun fits file buf beyond => readBlock_sound fits.1 fits.2.1 fits.2.2⟩
  by_contra unfit
  by_cases wraps : 2 ^ 64 ≤ size.toNat + kBlockTrailerSize
  · have isTotal : (size.toNat + kBlockTrailerSize) % 2 ^ 64 = size.toNat + kBlockTrailerSize - 2 ^ 64 := by omega
    have inBuffer := (sound ⟨[], replicate (seekPosition offset.toNat + 5) 0⟩ [] (fun _ => 0)).inBuffer
    have small : size.toNat + kBlockTrailerSize - 2 ^ 64 < 5 := by omega
    rw [readBlock_eq isTotal (small.trans (by decide)), length_replicate, if_neg (by simp only; omega)] at inBuffer
    obtain ⟨range, member, beyondEnd⟩ := examineBlock_looks
    have inside := inBuffer range member
    simp only at beyondEnd inside
    omega
  have isTotal : (size.toNat + kBlockTrailerSize) % 2 ^ 64 = size.toNat + kBlockTrailerSize := by omega
  by_cases negative : 2 ^ 31 ≤ (size.toNat + kBlockTrailerSize) % 2 ^ 32
  · refine (sound ⟨[], []⟩ [] fun _ => 0).returns ?_
    have refused : toInt32 ((size.toNat + kBlockTrailerSize) % 2 ^ 64) < 0 := by
      rw [isTotal, toInt32, if_neg (by omega)]
      omega
    rw [readBlock, if_pos refused]
  · have large : 2 ^ 31 ≤ offset.toNat := by omega
    have before := seekPosition_of_le large
    have isZeros : (replicate size.toNat (0 : UInt8)).length = size.toNat := length_replicate
    have isBlock := (sound ⟨[], replicate (seekPosition offset.toNat) 0 ++
      withTrailer crc (replicate size.toNat 0)⟩ [] (fun _ => 0)).isBlock
    rw [readBlock_eq isTotal (by omega), if_neg (by simp; omega)] at isBlock
    have examined := examineBlock_withTrailer crc verify (replicate size.toNat 0) fun _ => 0
    rw [isZeros] at examined
    have isData : ((replicate (seekPosition offset.toNat) 0 ++
        withTrailer crc (replicate size.toNat 0)).drop (seekPosition offset.toNat)).take
        (size.toNat + kBlockTrailerSize) = withTrailer crc (replicate size.toNat 0) := by
      rw [drop_left' length_replicate]
      apply take_of_length_le
      simp [trailer]
    simp only [isData] at isBlock
    obtain ⟨-, enough, -⟩ := isBlock _ examined
    simp at enough
    omega

/-- The sum of the size and that of the trailer is 0, nothing is read, and the type of the block is taken from before
the buffer. -/
theorem readBlock_wraps_size :
    ¬(readBlock (fun _ => 0) ⟨[], []⟩ false ⟨0, 2 ^ 64 - 5⟩ [] fun _ => 0).Sound [] ⟨0, 2 ^ 64 - 5⟩ := by
  intro sound
  have inside := sound.inBuffer (2 ^ 64 - 5, 1) (by decide +kernel)
  revert inside
  decide +kernel

end Elsm
