import Elsm.Lib.Stream
import Elsm.Log.Writer

/-!
# Reading log files (`db/log_reader.cpp`)

The reader takes a block at a time from the file and the physical records from the block.  It
puts the fragments of a record together and reports what it drops.  All readers of the
database start at offset 0, so nothing is skipped at the beginning.
-/

namespace Elsm.Log

/-- `kEof` and `kBadRecord` extend the record types. -/
def kEof : Nat := 5

def kBadRecord : Nat := 6

/-- The reader: what the file still holds, the block in `buffer_`, `eof_` and the reports made, each
with the number of bytes dropped. -/
structure Reader where
  rest : Bytes
  buffer : Bytes
  eof : Bool
  reports : List (Nat × String)

namespace Reader

def reportCorruption (r : Reader) (bytes : Nat) (reason : String) : Reader :=
  { r with reports := r.reports ++ [(bytes, reason)] }

def refill (r : Reader) : Reader :=
  { r with
    buffer := r.rest.take kBlockSize
    rest := r.rest.drop kBlockSize
    eof := decide ((r.rest.take kBlockSize).length < kBlockSize) }

/-- `const unsigned int type = header[6]`: a `char` is signed. -/
def typeOf (byte : UInt8) : Nat := if byte < 128 then byte.toNat else byte.toNat + 4294967040

variable (crc : Crc) (checksum : Bool)

/-- The part of `ReadPhysicalRecord` after a header is in the buffer.  The length is that of the
payload. -/
def parsePhysicalRecord (r : Reader) : Nat × Bytes × Reader :=
  let a := r.buffer.getD 4 0
  let b := r.buffer.getD 5 0
  let type := typeOf (r.buffer.getD 6 0)
  let length := a.toNat + 256 * b.toNat
  let cleared := { r with buffer := [] }
  if r.buffer.length < kHeaderSize + length then
    if r.eof then (kEof, [], cleared)
    else (kBadRecord, [], cleared.reportCorruption r.buffer.length "bad record length")
  else if type = 0 ∧ length = 0 then (kBadRecord, [], cleared)
  else if checksum ∧
      crc ((r.buffer.drop 6).take (1 + length)) ≠ Crc32c.unmask (UInt32.ofNat (decodeFixed32 r.buffer)) then
    (kBadRecord, [], cleared.reportCorruption r.buffer.length "checksum mismatch")
  else
    (type, (r.buffer.drop kHeaderSize).take length, { r with buffer := r.buffer.drop (kHeaderSize + length) })

/-- `ReadPhysicalRecord`.  After one refill the buffer holds a whole block or the file has ended, so
the loop of the source takes at most one more turn. -/
def readPhysicalRecord (r : Reader) : Nat × Bytes × Reader :=
  let r := if r.buffer.length < kHeaderSize ∧ ¬r.eof then r.refill else r
  if r.buffer.length < kHeaderSize then (kEof, [], { r with buffer := [] })
  else r.parsePhysicalRecord crc checksum

/-- A record that starts while another one is incomplete. -/
def reportPartial (r : Reader) (inFragmentedRecord : Bool) (scratch : Bytes) (reason : String) : Reader :=
  if inFragmentedRecord ∧ scratch ≠ [] then r.reportCorruption scratch.length reason else r

/-- The loop of `ReadRecord`, with a bound on the physical records it reads. -/
def readRecordLoop : Nat → Bool → Bytes → Reader → Option Bytes × Reader
  | 0, _, _, r => (none, r)
  | bound + 1, inFragmentedRecord, scratch, r =>
    match r.readPhysicalRecord crc checksum with
    | (type, fragment, r) =>
      match type with
      | 1 => (some fragment, r.reportPartial inFragmentedRecord scratch "partial record without end(1)")
      | 2 =>
        readRecordLoop bound true fragment (r.reportPartial inFragmentedRecord scratch "partial record without end(2)")
      | 3 =>
        if inFragmentedRecord then readRecordLoop bound true (scratch ++ fragment) r
        else
          readRecordLoop bound false scratch
            (r.reportCorruption fragment.length "missing start of fragmented record(1)")
      | 4 =>
        if inFragmentedRecord then (some (scratch ++ fragment), r)
        else
          readRecordLoop bound false scratch
            (r.reportCorruption fragment.length "missing start of fragmented record(2)")
      | 5 => (none, r)
      | 6 =>
        if inFragmentedRecord then
          readRecordLoop bound false [] (r.reportCorruption scratch.length "error in middle of record")
        else readRecordLoop bound false scratch r
      | type =>
        readRecordLoop bound false []
          (r.reportCorruption (fragment.length + if inFragmentedRecord then scratch.length else 0)
            ("unknown record type " ++ toString type))

def pending (r : Reader) : Nat := r.buffer.length + r.rest.length

/-- `ReadRecord`; every physical record uses bytes up. -/
def readRecord (r : Reader) : Option Bytes × Reader := r.readRecordLoop crc checksum (r.pending + 1) false []

def start (bytes : Bytes) : Reader := ⟨bytes, [], false, []⟩

/-- The records of a file in the order in which `ReadRecord` returns them, and the reader after them. -/
def readAll (bytes : Bytes) : List Bytes × Reader :=
  Stream.collect (fun r => r.readRecord crc checksum) (bytes.length + 1) (start bytes)

/-! ## Every record uses bytes up -/

variable {crc : Crc} {checksum : Bool} {r r' : Reader}

theorem parsePhysicalRecord_uses {type : Nat} {fr : Bytes} (le : kHeaderSize ≤ r.buffer.length)
    (reads : r.parsePhysicalRecord crc checksum = (type, fr, r')) : r'.pending < r.pending := by
  have pos : 0 < kHeaderSize := by decide
  simp only [parsePhysicalRecord] at reads
  split at reads
  · split at reads <;> cases reads <;> simp only [pending, reportCorruption, List.length_nil] <;> omega
  split at reads
  · cases reads
    simp only [pending, List.length_nil]
    omega
  split at reads
  · cases reads
    simp only [pending, reportCorruption, List.length_nil]
    omega
  cases reads
  simp only [pending, List.length_drop]
  omega

theorem refill_pending (r : Reader) : r.refill.pending = r.rest.length := by
  rw [pending, refill, List.length_take, List.length_drop]
  omega

theorem readPhysicalRecord_uses {type : Nat} {fr : Bytes}
    (reads : r.readPhysicalRecord crc checksum = (type, fr, r')) (notEof : type ≠ kEof) :
    r'.pending < r.pending := by
  simp only [readPhysicalRecord] at reads
  generalize isNext : (if r.buffer.length < kHeaderSize ∧ ¬r.eof then r.refill else r) = next at reads
  have atMost : next.pending ≤ r.pending := by
    rw [← isNext]
    split
    · rw [refill_pending]
      exact Nat.le_add_left _ _
    · exact le_rfl
  split at reads
  case isTrue => exact absurd (congrArg Prod.fst reads).symm notEof
  case isFalse le => exact (parsePhysicalRecord_uses (not_lt.mp le) reads).trans_le atMost

theorem readRecordLoop_uses {fuel : Nat} {inFragmentedRecord : Bool} {scratch rcd : Bytes}
    (reads : r.readRecordLoop crc checksum fuel inFragmentedRecord scratch = (some rcd, r')) :
    r'.pending < r.pending := by
  induction fuel generalizing inFragmentedRecord scratch r with
  | zero => cases reads
  | succ fuel ih =>
    rw [readRecordLoop] at reads
    generalize isRead : r.readPhysicalRecord crc checksum = answer at reads
    obtain ⟨type, fr, next⟩ := answer
    have uses : type ≠ kEof → next.pending < r.pending := readPhysicalRecord_uses isRead
    have again : ∀ {inFragmentedRecord : Bool} {scratch : Bytes} {reported : Reader},
        reported.readRecordLoop crc checksum fuel inFragmentedRecord scratch = (some rcd, r') →
        reported.pending = next.pending → type ≠ kEof → r'.pending < r.pending :=
      fun reads eq notEof => (ih reads).trans (eq ▸ uses notEof)
    have partialSame : ∀ {reason : String},
        (next.reportPartial inFragmentedRecord scratch reason).pending = next.pending := by
      intro reason
      rw [reportPartial]
      split <;> rfl
    simp only at reads
    split at reads
    · cases reads
      exact partialSame ▸ uses (by decide)
    · exact again reads partialSame (by decide)
    · split at reads
      · exact again reads rfl (by decide)
      · exact again reads rfl (by decide)
    · split at reads
      · cases reads
        exact uses (by decide)
      · exact again reads rfl (by decide)
    · cases reads
    · split at reads
      · exact again reads rfl (by decide)
      · exact again reads rfl (by decide)
    case h_7 _ _ _ _ notEof _ =>
      exact again reads rfl notEof

theorem readRecord_uses {rcd : Bytes} (reads : r.readRecord crc checksum = (some rcd, r')) :
    r'.pending < r.pending :=
  readRecordLoop_uses reads

theorem readAll_yields (crc : Crc) (checksum : Bool) (bytes : Bytes) :
    Stream.Yields (fun r => r.readRecord crc checksum) (start bytes) (readAll crc checksum bytes).1
        (readAll crc checksum bytes).2 ∧ (readAll crc checksum bytes).1.length ≤ bytes.length := by
  obtain ⟨records, last, yields, len⟩ := Stream.exists_yields pending readRecord_uses (start bytes)
  have size : (start bytes).pending = bytes.length := Nat.zero_add _
  rw [size] at len
  rw [readAll, Stream.collect_eq yields (Nat.lt_succ_of_le len)]
  exact ⟨yields, len⟩

end Reader

end Elsm.Log
