import Mathlib.Data.UInt
import Elsm.Format.Coding

/-!
# Writing log files (`db/log_format.h`, `db/log_writer.cpp`, `util/crc32c.h`)

A log file is a sequence of blocks of 32768 bytes.  A record is written as one or more physical
records, each within one block and behind a header of checksum, length and type.  A block
with less room than a header is filled up with zeros.

The checksum is a parameter: what is proved about the format holds for any function of the
checked bytes.
-/

namespace Elsm

namespace Crc32c

def kMaskDelta : UInt32 := 0xa282ead8

def mask (crc : UInt32) : UInt32 := (crc >>> 15 ||| crc <<< 17) + kMaskDelta

def unmask (maskedCrc : UInt32) : UInt32 :=
  let rot := maskedCrc - kMaskDelta
  rot >>> 17 ||| rot <<< 15

theorem unmask_mask (crc : UInt32) : unmask (mask crc) = crc := by
  simp only [unmask, mask, UInt32.add_sub_cancel]
  apply UInt32.eq_of_toBitVec_eq
  apply BitVec.eq_of_getLsbD_eq
  intro i inWord
  simp
  grind

end Crc32c

namespace Log

/-- `crc32c::Value`. -/
abbrev Crc := Bytes → UInt32

inductive RecordType where
  | full
  | first
  | middle
  | last
  deriving DecidableEq

def RecordType.code : RecordType → Nat
  | .full => 1
  | .first => 2
  | .middle => 3
  | .last => 4

def kBlockSize : Nat := 32768

def kHeaderSize : Nat := 7

/-- What the writer needs from a `WritableFile` in state `σ`.  The Boolean is whether the status is
OK. -/
structure WritableFile (σ : Type*) where
  append : Bytes → σ → Bool × σ
  flush : σ → Bool × σ

structure Writer (σ : Type*) where
  dest : σ
  blockOffset : Nat

/-- The header of a physical record.  `Extend(type_crc_[t], ptr, n)` is the checksum of the type
followed by the payload. -/
def header (crc : Crc) (t : RecordType) (payload : Bytes) : Bytes :=
  encodeFixed32 (Crc32c.mask (crc (UInt8.ofNat t.code :: payload))).toNat ++
    [UInt8.ofNat payload.length, UInt8.ofNat (payload.length / 256), UInt8.ofNat t.code]

variable {σ : Type*} (file : WritableFile σ) (crc : Crc)

/-- `EmitPhysicalRecord`.  The offset moves on even when the file does not take the bytes. -/
def emitPhysicalRecord (t : RecordType) (payload : Bytes) (w : Writer σ) : Bool × Writer σ :=
  let written := file.append (header crc t payload) w.dest
  let written := if written.1 then file.append payload written.2 else written
  let written := if written.1 then file.flush written.2 else written
  (written.1, ⟨written.2, w.blockOffset + kHeaderSize + payload.length⟩)

/-- Start a new block when the current one has no room for a header.  Whether the zeros were
written is not looked at. -/
def switchBlock (w : Writer σ) : Writer σ :=
  let leftover := kBlockSize - w.blockOffset
  if leftover < kHeaderSize then
    ⟨if 0 < leftover then (file.append (List.replicate leftover 0) w.dest).2 else w.dest, 0⟩
  else w

def fragmentType (begin done : Bool) : RecordType :=
  if begin && done then .full else if begin then .first else if done then .last else .middle

/-- The loop of `AddRecord` over the bytes that are left, with a bound on its rounds. -/
def addRecordLoop : Nat → Bool → Bytes → Writer σ → Bool × Writer σ
  | 0, _, _, w => (true, w)
  | rounds + 1, begin, left, w =>
    let w := switchBlock file w
    let avail := kBlockSize - w.blockOffset - kHeaderSize
    let written := emitPhysicalRecord file crc (fragmentType begin (left.length ≤ avail)) (left.take avail) w
    if written.1 ∧ left.drop avail ≠ [] then addRecordLoop rounds false (left.drop avail) written.2
    else written

/-- `AddRecord`.  Every round but the first writes at least one byte of the record. -/
def addRecord (record : Bytes) (w : Writer σ) : Bool × Writer σ :=
  addRecordLoop file crc (record.length + 2) true record w

end Log

end Elsm
