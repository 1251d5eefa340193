import Mathlib.Tactic.Common
import Elsm.Format.FileName
import Elsm.Version.Recover

/-!
# Reading at a position (`UnSecurePosixRandomAccessFile::Read`, `App/App.cpp`)

The file is opened for every read, and the host seeks from its start and reads.  Between the enclave and the host the
offset, the count and the result are `int`s (`Enclave.edl`), and whether the seek succeeded is not looked at.
`read_faithful_iff` says for which offsets and counts the bytes are always those at the offset.
-/

namespace Elsm

open List

/-! ## Conversions -/

/-- An unsigned number that is passed as an `int`. -/
def toInt32 (n : Nat) : Int :=
  if n % 2 ^ 32 < 2 ^ 31 then (n % 2 ^ 32 : Nat) else (n % 2 ^ 32 : Nat) - 2 ^ 32

/-- An `int` that is passed as a `size_t`. -/
def toSizeT (i : Int) : Nat := (i % 2 ^ 64).toNat

theorem toInt32_of_lt {n : Nat} (small : n < 2 ^ 31) : toInt32 n = n := by
  rw [toInt32]
  split <;> omega

theorem toInt32_lt (n : Nat) : toInt32 n < 2 ^ 31 := by
  rw [toInt32]
  split <;> omega

theorem toInt32_toNat_le (n : Nat) : (toInt32 n).toNat ≤ n := by
  rw [toInt32]
  split <;> omega

theorem toSizeT_ofNat {n : Nat} (small : n < 2 ^ 31) : toSizeT n = n := by
  rw [toSizeT]
  omega

/-! ## The host -/

structure HostFile where
  contents : Bytes
  position : Nat

namespace HostFile

def fopen (contents : Bytes) : HostFile := ⟨contents, 0⟩

/-- `fseek(fp, offset, SEEK_CUR)`.  A place before the start is refused. -/
def fseek (f : HostFile) (offset : Int) : Int × HostFile :=
  if f.position + offset < 0 then (-1, f) else (0, { f with position := (f.position + offset).toNat })

def fread (f : HostFile) (count : Nat) : Bytes := (f.contents.drop f.position).take count

/-- `ocall_fread`: `*data` and `*res`.  The caller's side takes a buffer of `ncount` zeros to the host and copies all
of it back, and makes no call when a buffer of the size is not in the enclave. -/
def ocallFread (f : HostFile) (data : Bytes) (ncount : Int) : Bytes × Int :=
  if ncount < 0 then (data, 0)
  else
    let stored := f.fread (toSizeT ncount)
    (stored ++ replicate (ncount.toNat - stored.length) 0 ++ data.drop ncount.toNat, toInt32 stored.length)

/-- `ocall_fread_outside`: the buffer is memory of the host. -/
def ocallFreadOutside (f : HostFile) (data : Bytes) (ncount : Int) : Bytes × Int :=
  let stored := f.fread (toSizeT ncount)
  (stored ++ data.drop stored.length, toInt32 stored.length)

end HostFile

/-! ## Read -/

/-- A file that is there, with its name. -/
structure RandomAccessFile where
  filename : Bytes
  contents : Bytes

/-- `Read`: the answer, and what is in `scratch` then. -/
def RandomAccessFile.read (file : RandomAccessFile) (flag : Bool) (offset n : Nat) (scratch : Bytes) :
    Except Status Bytes × Bytes :=
  let f := HostFile.fopen file.contents
  -- nothing is done with the first component
  let f := (f.fseek (toInt32 offset)).2
  let (scratch, r) := if flag then f.ocallFread scratch (toInt32 n) else f.ocallFreadOutside scratch (toInt32 n)
  (if r < 0 then .error (.ioError (toText file.filename)) else .ok (scratch.take r.toNat), scratch)

/-- The answer is an error, or the bytes from the offset on, as many as asked for if the file has them. -/
def Faithful (contents : Bytes) (offset n : Nat) (answer : Except Status Bytes) : Prop :=
  ∀ data, answer = .ok data → data = (contents.drop offset).take n

/-! ## Where the bytes come from -/

def seekPosition (offset : Nat) : Nat := (toInt32 offset).toNat

def hostCount (flag : Bool) (n : Nat) : Nat := if flag then (toInt32 n).toNat else toSizeT (toInt32 n)

def stored (contents : Bytes) (flag : Bool) (offset n : Nat) : Bytes :=
  (contents.drop (seekPosition offset)).take (hostCount flag n)

variable {file : RandomAccessFile} {flag : Bool} {offset n : Nat} {scratch : Bytes}

theorem fseek_position (contents : Bytes) (offset : Nat) :
    ((HostFile.fopen contents).fseek (toInt32 offset)).2 = ⟨contents, seekPosition offset⟩ := by
  rw [HostFile.fseek, HostFile.fopen, seekPosition]
  simp only [Nat.cast_zero, Int.zero_add]
  split
  case isTrue negative => rw [Int.toNat_of_nonpos negative.le]
  case isFalse => rfl

/-- The answer are the bytes that the host stored, as far as their number goes through. -/
theorem read_answer (file : RandomAccessFile) (flag : Bool) (offset n : Nat) (scratch : Bytes) :
    (file.read flag offset n scratch).1 =
      if toInt32 (stored file.contents flag offset n).length < 0 then .error (.ioError (toText file.filename))
      else .ok ((stored file.contents flag offset n).take
        (toInt32 (stored file.contents flag offset n).length).toNat) := by
  simp only [RandomAccessFile.read, fseek_position]
  cases flag with
  | false =>
    simp only [HostFile.ocallFreadOutside, Bool.false_eq_true, if_false]
    rw [take_append_of_le_length (toInt32_toNat_le _)]
    rfl
  | true =>
    simp only [HostFile.ocallFread, if_true]
    by_cases negative : toInt32 n < 0
    · have noCount : hostCount true n = 0 := Int.toNat_of_nonpos negative.le
      rw [if_pos negative, stored, noCount, take_zero]
      rfl
    have count : hostCount true n = toSizeT (toInt32 n) := by
      have := toInt32_lt n
      simp only [hostCount, if_true, toSizeT]
      omega
    rw [if_neg negative, stored, count, append_assoc, take_append_of_le_length (toInt32_toNat_le _)]
    rfl

theorem seekPosition_of_lt (small : offset < 2 ^ 31) : seekPosition offset = offset := by
  rw [seekPosition, toInt32_of_lt small, Int.toNat_natCast]

theorem seekPosition_of_le (large : 2 ^ 31 ≤ offset) : seekPosition offset + 2 ^ 31 ≤ offset := by
  rw [seekPosition, toInt32]
  split <;> omega

theorem read_of_fits (nFits : n < 2 ^ 31) :
    (file.read flag offset n scratch).1 = .ok ((file.contents.drop (seekPosition offset)).take n) := by
  have isCount : hostCount flag n = n := by
    rw [hostCount, toInt32_of_lt nFits, Int.toNat_natCast, toSizeT_ofNat nFits, ite_self]
  have few : ((file.contents.drop (seekPosition offset)).take n).length < 2 ^ 31 := (length_take_le ..).trans_lt nFits
  rw [read_answer, stored, isCount, toInt32_of_lt few, if_neg (by omega), Int.toNat_natCast, take_length]

/-- On a file of zeros it is enough to count. -/
theorem not_faithful_of_length {size : Nat} (fits : toInt32 (min (hostCount flag n) (size - seekPosition offset)) =
      (min (hostCount flag n) (size - seekPosition offset) % 2 ^ 32 : Nat))
    (differs : min (hostCount flag n) (size - seekPosition offset) % 2 ^ 32 ≠ min n (size - offset)) :
    ¬∀ contents scratch, Faithful contents offset n (RandomAccessFile.read ⟨[], contents⟩ flag offset n scratch).1 := by
  intro faithful
  have len : (stored (replicate size 0) flag offset n).length =
      min (hostCount flag n) (size - seekPosition offset) := by
    rw [stored, length_take, length_drop, length_replicate]
  have eq := faithful (replicate size 0) [] _ (by
    rw [read_answer, len, fits, if_neg (by omega)])
  have counts := congrArg length eq
  rw [length_take, len, length_take, length_drop, length_replicate] at counts
  omega

/-- The count goes through, or none or too many are asked for. -/
theorem hostCount_cases (flag : Bool) (n : Nat) :
    hostCount flag n = n % 2 ^ 32 ∧ n % 2 ^ 32 < 2 ^ 31 ∨ hostCount flag n = 0 ∨ 2 ^ 33 ≤ hostCount flag n := by
  by_cases small : n % 2 ^ 32 < 2 ^ 31
  · have isCount : toInt32 n = (n % 2 ^ 32 : Nat) := if_pos small
    refine .inl ⟨?_, small⟩
    rw [hostCount, isCount, Int.toNat_natCast, toSizeT_ofNat small, ite_self]
  have isCount : toInt32 n = (n % 2 ^ 32 : Nat) - 2 ^ 32 := if_neg small
  right
  cases flag with
  | true =>
    left
    rw [hostCount, if_pos rfl, isCount]
    omega
  | false =>
    right
    rw [hostCount, if_neg Bool.false_ne_true, toSizeT, isCount]
    omega

/-- The bytes are those at the offset, whatever is in the file, just when an `int` is wide enough. -/
theorem read_faithful_iff (flag : Bool) (offset n : Nat) :
    (∀ file scratch, Faithful file.contents offset n (RandomAccessFile.read file flag offset n scratch).1) ↔
      n = 0 ∨ offset < 2 ^ 31 ∧ n < 2 ^ 31 := by
  constructor
  · intro faithful
    by_contra wide
    have unfaithful : ∀ size, min (hostCount flag n) (size - seekPosition offset) % 2 ^ 32 < 2 ^ 31 →
        min (hostCount flag n) (size - seekPosition offset) % 2 ^ 32 = min n (size - offset) := by
      intro size fits
      by_contra differs
      exact not_faithful_of_length (if_pos fits) differs fun contents => faithful ⟨[], contents⟩
    obtain small | large := Nat.lt_or_ge offset (2 ^ 31)
    · rw [seekPosition_of_lt small] at unfaithful
      obtain ⟨isCount, fits⟩ | none | many := hostCount_cases flag n
      · have := unfaithful (offset + n % 2 ^ 32 + 1)
        omega
      · have := unfaithful (offset + 1)
        omega
      · have := unfaithful (offset + 2 ^ 32)
        omega
    · obtain none | some := Nat.eq_zero_or_pos (hostCount flag n)
      · have := unfaithful (offset + 1)
        omega
      · have before := seekPosition_of_le large
        have := unfaithful (seekPosition offset + 1)
        omega
  · intro fits file scratch data isData
    obtain rfl | ⟨offsetFits, nFits⟩ := fits
    · have noCount : hostCount flag 0 = 0 := by cases flag <;> rfl
      have isStored : stored file.contents flag offset 0 = [] := by rw [stored, noCount, take_zero]
      rw [read_answer, isStored] at isData
      cases isData
      rw [take_zero, take_nil]
    · rw [read_of_fits nFits, seekPosition_of_lt offsetFits] at isData
      exact (Except.ok.inj isData).symm

/-- The first bytes of a file in place of those far behind its end. -/
theorem read_wraps_offset :
    ¬Faithful [1, 2, 3] (2 ^ 32) 2 (RandomAccessFile.read ⟨[], [1, 2, 3]⟩ false (2 ^ 32) 2 [0, 0]).1 := by
  intro faithful
  have same := faithful [1, 2] rfl
  cases same

end Elsm
