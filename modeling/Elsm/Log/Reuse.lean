import Elsm.Lib.Transition
import Elsm.Log.Layout

/-!
# Appending to a log again (`DBImpl::RecoverLogFile`, `VersionSet::ReuseManifest`)

With `reuse_logs` a file that was read to its end is opened for appending, and the writer goes
on at the size of the file modulo the block size.  That is right when the file consists of
whole physical records.  After a crash in the middle of one the new records end up behind a header
that claims them as its payload.
-/

namespace Elsm.Log

open List

def reopen (bytes : Bytes) : Writer Bytes := ⟨bytes, bytes.length % kBlockSize⟩

def addRecords (crc : Crc) (records : List Bytes) (w : Writer Bytes) : Writer Bytes :=
  records.foldl (fun w record => (addRecord plainFile crc record w).2) w

/-- What happens to a log: a record is added, or the process ends, leaves the first bytes of the
file behind, and the file is opened again. -/
inductive FileEvent where
  | addRecord (record : Bytes)
  | reopen (size : Nat)

def fileStep (crc : Crc) (w : Writer Bytes) : FileEvent → Writer Bytes
  | .addRecord record => (Log.addRecord plainFile crc record w).2
  | .reopen size => Log.reopen (w.dest.take size)

/-- The end of a process leaves whole physical records, with at most a part of a trailer behind
them. -/
def LeavesWhole (crc : Crc) (w : Writer Bytes) : FileEvent → Prop
  | .addRecord _ => True
  | .reopen size => ∃ fragments, Framed crc true 0 (w.dest.take size) fragments

/-- The files that a new one becomes. -/
abbrev FileReachable (crc : Crc) (allowed : Writer Bytes → FileEvent → Prop) (w : Writer Bytes) : Prop :=
  Transition.Reaches (fun w event w' => w' = fileStep crc w event) allowed ⟨[], 0⟩ w

variable {crc : Crc}

/-- The writer stands at the end of whole physical records. -/
structure InPlace (crc : Crc) (w : Writer Bytes) (fragments : List Fragment) : Prop where
  framed : Framed crc true 0 w.dest fragments
  inBlock : w.blockOffset ≤ kBlockSize
  offset : w.dest.length % kBlockSize = w.blockOffset % kBlockSize

variable {fragments : List Fragment}

theorem InPlace.reopen {bytes : Bytes} (framed : Framed crc true 0 bytes fragments) :
    InPlace crc (reopen bytes) fragments where
  framed := framed
  inBlock := (Nat.mod_lt _ (by decide)).le
  offset := (Nat.mod_mod _ _).symm

variable {w : Writer Bytes}

theorem InPlace.wrote {w' : Writer Bytes} {placed : List PlacedFragment}
    (inPlace : InPlace crc w fragments) (wrote : Wrote crc w w' placed) :
    InPlace crc w' (fragments ++ placed.map (·.2)) := by
  obtain ⟨bytes, appended⟩ := wrote.appended
  refine ⟨?_, appended.inBlock, ?_⟩
  · have o : (0 + w.dest.length) % kBlockSize = w.blockOffset % kBlockSize := by
      rw [Nat.zero_add, inPlace.offset]
    rw [appended.dest]
    exact inPlace.framed.append appended.framed (Nat.zero_le _) inPlace.inBlock o
  · rw [appended.dest, length_append, ← appended.offset, Nat.add_mod, inPlace.offset, ← Nat.add_mod]

theorem InPlace.addRecord (inPlace : InPlace crc w fragments)
    (r : Bytes) : ∃ more, InPlace crc (addRecord plainFile crc r w).2 (fragments ++ more) ∧ Split true r more := by
  obtain ⟨w', writes, wrote, split⟩ := addRecord_placed inPlace.inBlock inPlace.offset r
  rw [writes]
  exact ⟨_, inPlace.wrote wrote, split⟩

theorem FileReachable.inPlace (run : FileReachable crc (LeavesWhole crc) w) : ∃ fragments, InPlace crc w fragments := by
  refine run.invariant (fun w => ∃ fragments, InPlace crc w fragments) ⟨[], .nil 0, by decide, rfl⟩ ?_
  rintro pre after ev ⟨fragments, inPlace⟩ adm rfl
  cases ev with
  | addRecord r =>
    obtain ⟨more, after, _⟩ := inPlace.addRecord r
    exact ⟨_, after⟩
  | reopen size =>
    obtain ⟨left, framed⟩ := adm
    exact ⟨left, .reopen framed⟩

theorem assemble_append (scratch : Option Bytes) (fragments : List Fragment) :
    ∃ scratch', ∀ others, assemble scratch (fragments ++ others) = assemble scratch fragments ++
      assemble scratch' others := by
  induction fragments generalizing scratch with
  | nil => exact ⟨scratch, fun others => by cases scratch <;> rfl⟩
  | cons fr fragments ih =>
    obtain ⟨t, pl⟩ := fr
    have skip : ∀ {records : List Bytes} {next : Option Bytes},
        (∀ others, assemble scratch ((t, pl) :: others) = records ++ assemble next others) →
        ∃ scratch', ∀ others, assemble scratch ((t, pl) :: fragments ++ others) =
          assemble scratch ((t, pl) :: fragments) ++ assemble scratch' others := by
      intro records next one
      obtain ⟨scratch', follows⟩ := ih next
      refine ⟨scratch', fun others => ?_⟩
      rw [cons_append, one, one, follows, append_assoc]
    cases t with
    | full => exact @skip [pl] none fun others => by cases scratch <;> rfl
    | first => exact @skip [] (some pl) fun others => by cases scratch <;> rfl
    | middle =>
      cases scratch with
      | none => exact @skip [] none fun others => rfl
      | some scratch => exact @skip [] (some (scratch ++ pl)) fun others => rfl
    | last =>
      cases scratch with
      | none => exact @skip [] none fun others => rfl
      | some scratch => exact @skip [scratch ++ pl] none fun others => rfl

theorem InPlace.addRecords (inPlace : InPlace crc w fragments)
    (records : List Bytes) : ∃ more, InPlace crc (addRecords crc records w) (fragments ++ more) ∧
      ∀ scratch, assemble scratch more = records := by
  induction records generalizing w fragments with
  | nil =>
    refine ⟨[], by rwa [append_nil], fun scratch => by cases scratch <;> rfl⟩
  | cons r records ih =>
    obtain ⟨first, next, split⟩ := inPlace.addRecord r
    obtain ⟨others, last, assembled⟩ := ih next
    refine ⟨first ++ others, by rwa [← append_assoc], fun scratch => ?_⟩
    rw [split.assemble_eq, assembled]

/-- A log whose records were never torn, opened again and appended to, is read back as the records
it had and the new ones. -/
theorem reuse_keeps_records (crc : Crc) (w : Writer Bytes) (run : FileReachable crc (LeavesWhole crc) w)
    (records : List Bytes) (checksum : Bool) :
    (Reader.readAll crc checksum (addRecords crc records (reopen w.dest)).dest).1 =
      (Reader.readAll crc checksum w.dest).1 ++ records := by
  obtain ⟨fragments, inPlace⟩ := run.inPlace
  obtain ⟨more, after, appended⟩ := (InPlace.reopen inPlace.framed).addRecords records
  obtain ⟨scratch, follows⟩ := assemble_append none fragments
  rw [(readAll_framed after.framed checksum).1, (readAll_framed inPlace.framed checksum).1, follows, appended]

/-- The process ends between two records, and one more is added. -/
theorem reuse_keeps_records_between : ∃ w, FileReachable (fun _ => 0) (LeavesWhole fun _ => 0) w ∧ w.dest.length = 9 ∧
    (Reader.readAll (fun _ => 0) true (addRecords (fun _ => 0) [[5]] (reopen w.dest)).dest).1 = [[1, 2], [5]] := by
  let crc : Crc := fun _ => 0
  let written := fileStep crc (fileStep crc ⟨[], 0⟩ (.addRecord [1, 2])) (.addRecord [3])
  let w := fileStep crc written (.reopen 9)
  have isFirst : w.dest = physical crc (.full, [1, 2]) ++ [] := by decide +kernel
  have whole : Framed crc true 0 w.dest [(.full, [1, 2])] := isFirst ▸ .record (by decide) (.nil _)
  have step : ∀ {w : Writer Bytes} (event : FileEvent), FileReachable crc (LeavesWhole crc) w →
      LeavesWhole crc w event → FileReachable crc (LeavesWhole crc) (fileStep crc w event) :=
    fun event run admitted => run.tail admitted rfl
  have run : FileReachable crc (LeavesWhole crc) w :=
    step (.reopen 9) (step (.addRecord [3]) (step (.addRecord [1, 2]) .refl trivial) trivial) ⟨_, whole⟩
  have read : (Reader.readAll crc true w.dest).1 = [[1, 2]] := (readAll_framed whole true).1
  refine ⟨w, run, by decide +kernel, ?_⟩
  rw [reuse_keeps_records crc w run [[5]] true, read]
  rfl

/-- A header that asks for more than the file has hides all of what follows. -/
theorem readAll_claimed {bytes : Bytes} (checksum : Bool) (hasHeader : kHeaderSize ≤ bytes.length)
    (inB : bytes.length < kBlockSize)
    (claims : bytes.length < kHeaderSize + ((bytes.getD 4 0).toNat + 256 * (bytes.getD 5 0).toNat)) :
    (Reader.readAll crc checksum bytes).1 = [] ∧ (Reader.readAll crc checksum bytes).2.reports = [] := by
  let r := (Reader.start bytes).refill
  have isBuffer : r.buffer = bytes := take_of_length_le inB.le
  have isEof : r.eof = true := by
    apply decide_eq_true
    rw [length_take]
    exact (Nat.min_le_right _ _).trans_lt inB
  have reads : (Reader.start bytes).readPhysicalRecord crc checksum = (kEof, [], { r with buffer := [] }) := by
    have enough : kHeaderSize ≤ r.buffer.length := isBuffer.symm ▸ hasHeader
    have few : (Reader.start bytes).buffer.length < kHeaderSize := Nat.zero_lt_succ _
    rw [readPhysicalRecord_refill checksum few rfl, readPhysicalRecord_parse checksum enough]
    change r.parsePhysicalRecord crc checksum = _
    simp only [Reader.parsePhysicalRecord, isBuffer, if_pos claims, isEof, if_true]
  have ends : (Reader.start bytes).readRecord crc checksum = (none, { r with buffer := [] }) := by
    rw [Reader.readRecord, Reader.readRecordLoop, reads]
    rfl
  rw [Reader.readAll, Stream.collect_eq (.done ends) (Nat.zero_lt_succ _)]
  exact ⟨rfl, rfl⟩

theorem addRecord_fits {r : Bytes} (fits : w.blockOffset + kHeaderSize + r.length ≤ kBlockSize) :
    addRecord plainFile crc r w =
      (true, ⟨w.dest ++ physical crc (.full, r), w.blockOffset + kHeaderSize + r.length⟩) := by
  have room : ¬kBlockSize - w.blockOffset < kHeaderSize := by omega
  have all : r.length ≤ kBlockSize - w.blockOffset - kHeaderSize := by omega
  simp only [addRecord, addRecordLoop, switchBlock, if_neg room, all, decide_true, take_of_length_le all,
    drop_eq_nil_of_le all, ne_eq, not_true_eq_false, and_false, if_false, emitPhysicalRecord, plainFile, if_true,
    physical, append_assoc]
  rfl

/-- A record of 20 bytes is cut after the third byte of its payload.  The file is read as empty,
and it still is after a record was added. -/
theorem torn_record_swallows : ∃ record more : Bytes, ∀ crc : Crc,
    let cut := ((addRecord plainFile crc record ⟨[], 0⟩).2.dest).take 10
    let appended := (addRecords crc [more] (reopen cut)).dest
    (Reader.readAll crc true cut).1 = [] ∧ (Reader.readAll crc true cut).2.reports = [] ∧
      (Reader.readAll crc true appended).1 = [] ∧ (Reader.readAll crc true appended).2.reports = [] := by
  refine ⟨replicate 20 7, [1], fun crc => ?_⟩
  let torn := (physical crc (.full, replicate 20 7)).take 10
  let file := torn ++ physical crc (.full, [1])
  have sizes : torn.length = 10 ∧ file.length = 18 := ⟨rfl, rfl⟩
  have claims : (torn.getD 4 0).toNat + 256 * (torn.getD 5 0).toNat = 20 ∧
      (file.getD 4 0).toNat + 256 * (file.getD 5 0).toNat = 20 := ⟨rfl, rfl⟩
  have fits : (reopen torn).blockOffset + kHeaderSize + [(1 : UInt8)].length ≤ kBlockSize := by
    change torn.length % kBlockSize + kHeaderSize + 1 ≤ kBlockSize
    rw [sizes.1]
    decide
  rw [addRecord_fits (by decide), nil_append]
  simp only [addRecords, foldl_cons, foldl_nil]
  rw [addRecord_fits fits]
  have cut := @readAll_claimed crc torn true (by rw [sizes.1]; decide) (by rw [sizes.1]; decide)
    (by rw [sizes.1, claims.1]; decide)
  have appended := @readAll_claimed crc file true (by rw [sizes.2]; decide) (by rw [sizes.2]; decide)
    (by rw [sizes.2, claims.2]; decide)
  exact ⟨cut.1, cut.2, appended.1, appended.2⟩

end Elsm.Log
