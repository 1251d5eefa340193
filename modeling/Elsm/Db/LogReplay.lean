import Elsm.Db.MemTable
import Elsm.Lib.Transition
import Elsm.Log.Records
import Elsm.Version.Recover

/-!
# Replaying the logs (`WriteBatch::Iterate`, `DBImpl::RecoverLogFile`, `DBImpl::Recover`)

Every record of a log is a batch, which is inserted into a memtable operation by operation.
A defect is noticed when it is reached, and without `paranoid_checks` it is then ignored.  The
largest sequence number is computed from the header of the batch and not from what was
inserted.
-/

namespace Elsm

open List
open Merkle (Record)

/-! ## Batches -/

namespace Batch

def kHeader : Nat := 12

def sequence (rep : Bytes) : Nat := decodeFixed64 rep

/-- `WriteBatchInternal::Count`, which is an `int`. -/
def count (rep : Bytes) : Int := Int.bmod (decodeFixed32 (rep.drop 8)) 4294967296

/-- The loop of `Iterate`: the operations handed to the handler, and the defect that ends it.  The
bound is the number of bytes, each operation takes at least one. -/
def decodeOps : Nat → Bytes → List Op × Option String
  | 0, _ => ([], none)
  | _ + 1, [] => ([], none)
  | bound + 1, tag :: input =>
    match ValueType.ofCode? tag.toNat with
    | some .value =>
      match getLengthPrefixedSlice input with
      | none => ([], some "bad WriteBatch Put")
      | some (key, input) =>
        match getLengthPrefixedSlice input with
        | none => ([], some "bad WriteBatch Put")
        | some (value, input) => (.put key value :: (decodeOps bound input).1, (decodeOps bound input).2)
    | some .deletion =>
      match getLengthPrefixedSlice input with
      | none => ([], some "bad WriteBatch Delete")
      | some (key, input) => (.delete key :: (decodeOps bound input).1, (decodeOps bound input).2)
    | none => ([], some "unknown WriteBatch tag")

def ops (rep : Bytes) : List Op := (decodeOps rep.length (rep.drop kHeader)).1

def Whole (rep : Bytes) : Prop := (decodeOps rep.length (rep.drop kHeader)).2 = none

instance (rep : Bytes) : Decidable (Whole rep) := inferInstanceAs (Decidable (_ = _))

/-- `Iterate`: the operations handed to the handler, and the status if it is not OK. -/
def iterate (rep : Bytes) : List Op × Option Status :=
  if rep.length < kHeader then ([], some (.corruption "malformed WriteBatch (too small)"))
  else
    match (decodeOps rep.length (rep.drop kHeader)).2 with
    | some defect => (ops rep, some (.corruption defect))
    | none =>
      if ((ops rep).length : Int) ≠ count rep then (ops rep, some (.corruption "WriteBatch has wrong count"))
      else (ops rep, none)

/-- The entries that `MemTableInserter` adds.  `(s << 8) | type` keeps 56 bits of the number. -/
def entries (rep : Bytes) : List Record :=
  (iterate rep).1.mapIdx fun i op => op.entry ((sequence rep + i) % 2 ^ 56)

/-- `Sequence(&batch) + Count(&batch) - 1` in 64 bits. -/
def lastSequence (rep : Bytes) : Nat := (((sequence rep : Int) + count rep - 1) % 2 ^ 64).toNat

def isBatch (record : Bytes) : Bool := kHeader ≤ record.length

end Batch

/-- `MemTable::Add` for a list of entries.  `SkipList::Insert` asserts that a key is new. -/
def insertFresh : List Record → List Record → Except Status (List Record)
  | [], mem => .ok mem
  | e :: rest, mem => if ∃ x ∈ mem, x.1 = e.1 then .error .abort else insertFresh rest (insertEntry e mem)

/-! ## `RecoverLogFile` -/

/-- What recovery meets beside the logs.  Whether a memtable is full and whether it can be written
as a table may depend on the number of batches inserted before. -/
structure ReplayEnv where
  paranoidChecks : Bool
  /-- `reuse_logs` is set and the last log can be opened for appending. -/
  reusesLog : Bool
  full : Nat → List Record → Bool
  /-- The status if it is not OK. -/
  writeLevel0Table : Nat → List Record → Option Status

/-- The state of recovery: the memtable, the memtables written as tables, the largest sequence
number, and with each batch the entries inserted for it. -/
structure Replay where
  mem : Option (List Record)
  tables : List (List Record)
  maxSequence : Nat
  inserted : List (Bytes × List Record)

namespace Replay

def init : Replay := ⟨none, [], 0, []⟩

variable (env : ReplayEnv)

def flush (st : Replay) (mem : List Record) : Except Status Replay :=
  match env.writeLevel0Table st.inserted.length mem with
  | some status => .error status
  | none => .ok { st with mem := none, tables := st.tables ++ [mem] }

/-- `MaybeIgnoreError` on a status, which is `none` when it is OK. -/
def maybeIgnoreError (status : Option Status) : Option Status := if env.paranoidChecks then status else none

/-- The body of the loop of `RecoverLogFile` on a record that is large enough. -/
def replayBatch (st : Replay) (record : Bytes) : Except Status Replay :=
  match insertFresh (Batch.entries record) (st.mem.getD []) with
  | .error status => .error status
  | .ok mem =>
    match maybeIgnoreError env (Batch.iterate record).2 with
    | some status => .error status
    | none =>
      let st := { st with
        mem := some mem
        maxSequence := max st.maxSequence (Batch.lastSequence record)
        inserted := st.inserted ++ [(record, Batch.entries record)] }
      if env.full st.inserted.length mem then st.flush env mem else .ok st

def reporterStatus (r : Log.Reader) : Option Status :=
  if env.paranoidChecks then r.reports.head?.map fun report => .corruption report.2 else none

variable (crc : Log.Crc)

/-- The loop of `RecoverLogFile`, with a bound on the records. -/
def replayLoop : Nat → Log.Reader → Replay → Except Status Replay
  | 0, _, st => .ok st
  | bound + 1, r, st =>
    match r.readRecord crc true with
    | (none, r) =>
      match reporterStatus env r with
      | some status => .error status
      | none => .ok st
    | (some record, r) =>
      match reporterStatus env r with
      | some status => .error status
      | none =>
        if record.length < Batch.kHeader then
          if env.paranoidChecks then .error (.corruption "log record too small") else replayLoop bound r st
        else
          match st.replayBatch env record with
          | .error status => .error status
          | .ok st => replayLoop bound r st

/-- `RecoverLogFile` after its loop: the memtable is kept for the log or written as a table. -/
def finishLog (st after : Replay) (lastLog : Bool) : Except Status Replay :=
  if env.reusesLog ∧ lastLog ∧ after.tables.length = st.tables.length then
    .ok { after with mem := some (after.mem.getD []) }
  else
    match after.mem with
    | none => .ok after
    | some mem => after.flush env mem

/-- `RecoverLogFile`.  A log that cannot be opened is `none`. -/
def recoverLogFile (st : Replay) (lastLog : Bool) : Option Bytes → Except Status Replay
  | none =>
    match maybeIgnoreError env (some (.ioError "log")) with
    | some status => .error status
    | none => .ok st
  | some bytes =>
    match replayLoop env crc (bytes.length + 1) (.start bytes) { st with mem := none } with
    | .error status => .error status
    | .ok after => finishLog env st after lastLog

/-- The part of `DBImpl::Recover` that goes over the logs, oldest first. -/
def recoverLogs (st : Replay) : List (Option Bytes) → Except Status Replay
  | [] => .ok st
  | file :: rest =>
    match st.recoverLogFile env crc rest.isEmpty file with
    | .error status => .error status
    | .ok st => st.recoverLogs rest

/-- `LastSequence` after `Recover`, from the one in the MANIFEST. -/
def lastSequence (st : Replay) (recorded : Nat) : Nat :=
  if recorded < st.maxSequence then st.maxSequence else recorded

def placed (st : Replay) : List Record := st.mem.getD [] ++ st.tables.flatten

end Replay

/-! ## What the replay inserts -/

theorem mem_insertFresh {es mem after : List Record} (adds : insertFresh es mem = .ok after) (e : Record) :
    e ∈ after ↔ e ∈ mem ∨ e ∈ es := by
  induction es generalizing mem with
  | nil =>
    cases adds
    simp
  | cons first rest ih =>
    rw [insertFresh] at adds
    split at adds
    case isTrue => cases adds
    case isFalse =>
      rw [ih adds, mem_insertEntry, mem_cons]
      tauto

def logBatches (crc : Log.Crc) (files : List (Option Bytes)) : List Bytes :=
  files.flatMap fun file =>
    match file with
    | none => []
    | some bytes => (Log.Reader.readAll crc true bytes).1.filter Batch.isBatch

namespace Replay

structure Tracks (st : Replay) (batches : List Bytes) : Prop where
  inserted : st.inserted = batches.map fun batch => (batch, Batch.entries batch)
  placed : ∀ e, e ∈ st.placed ↔ ∃ batch ∈ batches, e ∈ Batch.entries batch
  maxSequence : ∀ n, n ≤ st.maxSequence ↔ n = 0 ∨ ∃ batch ∈ batches, n ≤ Batch.lastSequence batch

theorem init_tracks : Tracks init [] := ⟨rfl, by simp [init, Replay.placed], by simp [init]⟩

variable {env : ReplayEnv} {st st' : Replay} {batches : List Bytes}

theorem Tracks.flush (tracks : Tracks st batches) {mem : List Record} (isMem : st.mem = some mem)
    (writes : st.flush env mem = .ok st') : Tracks st' batches := by
  rw [Replay.flush] at writes
  split at writes
  case h_1 => cases writes
  case h_2 =>
    cases writes
    refine ⟨tracks.inserted, fun e => ?_, tracks.maxSequence⟩
    rw [← tracks.placed e]
    simp only [Replay.placed, isMem, Option.getD_none, Option.getD_some, nil_append, flatten_append,
      flatten_cons, flatten_nil, append_nil, mem_append]
    tauto

section

variable (lenient : env.paranoidChecks = false)

include lenient

theorem Tracks.replayBatch (tracks : Tracks st batches) {r : Bytes}
    (replays : st.replayBatch env r = .ok st') : Tracks st' (batches ++ [r]) := by
  rw [Replay.replayBatch] at replays
  cases adds : insertFresh (Batch.entries r) (st.mem.getD []) with
  | error status => simp [adds] at replays
  | ok mem =>
    simp only [adds, maybeIgnoreError, lenient, Bool.false_eq_true, if_false] at replays
    have after : Tracks { st with
        mem := some mem
        maxSequence := max st.maxSequence (Batch.lastSequence r)
        inserted := st.inserted ++ [(r, Batch.entries r)] } (batches ++ [r]) := by
      refine ⟨?_, fun e => ?_, fun n => ?_⟩
      · rw [tracks.inserted, map_append]
        rfl
      · have pre := tracks.placed e
        simp only [Replay.placed, mem_append] at pre
        simp only [Replay.placed, Option.getD_some, mem_append, mem_insertFresh adds, mem_singleton, or_and_right,
          exists_or, exists_eq_left]
        rw [← pre]
        exact or_right_comm
      · simp only [le_max_iff, tracks.maxSequence, mem_append, mem_singleton, or_and_right, exists_or,
          exists_eq_left, or_assoc]
    split at replays
    · exact after.flush rfl replays
    · cases replays
      exact after

def replayAll (env : ReplayEnv) (records : List Bytes) (st : Replay) : Except Status Replay :=
  (records.filter Batch.isBatch).foldlM (Replay.replayBatch env) st

variable {crc : Log.Crc}

/-- Without `paranoid_checks` the loop goes on to the end of the log. -/
theorem replayLoop_eq {r last : Log.Reader}
    {records : List Bytes} (yields : Stream.Yields (fun r => r.readRecord crc true) r records last) {fuel : Nat}
    (le : records.length < fuel) (st : Replay) : replayLoop env crc fuel r st = replayAll env records st := by
  have silent : ∀ r, reporterStatus env r = none := fun r => by rw [reporterStatus, lenient]; rfl
  induction yields generalizing fuel st with
  | done ends =>
    obtain ⟨fuel, rfl⟩ := Nat.exists_eq_succ_of_ne_zero (Nat.ne_of_gt le)
    simp only [replayLoop, ends, silent]
    rfl
  | more reads others ih =>
    rename_i record records
    obtain ⟨fuel, rfl⟩ := Nat.exists_eq_succ_of_ne_zero (Nat.ne_of_gt (Nat.zero_lt_of_lt le))
    have le' : records.length < fuel := Nat.lt_of_succ_lt_succ le
    simp only [replayLoop, reads, silent, lenient]
    split
    case isTrue small =>
      have dropped : ¬Batch.isBatch record = true := by simpa [Batch.isBatch] using small
      rw [if_neg (by decide), ih le', replayAll, replayAll, filter_cons_of_neg dropped]
    case isFalse large =>
      have kept : Batch.isBatch record = true := by simpa [Batch.isBatch] using large
      rw [replayAll, filter_cons_of_pos kept, foldlM_cons]
      cases st.replayBatch env record with
      | error status => rfl
      | ok next => exact ih le' next

theorem Tracks.replayAll {records : List Bytes} (tracks : Tracks st batches)
    (replays : Replay.replayAll env records st = .ok st') :
    Tracks st' (batches ++ records.filter Batch.isBatch) := by
  rw [Replay.replayAll] at replays
  generalize records.filter Batch.isBatch = kept at replays
  induction kept generalizing st batches with
  | nil =>
    cases replays
    simpa using tracks
  | cons r rest ih =>
    rw [foldlM_cons] at replays
    cases one : st.replayBatch env r with
    | error status => simp [one, Bind.bind, Except.bind] at replays
    | ok next =>
      rw [one] at replays
      have after := ih (tracks.replayBatch lenient one) replays
      rwa [append_assoc, singleton_append] at after

end

theorem Tracks.finishLog (tracks : Tracks st' batches) {lastLog : Bool} {last : Replay}
    (finishes : Replay.finishLog env st st' lastLog = .ok last) :
    Tracks last batches ∧ (lastLog = false → last.mem = none) := by
  rw [Replay.finishLog] at finishes
  split at finishes
  case isTrue reuses =>
    cases finishes
    refine ⟨⟨tracks.inserted, fun e => ?_, tracks.maxSequence⟩, fun notLast => ?_⟩
    · rw [← tracks.placed e]
      rfl
    · exact absurd reuses.2.1 (by simp [notLast])
  case isFalse =>
    cases isMem : st'.mem with
    | none =>
      simp only [isMem] at finishes
      cases finishes
      exact ⟨tracks, fun _ => isMem⟩
    | some mem =>
      simp only [isMem] at finishes
      refine ⟨tracks.flush isMem finishes, fun _ => ?_⟩
      rw [Replay.flush] at finishes
      split at finishes
      · cases finishes
      · cases finishes
        rfl

variable (lenient : env.paranoidChecks = false)

include lenient

theorem recoverLogFile_eq (crc : Log.Crc) (st : Replay) (lastLog : Bool)
    (bytes : Bytes) : st.recoverLogFile env crc lastLog (some bytes) =
      replayAll env (Log.Reader.readAll crc true bytes).1 { st with mem := none } >>= fun after =>
        finishLog env st after lastLog := by
  obtain ⟨yields, len⟩ := Log.Reader.readAll_yields crc true bytes
  rw [recoverLogFile, replayLoop_eq lenient yields (Nat.lt_succ_of_le len)]
  cases replayAll env (Log.Reader.readAll crc true bytes).1 { st with mem := none } <;> rfl

theorem Tracks.recoverLogFile (tracks : Tracks st batches)
    (noMem : st.mem = none) {lastLog : Bool} {file : Option Bytes}
    (replays : st.recoverLogFile env crc lastLog file = .ok st') :
    Tracks st' (batches ++ logBatches crc [file]) ∧ (lastLog = false → st'.mem = none) := by
  cases file with
  | none =>
    simp only [Replay.recoverLogFile, maybeIgnoreError, lenient, Bool.false_eq_true, if_false] at replays
    cases replays
    simpa [logBatches, noMem] using tracks
  | some bytes =>
    rw [recoverLogFile_eq lenient, show ({ st with mem := none } : Replay) = st by rw [← noMem]] at replays
    cases loop : Replay.replayAll env (Log.Reader.readAll crc true bytes).1 st with
    | error status => simp [loop, Bind.bind, Except.bind] at replays
    | ok after =>
      rw [loop] at replays
      have tracks' : Tracks after (batches ++ logBatches crc [some bytes]) := by
        simpa [logBatches] using tracks.replayAll lenient loop
      exact tracks'.finishLog replays

theorem Tracks.recoverLogs {files : List (Option Bytes)}
    (tracks : Tracks st batches) (noMem : st.mem = none) (replays : st.recoverLogs env crc files = .ok st') :
    Tracks st' (batches ++ logBatches crc files) := by
  induction files generalizing st batches with
  | nil =>
    cases replays
    simpa [logBatches] using tracks
  | cons file rest ih =>
    rw [Replay.recoverLogs] at replays
    cases one : st.recoverLogFile env crc rest.isEmpty file with
    | error status => simp [one] at replays
    | ok next =>
      simp only [one] at replays
      obtain ⟨tracks', emptied⟩ := tracks.recoverLogFile lenient noMem one
      have together : logBatches crc (file :: rest) = logBatches crc [file] ++ logBatches crc rest := by
        simp [logBatches]
      rw [together, ← append_assoc]
      cases rest with
      | nil =>
        cases replays
        simpa [logBatches] using tracks'
      | cons other rest => exact ih tracks' (emptied rfl) replays

/-- Every entry in a memtable or a table has a number up to the last one, and each batch was inserted
as a whole or not at all. -/
structure Sound (st : Replay) (recorded : Nat) : Prop where
  sequences : ∀ e ∈ st.placed, e.1.sequence ≤ st.lastSequence recorded
  batches : ∀ batch ∈ st.inserted, batch.2 = [] ∨ Batch.Whole batch.1

end Replay

/-- Batches with a defect have it in their first operation, and the numbers of the operations are
covered by what the MANIFEST has or by the header of some batch. -/
structure Batch.Consistent (recorded : Nat) (batches : List Bytes) : Prop where
  whole : ∀ batch ∈ batches, Batch.ops batch = [] ∨ Batch.Whole batch
  covered : ∀ batch ∈ batches, ∀ i < (Batch.ops batch).length, (Batch.sequence batch + i) % 2 ^ 56 ≤ recorded ∨
      ∃ other ∈ batches, (Batch.sequence batch + i) % 2 ^ 56 ≤ Batch.lastSequence other

variable {batch : Bytes}

theorem Batch.iterate_ops (large : Batch.kHeader ≤ batch.length) : (Batch.iterate batch).1 = Batch.ops batch := by
  rw [Batch.iterate, if_neg (not_lt.mpr large)]
  split
  · rfl
  · split <;> rfl

theorem Batch.mem_entries (large : Batch.kHeader ≤ batch.length) (P : Nat → Prop) :
    (∀ e ∈ Batch.entries batch, P e.1.sequence) ↔
      ∀ i < (Batch.ops batch).length, P ((Batch.sequence batch + i) % 2 ^ 56) := by
  rw [Batch.entries, Batch.iterate_ops large]
  simp only [mem_mapIdx]
  constructor
  · intro all i inOps
    have n := all _ ⟨i, inOps, rfl⟩
    rwa [Op.entry_sequence] at n
  rintro all e ⟨i, inOps, rfl⟩
  rw [Op.entry_sequence]
  exact all i inOps

namespace Replay

/-- Without `paranoid_checks`, recovery that returns OK is sound exactly when the batches in the logs
are consistent. -/
theorem recoverLogs_sound_iff (env : ReplayEnv) (lenient : env.paranoidChecks = false) (crc : Log.Crc)
    (files : List (Option Bytes)) (recorded : Nat) (st : Replay)
    (returns : init.recoverLogs env crc files = .ok st) :
    st.Sound recorded ↔ Batch.Consistent recorded (logBatches crc files) := by
  have tracks := init_tracks.recoverLogs lenient rfl returns
  rw [nil_append] at tracks
  have large : ∀ batch ∈ logBatches crc files, Batch.kHeader ≤ batch.length := by
    intro batch member
    obtain ⟨file, _, inFile⟩ := mem_flatMap.mp member
    cases file with
    | none => cases inFile
    | some bytes => exact of_decide_eq_true (mem_filter.mp inFile).2
  have atMost : ∀ n, n ≤ st.lastSequence recorded ↔ n ≤ recorded ∨
      ∃ batch ∈ logBatches crc files, n ≤ Batch.lastSequence batch := by
    intro n
    have known := tracks.maxSequence n
    rw [lastSequence]
    split
    case isTrue less =>
      rw [known]
      constructor
      · rintro (rfl | found)
        · exact .inl (Nat.zero_le _)
        · exact .inr found
      rintro (small | found)
      · exact known.mp (by omega)
      · exact .inr found
    case isFalse notLess =>
      refine ⟨.inl, ?_⟩
      rintro (small | found)
      · exact small
      · exact (known.mpr (.inr found)).trans (not_lt.mp notLess)
  have numbers : (∀ e ∈ st.placed, e.1.sequence ≤ st.lastSequence recorded) ↔
      ∀ batch ∈ logBatches crc files, ∀ e ∈ Batch.entries batch, e.1.sequence ≤ st.lastSequence recorded := by
    simp only [tracks.placed]
    exact ⟨fun all batch member e inBatch => all e ⟨batch, member, inBatch⟩,
      fun all e ⟨batch, member, inBatch⟩ => all batch member e inBatch⟩
  have pieces : (∀ batch ∈ st.inserted, batch.2 = [] ∨ Batch.Whole batch.1) ↔
      ∀ batch ∈ logBatches crc files, Batch.ops batch = [] ∨ Batch.Whole batch := by
    rw [tracks.inserted, forall_mem_map]
    refine forall₂_congr fun batch member => ?_
    rw [Batch.entries, Batch.iterate_ops (large batch member), mapIdx_eq_nil_iff]
  constructor
  · rintro ⟨sequences, batches⟩
    refine ⟨pieces.mp batches, fun batch member i inOps => (atMost _).mp ?_⟩
    exact (Batch.mem_entries (large batch member)
      (· ≤ st.lastSequence recorded)).mp (numbers.mp sequences batch member) i inOps
  rintro ⟨whole, covered⟩
  refine ⟨numbers.mpr fun batch member => ?_, pieces.mpr whole⟩
  exact (Batch.mem_entries (large batch member) (· ≤ st.lastSequence recorded)).mpr fun i inOps =>
    (atMost _).mpr (covered batch member i inOps)

/-- Default options, and memtables that can be written and are never full. -/
def defaultEnv : ReplayEnv := ⟨false, false, fun _ _ => false, fun _ _ => none⟩

/-- A log with these batches, each in a physical record of its own. -/
def logOf (crc : Log.Crc) (batches : List Bytes) : Bytes := batches.flatMap fun batch => Log.physical crc (.full, batch)

theorem logOf_framed (crc : Log.Crc) {offset : Nat} {batches : List Bytes}
    (short : offset + (logOf crc batches).length ≤ Log.kBlockSize) :
    Log.Framed crc true offset (logOf crc batches) (batches.map fun batch => (.full, batch)) := by
  induction batches generalizing offset with
  | nil => exact .nil _
  | cons batch rest ih =>
    rw [logOf, flatMap_cons, length_append, Log.physical_length] at short
    refine .record ?_ (ih ?_)
    · dsimp only at short ⊢
      omega
    · rw [logOf]
      omega

section

variable (crc : Log.Crc) {batches : List Bytes} (short : (logOf crc batches).length ≤ Log.kBlockSize)

include short

theorem readAll_logOf : (Log.Reader.readAll crc true (logOf crc batches)).1 = batches := by
  rw [(Log.readAll_framed (logOf_framed crc (by rwa [Nat.zero_add])) true).1]
  clear short
  induction batches with
  | nil => rfl
  | cons batch rest ih => rw [map_cons, Log.assemble, ih]

theorem recoverLogs_logOf : init.recoverLogs defaultEnv crc [some (logOf crc batches)] =
      replayAll defaultEnv batches init >>= fun after => finishLog defaultEnv init after true := by
  rw [recoverLogs, recoverLogFile_eq rfl, readAll_logOf crc short]
  change (match (replayAll defaultEnv batches init >>= fun after => finishLog defaultEnv init after true) with
    | Except.error status => Except.error status
    | Except.ok st => Except.ok st) = _
  generalize (replayAll defaultEnv batches init >>= fun after => finishLog defaultEnv init after true) = outcome
  cases outcome <;> rfl

end

/-- A batch that puts two keys, and one that deletes the first. -/
def twoBatches : List Bytes :=
  [[1, 0, 0, 0, 0, 0, 0, 0, 2, 0, 0, 0, 1, 1, 97, 1, 98, 1, 1, 99, 0], [3, 0, 0, 0, 0, 0, 0, 0, 1, 0, 0, 0, 0, 1, 97]]

theorem recoverLogs_sound_twoBatches : ∃ st,
    init.recoverLogs defaultEnv (fun _ => 0) [some (logOf (fun _ => 0) twoBatches)] = .ok st ∧
    st.placed = [(.make [97] 3 .deletion, []), (.make [97] 1 .value, [98]), (.make [99] 2 .value, [])] ∧
      st.Sound 0 := by
  have short : (logOf (fun _ => 0) twoBatches).length ≤ Log.kBlockSize := by decide +kernel
  obtain ⟨st, returns, placed⟩ :
      ∃ st ∈ (replayAll defaultEnv twoBatches init >>= fun after => finishLog defaultEnv init after true).toOption,
        st.placed = [(.make [97] 3 .deletion, []), (.make [97] 1 .value, [98]), (.make [99] 2 .value, [])] := by
    decide +kernel
  have recovers : init.recoverLogs defaultEnv (fun _ => 0) [some (logOf (fun _ => 0) twoBatches)] = .ok st := by
    rw [recoverLogs_logOf _ short]
    exact Transition.eq_ok_of_toOption returns
  have batches : logBatches (fun _ => 0) [some (logOf (fun _ => 0) twoBatches)] = twoBatches := by
    simp only [logBatches, flatMap_cons, flatMap_nil, readAll_logOf _ short]
    decide
  refine ⟨st, recovers, placed, (recoverLogs_sound_iff defaultEnv rfl _ _ 0 st recovers).mpr ?_⟩
  rw [batches]
  exact ⟨by decide +kernel, by decide +kernel⟩

/-- A batch that claims one operation, has two, and ends with a tag that nothing follows.  Both
operations are inserted, and the number of the second one is not taken into account. -/
theorem half_batch_applied : ∃ batch : Bytes, ∀ crc : Log.Crc, ∃ st,
    init.recoverLogs defaultEnv crc [some (logOf crc [batch])] = .ok st ∧
    st.placed = [(.make [97] 5 .value, []), (.make [98] 6 .value, [])] ∧ ¬Batch.Whole batch ∧
    st.lastSequence 0 = 5 := by
  let batch : Bytes := [5, 0, 0, 0, 0, 0, 0, 0, 1, 0, 0, 0, 1, 1, 97, 0, 1, 1, 98, 0, 1]
  obtain ⟨st, returns, facts⟩ :
      ∃ st ∈ (replayAll defaultEnv [batch] init >>= fun after => finishLog defaultEnv init after true).toOption,
        st.placed = [(.make [97] 5 .value, []), (.make [98] 6 .value, [])] ∧ ¬Batch.Whole batch ∧
          st.lastSequence 0 = 5 := by decide +kernel
  refine ⟨batch, fun crc => ⟨st, ?_, facts⟩⟩
  rw [recoverLogs_logOf crc (by rw [logOf, flatMap_singleton, Log.physical_length]; decide)]
  exact Transition.eq_ok_of_toOption returns

end Replay

end Elsm
