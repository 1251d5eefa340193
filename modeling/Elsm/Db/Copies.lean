import Elsm.Db.Reopen
import Elsm.Version.Compacted

/-!
# Copies of fixed and summed lengths (`Enclave.cpp`, `db/builder.cpp`, `db/db_impl.cpp`)

A record is copied and hashed in four places: `ecall_put` encrypts 8 bytes of the key and 112 of
the value, `BuildTable` joins key and value in a buffer of 136 bytes and later takes 112 bytes of
the value, and `DoCompactionWork` hashes 8 bytes of the internal key and 112 of the value.  An
`Access` is one of these; `Db.flushAccesses` and `Db.compactionAccesses` are those of a step.

Tables only hold values of 352 bytes (`Shaped`), so compactions stay in bounds in every run.  The
other places do so for records of one shape only (`request_copies_iff`).
-/

namespace Elsm

open List
open Merkle (Record Digest KSIZE VSIZE FILE_RECORDS TREE_HEIGHT)

/-- The first `length` bytes of an object are read, and written to a buffer of the given size at
the given offset if they are copied. -/
structure Access where
  source : Nat
  length : Nat
  target : Option (Nat × Nat)
  deriving DecidableEq, Repr

def Access.InBounds (a : Access) : Prop := a.length ≤ a.source ∧ ∀ t ∈ a.target, t.2 + a.length ≤ t.1

instance (a : Access) : Decidable a.InBounds := inferInstanceAs (Decidable (_ ∧ _))

/-- `ecall_put` encrypts into `key_cipher[8]` and `val_cipher[112]`. -/
def ecallPutAccesses (key value : Bytes) : List Access :=
  [⟨key.length, 8, some (8, 0)⟩, ⟨value.length, 112, some (112, 0)⟩]

/-- The leaf loop of `BuildTable`: two copies into `record[KSIZE+VSIZE+16]` and a tag over them. -/
def leafAccesses (r : Record) : List Access :=
  let keySize := r.1.encode.length
  [⟨keySize, keySize, some (KSIZE + VSIZE + 16, 0)⟩, ⟨r.2.length, r.2.length, some (KSIZE + VSIZE + 16, keySize)⟩,
   ⟨KSIZE + VSIZE + 16, keySize + r.2.length, none⟩]

/-- The proof loop of `BuildTable` copies into `proofandvalue[TREE_HEIGHT*16+VSIZE]`. -/
def proofAccess (r : Record) : Access := ⟨r.2.length, VSIZE, some (TREE_HEIGHT * 16 + VSIZE, 0)⟩

/-- The loop of `DoCompactionWork`: two copies into `record[KSIZE+VSIZE]` and a tag over it. -/
def workAccesses (r : Record) : List Access :=
  [⟨r.1.encode.length, KSIZE, some (KSIZE + VSIZE, 0)⟩, ⟨r.2.length, VSIZE, some (KSIZE + VSIZE, KSIZE)⟩,
   ⟨KSIZE + VSIZE, KSIZE + VSIZE, none⟩]

namespace Db

/-- What a flush does to the entries of the memtable; the leaf loop ends with the tree. -/
def flushAccesses (db : Db) : Step → List (Record × Access)
  | .compactMemTable _ _ _ =>
    ((db.imm.getD []).take FILE_RECORDS).flatMap (fun r => (leafAccesses r).map (r, ·)) ++
      (db.imm.getD []).map fun r => (r, proofAccess r)
  | _ => []

def compactionAccesses (db : Db) : Step → List (Record × Access)
  | .compactionIteration =>
    ((db.compaction.map (·.input)).getD []).take 1 |>.flatMap fun r => (workAccesses r).map (r, ·)
  | _ => []

/-! ## Values in tables -/

/-- Everything that is or will be in a table has the length of a stored value. -/
structure Shaped (db : Db) : Prop where
  tables : ∀ n, ∀ e ∈ db.tables n, e.2.length = 352
  compaction : ∀ cs ∈ db.compaction, ∀ e, e ∈ cs.input ∨ e ∈ cs.written → e.2.length = 352

theorem init_shaped : Shaped init := ⟨by simp [init], by simp [init]⟩

variable {db db' : Db}

theorem Shaped.of_same (shaped : Shaped db) (ts : db'.tables = db.tables)
    (compaction : db'.compaction = db.compaction) : Shaped db' :=
  ⟨ts ▸ shaped.tables, compaction ▸ shaped.compaction⟩

variable {p : Params}

theorem Shaped.compactMemTable (shaped : Shaped db) {heap : Nat → Digest}
    {beyond : Nat → Nat → UInt8} {rh : Digest} (run : db.compactMemTable p heap beyond rh = .ok db') :
    Shaped db' := by
  obtain ⟨imm, records, node, _, _, values, commits⟩ := compactMemTable_commits run
  simp only [commitFlush] at commits
  split at commits
  · cases commits
  case h_2 applied =>
    cases commits
    obtain ⟨v, _, rfl⟩ := logAndApply_ok applied
    refine ⟨fun n e inT => ?_, shaped.compaction⟩
    change e ∈ Function.update db.tables db.nextFileNumber records n at inT
    by_cases new : n = db.nextFileNumber
    · subst new
      rw [Function.update_self, values] at inT
      obtain ⟨i, _, rfl⟩ := mem_mapIdx.mp inT
      exact Merkle.storedValue_length _ _ _ _
    · rw [Function.update_of_ne new] at inT
      exact shaped.tables n e inT

theorem Shaped.backgroundCompaction (shaped : Shaped db) {trigger : Trigger}
    {rh : Digest} (run : db.backgroundCompaction p trigger rh = .ok db') : Shaped db' := by
  obtain ⟨_, _, c, _, ⟨f, rest, _, _, _, applied⟩ | rfl⟩ := backgroundCompaction_ok run
  · obtain ⟨v, _, rfl⟩ := logAndApply_ok applied
    exact shaped.of_same rfl rfl
  refine ⟨shaped.tables, fun cs isRunning e mem => ?_⟩
  cases isRunning
  cases mem with
  | inl inInput =>
    obtain ⟨f, _, inT⟩ := mem_inputEntries.mp inInput
    exact shaped.tables f.number e inT
  | inr inOutput => cases inOutput

theorem Shaped.compactionIteration (shaped : Shaped db) (run : db.compactionIteration p = .ok db') : Shaped db' := by
  obtain ⟨cs, ent, rest, isRunning, atEntry, rfl⟩ := compactionIteration_ok run
  have pre := shaped.compaction cs isRunning
  obtain ⟨-, wr, -⟩ := CompactionState.compactEntry_kept p.options p.size db.nextFileNumber (.refl cs) ent
  refine ⟨shaped.tables, fun cs' isRunning' e mem => ?_⟩
  cases isRunning'
  cases mem with
  | inl inR =>
    change e ∈ rest at inR
    exact pre e (.inl (by simp [atEntry, inR]))
  | inr inOutput =>
    change e ∈ (cs.compactEntry p.options p.size db.nextFileNumber ent).1.written at inOutput
    rw [wr] at inOutput
    cases mem_append.mp inOutput with
    | inl old => exact pre e (.inr old)
    | inr new =>
      split at new
      · cases new
      · exact pre e (.inl (by simp [atEntry, mem_singleton.mp new]))

theorem Shaped.withOutputs {ts : Nat → List Record} (shaped : ∀ n, ∀ e ∈ ts n, e.2.length = 352)
    {outs : List (Output Bytes)} (contents : ∀ out ∈ outs, ∀ e ∈ out.contents, e.2.length = 352) :
    ∀ n, ∀ e ∈ Db.withOutputs ts outs n, e.2.length = 352 := by
  induction outs generalizing ts with
  | nil => exact shaped
  | cons out rest ih =>
    refine ih (fun n e inT => ?_) fun other inR => contents other (mem_cons_of_mem _ inR)
    change e ∈ Function.update ts out.number out.contents n at inT
    by_cases new : n = out.number
    · subst new
      rw [Function.update_self] at inT
      exact contents out mem_cons_self e inT
    · rw [Function.update_of_ne new] at inT
      exact shaped n e inT

theorem Shaped.installCompaction (shaped : Shaped db) {rh : Nat → Digest}
    (run : db.installCompaction p rh = .ok db') : Shaped db' := by
  obtain ⟨cs, v, isRunning, _, _, rfl⟩ := installCompaction_ok run
  refine ⟨Shaped.withOutputs shaped.tables fun out isOutput e inOutput => ?_, by simp⟩
  refine shaped.compaction cs isRunning e (.inr ?_)
  rw [← (cs.finish_contents p.size).2]
  exact mem_flatMap.mpr ⟨out, isOutput, inOutput⟩

theorem Shaped.step (shaped : Shaped db) {lbl : Step} (run : Db.step p db lbl = .ok db') : Shaped db' := by
  cases lbl with
  | compactMemTable heap beyond rh => exact shaped.compactMemTable run
  | backgroundCompaction trigger rh => exact shaped.backgroundCompaction run
  | compactionIteration => exact shaped.compactionIteration run
  | installCompaction rh => exact shaped.installCompaction run
  | write | getSnapshot | releaseSnapshot =>
    cases run
    exact shaped.of_same rfl rfl
  | switchMemTable =>
    obtain ⟨-, rfl⟩ := switchMemTable_ok run
    exact shaped.of_same rfl rfl
  | chargeSeek key =>
    obtain ⟨_, _, _, _, rfl⟩ := chargeSeek_ok run
    exact shaped.of_same rfl rfl

theorem Shaped.reopen (shaped : Shaped db) {rh : Nat → Nat → Digest}
    (opens : db.reopen rh = some db') : Shaped db' := by
  simp only [Db.reopen, Disk.openDb] at opens
  split at opens
  · cases opens
  split at opens
  · cases opens
  case h_2 applied =>
    cases opens
    obtain ⟨v, _, rfl⟩ := logAndApply_ok applied
    exact ⟨shaped.tables, by simp [Disk.afterRecover]⟩

variable {ok : Db → SessionStep → Prop} (run : SessionReachable p ok db)

include run

theorem shaped_of_sessions : Shaped db := by
  refine run.invariant Shaped init_shaped fun {pre after lbl} shaped _ taken => ?_
  cases lbl with
  | run lbl => exact shaped.step (Transition.eq_ok_of_toOption taken)
  | reopen rh => exact shaped.reopen taken

theorem compactionAccesses_inBounds (lbl : Step) : ∀ ra ∈ db.compactionAccesses lbl, ra.2.InBounds := by
  have shaped := shaped_of_sessions run
  cases lbl with
  | compactionIteration =>
    intro ra mem
    simp only [compactionAccesses, mem_flatMap, mem_map] at mem
    obtain ⟨r, isHead, a, isAccess, rfl⟩ := mem
    have inInput := mem_of_mem_take isHead
    obtain ⟨cs, isRunning, isInput⟩ : ∃ cs ∈ db.compaction, r ∈ cs.input := by
      cases running : db.compaction with
      | none => simp [running] at inInput
      | some cs => exact ⟨cs, rfl, by simpa [running] using inInput⟩
    have val := shaped.compaction cs isRunning r (.inl isInput)
    have key : KSIZE ≤ r.1.encode.length := by
      rw [InternalKey.encode_length]
      exact Nat.le_add_left _ _
    simp only [workAccesses, mem_cons, not_mem_nil, or_false] at isAccess
    rcases isAccess with rfl | rfl | rfl
    · exact ⟨key, by simp [VSIZE]⟩
    · exact ⟨val.symm ▸ (show VSIZE ≤ 352 by decide), by simp⟩
    · exact ⟨le_rfl, by simp⟩
  | _ => simp [compactionAccesses]

end Db

/-! ## The shape a record must have -/

/-- A value of at least 112 bytes, and with its key at most 128. -/
def Op.WellShaped : Op → Prop
  | .put key value => VSIZE ≤ value.length ∧ key.length + value.length ≤ KSIZE + VSIZE + 8
  | .delete _ => False

/-- In every run, the copies of the entries and stored records of an operation are in bounds. -/
structure Op.CopiesInBounds (op : Op) : Prop where
  flush : ∀ p db, Db.SessionReachable p (fun _ _ => True) db → ∀ label, ∀ ra ∈ db.flushAccesses label,
    ∀ q, ra.1 = op.entry q → ra.2.InBounds
  compaction : ∀ p db, Db.SessionReachable p (fun _ _ => True) db → ∀ label, ∀ ra ∈ db.compactionAccesses label,
    ∀ q, ra.1.1 = (op.entry q).1 → ra.2.InBounds

theorem leafAccesses_inBounds_iff (r : Record) :
    (∀ a ∈ leafAccesses r, a.InBounds) ↔ r.1.encode.length + r.2.length ≤ KSIZE + VSIZE + 16 := by
  simp only [leafAccesses, mem_cons, not_mem_nil, or_false, forall_eq_or_imp, forall_eq,
    Access.InBounds, Option.mem_def, Option.some.injEq]
  constructor
  · exact fun ⟨_, _, tag, _⟩ => tag
  intro fits
  refine ⟨⟨le_rfl, ?_⟩, ⟨le_rfl, ?_⟩, fits, by simp⟩
  · rintro _ rfl
    omega
  · rintro _ rfl
    exact fits

theorem proofAccess_inBounds_iff (r : Record) : (proofAccess r).InBounds ↔ VSIZE ≤ r.2.length := by
  simp [proofAccess, Access.InBounds]

theorem Op.entry_inBounds_iff (op : Op) (q : Nat) :
    ((∀ a ∈ leafAccesses (op.entry q), a.InBounds) ∧ (proofAccess (op.entry q)).InBounds) ↔ op.WellShaped := by
  rw [leafAccesses_inBounds_iff, proofAccess_inBounds_iff]
  cases op with
  | put key val =>
    simp only [entry, InternalKey.encode_length, InternalKey.make_userKey, WellShaped]
    omega
  | delete key => simp [entry, WellShaped, VSIZE]

theorem flush_of_single (p : Params) (op : Op) :
    ∃ db, Db.SessionReachable p (fun _ _ => True) db ∧ db.imm = some [op.entry 1] := by
  have wr : Db.SessionReachable p (fun _ _ => True) (Db.init.write [op]) := Transition.Reaches.tail .refl trivial
      (show Db.sessionStep p Db.init (.run (.write [op])) = some (Db.init.write [op]) from rfl)
  exact ⟨_, wr.tail trivial (show Db.sessionStep p _ (.run .switchMemTable) = some _ from rfl), rfl⟩

theorem Op.copiesInBounds_iff (op : Op) : op.CopiesInBounds ↔ op.WellShaped := by
  constructor
  · rintro ⟨flush, -⟩
    obtain ⟨db, run, isImm⟩ := flush_of_single ⟨⟨0⟩, fun _ => Merkle.zeroDigest, ⟨fun _ => 0, fun _ => 0⟩⟩ op
    have here := flush _ db run (.compactMemTable (fun _ => Merkle.zeroDigest) (fun _ _ => 0) Merkle.zeroDigest)
    refine (op.entry_inBounds_iff 1).mp ⟨fun a isAccess => here (op.entry 1, a) ?_ 1 rfl,
      here (op.entry 1, proofAccess (op.entry 1)) ?_ 1 rfl⟩
    · simp [Db.flushAccesses, isImm, FILE_RECORDS, isAccess]
    · simp [Db.flushAccesses, isImm]
  · intro wellShaped
    refine ⟨?_, fun p db run lbl ra mem _ _ => Db.compactionAccesses_inBounds run lbl ra mem⟩
    intro p db run lbl ra mem q isEntry
    obtain ⟨leaf, proof⟩ := (op.entry_inBounds_iff q).mpr wellShaped
    cases lbl with
    | compactMemTable heap beyond rh =>
      simp only [Db.flushAccesses, mem_append, mem_flatMap, mem_map] at mem
      obtain ⟨r, _, a, isAccess, rfl⟩ | ⟨r, _, rfl⟩ := mem
      · cases isEntry
        exact leaf a isAccess
      · cases isEntry
        exact proof
    | _ => cases mem

inductive Request where
  | ecallPut (key value : Bytes)
  | put (key value : Bytes)
  | delete (key : Bytes)
  | write (ops : List Op)

namespace Request

def ops : Request → List Op
  | .ecallPut key value => [.put key value]
  | .put key value => [.put key value]
  | .delete key => [.delete key]
  | .write ops => ops

def ownAccesses : Request → List Access
  | .ecallPut key value => ecallPutAccesses key value
  | _ => []

def WellShaped : Request → Prop
  | .ecallPut key value => 8 ≤ key.length ∧ Op.WellShaped (.put key value)
  | request => ∀ op ∈ request.ops, op.WellShaped

end Request

/-- All copies made for a request, in any run, are in bounds exactly when its records have the
one shape the copies are made for: no deletion, values of at least 112 bytes, at most 128 bytes
with the key, and through the enclave interface keys of at least 8. -/
theorem request_copies_iff (request : Request) :
    ((∀ a ∈ request.ownAccesses, a.InBounds) ∧ ∀ op ∈ request.ops, op.CopiesInBounds) ↔ request.WellShaped := by
  simp only [Op.copiesInBounds_iff]
  cases request with
  | ecallPut key value =>
    simp only [Request.ownAccesses, ecallPutAccesses, Request.ops, Request.WellShaped, Access.InBounds, Op.WellShaped,
      mem_cons, not_mem_nil, or_false, forall_eq_or_imp, forall_eq, Option.mem_def, Option.some.injEq, VSIZE]
    constructor
    · exact fun both => ⟨both.1.1.1, both.2⟩
    · rintro ⟨key, shape⟩
      exact ⟨⟨⟨key, fun _ same => same ▸ le_rfl⟩, shape.1, fun _ same => same ▸ le_rfl⟩, shape⟩
  | put | delete | write => simp [Request.ownAccesses, Request.WellShaped]

/-- Deleting a key is enough: the flush copies 112 bytes out of the empty value. -/
theorem delete_copies_beyond_value : ∃ p db, Db.SessionReachable p (fun _ _ => True) db ∧
      ∃ ra ∈ db.flushAccesses (.compactMemTable (fun _ => Merkle.zeroDigest) (fun _ _ => 0) Merkle.zeroDigest),
        ra.1 = (Op.delete (replicate 8 107)).entry 1 ∧ ¬ ra.2.InBounds := by
  obtain ⟨db, run, isImm⟩ := flush_of_single ⟨⟨2097152⟩, fun _ => Merkle.zeroDigest, ⟨fun _ => 0, fun _ => 0⟩⟩
    (.delete (replicate 8 107))
  have inImm : (Op.delete (replicate 8 107)).entry 1 ∈ db.imm.getD [] := by
    rw [isImm]
    exact mem_singleton.mpr rfl
  exact ⟨_, db, run, _, mem_append_right _ (mem_map_of_mem inImm), rfl, by decide⟩

end Elsm
