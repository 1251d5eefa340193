import Mathlib.Algebra.Order.BigOperators.Group.List
import Elsm.Db.LogReplay
import Elsm.Merkle.Completeness

/-!
# How many entries a memtable takes (`util/arena.cpp`, `db/memtable.cpp`, `db/db_impl.cpp`)

`MakeRoomForWrite` and `RecoverLogFile` look at the bytes a memtable's arena has taken from the
heap, while the tree of `BuildTable` has room for `FILE_RECORDS` entries.  The arena is modelled
with its blocks and its alignment, the skip list with the heights its generator draws.

The bytes bound the entries only through their sizes (`MemTable.Accounted`): a memtable of small
records, or one that a large batch overfills, holds more entries than the tree has leaves.  With
records that are large enough and groups that are small enough it fits (`built_memtables_fit`).
-/

namespace Elsm

open List
open Merkle (Record FILE_RECORDS TREE_HEIGHT)

/-! ## `Arena` -/

/-- `place` is `alloc_ptr_ & 7`.  Blocks come from `new char[]` and are aligned. -/
structure Arena where
  place : Nat
  bytesRemaining : Nat
  memoryUsage : Nat
  deriving DecidableEq, Repr

namespace Arena

def kBlockSize : Nat := 4096

def new : Arena := ⟨0, 0, 0⟩

def allocateNewBlock (arena : Arena) (blockBytes : Nat) : Arena :=
  { arena with memoryUsage := arena.memoryUsage + blockBytes + 8 }

def allocateFallback (arena : Arena) (bytes : Nat) : Arena :=
  if kBlockSize / 4 < bytes then arena.allocateNewBlock bytes
  else
    -- the rest of the current block is wasted
    { arena.allocateNewBlock kBlockSize with place := bytes % 8, bytesRemaining := kBlockSize - bytes }

def take (arena : Arena) (bytes : Nat) : Arena :=
  { arena with place := (arena.place + bytes) % 8, bytesRemaining := arena.bytesRemaining - bytes }

def allocate (arena : Arena) (bytes : Nat) : Arena :=
  if bytes ≤ arena.bytesRemaining then arena.take bytes else arena.allocateFallback bytes

def allocateAligned (arena : Arena) (bytes : Nat) : Arena :=
  let slop := if arena.place = 0 then 0 else 8 - arena.place
  if bytes + slop ≤ arena.bytesRemaining then arena.take (bytes + slop) else arena.allocateFallback bytes

def Accounts (arena : Arena) (bytes : Nat) : Prop := bytes + arena.bytesRemaining ≤ arena.memoryUsage

variable {arena : Arena} {used : Nat} (accounts : arena.Accounts used)

include accounts

theorem Accounts.allocateFallback (bytes : Nat) : (arena.allocateFallback bytes).Accounts (used + bytes) := by
  rw [Accounts] at accounts
  rw [Arena.allocateFallback]
  by_cases large : kBlockSize / 4 < bytes
  · rw [if_pos large]
    simp only [Accounts, allocateNewBlock]
    omega
  rw [if_neg large]
  simp only [kBlockSize] at large
  simp only [Accounts, allocateNewBlock, kBlockSize]
  omega

theorem Accounts.take {bytes : Nat} (fits : bytes ≤ arena.bytesRemaining) :
    (arena.take bytes).Accounts (used + bytes) := by
  simp only [Accounts, Arena.take] at *
  omega

theorem Accounts.allocate (bytes : Nat) : (arena.allocate bytes).Accounts (used + bytes) := by
  rw [Arena.allocate]
  split
  case isTrue fits => exact accounts.take fits
  case isFalse => exact accounts.allocateFallback bytes

theorem Accounts.mono {lt : Nat} (smaller : lt ≤ used) : arena.Accounts lt :=
  (Nat.add_le_add_right smaller _).trans accounts

theorem Accounts.allocateAligned (bytes : Nat) : (arena.allocateAligned bytes).Accounts (used + bytes) := by
  simp only [Arena.allocateAligned]
  generalize (if arena.place = 0 then 0 else 8 - arena.place) = slop
  split
  case isTrue fits => exact (accounts.take fits).mono (Nat.add_le_add_left (Nat.le_add_right _ _) _)
  case isFalse => exact accounts.allocateFallback bytes

end Arena

/-! ## `MemTable::Add` -/

theorem one_le_varintLength (v : Nat) : 1 ≤ varintLength v := by
  rw [varintLength]
  split <;> omega

/-- `encoded_len` in `MemTable::Add`. -/
def encodedLength (e : Record) : Nat :=
  varintLength e.1.encode.length + e.1.encode.length + varintLength e.2.length + e.2.length

theorem le_encodedLength (e : Record) : e.1.userKey.length + e.2.length + 10 ≤ encodedLength e := by
  have keyField := one_le_varintLength e.1.encode.length
  have valueField := one_le_varintLength e.2.length
  rw [encodedLength, InternalKey.encode_length] at *
  omega

/-- The memory of a skip list node: a key pointer and `height` links. -/
def nodeSize (height : Nat) : Nat := 16 + 8 * (height - 1)

def kMaxHeight : Nat := 12

/-- `Random::Next`. -/
def nextSeed (seed : Nat) : Nat :=
  let product := seed * 16807
  let reduced := product / 2147483648 + product % 2147483648
  if 2147483647 < reduced then reduced - 2147483647 else reduced

/-- `RandomHeight` from a height on, with the number of levels it may still add. -/
def randomHeight : Nat → Nat → Nat → Nat × Nat
  | 0, height, seed => (height, seed)
  | more + 1, height, seed =>
    let seed := nextSeed seed
    if seed % 4 = 0 then randomHeight more (height + 1) seed else (height, seed)

/-- A memtable: its entries in key order, its arena, and the state of the skip list's generator. -/
structure MemTable where
  entries : List Record
  arena : Arena
  seed : Nat

namespace MemTable

def new : MemTable := ⟨[], Arena.new.allocateAligned (nodeSize kMaxHeight), 0x5eadbeef⟩

def approximateMemoryUsage (m : MemTable) : Nat := m.arena.memoryUsage

def add (m : MemTable) (e : Record) : MemTable :=
  let height := randomHeight (kMaxHeight - 1) 1 m.seed
  { entries := insertEntry e m.entries
    arena := (m.arena.allocate (encodedLength e)).allocateAligned (nodeSize height.1)
    seed := height.2 }

def addAll (m : MemTable) (entries : List Record) : MemTable := entries.foldl add m

theorem addAll_length (m : MemTable) (es : List Record) :
    (m.addAll es).entries.length = m.entries.length + es.length := by
  induction es generalizing m with
  | nil => rfl
  | cons e rest ih =>
    have added : (m.add e).entries.length = m.entries.length + 1 := insertEntry_length e m.entries
    change ((m.add e).addAll rest).entries.length = _
    rw [ih, added, length_cons]
    omega

variable {m : MemTable}

theorem mem_addAll {es : List Record} {x : Record} : x ∈ (m.addAll es).entries ↔ x ∈ m.entries ∨ x ∈ es := by
  induction es generalizing m with
  | nil => simp [addAll]
  | cons e rest ih =>
    change x ∈ ((m.add e).addAll rest).entries ↔ _
    have added : x ∈ (m.add e).entries ↔ x = e ∨ x ∈ m.entries := mem_insertEntry
    rw [ih, added, mem_cons]
    tauto

/-- The entries and a node of one link for each account for the bytes taken. -/
def Accounted (m : MemTable) : Prop :=
  m.arena.Accounts ((m.entries.map fun e => encodedLength e + 16).sum)

theorem new_accounted : new.Accounted := by
  have empty : Arena.new.Accounts 0 := Nat.le_refl 0
  exact (empty.allocateAligned _).mono (Nat.zero_le _)

theorem Accounted.add (accounted : m.Accounted) (e : Record) : (m.add e).Accounted := by
  have run := (Arena.Accounts.allocate accounted (encodedLength e)).allocateAligned
    (nodeSize (randomHeight (kMaxHeight - 1) 1 m.seed).1)
  refine run.mono ?_
  change ((insertEntry e m.entries).map fun e => encodedLength e + 16).sum ≤ _
  rw [((insertEntry_perm e m.entries).map _).sum_eq, map_cons, sum_cons, nodeSize]
  omega

theorem Accounted.addAll (accounted : m.Accounted) (es : List Record) : (m.addAll es).Accounted := by
  induction es generalizing m with
  | nil => exact accounted
  | cons e rest ih => exact ih (accounted.add e)

theorem Accounted.length_le (accounted : m.Accounted) {least : Nat}
    (large : ∀ e ∈ m.entries, least ≤ e.1.userKey.length + e.2.length) :
    m.entries.length * (least + 26) ≤ m.approximateMemoryUsage := by
  have each : ∀ n ∈ m.entries.map fun e => encodedLength e + 16, least + 26 ≤ n := by
    refine forall_mem_map.mpr fun e isEntry => ?_
    have lower := le_encodedLength e
    have isLarge := large e isEntry
    omega
  have lower := card_nsmul_le_sum _ _ each
  rw [length_map, nsmul_eq_mul, Nat.cast_id] at lower
  exact lower.trans ((Nat.le_add_right _ _).trans accounted)

end MemTable

/-! ## The memtables of a database -/

def defaultWriteBufferSize : Nat := 4194304

/-- `mem_` and `imm_` of an open database, the local memtable of `RecoverLogFile` while it is being
opened, and the memtables that were passed to `BuildTable`. -/
structure Buffers where
  isOpen : Bool
  mem : MemTable
  imm : Option MemTable
  lastSequence : Nat
  replayed : Option MemTable
  built : List (List Record)

inductive BufferEvent where
  /-- A write group gets through `MakeRoomForWrite` and is inserted. -/
  | write (ops : List Op)
  /-- `CompactMemTable`, which keeps the memtable when it fails. -/
  | compactMemTable (ok : Bool)
  | restart
  /-- `RecoverLogFile` reads a record that is large enough for a batch. -/
  | replayRecord (record : Bytes)
  /-- `RecoverLogFile` comes to the end of a log. -/
  | endLog
  /-- `DB::Open` returns, with the sequence number it found. -/
  | opened (lastSequence : Nat)

namespace Buffers

def init : Buffers := ⟨true, .new, none, 0, none, []⟩

/-- The loop of `MakeRoomForWrite`: there is room, or the memtables are switched, or the writer
waits. -/
def makeRoomForWrite (s : Buffers) : Option Buffers :=
  if s.mem.approximateMemoryUsage ≤ defaultWriteBufferSize then some s
  else if s.imm.isSome then none
  else some { s with imm := some s.mem, mem := .new }

/-- `WriteLevel0Table` in `RecoverLogFile`. -/
def writeReplayed (s : Buffers) (mem : MemTable) : Buffers :=
  { s with replayed := none, built := s.built ++ [mem.entries] }

/-- `none` is an event that cannot happen now. -/
def step (s : Buffers) : BufferEvent → Option Buffers
  | .write ops =>
    if s.isOpen then
      s.makeRoomForWrite.map fun s =>
        { s with
          mem := s.mem.addAll ((numbered (s.lastSequence + 1) ops).map fun h => h.2.entry h.1)
          lastSequence := s.lastSequence + ops.length }
    else none
  | .compactMemTable ok =>
    match s.imm with
    | none => none
    | some imm => some { s with imm := if ok then none else some imm, built := s.built ++ [imm.entries] }
  | .restart => some { s with isOpen := false, imm := none, replayed := none }
  | .replayRecord record =>
    if s.isOpen then none
    else
      let mem := (s.replayed.getD .new).addAll (Batch.entries record)
      if defaultWriteBufferSize < mem.approximateMemoryUsage then some (s.writeReplayed mem)
      else some { s with replayed := some mem }
  | .endLog =>
    if s.isOpen then none
    else
      match s.replayed with
      | none => some s
      | some mem => some (s.writeReplayed mem)
  | .opened lastSequence =>
    if s.isOpen then none else some { s with isOpen := true, mem := .new, lastSequence := lastSequence }

abbrev Reachable (allowed : Buffers → BufferEvent → Prop) (s : Buffers) : Prop :=
  Transition.Reaches (fun s event s' => s.step event = some s') allowed init s

/-- The entries that an event inserts into a memtable. -/
def inserts (s : Buffers) : BufferEvent → List Record
  | .write ops => (numbered (s.lastSequence + 1) ops).map fun h => h.2.entry h.1
  | .replayRecord record => Batch.entries record
  | _ => []

/-- Groups and log records of at most `most` operations, with at least `least` bytes of key and value each. -/
def Sized (least most : Nat) (s : Buffers) (event : BufferEvent) : Prop :=
  (s.inserts event).length ≤ most ∧ ∀ e ∈ s.inserts event, least ≤ e.1.userKey.length + e.2.length

/-! ## Steps and runs -/

section Runs

structure Fits (least : Nat) (m : MemTable) : Prop where
  accounted : m.Accounted
  large : ∀ e ∈ m.entries, least ≤ e.1.userKey.length + e.2.length
  length : m.entries.length ≤ FILE_RECORDS

structure Inv (least : Nat) (s : Buffers) : Prop where
  mem : Fits least s.mem
  imm : ∀ m ∈ s.imm, Fits least m
  replayed : ∀ m ∈ s.replayed, Fits least m ∧ m.approximateMemoryUsage ≤ defaultWriteBufferSize
  built : ∀ entries ∈ s.built, entries.length ≤ FILE_RECORDS

variable {least most : Nat}

theorem new_fits : Fits least .new := ⟨MemTable.new_accounted, by simp [MemTable.new], Nat.zero_le _⟩

theorem new_room : MemTable.new.approximateMemoryUsage ≤ defaultWriteBufferSize := by decide

variable (budget : defaultWriteBufferSize / (least + 26) + most ≤ FILE_RECORDS)

include budget

theorem Fits.addAll {m : MemTable} (fits : Fits least m) (room : m.approximateMemoryUsage ≤ defaultWriteBufferSize)
    {es : List Record} (few : es.length ≤ most) (large : ∀ e ∈ es, least ≤ e.1.userKey.length + e.2.length) :
    Fits least (m.addAll es) := by
  refine ⟨fits.accounted.addAll es, fun e isEntry => ?_, ?_⟩
  · exact (MemTable.mem_addAll.mp isEntry).elim (fits.large e) (large e)
  have held : m.entries.length ≤ defaultWriteBufferSize / (least + 26) :=
    (Nat.le_div_iff_mul_le (Nat.succ_pos _)).mpr ((fits.accounted.length_le fits.large).trans room)
  rw [MemTable.addAll_length]
  omega

theorem Inv.step {s s' : Buffers} {ev : BufferEvent} (inv : Inv least s) (sized : s.Sized least most ev)
    (run : s.step ev = some s') : Inv least s' := by
  have insert : ∀ m, Fits least m → m.approximateMemoryUsage ≤ defaultWriteBufferSize →
      Fits least (m.addAll (s.inserts ev)) := fun m fits room => fits.addAll budget room sized.1 sized.2
  have extended : ∀ m, Fits least m → ∀ es ∈ s.built ++ [m.entries], es.length ≤ FILE_RECORDS :=
    fun m fits => SortedList.forall_mem_concat inv.built fits.length
  cases ev with simp only [Buffers.step] at run
  | write ops =>
    split at run
    case isFalse => cases run
    case isTrue =>
      simp only [makeRoomForWrite] at run
      split at run
      case isTrue room =>
        cases run
        exact ⟨insert s.mem inv.mem room, inv.imm, inv.replayed, inv.built⟩
      case isFalse =>
        split at run
        · cases run
        cases run
        refine ⟨insert .new new_fits new_room, fun m isImm => ?_, inv.replayed, inv.built⟩
        cases isImm
        exact inv.mem
  | compactMemTable ok =>
    split at run
    · cases run
    case h_2 imm isImm =>
      cases run
      refine ⟨inv.mem, fun m isKept => ?_, inv.replayed, extended imm (inv.imm imm isImm)⟩
      cases ok with
      | true => cases isKept
      | false =>
        cases isKept
        exact inv.imm imm isImm
  | restart =>
    cases run
    exact ⟨inv.mem, by simp, by simp, inv.built⟩
  | replayRecord r =>
    have old : Fits least (s.replayed.getD .new) ∧
        (s.replayed.getD .new).approximateMemoryUsage ≤ defaultWriteBufferSize := by
      cases isReplayed : s.replayed with
      | none => exact ⟨new_fits, new_room⟩
      | some m => exact inv.replayed m isReplayed
    have added := insert _ old.1 old.2
    split at run
    · cases run
    split at run
    case isTrue =>
      cases run
      exact ⟨inv.mem, inv.imm, by simp [writeReplayed], extended _ added⟩
    case isFalse room =>
      cases run
      refine ⟨inv.mem, inv.imm, fun m isReplayed => ?_, inv.built⟩
      cases isReplayed
      exact ⟨added, not_lt.mp room⟩
  | endLog =>
    split at run
    · cases run
    split at run
    · cases run
      exact inv
    case h_2 m isReplayed =>
      cases run
      exact ⟨inv.mem, inv.imm, by simp [writeReplayed], extended m (inv.replayed m isReplayed).1⟩
  | opened lastSequence =>
    split at run
    · cases run
    · cases run
      exact ⟨new_fits, inv.imm, inv.replayed, inv.built⟩

/-- In every run whose groups and log records are small enough for the size of their records, `BuildTable`
gets no more entries than the tree has leaves, and the proof loop stays in the array. -/
theorem built_memtables_fit (s : Buffers) (run : Reachable (Sized least most) s) :
    ∀ entries ∈ s.built, entries.length ≤ FILE_RECORDS ∧ ∀ p < entries.length, ∀ node : Nat → Merkle.Digest,
        ∀ i ∈ (Merkle.proofLoop TREE_HEIGHT p ⟨node, []⟩).2.touched, i < 2 * FILE_RECORDS := by
  have inv : Inv least s :=
    run.invariant (Inv least) ⟨new_fits, by simp [init], by simp [init], by simp [init]⟩ fun inv sized taken =>
      inv.step budget sized taken
  intro entries isBuilt
  have small := inv.built entries isBuilt
  refine ⟨small, fun p inEntries node i isTouched => ?_⟩
  have inTree : p < 2 ^ TREE_HEIGHT := inEntries.trans_le small
  have bound := Merkle.proofLoop_touched TREE_HEIGHT p ⟨node, []⟩
    (fun below less => FlatTree.ancestor_lt TREE_HEIGHT below p less inTree) i isTouched
  exact bound.resolve_left not_mem_nil

end Runs

/-! ## Runs that fill one memtable -/

def filled (ops : List Op) : MemTable := MemTable.new.addAll ((numbered 1 ops).map fun h => h.2.entry h.1)

theorem numbered_length (seq : Nat) (ops : List Op) : (numbered seq ops).length = ops.length := by
  induction ops generalizing seq with
  | nil => rfl
  | cons op rest ih => simp [numbered, ih]

theorem filled_length (ops : List Op) : (filled ops).entries.length = ops.length := by
  rw [filled, MemTable.addAll_length, length_map, numbered_length]
  exact Nat.zero_add _

theorem built_of_batch {ok : Buffers → BufferEvent → Prop} {ops next : List Op}
    (full : defaultWriteBufferSize < (filled ops).approximateMemoryUsage) (first : ok init (.write ops))
    (snd : ∀ s : Buffers, s.mem = filled ops → ok s (.write next)) (last : ∀ s, ok s (.compactMemTable true)) :
    ∃ s, Reachable ok s ∧ s.built = [(filled ops).entries] := by
  have fresh : init.mem.approximateMemoryUsage ≤ defaultWriteBufferSize := by decide
  have wr : init.step (.write ops) = some ⟨true, filled ops, none, ops.length, none, []⟩ := by
    simp only [Buffers.step, makeRoomForWrite, if_pos fresh]
    simp [init, filled]
  have switched : Buffers.step ⟨true, filled ops, none, ops.length, none, []⟩ (.write next) =
      some ⟨true, MemTable.new.addAll ((numbered (ops.length + 1) next).map fun h => h.2.entry h.1),
        some (filled ops), ops.length + next.length, none, []⟩ := by
    simp only [Buffers.step, makeRoomForWrite, if_neg (not_le.mpr full)]
    rfl
  have reached : Reachable ok _ := Transition.Reaches.tail .refl first wr
  have reached' : Reachable ok _ := reached.tail (snd _ rfl) switched
  exact ⟨_, reached'.tail (last _) (show Buffers.step _ (.compactMemTable true) = some _ from rfl), rfl⟩

/-- A put with a key of 8 bytes. -/
def putOf (valueLength : Nat) : Op := .put (replicate 8 107) (replicate valueLength 118)

theorem mem_puts {n len seq : Nat} {e : Record}
    (isEntry : e ∈ (numbered seq (replicate n (putOf len))).map fun h => h.2.entry h.1) :
    8 + len = e.1.userKey.length + e.2.length := by
  obtain ⟨⟨q, op⟩, isNumbered, rfl⟩ := mem_map.mp isEntry
  obtain rfl := eq_of_mem_replicate (op_mem_of_numbered isNumbered)
  simp [putOf, Op.entry, InternalKey.make]

theorem filled_usage (n len : Nat) :
    n * (8 + len + 26) ≤ (filled (replicate n (putOf len))).approximateMemoryUsage := by
  have accounted : (filled (replicate n (putOf len))).Accounted := MemTable.new_accounted.addAll _
  have lower := accounted.length_le fun e isEntry =>
    (mem_puts ((MemTable.mem_addAll.mp isEntry).resolve_left not_mem_nil)).le
  rwa [filled_length, length_replicate] at lower

/-- Groups of at most 4040 operations with at least 120 bytes each: one of them fills the memtable. -/
theorem built_memtables_fit_usual : defaultWriteBufferSize / (120 + 26) + 4040 ≤ FILE_RECORDS ∧
    ∃ s, Reachable (Sized 120 4040) s ∧ (∃ entries ∈ s.built, entries.length = 3800) ∧
      ∀ entries ∈ s.built, entries.length ≤ FILE_RECORDS := by
  have budget : defaultWriteBufferSize / (120 + 26) + 4040 ≤ FILE_RECORDS := by decide
  have full : defaultWriteBufferSize < (filled (replicate 3800 (putOf 1100))).approximateMemoryUsage :=
    lt_of_lt_of_le (by decide) (filled_usage 3800 1100)
  have sized : ∀ n ≤ 4040, ∀ s, Sized 120 4040 s (.write (replicate n (putOf 1100))) := by
    intro n few s
    refine ⟨?_, fun e isEntry => ?_⟩
    · simpa [inserts, numbered_length] using few
    · rw [← mem_puts isEntry]
      decide
  obtain ⟨s, reached, isBuilt⟩ := built_of_batch full (sized 3800 (by decide) _)
    (fun s _ => sized 1 (by decide) s) fun s => by simp [Sized, inserts]
  refine ⟨budget, s, reached, ⟨_, by rw [isBuilt]; exact mem_singleton.mpr rfl, ?_⟩,
    fun entries isEntries => (built_memtables_fit budget s reached entries isEntries).1⟩
  rw [filled_length, length_replicate]

/-- One batch with a record more than the tree has leaves. -/
theorem large_batch_overfills_tree :
    ∃ s, Reachable (fun _ _ => True) s ∧ ∃ entries ∈ s.built, entries.length = FILE_RECORDS + 1 := by
  have full : defaultWriteBufferSize < (filled (replicate 32769 (putOf 112))).approximateMemoryUsage :=
    lt_of_lt_of_le (by decide) (filled_usage 32769 112)
  obtain ⟨s, reached, isBuilt⟩ := @built_of_batch (fun _ _ => True) _ [putOf 112] full trivial
    (fun _ _ => trivial) fun _ => trivial
  refine ⟨s, reached, _, by rw [isBuilt]; exact mem_singleton.mpr rfl, ?_⟩
  rw [filled_length, length_replicate]
  rfl

end Buffers

end Elsm
