import Elsm.Merkle.BuildTable
import Elsm.Lib.SortedList

/-!
# Write batches and memtables (`db/write_batch.cpp`, `db/memtable.cpp`)

A memtable is the list of its entries in key order, as its skip list yields them.  A batch
is applied by giving its operations consecutive sequence numbers.
-/

namespace Elsm

open List
open Merkle (Record)

inductive Op where
  | put (key value : Bytes)
  | delete (key : Bytes)
  deriving DecidableEq, Repr

namespace Op

def key : Op → Bytes
  | .put key _ => key
  | .delete key => key

/-- The entry `MemTable::Add` builds for an operation with sequence number `seq`. -/
def entry (op : Op) (seq : Nat) : Record :=
  match op with
  | .put key value => (.make key seq .value, value)
  | .delete key => (.make key seq .deletion, [])

@[simp] theorem entry_userKey (op : Op) (seq : Nat) : (op.entry seq).1.userKey = op.key := by
  cases op <;> rfl

@[simp] theorem entry_sequence (op : Op) (seq : Nat) : (op.entry seq).1.sequence = seq := by
  cases op <;> exact InternalKey.make_sequence _ _ _

end Op

/-- `SkipList::Insert`: before the first larger key. -/
def insertEntry (e : Record) : List Record → List Record
  | [] => [e]
  | x :: rest => if e.1 < x.1 then e :: x :: rest else x :: insertEntry e rest

/-- `WriteBatchInternal::InsertInto`: the operations of a batch from sequence `seq` on. -/
def insertInto : Nat → List Op → List Record → List Record
  | _, [], mem => mem
  | seq, op :: ops, mem => insertInto (seq + 1) ops (insertEntry (op.entry seq) mem)

def numbered : Nat → List Op → List (Nat × Op)
  | _, [] => []
  | seq, op :: ops => (seq, op) :: numbered (seq + 1) ops

variable {mem : List Record}

theorem insertEntry_perm (e : Record) (mem : List Record) : insertEntry e mem ~ e :: mem := by
  induction mem with
  | nil => exact .refl _
  | cons x rest ih =>
    simp only [insertEntry]
    split
    · exact .refl _
    · exact (ih.cons x).trans (.swap e x rest)

theorem mem_insertEntry {e x : Record} : x ∈ insertEntry e mem ↔ x = e ∨ x ∈ mem := by
  rw [(insertEntry_perm e mem).mem_iff, mem_cons]

theorem insertEntry_sorted {e : Record} (sorted : mem.Pairwise fun a b => a.1 < b.1)
    (fresh : ∀ x ∈ mem, x.1 ≠ e.1) : (insertEntry e mem).Pairwise fun a b => a.1 < b.1 := by
  induction mem with
  | nil => simp [insertEntry]
  | cons y rest ih =>
    have ⟨head, tail⟩ := pairwise_cons.mp sorted
    simp only [insertEntry]
    split
    case isTrue lt =>
      exact pairwise_cons.mpr ⟨forall_mem_cons.mpr ⟨lt, fun x inR => lt.trans (head x inR)⟩, sorted⟩
    case isFalse notLess =>
      refine pairwise_cons.mpr ⟨?_, ih tail fun x inR => fresh x (by simp [inR])⟩
      intro x member
      cases mem_insertEntry.mp member with
      | inl new => exact new ▸ lt_of_le_of_ne (not_lt.mp notLess) (fresh y (by simp))
      | inr inR => exact head x inR

theorem mem_numbered {seq q : Nat} {ops : List Op} {op : Op} (mem : (q, op) ∈ numbered seq ops) :
    seq ≤ q ∧ q < seq + ops.length := by
  induction ops generalizing seq with
  | nil => simp [numbered] at mem
  | cons first ops ih =>
    simp only [numbered, mem_cons, Prod.mk.injEq] at mem
    simp only [length_cons]
    cases mem with
    | inl isFirst => omega
    | inr later =>
      have bounds := ih later
      omega

variable {ops : List Op}

theorem op_mem_of_numbered {seq q : Nat} {op : Op} (mem : (q, op) ∈ numbered seq ops) : op ∈ ops := by
  induction ops generalizing seq with
  | nil => simp [numbered] at mem
  | cons first ops ih =>
    simp only [numbered, mem_cons, Prod.mk.injEq] at mem
    cases mem with
    | inl isFirst => simp [isFirst.2]
    | inr later => exact mem_cons_of_mem _ (ih later)

theorem insertEntry_length (e : Record) (mem : List Record) : (insertEntry e mem).length = mem.length + 1 :=
  (insertEntry_perm e mem).length_eq

theorem insertInto_length (seq : Nat) (ops : List Op) (mem : List Record) :
    (insertInto seq ops mem).length = mem.length + ops.length := by
  induction ops generalizing seq mem with
  | nil => rfl
  | cons first ops ih =>
    rw [insertInto, ih, insertEntry_length, length_cons]
    omega

theorem mem_insertInto {seq : Nat} {x : Record} :
    x ∈ insertInto seq ops mem ↔ x ∈ mem ∨ ∃ q op, (q, op) ∈ numbered seq ops ∧ x = op.entry q := by
  induction ops generalizing seq mem with
  | nil => simp [insertInto, numbered]
  | cons first ops ih =>
    simp only [insertInto, ih, mem_insertEntry, numbered, mem_cons, Prod.mk.injEq]
    constructor
    · rintro ((isFirst | old) | ⟨q, op, later, isEntry⟩)
      · exact .inr ⟨seq, first, .inl ⟨rfl, rfl⟩, isFirst⟩
      · exact .inl old
      · exact .inr ⟨q, op, .inr later, isEntry⟩
    · rintro (old | ⟨q, op, ⟨rfl, rfl⟩ | later, isEntry⟩)
      · exact .inl (.inr old)
      · exact .inl (.inl isEntry)
      · exact .inr ⟨q, op, later, isEntry⟩

theorem insertInto_sorted {seq : Nat}
    (sorted : mem.Pairwise fun a b => a.1 < b.1) (newer : ∀ x ∈ mem, x.1.sequence < seq) :
    (insertInto seq ops mem).Pairwise fun a b => a.1 < b.1 := by
  induction ops generalizing seq mem with
  | nil => exact sorted
  | cons first ops ih =>
    apply ih
    · apply insertEntry_sorted sorted
      intro x member eq
      have older := newer x member
      rw [eq, Op.entry_sequence] at older
      exact Nat.lt_irrefl _ older
    · intro x member
      cases mem_insertEntry.mp member with
      | inl new => rw [new, Op.entry_sequence]; exact Nat.lt_succ_self seq
      | inr old => exact Nat.lt_succ_of_lt (newer x old)

/-! ## Lookups -/

/-- What a lookup in one table or memtable finds: a value, or a deletion. -/
inductive Found where
  | value (v : Bytes)
  | deletion
  deriving DecidableEq, Repr

def memTableGet (mem : List Record) (key : InternalKey Bytes) : Option Found :=
  match mem.find? fun e => key ≤ e.1 with
  | none => none
  | some e =>
    if e.1.userKey = key.userKey then
      match ValueType.ofCode? e.1.typeCode with
      | some .value => some (.value e.2)
      | some .deletion => some .deletion
      | none => none
    else none

end Elsm
