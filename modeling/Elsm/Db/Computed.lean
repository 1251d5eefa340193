import Elsm.Db.Invariant
import Elsm.Table.Builder

/-!
# Runs that can be computed

`BuildTable` fills a tree of 65536 nodes whatever the memtable.  When all tags are zero the
tree is zero too, and a flush can be computed from the memtable alone.  `compute` runs a list
of steps that way, and `reachable_of_compute` says that the machine has such a run.
-/

namespace Elsm

open Merkle (Digest Mac Record zeroDigest copyBytes storedValue buildTable)

namespace Merkle

def zeroMac : Mac := fun _ => zeroDigest

def Tree.Zero (t : Tree) : Prop := ∀ i, t.node i = zeroDigest

theorem leafLoop_zero {es : List Record} {mp thr : Nat} {t t' : Tree} (zero : t.Zero)
    (run : leafLoop zeroMac es mp thr t = some t') : t'.Zero := by
  induction es generalizing mp thr t with
  | nil =>
    cases run
    exact zero
  | cons r rest ih =>
    simp only [leafLoop] at run
    split at run
    · split at run
      · refine ih (fun i => ?_) run
        by_cases here : i = mp
        · rw [here, Tree.write_node_self]
          rfl
        · rw [Tree.write_node_ne t _ here, zero i]
      · cases run
    · cases run
      exact zero

theorem Tree.Zero.hashPair {t : Tree} (zero : t.Zero) (i mp : Nat) : (t.hashPair zeroMac i mp).Zero := by
  intro k
  simp only [Tree.hashPair, Function.update_apply]
  split
  · rfl
  · exact zero k

theorem pairLoop_zero (previous stride j mp : Nat) (t : Tree) (zero : t.Zero) :
    (pairLoop zeroMac previous stride j mp t).2.Zero := by
  fun_induction pairLoop with
  | case1 j mp t _ ih => exact ih (zero.hashPair _ _)
  | case2 => exact zero

theorem levelLoop_zero (levels previous stride mp : Nat) (t : Tree) (zero : t.Zero) :
    (levelLoop zeroMac levels previous stride mp t).Zero := by
  induction levels generalizing previous stride mp t with
  | zero => exact zero
  | succ levels ih => exact ih _ _ _ _ (pairLoop_zero previous stride 0 mp t zero)

/-- What is stored for the records of a memtable when every digest is zero. -/
def zeroImage (entries : List Record) : List Record :=
  entries.map fun r => (r.1, copyBytes VSIZE r.2 (fun _ => 0) ++ List.replicate 240 0)

theorem siblings_zero {node : Nat → Digest} (zero : ∀ i, node i = zeroDigest) (count i : Nat) :
    flatten (FlatTree.siblings FILE_RECORDS node count i) = List.replicate (16 * count) 0 := by
  induction count generalizing i with
  | zero => rfl
  | succ count ih =>
    change (node (FlatTree.sibling i)).1 ++ flatten (FlatTree.siblings FILE_RECORDS node count _) = _
    rw [ih, zero, show 16 * (count + 1) = 16 + 16 * count by ring, List.replicate_add]
    rfl

theorem buildTable_zero {es : List Record} (ne : es ≠ [])
    (room : es.length ≤ FILE_RECORDS) (fits : ∀ r ∈ es, FitsRecord r) :
    ∃ image, buildTable zeroMac (fun _ => zeroDigest) (fun _ _ => 0) es = .file image ∧
      image.records = zeroImage es := by
  obtain ⟨leaves, run, _⟩ := leafLoop_spec zeroMac es 0 ⟨fun _ => zeroDigest, []⟩ (by omega) fits
  have zero := levelLoop_zero TREE_HEIGHT 0 FILE_RECORDS FILE_RECORDS leaves (leafLoop_zero (fun _ => rfl) run)
  cases es with
  | nil => exact absurd rfl ne
  | cons first rest =>
    simp only [buildTable, run]
    refine ⟨_, rfl, ?_⟩
    simp only [addLoop_records, storedValue, siblings_zero zero, zeroImage]
    apply List.ext_getElem?
    intro i
    simp only [List.getElem?_mapIdx, List.getElem?_map]
    rfl

end Merkle

open Merkle (zeroMac zeroImage FitsRecord FILE_RECORDS)

instance (db : Db) (label : Step) : Decidable (db.HasRoom label) := by
  cases label <;> simp only [Db.HasRoom] <;> infer_instance

instance (record : Record) : Decidable (FitsRecord record) := by
  unfold FitsRecord
  infer_instance

/-- The step with all memory that `BuildTable` reads without having written it zero. -/
def Step.zeroed : Step → Step
  | .compactMemTable _ _ rh => .compactMemTable (fun _ => zeroDigest) (fun _ _ => 0) rh
  | label => label

namespace Db

def computeFlush (p : Params) (db : Db) (rh : Digest) : Except Stop Db :=
  match db.imm, db.compaction.any fun cs => cs.input.isEmpty with
  | some imm, false =>
    if imm ≠ [] ∧ imm.length ≤ FILE_RECORDS ∧ ∀ r ∈ imm, FitsRecord r then
      db.commitFlush p (zeroImage imm) rh
    else .error .disabled
  | _, _ => .error .disabled

def computeStep (p : Params) (db : Db) : Step → Except Stop Db
  | .compactMemTable _ _ rh => db.computeFlush p rh
  | label => step p db label

section Compute

variable (p : Params) (allowed : Db → Step → Prop) [∀ db label, Decidable (allowed db label)]

def compute : Db → List Step → Option Db
  | db, [] => some db
  | db, label :: rest =>
    if allowed db label then
      match computeStep p db label with
      | .ok next => compute next rest
      | .error _ => none
    else none

end Compute

section

variable {p : Params} (zero : p.mac = zeroMac)

include zero

theorem computeFlush_eq {db db' : Db} {rh : Digest} (computed : db.computeFlush p rh = .ok db') :
    db.compactMemTable p (fun _ => zeroDigest) (fun _ _ => 0) rh = .ok db' := by
  simp only [computeFlush] at computed
  split at computed
  case h_1 imm isImm isMem =>
    split at computed
    case isTrue flat =>
      obtain ⟨image, built, isRecords⟩ := Merkle.buildTable_zero flat.1 flat.2.1 flat.2.2
      simp only [compactMemTable, isImm, isMem, zero, built, isRecords]
      exact computed
    case isFalse => cases computed
  case h_2 => cases computed

theorem computeStep_eq {db db' : Db} {label : Step}
    (computed : computeStep p db label = .ok db') : step p db label.zeroed = .ok db' := by
  cases label with
  | compactMemTable heap beyond rh => exact computeFlush_eq zero computed
  | _ => exact computed

theorem reachable_of_compute {allowed : Db → Step → Prop} [∀ db label, Decidable (allowed db label)]
    (blind : ∀ db label, allowed db label → allowed db label.zeroed) {start final : Db} {labels : List Step}
    (reached : Reachable p allowed start) (computed : compute p allowed start labels = some final) :
    Reachable p allowed final := by
  induction labels generalizing start with
  | nil =>
    cases computed
    exact reached
  | cons label rest ih =>
    simp only [compute] at computed
    split at computed
    case isTrue adm =>
      split at computed
      case h_1 next goes => exact ih (reached.tail (blind _ _ adm) (computeStep_eq zero goes)) computed
      case h_2 => cases computed
    case isFalse => cases computed

end

theorem hasRoom_zeroed (db : Db) (label : Step) (room : db.HasRoom label) : db.HasRoom label.zeroed := by
  cases label <;> exact room

def sampleParams : Params := ⟨⟨2097152⟩, zeroMac, tableSize (fun _ => 0) .default⟩

def sampleFlush (op : Op) : List Step :=
  [.write [op], .switchMemTable, .compactMemTable (fun _ => zeroDigest) (fun _ _ => 0) zeroDigest]

end Db

end Elsm
