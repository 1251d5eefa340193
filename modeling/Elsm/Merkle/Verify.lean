import Elsm.Merkle.Completeness

/-!
# Reading proofs back

A stored value is `VSIZE` value bytes and the digests of the proof behind them.  `recordRoot` is
the root a stored record claims to be under; for a table that `BuildTable` wrote it is the root
of the tree over the records.
-/

namespace Elsm.Merkle

open List
open Elsm.FlatTree

def readDigest (bytes : Bytes) : Digest := ⟨copyBytes 16 bytes fun _ => 0, copyBytes_length _ _ _⟩

def storedProof (stored : Bytes) : List Digest :=
  (range TREE_HEIGHT).map fun i => readDigest (stored.drop (VSIZE + 16 * i))

/-- The root that the record at a position of a table folds to. -/
def recordRoot (mac : Mac) (position : Nat) (record : Record) : Digest :=
  foldProof mac position (mac (record.1.encode ++ record.2.take VSIZE)) (storedProof record.2)

/-- The leaves of the tree over a list of records.  Those without a record keep what the array held. -/
def leaves (mac : Mac) (heap : Nat → Digest) (entries : List Record) (p : Nat) : Digest :=
  match entries[p]? with
  | some record => leafTag mac record
  | none => heap p

def merkleRoot (mac : Mac) (heap : Nat → Digest) (entries : List Record) : Digest :=
  subtreeRoot (combine mac) (leaves mac heap entries) TREE_HEIGHT 0

theorem drop_flatten (proof : List Digest) (i : Nat) : (flatten proof).drop (16 * i) = flatten (proof.drop i) := by
  induction i generalizing proof with
  | zero => rfl
  | succ i ih =>
    cases proof with
    | nil => exact drop_nil
    | cons d rest =>
      have split : flatten (d :: rest) = d.1 ++ flatten rest := rfl
      have shift : 16 * (i + 1) = d.1.length + 16 * i := by rw [d.2]; ring
      rw [split, shift, drop_append, drop_succ_cons, ← ih rest]
      simp

theorem readDigest_append (d : Digest) (back : Bytes) : readDigest (d.1 ++ back) = d := by
  apply Subtype.ext
  apply ext_getElem
  · rw [d.2]
    exact copyBytes_length _ _ _
  · intro i small inFront
    simp [readDigest, copyBytes, getD_eq_getElem?_getD, getElem?_append_left inFront, getElem?_eq_getElem inFront]

theorem storedProof_append {val : Bytes} (len : val.length = VSIZE) {proof : List Digest}
    (full : proof.length = TREE_HEIGHT) : storedProof (val ++ flatten proof) = proof := by
  apply ext_getElem
  · simp [storedProof, full]
  intro i small inProof
  simp only [storedProof, getElem_map, getElem_range]
  have behind : (val ++ flatten proof).drop (VSIZE + 16 * i) = proof[i].1 ++ flatten (proof.drop (i + 1)) := by
    rw [← len, drop_append, drop_eq_nil_of_le (Nat.le_add_right _ _), nil_append,
      Nat.add_sub_cancel_left, drop_flatten, drop_eq_getElem_cons inProof]
    rfl
  rw [behind]
  exact readDigest_append proof[i] _

variable {es : List Record} {mac : Mac}

theorem leafLoop_fits {mp thr : Nat} {t t' : Tree}
    (run : leafLoop mac es mp thr t = some t') (room : thr + es.length ≤ FILE_RECORDS) :
    ∀ r ∈ es, FitsRecord r := by
  induction es generalizing mp thr t with
  | nil => simp
  | cons rcd rest ih =>
    obtain ⟨key, val⟩ := rcd
    rw [length_cons] at room
    rw [leafLoop, if_pos (by omega)] at run
    split at run
    case isTrue fits => exact forall_mem_cons.mpr ⟨fits, ih run (by omega)⟩
    case isFalse => cases run

variable {beyond : Nat → Nat → UInt8} {heap : Nat → Digest} {image : TableImage}

section

variable (built : buildTable mac heap beyond es = .file image) (room : es.length ≤ FILE_RECORDS)

include built room

theorem buildTable_fits : ∀ r ∈ es, FitsRecord r := by
  simp only [buildTable] at built
  split at built
  · cases built
  case h_2 run => exact leafLoop_fits run (by omega)

/-- A table that fits the tree holds the proofs and the root of the tree over its records. -/
theorem buildTable_tree :
    ∃ node, IsTree (combine mac) FILE_RECORDS node ∧ (∀ p < FILE_RECORDS, node p = leaves mac heap es p) ∧
      image.records = es.mapIdx (fun p r => (r.1, storedValue node beyond r.2 p)) ∧
      image.rh = node (2 * FILE_RECORDS - 2) ∧ image.rh = merkleRoot mac heap es := by
  obtain ⟨ne, _⟩ := buildTable_file built
  obtain ⟨node, image', run, tree, hashed, kept, isRecords, rh, _⟩ :=
    buildTable_spec mac heap beyond es ne room (buildTable_fits built room)
  have sameImage : image' = image := by
    rw [built] at run
    cases run
    rfl
  subst sameImage
  have leafOf : ∀ p < FILE_RECORDS, node p = leaves mac heap es p := by
    intro p bound
    rw [leaves]
    by_cases inside : p < es.length
    · rw [getElem?_eq_getElem inside]
      exact hashed p inside
    · rw [getElem?_eq_none (Nat.le_of_not_lt inside)]
      exact kept p (Nat.le_of_not_lt inside) bound
  have root := @IsTree.root_eq _ (combine mac) TREE_HEIGHT node (leaves mac heap es) tree leafOf
  refine ⟨node, tree, leafOf, isRecords, rh, ?_⟩
  rw [rh, merkleRoot, ← root]
  rfl

theorem buildTable_recordRoot (values : ∀ r ∈ es, r.2.length = VSIZE) {p : Nat} {rcd : Record}
    (at_p : image.records[p]? = some rcd) : recordRoot mac p rcd = merkleRoot mac heap es := by
  obtain ⟨node, tree, leafOf, isRecords, rh, root⟩ := buildTable_tree built room
  rw [isRecords, getElem?_mapIdx, Option.map_eq_some_iff] at at_p
  obtain ⟨r, isRecord, rfl⟩ := at_p
  obtain ⟨small, rfl⟩ := List.getElem?_eq_some_iff.mp isRecord
  have len := values es[p] (getElem_mem small)
  have hashed : node p = leafTag mac es[p] := by rw [leafOf p (by omega), leaves, isRecord]
  have stored : storedValue node beyond es[p].2 p = es[p].2 ++ flatten (siblings FILE_RECORDS node TREE_HEIGHT p) := by
    rw [storedValue, copyBytes_exact _ len]
  rw [← root, rh, recordRoot]
  simp only [stored]
  rw [storedProof_append len (siblings_length _ _ _ _), ← len, take_left,
    ← foldProof_siblings mac tree p (by omega), hashed]
  rfl

end

theorem recordRoot_const (tag : Digest) (position : Nat) (r : Record) : recordRoot (fun _ => tag) position r = tag := by
  have constant : ∀ (proof : List Digest) (i : Nat), climbBits (combine fun _ => tag) position i tag proof = tag := by
    intro proof
    induction proof with
    | nil => exact fun _ => rfl
    | cons d rest ih =>
      intro i
      rw [climbBits]
      split
      · exact ih (i + 1)
      · exact ih (i + 1)
  exact constant _ 0

theorem merkleRoot_const (tag : Digest) (heap : Nat → Digest) (es : List Record) :
    merkleRoot (fun _ => tag) heap es = tag := by
  have inner : ∀ (leaf : Nat → Digest) (height i : Nat),
      subtreeRoot (combine fun _ => tag) leaf (height + 1) i = tag := fun _ _ _ => rfl
  exact inner _ 14 0

end Elsm.Merkle
