import Elsm.Merkle.BuildTable

/-! # Completeness of the stored Merkle proofs

The tree is written with level offsets kept by a running pair `previous`/`stride`;
proofs are read with `index -> index / 2 + FILE_RECORDS`.  Both walk the same
layout: with `q` inner nodes written so far, every level loop keeps
`previous = 2 * q`, `stride = FILE_RECORDS - q` and `mp = FILE_RECORDS + q`
(`levelLoop_isTree`), so node `FILE_RECORDS + q` always hashes the pair `2 * q`,
`2 * q + 1`, which is `FlatTree.IsTree`.
-/

namespace Elsm.Merkle

open List
open Elsm.FlatTree

theorem fileRecords_eq : FILE_RECORDS = 2 ^ TREE_HEIGHT := rfl

/-- The tag of a record as the leaf loop computes it. -/
def leafTag (mac : Mac) (record : Record) : Digest := mac (record.1.encode ++ record.2)

/-- The copy of key and value stays inside `char record[KSIZE+VSIZE+16]`. -/
def FitsRecord (record : Record) : Prop :=
  record.1.encode.length + record.2.length ≤ KSIZE + VSIZE + 16

instance (record : Record) : Decidable (FitsRecord record) := inferInstanceAs (Decidable (_ ≤ _))

/-! ## The leaf level -/

theorem Tree.write_node_self (t : Tree) (i : Nat) (d : Digest) : (t.write i d).node i = d := by
  simp [Tree.write]

theorem Tree.write_node_ne (t : Tree) {i k : Nat} (d : Digest) (h : k ≠ i) : (t.write i d).node k = t.node k := by
  simp [Tree.write, h]

theorem leafLoop_spec (mac : Mac) (es : List Record) (mp : Nat) (t : Tree)
    (room : mp + es.length ≤ FILE_RECORDS) (fits : ∀ r ∈ es, FitsRecord r) :
    ∃ t', leafLoop mac es mp mp t = some t' ∧ (∀ p (h : p < es.length), t'.node (mp + p) = leafTag mac es[p]) ∧
      (∀ i, i < mp ∨ mp + es.length ≤ i → t'.node i = t.node i) ∧
      (∀ i ∈ t'.touched, i ∈ t.touched ∨ i < FILE_RECORDS) := by
  induction es generalizing mp t with
  | nil =>
    refine ⟨t, rfl, ?_, fun i _ => rfl, fun i bound => .inl bound⟩
    intro p h
    cases h
  | cons rcd rest ih =>
    obtain ⟨key, val⟩ := rcd
    simp only [length_cons] at room
    have here : mp < FILE_RECORDS := by omega
    have head := fits (key, val) mem_cons_self
    obtain ⟨t', run, hashed, kept, touched⟩ := ih (mp + 1) (t.write mp (mac (key.encode ++ val)))
      (by omega) (fun r mem => fits r (mem_cons_of_mem _ mem))
    refine ⟨t', ?_, ?_, ?_, ?_⟩
    · simp only [leafLoop, if_pos here]
      rw [if_pos (show _ ≤ _ from head)]
      exact run
    · intro p h
      cases p with
      | zero =>
        rw [Nat.add_zero, kept mp (.inl (Nat.lt_succ_self _)), Tree.write_node_self]
        rfl
      | succ p =>
        have := hashed p (by simpa using h)
        rw [show mp + (p + 1) = mp + 1 + p by omega, this]
        rfl
    · intro i out
      simp only [length_cons] at out
      rw [kept i (by omega), Tree.write_node_ne _ _ (by omega)]
    · intro i bound
      rcases touched i bound with old | small
      · simp only [Tree.write, mem_cons] at old
        rcases old with rfl | old
        · exact .inr here
        · exact .inl old
      · exact .inr small

/-! ## The inner levels

`TreeUpTo mac leaves q t` is the invariant of both loops: the first `q` inner nodes
are in place. -/

def TreeUpTo (mac : Mac) (leaves q : Nat) (t : Tree) : Prop :=
  ∀ k, k < q → t.node (leaves + k) = combine mac (t.node (2 * k)) (t.node (2 * k + 1))

theorem hashPair_treeUpTo (mac : Mac) {leaves q : Nat} {t : Tree}
    (inv : TreeUpTo mac leaves q t) (room : q + 1 < leaves) :
    TreeUpTo mac leaves (q + 1) (t.hashPair mac (2 * q) (leaves + q)) := by
  intro k lt
  have left : 2 * k ≠ leaves + q := by omega
  have right : 2 * k + 1 ≠ leaves + q := by omega
  simp only [Tree.hashPair, Function.update_of_ne left, Function.update_of_ne right]
  by_cases last : k = q
  · subst last
    simp
  have other : leaves + k ≠ leaves + q := by omega
  rw [Function.update_of_ne other]
  exact inv k (by omega)

theorem hashPair_leaf (mac : Mac) {leaves q i k : Nat} (t : Tree) (leaf : i < leaves) :
    (t.hashPair mac k (leaves + q)).node i = t.node i := by
  have other : i ≠ leaves + q := by omega
  simp [Tree.hashPair, Function.update_of_ne other]

theorem pairLoop_spec (mac : Mac) (leaves previous stride : Nat) (count : Nat) :
    ∀ (j q : Nat) (t : Tree), j + 2 * count = stride → previous + j = 2 * q →
      q + count < leaves → TreeUpTo mac leaves q t →
      ∃ t', pairLoop mac previous stride j (leaves + q) t = (leaves + (q + count), t') ∧
        TreeUpTo mac leaves (q + count) t' ∧
        (∀ i < leaves, t'.node i = t.node i) ∧
        (∀ i ∈ t'.touched, i ∈ t.touched ∨ i < 2 * leaves) := by
  induction count with
  | zero =>
    intro j q t stop _ _ inv
    refine ⟨t, ?_, inv, fun i _ => rfl, fun i bound => .inl bound⟩
    rw [pairLoop, if_neg (by omega), Nat.add_zero]
  | succ count ih =>
    intro j q t stop position room inv
    obtain ⟨t', run, done, leaf, touched⟩ := ih (j + 2) (q + 1) (t.hashPair mac (2 * q) (leaves + q))
      (by omega) (by omega) (by omega) (hashPair_treeUpTo mac inv (by omega))
    refine ⟨t', ?_, ?_, ?_, ?_⟩
    · rw [pairLoop, if_pos (by omega), position]
      rw [show q + 1 + count = q + (count + 1) by omega] at run
      exact run
    · rw [show q + (count + 1) = q + 1 + count by omega]
      exact done
    · intro i bound
      rw [leaf i bound, hashPair_leaf mac t bound]
    intro i bound
    rcases touched i bound with old | small
    · simp only [Tree.hashPair, mem_cons] at old
      rcases old with rfl | rfl | rfl | old
      · exact .inr (by omega)
      · exact .inr (by omega)
      · exact .inr (by omega)
      · exact .inl old
    · exact .inr small

theorem levelLoop_spec (mac : Mac) (leaves levels : Nat) :
    ∀ (q : Nat) (t : Tree), q + 2 ^ levels = leaves → TreeUpTo mac leaves q t →
      TreeUpTo mac leaves (leaves - 1) (levelLoop mac levels (2 * q) (2 ^ levels) (leaves + q) t) ∧
      (∀ i < leaves, (levelLoop mac levels (2 * q) (2 ^ levels) (leaves + q) t).node i = t.node i) ∧
      (∀ i ∈ (levelLoop mac levels (2 * q) (2 ^ levels) (leaves + q) t).touched, i ∈ t.touched ∨ i < 2 * leaves) := by
  induction levels with
  | zero =>
    intro q t stride inv
    have last : leaves - 1 = q := by omega
    rw [last]
    exact ⟨inv, fun i _ => rfl, fun i bound => .inl bound⟩
  | succ levels ih =>
    intro q t stride inv
    have double : 2 ^ (levels + 1) = 2 * 2 ^ levels := pow_succ' 2 levels
    have pos : 0 < 2 ^ levels := Nat.two_pow_pos levels
    obtain ⟨t', run, done, leaf, touched⟩ := pairLoop_spec mac leaves (2 * q) (2 ^ (levels + 1))
      (2 ^ levels) 0 q t (by omega) (by omega) (by omega) inv
    have next := ih (q + 2 ^ levels) t' (by omega) done
    have unfolded : levelLoop mac (levels + 1) (2 * q) (2 ^ (levels + 1)) (leaves + q) t =
        levelLoop mac levels (2 * (q + 2 ^ levels)) (2 ^ levels) (leaves + (q + 2 ^ levels)) t' := by
      rw [levelLoop, run]
      rw [show 2 * q + 2 ^ (levels + 1) = 2 * (q + 2 ^ levels) by omega,
        show 2 ^ (levels + 1) / 2 = 2 ^ levels by omega]
    rw [unfolded]
    obtain ⟨tree, leaf', touched'⟩ := next
    refine ⟨tree, fun i bound => by rw [leaf' i bound, leaf i bound], ?_⟩
    intro i bound
    rcases touched' i bound with old | small
    · exact touched i old
    · exact .inr small

/-- After the two loops the array holds a tree over the leaves it held before. -/
theorem levelLoop_isTree (mac : Mac) (t : Tree) : IsTree (combine mac) FILE_RECORDS
      (levelLoop mac TREE_HEIGHT 0 FILE_RECORDS FILE_RECORDS t).node ∧
    (∀ i < FILE_RECORDS, (levelLoop mac TREE_HEIGHT 0 FILE_RECORDS FILE_RECORDS t).node i = t.node i) ∧
    (∀ i ∈ (levelLoop mac TREE_HEIGHT 0 FILE_RECORDS FILE_RECORDS t).touched,
      i ∈ t.touched ∨ i < 2 * FILE_RECORDS) := by
  have start : TreeUpTo mac FILE_RECORDS 0 t := fun k lt => absurd lt (Nat.not_lt_zero k)
  have spec := levelLoop_spec mac FILE_RECORDS TREE_HEIGHT 0 t (by rw [fileRecords_eq, Nat.zero_add]) start
  rw [← fileRecords_eq, Nat.mul_zero, Nat.add_zero] at spec
  obtain ⟨tree, leaf, touched⟩ := spec
  exact ⟨fun q below => tree q (by omega), leaf, touched⟩

/-! ## The proofs -/

theorem proofLoop_node (levels index : Nat) (t : Tree) : (proofLoop levels index t).2.node = t.node := by
  induction levels generalizing index t with
  | zero => rfl
  | succ levels ih => simp only [proofLoop, ih]

theorem proofLoop_siblings (levels index : Nat) (t : Tree) :
    (proofLoop levels index t).1 = siblings FILE_RECORDS t.node levels index := by
  induction levels generalizing index t with
  | zero => rfl
  | succ levels ih => simp only [proofLoop, ih, siblings, sibling, parent]

theorem proofLoop_touched (levels index : Nat) (t : Tree)
    (bounds : ∀ below < levels, ancestor FILE_RECORDS below index / 2 + 1 < FILE_RECORDS) :
    ∀ i ∈ (proofLoop levels index t).2.touched, i ∈ t.touched ∨ i < 2 * FILE_RECORDS := by
  induction levels generalizing index t with
  | zero => exact fun i bound => .inl bound
  | succ levels ih =>
    intro i bound
    have above : ∀ below < levels, ancestor FILE_RECORDS below (index / 2 + FILE_RECORDS) / 2 + 1 < FILE_RECORDS :=
      fun below lt => bounds (below + 1) (by omega)
    simp only [proofLoop] at bound
    rcases ih _ _ above i bound with old | small
    · simp only [mem_cons] at old
      rcases old with rfl | old
      · have here : index / 2 + 1 < FILE_RECORDS := bounds 0 (Nat.succ_pos _)
        refine .inr ?_
        split <;> omega
      · exact .inl old
    · exact .inr small

theorem addLoop_node (beyond : Nat → Nat → UInt8) (es : List Record) (ppos : Nat) (t : Tree) :
    (addLoop beyond es ppos t).2.node = t.node := by
  induction es generalizing ppos t with
  | nil => rfl
  | cons r rest ih =>
    obtain ⟨key, val⟩ := r
    simp only [addLoop, ih, proofLoop_node]

/-- The value `BuildTable` stores for the record at position `p`. -/
def storedValue (node : Nat → Digest) (beyond : Nat → Nat → UInt8) (value : Bytes) (p : Nat) : Bytes :=
  copyBytes VSIZE value (beyond p) ++ flatten (siblings FILE_RECORDS node TREE_HEIGHT p)

theorem flatten_length (proof : List Digest) : (flatten proof).length = 16 * proof.length := by
  induction proof with
  | nil => rfl
  | cons d rest ih =>
    have split : flatten (d :: rest) = d.1 ++ flatten rest := rfl
    rw [split, length_append, ih, d.2, length_cons]
    ring

theorem addLoop_records (beyond : Nat → Nat → UInt8) (es : List Record) (ppos : Nat) (t : Tree) :
    (addLoop beyond es ppos t).1 = es.mapIdx fun p r => (r.1, storedValue t.node beyond r.2 (ppos + p)) := by
  induction es generalizing ppos t with
  | nil => rfl
  | cons r rest ih =>
    obtain ⟨key, val⟩ := r
    simp only [addLoop, ih, mapIdx_cons, proofLoop_node, proofLoop_siblings, storedValue, Nat.add_zero]
    simp only [show ∀ p, ppos + 1 + p = ppos + (p + 1) from fun p => by omega]

theorem addLoop_touched (beyond : Nat → Nat → UInt8) (es : List Record) (ppos : Nat) (t : Tree)
    (room : ppos + es.length ≤ FILE_RECORDS) :
    ∀ i ∈ (addLoop beyond es ppos t).2.touched, i ∈ t.touched ∨ i < 2 * FILE_RECORDS := by
  induction es generalizing ppos t with
  | nil => exact fun i bound => .inl bound
  | cons r rest ih =>
    obtain ⟨key, val⟩ := r
    simp only [length_cons] at room
    intro i bound
    simp only [addLoop] at bound
    rcases ih (ppos + 1) _ (by omega) i bound with old | small
    · refine proofLoop_touched TREE_HEIGHT ppos t ?_ i old
      intro below lt
      exact ancestor_lt TREE_HEIGHT below ppos lt (by rw [← fileRecords_eq]; omega)
    · exact .inr small

@[simp] theorem copyBytes_length (n : Nat) (src : Bytes) (beyond : Nat → UInt8) :
    (copyBytes n src beyond).length = n := by
  simp [copyBytes]

theorem storedValue_length (node : Nat → Digest) (beyond : Nat → Nat → UInt8) (val : Bytes) (p : Nat) :
    (storedValue node beyond val p).length = 352 := by
  simp [storedValue, flatten_length, siblings_length, VSIZE, TREE_HEIGHT]

theorem copyBytes_exact {n : Nat} {src : Bytes} (beyond : Nat → UInt8) (len : src.length = n) :
    copyBytes n src beyond = src := by
  apply ext_getElem
  · simp [len]
  · intro i h₁ h₂
    simp [copyBytes, getD_eq_getElem?_getD, getElem?_eq_getElem h₂]

/-- `BuildTable` in one equation: a tree whose leaves are the record tags, and every
record stored with the siblings of its position. -/
theorem buildTable_spec (mac : Mac) (heap : Nat → Digest) (beyond : Nat → Nat → UInt8)
    (es : List Record) (ne : es ≠ []) (room : es.length ≤ FILE_RECORDS) (fits : ∀ r ∈ es, FitsRecord r) :
    ∃ node image, buildTable mac heap beyond es = .file image ∧ IsTree (combine mac) FILE_RECORDS node ∧
      (∀ p (h : p < es.length), node p = leafTag mac es[p]) ∧
      (∀ p, es.length ≤ p → p < FILE_RECORDS → node p = heap p) ∧
      image.records = es.mapIdx (fun p r => (r.1, storedValue node beyond r.2 p)) ∧
      image.rh = node (2 * FILE_RECORDS - 2) ∧
      (∀ i ∈ image.touched, i < 2 * FILE_RECORDS) := by
  obtain ⟨leaves, run, hashed, kept, leafTouched⟩ := leafLoop_spec mac es 0 ⟨heap, []⟩ (by omega) fits
  obtain ⟨tree, leaf, treeTouched⟩ := levelLoop_isTree mac leaves
  obtain ⟨first, rest, rfl⟩ := exists_cons_of_ne_nil ne
  refine ⟨_, _, by simp only [buildTable, run]; rfl, tree, ?_, ?_, ?_, ?_, ?_⟩
  · intro p h
    rw [leaf p (by omega)]
    simpa using hashed p h
  · intro p h small
    rw [leaf p small, kept p (.inr (by omega))]
  · rw [addLoop_records]
    simp
  · rw [addLoop_node]
  intro i bound
  simp only [mem_cons] at bound
  rcases bound with rfl | bound
  · decide
  rcases addLoop_touched beyond (first :: rest) 0 _ (by omega) i bound with old | small
  · rcases treeTouched i old with leafy | small
    · rcases leafTouched i leafy with none | small
      · cases none
      · exact Nat.lt_of_lt_of_le small (by omega)
    · exact small
  · exact small

variable {beyond : Nat → Nat → UInt8} {heap : Nat → Digest} {es : List Record}

section

variable {mac : Mac} {image : TableImage} (built : buildTable mac heap beyond es = .file image)

include built

/-- Whatever its size, a table that is built holds the keys of the memtable in order, each with
a stored value. -/
theorem buildTable_file :
    es ≠ [] ∧ ∃ node, image.records = es.mapIdx fun p r => (r.1, storedValue node beyond r.2 p) := by
  simp only [buildTable] at built
  split at built
  · cases built
  case h_2 leaves _ =>
    cases es with
    | nil => cases built
    | cons first rest =>
      cases built
      refine ⟨by simp, (levelLoop mac TREE_HEIGHT 0 FILE_RECORDS FILE_RECORDS leaves).node, ?_⟩
      rw [addLoop_records]
      simp

theorem buildTable_keys : image.records.map Prod.fst = es.map Prod.fst := by
  obtain ⟨_, node, isRecords⟩ := buildTable_file built
  rw [isRecords]
  apply ext_getElem?
  intro p
  simp only [getElem?_map, getElem?_mapIdx]
  cases es[p]? <;> rfl

end

theorem buildTable_noFile {mac : Mac} (built : buildTable mac heap beyond es = .noFile) : es = [] := by
  simp only [buildTable] at built
  split at built
  · cases built
  cases es with
  | nil => rfl
  | cons first rest => cases built

/-! ## Verification -/

/-- The verifier's fold: `MAC(h || d)` where the bit of the position is clear,
`MAC(d || h)` where it is set. -/
abbrev foldProof (mac : Mac) (position : Nat) (tag : Digest) (proof : List Digest) : Digest :=
  climbBits (combine mac) position 0 tag proof

theorem foldProof_siblings (mac : Mac) {node : Nat → Digest}
    (tree : IsTree (combine mac) FILE_RECORDS node) (p : Nat) (leaf : p < FILE_RECORDS) :
    foldProof mac p (node p) (siblings FILE_RECORDS node TREE_HEIGHT p) = node (2 * FILE_RECORDS - 2) := by
  have arrive := climb_siblings tree TREE_HEIGHT p (fun below lt => ancestor_lt TREE_HEIGHT below p lt leaf)
  have bits := climb_eq_climbBits (combine mac) TREE_HEIGHT p (node p)
    (siblings FILE_RECORDS node TREE_HEIGHT p) 0 (by rw [siblings_length]; omega)
  have top : ancestor FILE_RECORDS TREE_HEIGHT p = 2 * FILE_RECORDS - 2 := by
    rw [fileRecords_eq, ancestor_eq TREE_HEIGHT TREE_HEIGHT p le_rfl,
      Nat.div_eq_of_lt (by rw [← fileRecords_eq]; exact leaf)]
    rfl
  rw [foldProof, ← bits, ← top]
  exact arrive

/-- Every stored record carries its value and a proof that folds to `meta->rh`, and no
node outside the array is touched. -/
theorem buildTable_proofs_complete (mac : Mac) (heap : Nat → Digest) (beyond : Nat → Nat → UInt8)
    (entries : List Record) (nonempty : entries ≠ []) (room : entries.length ≤ FILE_RECORDS)
    (keys : ∀ r ∈ entries, r.1.userKey.length = 8) (values : ∀ r ∈ entries, r.2.length = 112) :
    ∃ image, buildTable mac heap beyond entries = .file image ∧ image.records.length = entries.length ∧
      (∀ p (h : p < entries.length), ∃ proof : List Digest, proof.length = 15 ∧
        image.records[p]? = some (entries[p].1, entries[p].2 ++ flatten proof) ∧
        foldProof mac p (mac (entries[p].1.encode ++ entries[p].2)) proof = image.rh) ∧
      (∀ i ∈ image.touched, i < 2 * FILE_RECORDS) := by
  have fits : ∀ r ∈ entries, FitsRecord r := by
    intro r mem
    simp [FitsRecord, keys r mem, values r mem, KSIZE, VSIZE]
  obtain ⟨node, image, run, tree, hashed, _, records, root, touched⟩ :=
    buildTable_spec mac heap beyond entries nonempty room fits
  refine ⟨image, run, by simp [records], ?_, touched⟩
  intro p h
  refine ⟨siblings FILE_RECORDS node TREE_HEIGHT p, siblings_length _ _ _ _, ?_, ?_⟩
  · have length : entries[p].2.length = VSIZE := values _ (getElem_mem h)
    rw [records, getElem?_mapIdx, getElem?_eq_getElem h]
    simp [storedValue, copyBytes_exact _ length]
  · rw [root, ← foldProof_siblings mac tree p (by omega), hashed p h]
    rfl

/-- A tag that keeps the first sixteen bytes of the message, for concrete runs. -/
def truncatingMac : Mac := fun message => ⟨(message ++ replicate 16 0).take 16, by simp⟩

def threeRecords : List Record :=
  [97, 98, 99].map fun c => (.make (replicate 8 c) c.toNat .value, replicate 112 c)

/-- The position of the second record has its lowest bit set, so that the first sibling is hashed from the left. -/
theorem buildTable_proofs_complete_three : ∃ image sibling rest,
    buildTable truncatingMac (fun _ => zeroDigest) (fun _ _ => 0) threeRecords = .file image ∧
      image.records.length = 3 ∧
      image.records[1]? = some (.make (replicate 8 98) 98 .value,
        replicate 112 98 ++ flatten (sibling :: rest)) ∧
      climbBits (combine truncatingMac) 1 1 (combine truncatingMac sibling (leafTag truncatingMac threeRecords[1]))
        rest =
        image.rh ∧ ∀ i ∈ image.touched, i < 2 * FILE_RECORDS := by
  obtain ⟨image, run, length, proofs, touched⟩ := buildTable_proofs_complete truncatingMac (fun _ => zeroDigest)
    (fun _ _ => 0) threeRecords (by simp [threeRecords]) (by decide) (by decide) (by decide)
  obtain ⟨proof, isLong, stored, folds⟩ := proofs 1 (by decide)
  cases proof with
  | nil => cases isLong
  | cons sibling rest => exact ⟨image, sibling, rest, run, length, stored, folds, touched⟩

end Elsm.Merkle
