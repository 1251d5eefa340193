import Elsm.Table.Writer

/-!
# The Bloom policy (`util/bloom.cpp`, `util/hash.cpp`)

A filter is an array of bits and the number of probes.  Making it and asking it walk the same positions, so a key that
was put in is found.  `bloom_keyMayMatch` carries this through the filter block.
-/

namespace Elsm

open List

/-! ## The code -/

/-- The loop of `Hash` over words, and the switch over the bytes that are left. -/
def hashLoop : Bytes → UInt32 → UInt32
  | a :: b :: c :: d :: rest, h =>
    let h := (h + UInt32.ofNat (decodeFixed32 [a, b, c, d])) * 0xc6a4a793
    hashLoop rest (h ^^^ (h >>> 16))
  | [], h => h
  | a :: rest, h =>
    let h := (h + ((rest.getD 1 0).toUInt32 <<< 16) + ((rest.getD 0 0).toUInt32 <<< 8) + a.toUInt32) * 0xc6a4a793
    h ^^^ (h >>> 24)

def hash (data : Bytes) (seed : UInt32) : UInt32 := hashLoop data (seed ^^^ (UInt32.ofNat data.length * 0xc6a4a793))

def bloomHash (key : Bytes) : UInt32 := hash key 0xbc9f1d34

/-- `k_`: below 44 bits the product with 0.69 is not near an integer, from there on the limit is reached. -/
def bloomProbes (bitsPerKey : Nat) : Nat := min 30 (max 1 (bitsPerKey * 69 / 100))

/-- The positions that the loops of `CreateFilter` and `KeyMayMatch` come to. -/
def probeLoop (bits : Nat) (delta : UInt32) : Nat → UInt32 → List Nat
  | 0, _ => []
  | k + 1, h => h.toNat % bits :: probeLoop bits delta k (h + delta)

def bitPositions (bits k : Nat) (key : Bytes) : List Nat :=
  let h := bloomHash key
  probeLoop bits ((h >>> 17) ||| (h <<< 15)) k h

def bitMask (bitpos : Nat) : UInt8 := 1 <<< UInt8.ofNat (bitpos % 8)

def setBit (array : Bytes) (bitpos : Nat) : Bytes := array.modify (bitpos / 8) (· ||| bitMask bitpos)

def bitIsSet (array : Bytes) (bitpos : Nat) : Bool := array.getD (bitpos / 8) 0 &&& bitMask bitpos != 0

def bloomFilterPolicy (bitsPerKey : Nat) : FilterPolicy where
  name := "leveldb.BuiltinBloomFilter2".toUTF8.toList
  createFilter keys :=
    let bytes := (max 64 (keys.length * bitsPerKey) + 7) / 8
    let k := bloomProbes bitsPerKey
    keys.foldl (fun array key => (bitPositions (bytes * 8) k key).foldl setBit array) (replicate bytes 0) ++
      [UInt8.ofNat k]
  keyMayMatch key filter :=
    let len := filter.length
    if len < 2 then false
    else
      let k := (filter.getD (len - 1) 0).toNat
      -- longer probe sequences are left to other encodings
      if 30 < k then true else (bitPositions ((len - 1) * 8) k key).all (bitIsSet filter)

/-! ## A filter matches its keys -/

section Bits

variable {array : Bytes} {p q : Nat}

@[simp] theorem setBit_length : (setBit array q).length = array.length := length_modify ..

theorem setBit_getD (ins : p / 8 < array.length) : (setBit array q).getD (p / 8) 0 =
    if q / 8 = p / 8 then array.getD (p / 8) 0 ||| bitMask q else array.getD (p / 8) 0 := by
  simp only [setBit, getD_eq_getElem?_getD, getElem?_modify, getElem?_eq_getElem ins]
  rfl

theorem or_and_mask (x m m' : UInt8) : (x ||| m') &&& m = (x &&& m) ||| (m' &&& m) :=
  UInt8.toBitVec_inj.mp BitVec.and_or_distrib_right

theorem bitMask_ne_zero (p : Nat) : bitMask p ≠ 0 := by
  have all : ∀ i : Fin 8, (1 : UInt8) <<< UInt8.ofNat i ≠ 0 := by decide
  exact all ⟨p % 8, Nat.mod_lt _ (by decide)⟩

/-- A position is set by its step of the walk, and no step clears it. -/
theorem bitIsSet_setBit (ins : p / 8 < array.length) (set : bitIsSet array p = true ∨ p = q) :
    bitIsSet (setBit array q) p = true := by
  rw [bitIsSet, setBit_getD ins]
  obtain set | rfl := set
  · rw [bitIsSet, bne_iff_ne] at set
    split
    · rw [or_and_mask, bne_iff_ne, ne_eq, UInt8.or_eq_zero_iff]
      exact fun cleared => set cleared.1
    · simpa using set
  · rw [if_pos rfl, or_and_mask, bne_iff_ne, ne_eq, UInt8.or_eq_zero_iff, UInt8.and_self]
    exact fun cleared => bitMask_ne_zero p cleared.2

theorem bitIsSet_foldl (positions : List Nat) (ins : p / 8 < array.length)
    (set : bitIsSet array p = true ∨ p ∈ positions) : bitIsSet (positions.foldl setBit array) p = true := by
  induction positions generalizing array with
  | nil => exact set.resolve_right nofun
  | cons q rest ih =>
    apply ih (by simpa using ins)
    obtain set | isHead | inR := set.imp_right mem_cons.mp
    · exact .inl (bitIsSet_setBit ins (.inl set))
    · exact .inl (bitIsSet_setBit ins (.inr isHead))
    · exact .inr inR

end Bits

theorem probeLoop_lt {bits : Nat} (pos : 0 < bits) (delta : UInt32) (k : Nat) (h : UInt32) :
    ∀ p ∈ probeLoop bits delta k h, p < bits := by
  induction k generalizing h with
  | zero => nofun
  | succ k ih => exact forall_mem_cons.mpr ⟨Nat.mod_lt _ pos, ih _⟩

section Create

variable {bytes : Nat} {positions : Bytes → List Nat} {key : Bytes}

theorem foldl_setBit_length (keys : List Bytes) (array : Bytes) :
    (keys.foldl (fun array key => (positions key).foldl setBit array) array).length = array.length := by
  have walk : ∀ (l : List Nat) (array : Bytes), (l.foldl setBit array).length = array.length := by
    intro l
    induction l with
    | nil => exact fun _ => rfl
    | cons q rest ih => exact fun array => (ih _).trans setBit_length
  induction keys generalizing array with
  | nil => rfl
  | cons key rest ih => exact (ih _).trans (walk _ _)

theorem bitIsSet_create (keys : List Bytes) {array : Bytes} {p : Nat} (ins : p / 8 < array.length)
    (set : bitIsSet array p = true ∨ ∃ key ∈ keys, p ∈ positions key) :
    bitIsSet (keys.foldl (fun array key => (positions key).foldl setBit array) array) p = true := by
  induction keys generalizing array with
  | nil => exact set.resolve_right (by simp)
  | cons key rest ih =>
    have len : ((positions key).foldl setBit array).length = array.length := foldl_setBit_length [key] array
    apply ih (len ▸ ins)
    obtain set | ⟨other, mem, isPosition⟩ := set
    · exact .inl (bitIsSet_foldl _ ins (.inl set))
    obtain rfl | inR := mem_cons.mp mem
    · exact .inl (bitIsSet_foldl _ ins (.inr isPosition))
    · exact .inr ⟨other, inR, isPosition⟩

end Create

theorem bloomFilterPolicy_sound (bitsPerKey : Nat) : (bloomFilterPolicy bitsPerKey).NoFalseNegatives := by
  intro keys key mem
  have fewProbes : bloomProbes bitsPerKey ≤ 30 := min_le_left ..
  simp only [bloomFilterPolicy]
  generalize isBytes : (max 64 (keys.length * bitsPerKey) + 7) / 8 = bytes
  have some_ : 8 ≤ bytes := by omega
  generalize bloomProbes bitsPerKey = k at fewProbes
  have len := @foldl_setBit_length (bitPositions (bytes * 8) k) keys (replicate bytes 0)
  have isSet := fun p => @bitIsSet_create (bitPositions (bytes * 8) k) keys (replicate bytes 0) p
  generalize keys.foldl _ _ = array at len isSet
  rw [length_replicate] at len isSet
  have isCount : ((array ++ [UInt8.ofNat k]).getD bytes 0).toNat = k := by
    rw [← len]
    simp
    omega
  rw [length_append, len, length_singleton, if_neg (by omega), Nat.add_sub_cancel, isCount,
    if_neg (by omega), all_eq_true]
  intro p isPosition
  have ins : p / 8 < bytes := Nat.div_lt_of_lt_mul (Nat.mul_comm .. ▸ probeLoop_lt (by omega) _ _ _ p isPosition)
  have set := isSet p ins (.inr ⟨key, mem, isPosition⟩)
  rw [bitIsSet, getD_append _ _ _ _ (len ▸ ins)]
  exact set

theorem internalFilterPolicy_sound {policy : FilterPolicy} (sound : policy.NoFalseNegatives) :
    (internalFilterPolicy policy).NoFalseNegatives :=
  fun _ _ mem => sound _ _ (mem_map_of_mem mem)

/-! ## Through the filter block -/

namespace FilterBlockBuilder

open Draft (Covers)

/-- What the table builder hands over: the offset where a data block starts, and its keys. -/
def addBlock (policy : FilterPolicy) (fb : FilterBlockBuilder) (block : Nat × List Bytes) : FilterBlockBuilder :=
  block.2.foldl (fun fb key => fb.addKey key) (fb.startBlock policy block.1)

def ofBlocks (policy : FilterPolicy) (blocks : List (Nat × List Bytes)) : FilterBlockBuilder :=
  blocks.foldl (addBlock policy) empty

variable {policy : FilterPolicy} {filters : List (List Bytes)} {pending : List Bytes}

theorem foldl_addKey (keys : List Bytes) : keys.foldl (fun fb key => fb.addKey key) (ofFilters policy filters pending) =
    ofFilters policy filters (pending ++ keys) := by
  induction keys generalizing pending with
  | nil => simp
  | cons key rest ih =>
    rw [foldl_cons, show (ofFilters policy filters pending).addKey key = ofFilters policy filters (pending ++ [key])
      from rfl, ih, append_assoc, singleton_append]

theorem ofBlocks_covers (blocks : List (Nat × List Bytes)) (ord : blocks.Pairwise (·.1 ≤ ·.1)) :
    ∃ filters pending, ofBlocks policy blocks = ofFilters policy filters pending ∧
      (∀ o, (∀ block ∈ blocks, block.1 ≤ o) → filters.length ≤ o / kFilterBase) ∧
      ∀ block ∈ blocks, ∀ key ∈ block.2, Covers filters pending block.1 key := by
  induction blocks using List.reverseRecOn with
  | nil => exact ⟨[], [], rfl, fun _ _ => Nat.zero_le _, nofun⟩
  | append_singleton blocks block ih =>
    obtain ⟨pre, -, notAfter⟩ := pairwise_append.mp ord
    obtain ⟨filters, pending, isBuilder, few, covers⟩ := ih pre
    have count := few block.1 fun other mem => notAfter other mem block (mem_singleton_self _)
    rw [ofBlocks, foldl_append, foldl_cons, foldl_nil, ← ofBlocks, isBuilder, addBlock,
      Draft.startBlock_ofFilters, foldl_addKey]
    have len := Draft.extend_length filters pending (block.1 / kFilterBase - filters.length)
    refine ⟨_, _, rfl, fun o last => ?_, forall_mem_append.mpr ⟨fun other mem key isKey => ?_, ?_⟩⟩
    · have later := Nat.div_le_div_right (c := kFilterBase) (last block (by simp))
      omega
    · exact ((covers other mem key isKey).extend _).addKey _
    rw [forall_mem_singleton]
    intro key isKey
    have isIndex : block.1 / kFilterBase = filters.length + (block.1 / kFilterBase - filters.length) := by omega
    rw [Covers]
    generalize block.1 / kFilterBase - filters.length = turns at *
    rw [isIndex, ← len, getElem?_concat_length]
    exact ⟨_, rfl, mem_append_right _ isKey⟩

end FilterBlockBuilder

/-- No key of a table is missed, with the policy as it is or on the user keys. -/
theorem bloom_keyMayMatch (bitsPerKey : Nat) (wrapped : Bool) {blocks : List (Nat × List Bytes)}
    (ordered : blocks.Pairwise (·.1 ≤ ·.1)) {policy : FilterPolicy}
    (isPolicy : policy = if wrapped then internalFilterPolicy (bloomFilterPolicy bitsPerKey)
      else bloomFilterPolicy bitsPerKey)
    (short : ((FilterBlockBuilder.ofBlocks policy blocks).finish policy).length < 2 ^ 32) :
    ∀ block ∈ blocks, ∀ key ∈ block.2,
      (FilterBlockReader.new ((FilterBlockBuilder.ofBlocks policy blocks).finish policy)).keyMayMatch policy
        block.1 key = true := by
  have sound : policy.NoFalseNegatives := by
    subst isPolicy
    cases wrapped with
    | false => exact bloomFilterPolicy_sound bitsPerKey
    | true => exact internalFilterPolicy_sound (bloomFilterPolicy_sound bitsPerKey)
  obtain ⟨filters, pending, isBuilder, -, covers⟩ := @FilterBlockBuilder.ofBlocks_covers policy blocks ordered
  intro block member key isKey
  obtain ⟨h, inFilter⟩ := (covers block member key isKey).allFilters
  rw [isBuilder] at short ⊢
  rw [FilterBlockBuilder.keyMayMatch_finish short h, FilterBlockBuilder.encodeFilter, if_neg (ne_nil_of_mem inFilter)]
  exact sound _ key inFilter

/-- Two blocks that share no filter. -/
theorem bloom_keyMayMatch_twoBlocks :
    (FilterBlockReader.new ((FilterBlockBuilder.ofBlocks (bloomFilterPolicy 10)
      [(0, [[1, 2], [3]]), (3000, [[4]])]).finish
      (bloomFilterPolicy 10))).keyMayMatch (bloomFilterPolicy 10) 3000 [4] = true :=
  bloom_keyMayMatch 10 false (by decide) rfl (by decide +kernel) (3000, [[4]]) (by decide) [4] (by decide)

end Elsm
