import Mathlib.Data.Set.Function
import Elsm.Format.Coding
import Elsm.Merkle.Verify

/-!
# What a root says about the records (`db/builder.cpp`)

The comment in `BuildTable` has the tree padded with all-zero records.  Nothing writes that
padding: leaves without a record keep what the heap held, so the root is a function of the
records only when they fill the tree (`buildTable_padded_iff`).

With the padding in place, equal roots mean equal messages leaf by leaf, as long as the tag
does not collide on the messages hashed.  A message is key and value one after the other with
no lengths, so records of the same key lengths are bound (`buildTable_binds`) and others are not.
-/

namespace Elsm.Merkle

open List
open Elsm.FlatTree

/-! ## The padding -/

/-- The tree the comment describes: every leaf without a record is that of `zeroRecord`. -/
structure Padded (mac : Mac) (zeroRecord : Bytes) (beyond : Nat → Nat → UInt8) (entries : List Record)
    (image : TableImage) : Prop where
  rh : image.rh = merkleRoot mac (fun _ => mac zeroRecord) entries
  proofs : ∃ node, IsTree (combine mac) FILE_RECORDS node ∧
    (∀ p < FILE_RECORDS, node p = leaves mac (fun _ => mac zeroRecord) entries p) ∧
    image.records = entries.mapIdx fun p r => (r.1, storedValue node beyond r.2 p)

/-- What a run leaves behind: the stored records and `meta->rh`. -/
def BuildResult.stored : BuildResult → Option (List Record × Digest)
  | .file image => some (image.records, image.rh)
  | _ => none

/-- The result of `BuildTable` does not depend on the heap, and is that of the padded tree. -/
structure RootOfRecords (zeroRecord : Bytes) (entries : List Record) : Prop where
  padded : ∀ mac heap beyond, match buildTable mac heap beyond entries with
    | .overrun => False
    | .noFile => entries = []
    | .file image => Padded mac zeroRecord beyond entries image
  twoRuns : ∀ mac heap heap' beyond,
    (buildTable mac heap beyond entries).stored = (buildTable mac heap' beyond entries).stored

variable {es : List Record}

theorem leaves_of_full {mac : Mac} (full : es.length = FILE_RECORDS)
    (heap heap' : Nat → Digest) (p : Nat) (bound : p < FILE_RECORDS) :
    leaves mac heap es p = leaves mac heap' es p := by
  rw [leaves, leaves, getElem?_eq_getElem (by omega)]

theorem buildTable_exists (ne : es ≠ []) (room : es.length ≤ FILE_RECORDS) (fits : ∀ r ∈ es, FitsRecord r) (mac : Mac)
    (heap : Nat → Digest) (beyond : Nat → Nat → UInt8) : ∃ image, buildTable mac heap beyond es = .file image := by
  obtain ⟨_, image, built, _⟩ := buildTable_spec mac heap beyond es ne room fits
  exact ⟨image, built⟩

theorem rootOfRecords_full (full : es.length = FILE_RECORDS)
    (fits : ∀ r ∈ es, FitsRecord r) (zeroRecord : Bytes) : RootOfRecords zeroRecord es := by
  have ne : es ≠ [] := by
    rintro rfl
    cases full
  constructor
  · intro mac heap beyond
    obtain ⟨image, built⟩ := buildTable_exists ne full.le fits mac heap beyond
    obtain ⟨node, tree, leafOf, isRecords, rh, -⟩ := buildTable_tree built full.le
    have padding := fun p bound => (leafOf p bound).trans (leaves_of_full full heap (fun _ => mac zeroRecord) p bound)
    rw [built]
    refine ⟨?_, node, tree, padding, isRecords⟩
    rw [rh]
    exact @IsTree.root_eq _ (combine mac) TREE_HEIGHT node _ tree padding
  · intro mac heap heap' beyond
    obtain ⟨image, built⟩ := buildTable_exists ne full.le fits mac heap beyond
    obtain ⟨image', built'⟩ := buildTable_exists ne full.le fits mac heap' beyond
    obtain ⟨node, tree, leafOf, isRecords, rh, -⟩ := buildTable_tree built full.le
    obtain ⟨node', tree', leafOf', isRecords', rh', -⟩ := buildTable_tree built' full.le
    have eq := tree.node_congr tree' fun p bound =>
      (leafOf p bound).trans ((leaves_of_full full heap heap' p bound).trans (leafOf' p bound).symm)
    have sameRecords : image.records = image'.records := by
      rw [isRecords, isRecords']
      refine mapIdx_eq_mapIdx_iff.mpr fun p small => ?_
      rw [storedValue, storedValue, siblings_congr eq TREE_HEIGHT p fun below lt =>
        ancestor_lt TREE_HEIGHT below p lt (by rw [← fileRecords_eq]; omega)]
    have sameRoot : image.rh = image'.rh := by
      rw [rh, rh', eq _ (by decide)]
    rw [built, built', BuildResult.stored, BuildResult.stored, sameRecords, sameRoot]

/-! ## A tag that shows the last leaf -/

def lastMac : Mac := fun message =>
  ⟨(replicate 16 0 ++ message).drop message.length, by
    rw [length_drop, length_append, length_replicate, Nat.add_sub_cancel]⟩

theorem combine_lastMac (left right : Digest) : combine lastMac left right = right := by
  apply Subtype.ext
  have split : replicate 16 (0 : UInt8) ++ (left.1 ++ right.1) =
      (replicate 16 0 ++ left.1) ++ right.1 := (append_assoc _ _ _).symm
  have front : (replicate 16 (0 : UInt8) ++ left.1).length = (left.1 ++ right.1).length := by
    simp [left.2, right.2]
  change (replicate 16 0 ++ (left.1 ++ right.1)).drop (left.1 ++ right.1).length = right.1
  rw [split, ← front, drop_left]

theorem subtreeRoot_lastMac (leaf : Nat → Digest) (height i : Nat) :
    subtreeRoot (combine lastMac) leaf height i = leaf (2 ^ height * (i + 1) - 1) := by
  induction height generalizing i with
  | zero => simp [subtreeRoot]
  | succ height ih =>
    rw [subtreeRoot, combine_lastMac, ih]
    congr 2
    ring

theorem merkleRoot_lastMac (short : es.length < FILE_RECORDS) (heap : Nat → Digest) :
    merkleRoot lastMac heap es = heap (FILE_RECORDS - 1) := by
  have last : leaves lastMac heap es (FILE_RECORDS - 1) = heap (FILE_RECORDS - 1) := by
    rw [leaves, getElem?_eq_none (by omega)]
  rw [merkleRoot, subtreeRoot_lastMac, ← last]
  rfl

def filledDigest : Digest := ⟨replicate 16 1, rfl⟩

/-- The root is a function of the records exactly when there is nothing to pad: no record at
all, and no file, or as many as the tree has leaves. -/
theorem buildTable_padded_iff (zeroRecord : Bytes) (entries : List Record) (room : entries.length ≤ FILE_RECORDS) :
    RootOfRecords zeroRecord entries ↔
      entries = [] ∨ (entries.length = FILE_RECORDS ∧ ∀ r ∈ entries, FitsRecord r) := by
  constructor
  · rintro ⟨padded, twoRuns⟩
    by_cases empty : entries = []
    · exact .inl empty
    have built : ∀ heap, ∃ image, buildTable lastMac heap (fun _ _ => 0) entries = .file image := by
      intro heap
      have here := padded lastMac heap fun _ _ => 0
      cases result : buildTable lastMac heap (fun _ _ => 0) entries with
      | overrun => rw [result] at here; exact here.elim
      | noFile => rw [result] at here; exact absurd here empty
      | file image => exact ⟨image, rfl⟩
    obtain ⟨zeros, builtZeros⟩ := built fun _ => zeroDigest
    obtain ⟨ones, builtOnes⟩ := built fun _ => filledDigest
    refine .inr ⟨Nat.le_antisymm room ?_, buildTable_fits builtZeros room⟩
    by_contra short
    obtain ⟨_, _, _, _, _, rootZeros⟩ := buildTable_tree builtZeros room
    obtain ⟨_, _, _, _, _, rootOnes⟩ := buildTable_tree builtOnes room
    rw [merkleRoot_lastMac (by omega)] at rootZeros rootOnes
    have same := twoRuns lastMac (fun _ => zeroDigest) (fun _ => filledDigest) fun _ _ => 0
    rw [builtZeros, builtOnes, BuildResult.stored, BuildResult.stored, rootZeros, rootOnes] at same
    have sameTag : zeroDigest = filledDigest := congrArg Prod.snd (Option.some.inj same)
    exact absurd sameTag (by decide)
  · rintro (rfl | ⟨full, fits⟩)
    · exact ⟨fun _ _ _ => rfl, fun _ _ _ _ => rfl⟩
    · exact rootOfRecords_full full fits zeroRecord

def sampleRecord : Record := (.make (replicate 8 97) 1 .value, replicate 112 118)

theorem buildTable_padded_iff_full : RootOfRecords (replicate 128 0) (replicate FILE_RECORDS sampleRecord) :=
  (buildTable_padded_iff _ _ (by rw [length_replicate])).mpr
    (.inr ⟨length_replicate, fun r isRecord => by rw [eq_of_mem_replicate isRecord]; decide⟩)

/-- One record and two heaps: the roots are the bytes the heaps held. -/
theorem buildTable_root_of_heap :
    ∃ zeros ones, buildTable lastMac (fun _ => zeroDigest) (fun _ _ => 0) [sampleRecord] = .file zeros ∧
      buildTable lastMac (fun _ => filledDigest) (fun _ _ => 0) [sampleRecord] = .file ones ∧
      zeros.rh = zeroDigest ∧ ones.rh = filledDigest ∧ zeros.rh ≠ ones.rh := by
  have built : ∀ heap, ∃ image, buildTable lastMac heap (fun _ _ => 0) [sampleRecord] = .file image :=
    fun heap => buildTable_exists (by simp) (by decide) (by decide) lastMac heap _
  obtain ⟨zeros, builtZeros⟩ := built fun _ => zeroDigest
  obtain ⟨ones, builtOnes⟩ := built fun _ => filledDigest
  obtain ⟨_, _, _, _, _, rootZeros⟩ := buildTable_tree builtZeros (by decide)
  obtain ⟨_, _, _, _, _, rootOnes⟩ := buildTable_tree builtOnes (by decide)
  rw [merkleRoot_lastMac (by decide)] at rootZeros rootOnes
  refine ⟨zeros, ones, builtZeros, builtOnes, rootZeros, rootOnes, ?_⟩
  rw [rootZeros, rootOnes]
  decide

/-! ## What the root binds -/

/-- The message whose tag a leaf of the padded tree holds. -/
def leafMessage (zeroRecord : Bytes) (entries : List Record) (p : Nat) : Bytes :=
  match entries[p]? with
  | some record => record.1.encode ++ record.2
  | none => zeroRecord

def hashedMessages (mac : Mac) (zeroRecord : Bytes) (entries : List Record) : Set Bytes :=
  { m | ∃ p, m = leafMessage zeroRecord entries p } ∪
  { m | ∃ level rest i, level + rest + 1 = TREE_HEIGHT ∧ i < 2 ^ rest ∧
    m = (subtreeRoot (combine mac) (leaves mac (fun _ => mac zeroRecord) entries) level (2 * i)).1 ++
      (subtreeRoot (combine mac) (leaves mac (fun _ => mac zeroRecord) entries) level (2 * i + 1)).1 }

theorem leaves_eq_mac (mac : Mac) (zeroRecord : Bytes) (es : List Record) (p : Nat) :
    leaves mac (fun _ => mac zeroRecord) es p = mac (leafMessage zeroRecord es p) := by
  rw [leaves, leafMessage]
  cases es[p]? <;> rfl

theorem Digest.append_inj {left right left' right' : Digest} (eq : left.1 ++ right.1 = left'.1 ++ right'.1) :
    left = left' ∧ right = right' := by
  obtain ⟨sameLeft, sameRight⟩ := List.append_inj eq (by rw [left.2, left'.2])
  exact ⟨Subtype.ext sameLeft, Subtype.ext sameRight⟩

variable {zeroRecord : Bytes}

/-- Without collisions equal roots come from equal messages, leaf by leaf. -/
theorem leafMessage_eq_of_root_eq {mac : Mac} {first snd : List Record}
    (collisionFree : Set.InjOn mac (hashedMessages mac zeroRecord first ∪ hashedMessages mac zeroRecord snd))
    (eq : merkleRoot mac (fun _ => mac zeroRecord) first = merkleRoot mac (fun _ => mac zeroRecord) snd)
    (p : Nat) (bound : p < FILE_RECORDS) :
    leafMessage zeroRecord first p = leafMessage zeroRecord snd p := by
  have sameLeaf := leaf_eq_of_subtreeRoot_eq TREE_HEIGHT (fun l rest i isLevel inLevel sameParent => Digest.append_inj
      (collisionFree (.inl (.inr ⟨l, rest, i, isLevel, inLevel, rfl⟩))
        (.inr (.inr ⟨l, rest, i, isLevel, inLevel, rfl⟩)) sameParent)) eq p bound
  rw [leaves_eq_mac, leaves_eq_mac] at sameLeaf
  exact collisionFree (.inl (.inl ⟨p, rfl⟩)) (.inr (.inl ⟨p, rfl⟩)) sameLeaf

/-- Key and value are recovered from their message when the length of the key is known. -/
theorem record_eq_of_message_eq {r r' : Record} (len : r.1.userKey.length = r'.1.userKey.length)
    (tag : r.1.tag < 2 ^ 64) (tag' : r'.1.tag < 2 ^ 64) (eq : r.1.encode ++ r.2 = r'.1.encode ++ r'.2) : r = r' := by
  obtain ⟨eqKey, sameValue⟩ := append_inj eq (by simp [len])
  obtain ⟨sameUser, sameTag⟩ := append_inj eqKey len
  have tags : r.1.tag = r'.1.tag := by
    rw [← decodeFixed64_encodeFixed64 tag, ← decodeFixed64_encodeFixed64 tag', sameTag]
  obtain ⟨⟨user, t⟩, val⟩ := r
  obtain ⟨⟨user', t'⟩, val'⟩ := r'
  cases sameUser
  cases sameValue
  cases tags
  rfl

/-- With the padding in place the root binds the records, as far as the key lengths are fixed
and no record looks like the padding. -/
theorem buildTable_binds (mac : Mac) (zeroRecord : Bytes) (beyond : Nat → Nat → UInt8) (first second : List Record)
    (nonempty : first ≠ [] ∧ second ≠ []) (room : first.length ≤ FILE_RECORDS ∧ second.length ≤ FILE_RECORDS)
    (fits : ∀ r ∈ first ++ second, FitsRecord r) (tags : ∀ r ∈ first ++ second, r.1.tag < 2 ^ 64)
    (collisionFree : Set.InjOn mac (hashedMessages mac zeroRecord first ∪ hashedMessages mac zeroRecord second))
    (notPadding : ∀ r ∈ first ++ second, r.1.encode ++ r.2 ≠ zeroRecord)
    (keyLengths : ∀ (p : Nat) (r r' : Record), first[p]? = some r → second[p]? = some r' →
      r.1.userKey.length = r'.1.userKey.length) :
    ∃ image image', buildTable mac (fun _ => mac zeroRecord) beyond first = .file image ∧
      buildTable mac (fun _ => mac zeroRecord) beyond second = .file image' ∧
      (image.rh = image'.rh ↔ first = second) := by
  obtain ⟨image, built⟩ := buildTable_exists nonempty.1 room.1 (fun r inFirst => fits r (by simp [inFirst])) mac
    (fun _ => mac zeroRecord) beyond
  obtain ⟨image', built'⟩ := buildTable_exists nonempty.2 room.2 (fun r inSecond => fits r (by simp [inSecond])) mac
    (fun _ => mac zeroRecord) beyond
  obtain ⟨_, _, _, _, _, root⟩ := buildTable_tree built room.1
  obtain ⟨_, _, _, _, _, root'⟩ := buildTable_tree built' room.2
  refine ⟨image, image', built, built', ?_⟩
  rw [root, root']
  constructor
  · intro same
    apply ext_getElem?
    intro p
    by_cases bound : p < FILE_RECORDS
    · have sameMessage := leafMessage_eq_of_root_eq collisionFree same p bound
      simp only [leafMessage] at sameMessage
      cases inFirst : first[p]? with
      | none =>
        cases inSecond : second[p]? with
        | none => rfl
        | some r' =>
          have member := mem_of_getElem? inSecond
          rw [inFirst, inSecond] at sameMessage
          exact absurd sameMessage.symm (notPadding r' (by simp [member]))
      | some r =>
        have member := mem_of_getElem? inFirst
        cases inSecond : second[p]? with
        | none =>
          rw [inFirst, inSecond] at sameMessage
          exact absurd sameMessage (notPadding r (by simp [member]))
        | some r' =>
          have member' := mem_of_getElem? inSecond
          rw [inFirst, inSecond] at sameMessage
          rw [record_eq_of_message_eq (keyLengths p r r' inFirst inSecond) (tags r (by simp [member]))
            (tags r' (by simp [member'])) sameMessage]
    · rw [getElem?_eq_none (by omega), getElem?_eq_none (by omega)]
  · rintro rfl
    rfl

/-! ## A tag without collisions on small tables -/

/-- A digest that names a level of the tree and a code. -/
def levelDigest (level code : UInt8) : Digest := ⟨level :: code :: replicate 14 0, rfl⟩

/-- Two digests of one level give the digest of the next with the left code; any other message
gives its first byte as a code of level 0. -/
def levelMac : Mac := fun message =>
  if message.length = 32 then levelDigest (message.headD 0 + 1) (message.getD 1 0)
  else levelDigest 0 (message.headD 0)

theorem levelDigest_inj {l code l' code' : UInt8} (eq : levelDigest l code = levelDigest l' code') :
    l = l' ∧ code = code' := by
  have sameBytes := congrArg Subtype.val eq
  simp only [levelDigest, List.cons.injEq] at sameBytes
  exact ⟨sameBytes.1, sameBytes.2.1⟩

theorem combine_levelMac (l code code' : UInt8) :
    combine levelMac (levelDigest l code) (levelDigest l code') = levelDigest (l + 1) code := rfl

/-- Over one record all nodes but those on the leftmost path belong to the padding. -/
theorem subtreeRoot_levelMac {r : Record} {code : UInt8} (isCode : levelMac (r.1.encode ++ r.2) = levelDigest 0 code)
    (zeroCode : levelMac zeroRecord = levelDigest 0 0) (l i : Nat) :
    subtreeRoot (combine levelMac) (leaves levelMac (fun _ => levelMac zeroRecord) [r]) l i =
      levelDigest (UInt8.ofNat l) (if i = 0 then code else 0) := by
  induction l generalizing i with
  | zero =>
    rw [subtreeRoot, leaves_eq_mac, leafMessage]
    cases i with
    | zero => exact isCode
    | succ i => exact zeroCode
  | succ l ih =>
    rw [subtreeRoot, ih, ih, combine_levelMac]
    have next : UInt8.ofNat l + 1 = UInt8.ofNat (l + 1) := (UInt8.ofNat_add l 1).symm
    rw [next]
    congr 1
    simp

/-- The tag has no collision on two tables of one record whose messages the first bytes tell
apart from each other and from the padding. -/
theorem levelMac_collisionFree {first snd : Record} (code code' : UInt8)
    (isCode : levelMac (first.1.encode ++ first.2) = levelDigest 0 code)
    (isCode' : levelMac (snd.1.encode ++ snd.2) = levelDigest 0 code')
    (zeroCode : levelMac zeroRecord = levelDigest 0 0) (differ : code ≠ 0 ∧ code' ≠ 0)
    (apart : code = code' → first.1.encode ++ first.2 = snd.1.encode ++ snd.2) :
    Set.InjOn levelMac (hashedMessages levelMac zeroRecord [first] ∪ hashedMessages levelMac zeroRecord [snd]) := by
  have tags : ∀ m ∈ hashedMessages levelMac zeroRecord [first] ∪ hashedMessages levelMac zeroRecord [snd],
      ∃ d c, levelMac m = levelDigest d c ∧ ((d = 0 ∧ ((c = code ∧ m = first.1.encode ++ first.2) ∨
        (c = code' ∧ m = snd.1.encode ++ snd.2) ∨ (c = 0 ∧ m = zeroRecord))) ∨
      ∃ l < 15, d = UInt8.ofNat l + 1 ∧ m = (levelDigest (UInt8.ofNat l) c).1 ++
        (levelDigest (UInt8.ofNat l) 0).1) := by
    rintro m ((⟨_ | p, rfl⟩ | ⟨l, rest, i, isLevel, -, rfl⟩) | (⟨_ | p, rfl⟩ | ⟨l, rest, i, isLevel, -, rfl⟩))
    · exact ⟨0, code, isCode, .inl ⟨rfl, .inl ⟨rfl, rfl⟩⟩⟩
    · exact ⟨0, 0, zeroCode, .inl ⟨rfl, .inr (.inr ⟨rfl, rfl⟩)⟩⟩
    · rw [subtreeRoot_levelMac isCode zeroCode, subtreeRoot_levelMac isCode zeroCode, if_neg (Nat.succ_ne_zero (2 * i))]
      exact ⟨_, _, combine_levelMac _ _ _, .inr ⟨l, by simp only [TREE_HEIGHT] at isLevel; omega, rfl, rfl⟩⟩
    · exact ⟨0, code', isCode', .inl ⟨rfl, .inr (.inl ⟨rfl, rfl⟩)⟩⟩
    · exact ⟨0, 0, zeroCode, .inl ⟨rfl, .inr (.inr ⟨rfl, rfl⟩)⟩⟩
    · rw [subtreeRoot_levelMac isCode' zeroCode, subtreeRoot_levelMac isCode' zeroCode,
        if_neg (Nat.succ_ne_zero (2 * i))]
      exact ⟨_, _, combine_levelMac _ _ _, .inr ⟨l, by simp only [TREE_HEIGHT] at isLevel; omega, rfl, rfl⟩⟩
  have above : ∀ l < 15, UInt8.ofNat l + 1 ≠ 0 := by decide
  intro m isUsed m' isUsed' eq
  obtain ⟨d, c, tagged, isMessage⟩ := tags m isUsed
  obtain ⟨d', c', tagged', isMessage'⟩ := tags m' isUsed'
  rw [tagged, tagged'] at eq
  obtain ⟨rfl, rfl⟩ := levelDigest_inj eq
  rcases isMessage with ⟨rfl, isLeaf⟩ | ⟨l, small, rfl, rfl⟩ <;>
    rcases isMessage' with ⟨isZero, isLeaf'⟩ | ⟨l', small', sameLevel, rfl⟩
  · rcases isLeaf with ⟨rfl, rfl⟩ | ⟨rfl, rfl⟩ | ⟨rfl, rfl⟩ <;>
      rcases isLeaf' with ⟨isD, rfl⟩ | ⟨isD, rfl⟩ | ⟨isD, rfl⟩ <;> grind
  · exact absurd sameLevel.symm (above l' small')
  · exact absurd isZero (above l small)
  · rw [(UInt8.add_left_inj 1).mp sameLevel]

theorem levelMac_zeros : levelMac (replicate 128 0) = levelDigest 0 0 := by
  rw [levelMac, if_neg (by rw [length_replicate]; decide)]
  rfl

/-- Tables of one record with different keys have different roots. -/
theorem buildTable_binds_keys :
    ∃ image image', buildTable levelMac (fun _ => levelMac (replicate 128 0)) (fun _ _ => 0)
        [(.make [1] 7 .value, [5])] = .file image ∧
      buildTable levelMac (fun _ => levelMac (replicate 128 0)) (fun _ _ => 0)
        [(.make [2] 7 .value, [5])] = .file image' ∧ image.rh ≠ image'.rh := by
  obtain ⟨image, image', built, built', same⟩ := buildTable_binds levelMac (replicate 128 0) (fun _ _ => 0)
    [(.make [1] 7 .value, [5])] [(.make [2] 7 .value, [5])] (by simp) (by decide) (by decide) (by decide)
    (levelMac_collisionFree 1 2 (by decide) (by decide) levelMac_zeros (by decide) (by decide))
    (by
      intro r isRecord same
      have length := congrArg length same
      rw [length_replicate, length_append, InternalKey.encode_length] at length
      rcases mem_append.mp isRecord with isFirst | isSecond
      · rw [mem_singleton.mp isFirst] at length
        cases length
      · rw [mem_singleton.mp isSecond] at length
        cases length)
    (by
      intro p r r' inFirst inSecond
      rw [mem_singleton.mp (mem_of_getElem? inFirst), mem_singleton.mp (mem_of_getElem? inSecond)]
      rfl)
  exact ⟨image, image', built, built', fun sameRoot => absurd (same.mp sameRoot) (by decide)⟩

/-- Two records whose keys and values meet at different places have one message, and one root. -/
theorem buildTable_confuses_boundaries :
    Set.InjOn levelMac (hashedMessages levelMac (replicate 128 0) [(.make [] 257 .value, [0])] ∪
        hashedMessages levelMac (replicate 128 0) [(.make [1] 1 .value, [])]) ∧
      ∃ image image', buildTable levelMac (fun _ => levelMac (replicate 128 0)) (fun _ _ => 0)
          [(.make [] 257 .value, [0])] = .file image ∧
        buildTable levelMac (fun _ => levelMac (replicate 128 0)) (fun _ _ => 0)
          [(.make [1] 1 .value, [])] = .file image' ∧ image.rh = image'.rh := by
  have built : ∀ r : Record, FitsRecord r → ∃ image,
      buildTable levelMac (fun _ => levelMac (replicate 128 0)) (fun _ _ => 0) [r] = .file image :=
    fun r fits => buildTable_exists (by simp) (by simp [FILE_RECORDS]) (by simpa using fits) _ _ _
  obtain ⟨image, builtFirst⟩ := built (.make [] 257 .value, [0]) (by decide)
  obtain ⟨image', builtSecond⟩ := built (.make [1] 1 .value, []) (by decide)
  refine ⟨levelMac_collisionFree 1 1 (by decide) (by decide) levelMac_zeros (by decide) fun _ => by decide,
    image, image', builtFirst, builtSecond, ?_⟩
  obtain ⟨_, _, _, _, _, root⟩ := buildTable_tree builtFirst (by decide)
  obtain ⟨_, _, _, _, _, root'⟩ := buildTable_tree builtSecond (by decide)
  have sameLeaves : leaves levelMac (fun _ => levelMac (replicate 128 0)) [(.make [] 257 .value, [0])] =
      leaves levelMac (fun _ => levelMac (replicate 128 0)) [(.make [1] 1 .value, [])] := by
    funext p
    cases p <;> rfl
  rw [root, root', merkleRoot, merkleRoot, sameLeaves]

end Elsm.Merkle
