import Elsm.Table.Writer

/-!
# Reading back what was written (`table/table_builder.cpp`, `table/table.cpp`)

A `TableFile` is opened, its iterator is a cursor over its entries, and a lookup finds the first entry that is not below
the key when that entry has the user key of the lookup.  Such a lookup ends in the right block although the separators
are not keys of the table: one that was made up is below every later user key.
-/

namespace Elsm

open List
open Log (Crc)
open Cursor (Ascending Tracks Move First)

variable {crc : Crc} {memory : HostMemory} {interval : Nat} {policy : Option FilterPolicy} {l : List FormedEntry}
  {contents : Bytes}

/-! ## Handles -/

theorem IsStored.fits {file block : Bytes} {handle : BlockHandle} (stored : IsStored crc file handle block)
    (short : file.length < 2 ^ 31) : handle.Fits := by
  have offsetFits := (stored.holdsBlock short).offsetFits
  have sizeFits := (stored.holdsBlock short).sizeFits
  exact ⟨by omega, by omega⟩

theorem BlockHandle.Fits.decodeFrom {handle : BlockHandle} (fits : handle.Fits) :
    BlockHandle.decodeFrom handle.encode = .ok (handle, []) := by
  have decodes := BlockHandle.decodeFrom_encode fits.1 fits.2 []
  rwa [append_nil] at decodes

theorem BlockHandle.Fits.encode_inj {a b : BlockHandle} (left : a.Fits) (right : b.Fits) (eq : a.encode = b.encode) :
    a = b := by
  have decodes := left.decodeFrom
  rw [eq, right.decodeFrom] at decodes
  cases decodes
  rfl

/-! ## Opening -/

variable {p : Piece} {k : FormedKey} {e : FormedEntry}

namespace TableFile

variable (table : TableFile crc interval policy l contents) (short : contents.length < 2 ^ 31)

include table short

theorem footer_at : Footer.kEncodedLength ≤ contents.length ∧
    (contents.drop (seekPosition (contents.length - Footer.kEncodedLength))).take Footer.kEncodedLength =
      TableBuilder.encodeFooter table.metaindex table.index := by
  obtain ⟨front, isContents⟩ := table.isFooter
  have length := encodeFooter_length table.metaindex table.index
  have total : contents.length = front.length + Footer.kEncodedLength := by rw [isContents, length_append, length]
  have isLast : contents.drop front.length = TableBuilder.encodeFooter table.metaindex table.index := by
    conv_lhs => rw [isContents, drop_left]
  refine ⟨by omega, ?_⟩
  rw [seekPosition_of_lt (by omega), total, Nat.add_sub_cancel, isLast, ← length, take_length]

theorem readMeta (paranoidChecks : Bool) (name : Bytes) :
    Table.readMeta crc memory ⟨paranoidChecks, policy⟩ ⟨name, contents⟩ ⟨table.metaindex, table.index⟩ =
      .ok (policy.map fun p => .new ((FilterBlockBuilder.ofFilters p table.filters table.keys).finish p)) := by
  have isMetaindex := table.isMetaindex
  have isFilter := table.isFilter
  cases policy with
  | none => rfl
  | some policy =>
    obtain ⟨out, isBlock⟩ := @HoldsBlock.readToBlock crc memory ⟨name, contents⟩ _ _ (isMetaindex.holdsBlock short)
      paranoidChecks
    obtain ⟨s, moved, -, shows⟩ := @seek_finish Bytes _
      [(Table.filterKey policy, table.filter.encode)] bytewise interval (pairwise_singleton ..)
        out (isMetaindex.block_lt short)
      (Table.filterKey policy)
    have isMoved : (blockIterator sliceCompare).move (.seek (Table.filterKey policy))
        (Block.new (BlockBuilder.addAll interval (metaEntries (some policy) table.filter)).finish out).newIterator =
          some s := moved
    have isShown : (blockIterator sliceCompare).current s = some (Table.filterKey policy, table.filter.encode) := by
      rw [show sliceCompare = bytewise.compare from rfl, shows]
      simp [bytewise]
    have stored := isFilter policy rfl
    have isRead := @HoldsBlock.readBlock crc ⟨name, contents⟩ _ _ (stored.holdsBlock short) paranoidChecks memory.buf
      memory.beyond
    simp only [Table.readMeta, isBlock, isMoved, isShown, if_true, Table.readFilter,
      (stored.fits short).decodeFrom, isRead,
      HoldsBlock.contents, Option.map_some]

structure Opened (table : TableFile crc interval policy l contents) (name : Bytes) (opened : Table) : Prop where
  filterPolicy : opened.options.filterPolicy = policy
  file : opened.file = ⟨name, contents⟩
  indexBlock : ∃ outside, opened.indexBlock =
    .new (BlockBuilder.addAll 1 (internalCoding.stored (Draft.indexEntries table.pieces))).finish outside
  filter : opened.filter = policy.map fun p => .new ((FilterBlockBuilder.ofFilters p table.filters table.keys).finish p)

theorem openTable (paranoidChecks : Bool) (name : Bytes) (space : FooterSpace) : ∃ opened,
    Table.openTable crc memory ⟨paranoidChecks, policy⟩ ⟨name, contents⟩ contents.length space = .ok opened ∧
      table.Opened name opened := by
  obtain ⟨long, isFooter⟩ := table.footer_at short
  obtain ⟨out, isIndex⟩ := @HoldsBlock.readToBlock crc memory ⟨name, contents⟩ _ _ (table.isIndex.holdsBlock short)
    paranoidChecks
  rw [Table.openTable_footer (table.isMetaindex.fits short) (table.isIndex.fits short) long isFooter, isIndex,
    table.readMeta short]
  exact ⟨_, rfl, rfl, rfl, ⟨out, rfl⟩, rfl⟩

/-! ## The blocks -/

theorem blockReader {name : Bytes} {opened : Table} (isOpened : table.Opened name opened) (verifyChecksums : Bool)
    {p : Piece}
    (mem : p ∈ table.pieces) : ∃ out, opened.blockReader crc memory verifyChecksums p.handle.encode =
      (Block.new (BlockBuilder.addAll interval (internalCoding.stored p.entries)).finish out).newIterator := by
  have stored := table.blocks.inFile p mem
  obtain ⟨out, isBlock⟩ := @HoldsBlock.readToBlock crc memory ⟨name, contents⟩ _ _ (stored.holdsBlock short)
    verifyChecksums
  refine ⟨out, ?_⟩
  simp only [Table.blockReader, (stored.fits short).decodeFrom, isOpened.file, isBlock]

omit short

theorem ascending_entries (asc : Ascending l) (mem : p ∈ table.pieces) : Ascending p.entries := by
  rw [table.isList] at asc
  exact (pairwise_flatMap.mp asc).1 p mem

theorem ascending_index : Ascending (Draft.indexEntries table.pieces) := by
  rw [Draft.indexEntries, Ascending, pairwise_map]
  refine table.blocks.ordered.before.imp_of_mem fun _ mem pre => ?_
  obtain ⟨e, inB⟩ := exists_mem_of_ne_nil _ (table.blocks.nonempty _ mem)
  exact (pre e inB).1.trans_le (table.blocks.ordered.upTo _ mem e inB)

def entriesOf (table : TableFile crc interval policy l contents) (handleValue : Bytes) : List FormedEntry :=
  ((table.pieces.find? fun p => p.handle.encode = handleValue).map Piece.entries).getD []

theorem eq_of_offset {q : Piece} (left : p ∈ table.pieces) (right : q ∈ table.pieces)
    (eq : p.handle.offset = q.handle.offset) : p = q := by
  have byOffset : Ascending (table.pieces.map fun p => (p.handle.offset, p)) := by
    rw [Ascending, pairwise_map]
    exact table.blocks.offsets
  exact (Prod.mk.inj (byOffset.eq_of_key (mem_map_of_mem left) (mem_map_of_mem right) eq)).2

include short in
theorem entriesOf_encode (mem : p ∈ table.pieces) : table.entriesOf p.handle.encode = p.entries := by
  have fits : ∀ q ∈ table.pieces, q.handle.Fits := fun q inPieces => (table.blocks.inFile q inPieces).fits short
  obtain ⟨q, found⟩ : ∃ q, table.pieces.find? (fun q => q.handle.encode = p.handle.encode) = some q :=
    Option.isSome_iff_exists.mp (find?_isSome.mpr ⟨p, mem, decide_eq_true rfl⟩)
  have inPieces := mem_of_find?_eq_some found
  have sameEncoding : q.handle.encode = p.handle.encode := by simpa using find?_some found
  have sameHandle := (fits q inPieces).encode_inj (fits p mem) sameEncoding
  rw [entriesOf, found, table.eq_of_offset inPieces mem (congrArg BlockHandle.offset sameHandle)]
  rfl

include short in
theorem layout : Layout (Draft.indexEntries table.pieces) table.entriesOf where
  handles := by
    rw [Draft.indexEntries, pairwise_map]
    refine table.blocks.offsets.imp_of_mem fun left right lt eq => ?_
    have sameHandle := ((table.blocks.inFile _ left).fits short).encode_inj ((table.blocks.inFile _ right).fits short)
      eq
    rw [sameHandle] at lt
    exact Nat.lt_irrefl _ lt
  upTo a member x inB := by
    obtain ⟨p, inPieces, rfl⟩ := mem_map.mp member
    rw [table.entriesOf_encode short inPieces] at inB
    exact table.blocks.ordered.upTo p inPieces x inB
  above := by
    rw [Draft.indexEntries, pairwise_map]
    refine table.blocks.ordered.before.imp_of_mem fun _ inPieces pre x inB => ?_
    rw [table.entriesOf_encode short inPieces] at inB
    exact (pre x inB).1

include short in
theorem concatenation_eq : concatenation (Draft.indexEntries table.pieces) table.entriesOf = l := by
  rw [concatenation, Draft.indexEntries, flatMap_map]
  exact (flatMap_congr fun p mem => table.entriesOf_encode short mem).trans table.isList.symm

/-! ## Iteration -/

include short in
theorem tracks (asc : Ascending l) {name : Bytes} {opened : Table} (isOpened : table.Opened name opened)
    (verifyChecksums : Bool) :
    Tracks (twoLevelIterator (opened.setting crc memory verifyChecksums)) l
      (opened.newIterator crc memory verifyChecksums) none := by
  obtain ⟨out, isIndex⟩ := isOpened.indexBlock
  have indexCursor := tracks_finish internalCoding 1 table.ascending_index out (table.isIndex.block_lt short)
  have cursors : ∀ a ∈ Draft.indexEntries table.pieces, ∃ p, Tracks (keyedIterator internalCoding) (table.entriesOf a.2)
      (opened.blockReader crc memory verifyChecksums a.2) p := by
    intro a mem
    obtain ⟨p, inPieces, rfl⟩ := mem_map.mp mem
    obtain ⟨out, isReader⟩ :=
      @TableFile.blockReader crc memory _ _ _ _ table short _ _ isOpened verifyChecksums p inPieces
    rw [table.entriesOf_encode short inPieces, isReader]
    exact ⟨none, tracks_finish internalCoding interval (table.ascending_entries asc inPieces) out
      ((table.blocks.inFile p inPieces).block_lt short)⟩
  have le : (Draft.indexEntries table.pieces).length < opened.indexBlock.restartOffset + 1 := by
    obtain ⟨laid⟩ := BlockBuilder.laid 1 (internalCoding.stored (Draft.indexEntries table.pieces)) out
      (table.isIndex.block_lt short)
    have enough := laid.parseFuel_enough 0
    rwa [internalCoding.stored_length, ← isIndex] at enough
  rw [← isIndex] at indexCursor
  have tracks := @tracks_twoLevelIterator _ _ _ _ _ _ _ _ _ (opened.setting crc memory verifyChecksums) _
    (table.layout short) ⟨none, indexCursor⟩ cursors le
  rw [table.concatenation_eq short] at tracks
  exact tracks

/-! ## Lookups -/

/-- A separator between a key and the first entry that is not below it would be below the key. -/
theorem first_separator (first : First (· ≤ ·) l (k ≤ ·) (some e))
    (sameUser : e.1.1.userKey = k.1.userKey) (mem : p ∈ table.pieces) (inB : e ∈ p.entries) :
    First (· ≤ ·) (Draft.indexEntries table.pieces) (k ≤ ·) (some (p.separator, p.handle.encode)) := by
  obtain ⟨-, reaches, least⟩ := first
  refine ⟨mem_map.mpr ⟨p, mem, rfl⟩, reaches.trans (table.blocks.ordered.upTo p mem e inB), ?_⟩
  intro x inIndex notBelow
  obtain ⟨q, inPieces, rfl⟩ := mem_map.mp inIndex
  by_contra notLe
  have lt : q.separator < p.separator := lt_of_not_ge notLe
  have pre : q.Before e.1 := by
    obtain ⟨i, inI, rfl⟩ := mem_iff_getElem.mp inPieces
    obtain ⟨j, inJ, rfl⟩ := mem_iff_getElem.mp mem
    have order : i < j := by
      have inOrder := table.ascending_index.key_lt_iff (i := i) (j := j) (by simpa [Draft.indexEntries] using inI)
        (by simpa [Draft.indexEntries] using inJ)
      simpa [Draft.indexEntries, lt] using inOrder
    exact pairwise_iff_getElem.mp table.blocks.ordered.before i j inI inJ order e inB
  obtain ⟨y, inOther, isSeparator⟩ | userLess := pre.2
  · have inList : y ∈ l := by
      rw [table.isList]
      exact mem_flatMap.mpr ⟨q, inPieces, inOther⟩
    have notBefore := least y inList (isSeparator ▸ notBelow)
    rw [isSeparator] at notBefore
    exact absurd pre.1 (not_lt.mpr notBefore)
  · rw [sameUser] at userLess
    exact absurd notBelow (not_le.mpr (InternalKey.lt_of_userKey_lt userLess))

omit table in
theorem keyMayMatch_internal {userPolicy : FilterPolicy} (sound : userPolicy.NoFalseNegatives) {keys : List Bytes}
    {e : FormedKey} (mem : e.1.encode ∈ keys) (sameUser : e.1.userKey = k.1.userKey) :
    (internalFilterPolicy userPolicy).keyMayMatch k.1.encode
      (FilterBlockBuilder.encodeFilter (internalFilterPolicy userPolicy) keys) = true := by
  have some_ : keys ≠ [] := ne_nil_of_mem mem
  rw [FilterBlockBuilder.encodeFilter, if_neg some_]
  apply sound
  rw [extractUserKey_encode, ← sameUser, ← extractUserKey_encode]
  exact mem_map_of_mem mem

end TableFile

section

variable {userPolicy : Option FilterPolicy}
  (table : TableFile crc interval (userPolicy.map internalFilterPolicy) l contents)
  (short : contents.length < 2 ^ 31) (sound : ∀ p ∈ userPolicy, p.NoFalseNegatives)

include short sound

theorem TableFile.not_filterRefuses {name : Bytes} {opened : Table} (isOpened : table.Opened name opened)
    (sameUser : e.1.1.userKey = k.1.userKey) (mem : p ∈ table.pieces) (inB : e ∈ p.entries) :
    opened.filterRefuses p.handle.encode k.1.encode = false := by
  have isFilter := table.isFilter
  have fits := (table.blocks.inFile p mem).fits short
  rw [Table.filterRefuses, isOpened.filter, isOpened.filterPolicy]
  cases userPolicy with
  | none => rfl
  | some userPolicy =>
    obtain ⟨h, inFilter⟩ := Draft.Covers.allFilters (table.blocks.covers p mem e inB)
    have matches_ := FilterBlockBuilder.keyMayMatch_finish ((isFilter _ rfl).block_lt short) h k.1.encode
    rw [keyMayMatch_internal (sound _ rfl) inFilter sameUser] at matches_
    simp only [Option.map_some, fits.decodeFrom, matches_, Bool.not_true]

theorem TableFile.internalGet (asc : Ascending l) {name : Bytes} {opened : Table} (isOpened : table.Opened name opened)
    (verifyChecksums : Bool) (first : First (· ≤ ·) l (k ≤ ·) (some e)) (sameUser : e.1.1.userKey = k.1.userKey) :
    opened.internalGet crc memory verifyChecksums k.1.encode = some (some (e.1.1.encode, e.2), none) := by
  have inList := first.1
  rw [table.isList] at inList
  obtain ⟨p, mem, inB⟩ := mem_flatMap.mp inList
  obtain ⟨out, isIndex⟩ := isOpened.indexBlock
  obtain ⟨iiter, moved, status, shows⟩ := seek_finish internalCoding 1 table.ascending_index out
    (table.isIndex.block_lt short) k
  rw [table.ascending_index.findIdx_eq_some (table.first_separator first sameUser mem inB), Option.map_some] at shows
  have firstInBlock : First (· ≤ ·) p.entries (k ≤ ·) (some e) := by
    refine ⟨inB, first.2.1, fun x inSame reaches => first.2.2 x ?_ reaches⟩
    rw [table.isList]
    exact mem_flatMap.mpr ⟨p, mem, inSame⟩
  have entriesAscend := table.ascending_entries asc mem
  obtain ⟨out', isReader⟩ := @TableFile.blockReader crc memory _ _ _ _ table short _ _ isOpened verifyChecksums p mem
  obtain ⟨blockIter, moved', status', shows'⟩ := seek_finish internalCoding interval entriesAscend out'
    ((table.blocks.inFile p mem).block_lt short) k
  rw [entriesAscend.findIdx_eq_some firstInBlock, Option.map_some] at shows'
  have refuses := table.not_filterRefuses short sound isOpened sameUser mem inB
  rw [← isIndex] at moved
  rw [← isReader] at moved'
  have isMoved : (blockIterator internalCompare).move (.seek k.1.encode) opened.indexBlock.newIterator =
    some iiter := moved
  have isMoved' : (blockIterator internalCompare).move (.seek k.1.encode)
      (opened.blockReader crc memory verifyChecksums p.handle.encode) = some blockIter := moved'
  have isShown : (blockIterator internalCompare).current iiter = some (p.separator.1.encode, p.handle.encode) := shows
  have isShown' : (blockIterator internalCompare).current blockIter = some (e.1.1.encode, e.2) := shows'
  simp only [Table.internalGet, isMoved, isShown, refuses, isMoved', isShown', status, status', Option.bind_eq_bind,
    Option.bind_some, Bool.false_eq_true, if_false]
  rfl

end

/-! ## The round trip -/

/-- A table that is written with the filter policy of a database. -/
def writeTable (crc : Crc) (options : TableOptions) (userPolicy : Option FilterPolicy)
    (entries : List FormedEntry) : Bytes :=
  (TableWriter.build crc options (userPolicy.map internalFilterPolicy) entries).finish crc options

/-- A table that is written from entries in ascending order is opened, shows them in order, as a cursor does, and finds
the first entry that is not below a key when it has the user key. -/
theorem table_roundTrip (crc : Crc) (options : TableOptions) (userPolicy : Option FilterPolicy)
    (sound : ∀ p ∈ userPolicy, p.NoFalseNegatives) {l : List FormedEntry} (ascending : Ascending l)
    (short : (writeTable crc options userPolicy l).length < 2 ^ 31) (memory : HostMemory) (name : Bytes)
    (paranoidChecks verifyChecksums : Bool) (space : FooterSpace) : ∃ table,
      Table.openTable crc memory ⟨paranoidChecks, userPolicy.map internalFilterPolicy⟩
        ⟨name, writeTable crc options userPolicy l⟩ (writeTable crc options userPolicy l).length space = .ok table ∧
      (∀ i ≤ l.length, ∃ s, (twoLevelIterator (table.setting crc memory verifyChecksums)).moveAll
          (.seekToFirst :: replicate i .next) (table.newIterator crc memory verifyChecksums) = some s ∧
        (twoLevelIterator (table.setting crc memory verifyChecksums)).current s = l[i]?) ∧
      Tracks (twoLevelIterator (table.setting crc memory verifyChecksums)) l
        (table.newIterator crc memory verifyChecksums) none ∧
      ∀ (k : FormedKey) e, First (· ≤ ·) l (k ≤ ·) (some e) → e.1.1.userKey = k.1.userKey →
        table.internalGet crc memory verifyChecksums k.1.encode = some (some (e.1.1.encode, e.2), none) := by
  obtain ⟨file⟩ := @finish_tableFile crc options (userPolicy.map internalFilterPolicy) l ascending
  obtain ⟨table, opens, isOpened⟩ := @TableFile.openTable crc memory _ _ _ _ file short paranoidChecks name space
  have tracks := @TableFile.tracks crc memory _ _ _ _ file short ascending name table isOpened verifyChecksums
  exact ⟨table, opens, fun i inside => tracks.scan inside, tracks, fun k e first sameUser =>
    file.internalGet short sound ascending isOpened verifyChecksums first sameUser⟩

def anyKey : FilterPolicy := ⟨[97], fun _ => [1], fun _ f => f == [1]⟩

def threeEntries : List FormedEntry :=
  [(⟨.make [97, 98, 99] 7 .value, by decide⟩, [1, 2, 3]), (⟨.make [97, 98, 99] 5 .value, by decide⟩, [4]),
    (⟨.make [97, 102] 6 .deletion, by decide⟩, [])]

/-- With blocks of one entry the lookup at sequence 6 passes a block boundary between two versions. -/
theorem table_roundTrip_threeEntries : ∃ table,
    Table.openTable (fun _ => 0) ⟨[], fun _ => 0⟩ ⟨true, some (internalFilterPolicy anyKey)⟩
      ⟨[], writeTable (fun _ => 0) ⟨16, 2⟩ (some anyKey) threeEntries⟩
      (writeTable (fun _ => 0) ⟨16, 2⟩ (some anyKey) threeEntries).length ⟨replicate 48 0, rfl⟩ = .ok table ∧
    table.internalGet (fun _ => 0) ⟨[], fun _ => 0⟩ true (InternalKey.encode (.make [97, 98, 99] 6 .value)) =
      some (some (InternalKey.encode (.make [97, 98, 99] 5 .value), [4]), none) := by
  obtain ⟨table, opens, -, -, finds⟩ := @table_roundTrip (fun _ => 0) ⟨16, 2⟩ (some anyKey)
    (fun p isPolicy keys key _ => by cases isPolicy; rfl) threeEntries (by decide) (by decide +kernel)
      ⟨[], fun _ => 0⟩ []
    true true ⟨replicate 48 0, rfl⟩
  refine ⟨table, opens, finds ⟨.make [97, 98, 99] 6 .value, by decide⟩ (⟨.make [97, 98, 99] 5 .value, by decide⟩, [4])
    ⟨by decide, by decide, by decide⟩ rfl⟩

end Elsm
