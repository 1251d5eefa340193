import Elsm.Table.Opening

/-!
# Writing a table with a filter (`table/table_builder.cpp`)

`TableWriter` is the builder of `Table.Builder` together with the filter block, which is told where each data block
starts.  A `Draft` says what has been written: blocks with their entry in the index, at most one block without, and the
entries of the block that is being built.  `Draft.Describes` and `Draft.Filtered` tie it to the builder, and
`Draft.Separated` says why the shortened keys of the index will do.  `finish_tableFile` is what the reader of
the table relies on.
-/

namespace Elsm

open List
open Log (Crc)
open Cursor (Ascending)

abbrev FormedEntry := FormedKey × Bytes

/-! ## The code -/

structure TableWriter where
  table : TableBuilder
  /-- `filter_block` with its policy, `none` for `NULL` -/
  filterBlock : Option (FilterPolicy × FilterBlockBuilder)

def maskedCrc (crc : Crc) (bytes : Bytes) : Nat := (Crc32c.mask (crc bytes)).toNat

namespace TableWriter

def new (policy : Option FilterPolicy) : TableWriter :=
  ⟨.init, policy.map fun policy => (policy, FilterBlockBuilder.empty.startBlock policy 0)⟩

variable (crc : Crc) (options : TableOptions)

def flush (w : TableWriter) : TableWriter :=
  if w.table.dataBlock.buffer = [] then w
  else
    let table := w.table.flush (maskedCrc crc)
    ⟨table, w.filterBlock.map fun (policy, fb) => (policy, fb.startBlock policy table.file.length)⟩

def add (w : TableWriter) (entry : FormedEntry) : TableWriter :=
  let table := w.table.indexPending fun lastKey => findShortestSeparator lastKey entry.1
  let filterBlock := w.filterBlock.map fun (policy, fb) => (policy, fb.addKey entry.1.1.encode)
  let table := { table with
    lastKey := some entry.1.1
    dataBlock := table.dataBlock.add options.blockRestartInterval entry.1.1.encode entry.2 }
  let w := ⟨table, filterBlock⟩
  if options.blockSize ≤ table.dataBlock.currentSizeEstimate then flush crc w else w

def finish (w : TableWriter) : Bytes :=
  let w := w.flush crc
  let (file, metaIndexBlock) := match w.filterBlock with
    | none => (w.table.file, BlockBuilder.empty)
    | some (policy, fb) =>
      let (file, filterBlockHandle) := TableBuilder.writeBlock (maskedCrc crc) w.table.file (fb.finish policy)
      (file, BlockBuilder.empty.add options.blockRestartInterval (Table.filterKey policy) filterBlockHandle.encode)
  let (file, metaindex) := TableBuilder.writeBlock (maskedCrc crc) file metaIndexBlock.finish
  let table := w.table.indexPending findShortSuccessor
  let (file, index) := TableBuilder.writeBlock (maskedCrc crc) file table.indexBlock.finish
  file ++ TableBuilder.encodeFooter metaindex index

def build (policy : Option FilterPolicy) (entries : List FormedEntry) : TableWriter :=
  entries.foldl (add crc options) (new policy)

/-! ## The table inside -/

variable {crc options}

theorem flush_table (w : TableWriter) : (w.flush crc).table = w.table.flush (maskedCrc crc) := by
  rw [flush]
  split
  case isTrue isEmpty => rw [TableBuilder.flush, if_pos isEmpty]
  case isFalse => rfl

end TableWriter

/-! ## Blocks in the file -/

def IsStored (crc : Crc) (file : Bytes) (handle : BlockHandle) (block : Bytes) : Prop :=
  ∃ front rest, file = front ++ (withTrailer crc block ++ rest) ∧ handle = ⟨front.length, block.length⟩

section

variable {crc : Crc} {file block : Bytes} {handle : BlockHandle}

section

variable (stored : IsStored crc file handle block)

include stored

theorem IsStored.append (more : Bytes) : IsStored crc (file ++ more) handle block := by
  obtain ⟨front, rest, rfl, rfl⟩ := stored
  exact ⟨front, rest ++ more, by simp only [append_assoc], rfl⟩

theorem IsStored.offset_lt : handle.offset < file.length := by
  obtain ⟨front, rest, rfl, rfl⟩ := stored
  simp only [length_append, withTrailer_length]
  omega

theorem IsStored.holdsBlock (short : file.length < 2 ^ 31) : HoldsBlock crc file handle block := by
  obtain ⟨front, rest, rfl, rfl⟩ := stored
  have trailer : kBlockTrailerSize = 5 := rfl
  simp only [length_append, withTrailer_length] at short
  exact HoldsBlock.of_append crc block rest (by omega) (by omega)

theorem IsStored.block_lt (short : file.length < 2 ^ 31) : block.length < 2 ^ 32 := by
  have fits := (stored.holdsBlock short).sizeFits
  rw [(stored.holdsBlock short).size] at fits
  omega

end

theorem writeBlock_eq (crc : Crc) (file contents : Bytes) : TableBuilder.writeBlock (maskedCrc crc) file contents =
    (file ++ withTrailer crc contents, ⟨file.length, contents.length⟩) := by
  simp only [TableBuilder.writeBlock, withTrailer, append_assoc]
  rfl

theorem isStored_written (crc : Crc) (file block : Bytes) :
    IsStored crc (file ++ withTrailer crc block) ⟨file.length, block.length⟩ block :=
  ⟨file, [], by rw [append_nil], rfl⟩

end

/-! ## Separators -/

theorem shortenTo_formed {key : InternalKey Bytes} (formed : key.Formed) (shorter : Bytes) :
    (shortenTo key shorter).Formed := by
  rw [shortenTo]
  split
  case isTrue => exact (by decide : kMaxSequenceNumber * 256 + 1 < 2 ^ 64)
  case isFalse => exact formed

namespace FormedKey

def separator (limit start : FormedKey) : FormedKey :=
  ⟨findShortestSeparator start.1 limit.1, shortenTo_formed start.2 _⟩

def successor (key : FormedKey) : FormedKey := ⟨findShortSuccessor key.1, shortenTo_formed key.2 _⟩

theorem le_separator (limit start : FormedKey) : start ≤ separator limit start := le_shortenTo _ _

theorem le_successor (key : FormedKey) : key ≤ key.successor := le_shortenTo _ _

end FormedKey

/-- The internal keys are in a total order, and the keys that separate blocks stay between their neighbours. -/
theorem separators_between_neighbours :
    (∀ a b c : Bytes, 8 ≤ a.length → 8 ≤ b.length → 8 ≤ c.length →
      (internalCompare a b = .lt ↔ (InternalKey.decodeFrom a).userKey < (InternalKey.decodeFrom b).userKey ∨
        (InternalKey.decodeFrom a).userKey = (InternalKey.decodeFrom b).userKey ∧
          (InternalKey.decodeFrom b).tag < (InternalKey.decodeFrom a).tag) ∧
      (internalCompare a b = .eq ↔ a = b) ∧ (internalCompare a b = .gt ↔ internalCompare b a = .lt) ∧
      (internalCompare a b = .lt → internalCompare b c = .lt → internalCompare a c = .lt)) ∧
    (∀ a b : FormedKey, a < b → ∃ s : FormedKey, findShortestSeparatorAsserted a.1 b.1 = some s.1 ∧ a ≤ s ∧ s < b ∧
      (s = a ∨ a.1.userKey < s.1.userKey ∧ s.1.userKey < b.1.userKey)) ∧
    ∀ a : FormedKey, ∃ s : FormedKey, findShortSuccessorAsserted a.1 = some s.1 ∧ a ≤ s := by
  refine ⟨fun a b c longA longB longC => ?_, fun a b less => ?_, fun a => ?_⟩
  · obtain ⟨lessAB, greaterAB⟩ := internalCompare_decodeFrom longA longB
    rw [internalCompare_eq_eq longA longB, greaterAB, lessAB, (internalCompare_decodeFrom longB longA).1,
      (internalCompare_decodeFrom longB longC).1, (internalCompare_decodeFrom longA longC).1]
    exact ⟨InternalKey.lt_iff, Iff.rfl, Iff.rfl, lt_trans⟩
  · refine ⟨FormedKey.separator b a, findShortestSeparatorAsserted_eq a.1 b.1, FormedKey.le_separator b a, ?_⟩
    obtain same | ⟨above, below⟩ := findShortestSeparator_cases a.1 b.1
    · have isA : FormedKey.separator b a = a := Subtype.ext same
      exact ⟨isA.trans_lt less, .inl isA⟩
    · exact ⟨InternalKey.lt_of_userKey_lt below, .inr ⟨above, below⟩⟩
  · exact ⟨a.successor, findShortSuccessorAsserted_eq a.1, a.le_successor⟩

structure Piece where
  separator : FormedKey
  handle : BlockHandle
  entries : List FormedEntry

/-- The separator is below the key of a later block.  Where it is not a key of the block its user key is below, too. -/
def Piece.Before (p : Piece) (k : FormedKey) : Prop :=
  p.separator < k ∧ ((∃ e ∈ p.entries, e.1 = p.separator) ∨ p.separator.1.userKey < k.1.userKey)

theorem Piece.Before.trans {p : Piece} {k k' : FormedKey} (pre : p.Before k) (lt : k < k') : p.Before k' := by
  refine ⟨pre.1.trans lt, pre.2.imp_right fun userLess => ?_⟩
  exact userLess.trans_le (InternalKey.userKey_le_of_le (le_of_lt lt))

theorem Piece.before_separator {handle : BlockHandle} {es : List FormedEntry} {last : FormedEntry} {limit : FormedKey}
    (mem : last ∈ es) (lt : last.1 < limit) :
    (Piece.mk (FormedKey.separator limit last.1) handle es).Before limit := by
  obtain eq | ⟨-, userLess⟩ := findShortestSeparator_cases last.1.1 limit.1
  · have isLast : FormedKey.separator limit last.1 = last.1 := Subtype.ext eq
    exact ⟨isLast.trans_lt lt, .inl ⟨last, mem, isLast.symm⟩⟩
  · exact ⟨InternalKey.lt_of_userKey_lt userLess, .inr userLess⟩

structure Ordered (pieces : List Piece) : Prop where
  upTo : ∀ p ∈ pieces, ∀ e ∈ p.entries, e.1 ≤ p.separator
  before : pieces.Pairwise fun p q => ∀ e ∈ q.entries, p.Before e.1

theorem Ordered.concat {pieces : List Piece} (ord : Ordered pieces) {piece : Piece}
    (upTo : ∀ e ∈ piece.entries, e.1 ≤ piece.separator) (pre : ∀ p ∈ pieces, ∀ e ∈ piece.entries, p.Before e.1) :
    Ordered (pieces ++ [piece]) :=
  ⟨SortedList.forall_mem_concat ord.upTo upTo, SortedList.pairwise_concat ord.before pre⟩

/-! ## Drafts -/

/-- What has been added to a table that is being built. -/
structure Draft where
  pieces : List Piece
  /-- The block that `pending_handle` is for. -/
  unindexed : Option (BlockHandle × List FormedEntry)
  opened : List FormedEntry

namespace Draft

def written (d : Draft) : List (BlockHandle × List FormedEntry) :=
  d.pieces.map (fun p => (p.handle, p.entries)) ++ d.unindexed.toList

/-- The entries of no block in the index. -/
def rest (d : Draft) : List FormedEntry := d.unindexed.toList.flatMap (·.2) ++ d.opened

def entries (d : Draft) : List FormedEntry := d.pieces.flatMap (·.entries) ++ d.rest

def empty : Draft := ⟨[], none, []⟩

def index (d : Draft) (separator : FormedKey → FormedKey) : Draft :=
  match d.unindexed, d.rest.getLast? with
  | some (handle, entries), some last => ⟨d.pieces ++ [⟨separator last.1, handle, entries⟩], none, d.opened⟩
  | _, _ => d

def append (d : Draft) (e : FormedEntry) : Draft := { d with opened := d.opened ++ [e] }

def flush (d : Draft) (handle : BlockHandle) : Draft :=
  if d.opened = [] then d else ⟨d.pieces, some (handle, d.opened), []⟩

def indexEntries (pieces : List Piece) : List FormedEntry := pieces.map fun p => (p.separator, p.handle.encode)

variable (crc : Crc) (interval : Nat)

/-- What is in the file and in the blocks of the builder. -/
structure Describes (d : Draft) (t : TableBuilder) : Prop where
  pending : t.pendingHandle = d.unindexed.map (·.1)
  dataBlock : t.dataBlock = .addAll interval (internalCoding.stored d.opened)
  indexBlock : t.indexBlock = .addAll 1 (internalCoding.stored (indexEntries d.pieces))
  last : ∀ e ∈ d.rest.getLast?, t.lastKey = some e.1.1
  alone : d.opened = [] ∨ d.unindexed = none
  inFile : ∀ b ∈ d.written, IsStored crc t.file b.1 (BlockBuilder.addAll interval (internalCoding.stored b.2)).finish
  offsets : d.written.Pairwise fun a b => a.1.offset < b.1.offset
  nonempty : ∀ b ∈ d.written, b.2 ≠ []

variable {crc interval} {d : Draft} {t : TableBuilder}

section

variable (separator : FormedKey → FormedKey)

theorem index_written : (d.index separator).written = d.written := by
  rw [index]
  split
  case h_1 handle es last isUnindexed isLast => simp [written, isUnindexed]
  case h_2 => rfl

theorem index_entries : (d.index separator).entries = d.entries := by
  rw [index]
  split
  case h_1 handle es last isUnindexed isLast => simp [Draft.entries, rest, isUnindexed]
  case h_2 => rfl

theorem index_opened : (d.index separator).opened = d.opened := by
  rw [index]
  split <;> rfl

end

theorem append_entries (d : Draft) (e : FormedEntry) : (d.append e).entries = d.entries ++ [e] := by
  simp [append, entries, rest]

theorem append_rest (d : Draft) (e : FormedEntry) : (d.append e).rest = d.rest ++ [e] := by simp [append, rest]

theorem index_none (noUnindexed : d.unindexed = none) (separator : FormedKey → FormedKey) : d.index separator = d := by
  rw [index, noUnindexed]

theorem Describes.index_some (describes : d.Describes crc interval t) {b : BlockHandle × List FormedEntry}
    (isUnindexed : d.unindexed = some b) : d.rest = b.2 ∧ ∃ last ∈ b.2, d.rest.getLast? = some last ∧
      t.lastKey = some last.1.1 ∧ ∀ separator, d.index separator =
        ⟨d.pieces ++ [⟨separator last.1, b.1, b.2⟩], none, []⟩ := by
  have noOpened : d.opened = [] := describes.alone.resolve_right (by simp [isUnindexed])
  have isRest : d.rest = b.2 := by simp [rest, isUnindexed, noOpened]
  have some_ : b.2 ≠ [] := describes.nonempty b (by simp [written, isUnindexed])
  have isLast : d.rest.getLast? = some (b.2.getLast some_) := by rw [isRest, getLast?_eq_some_getLast some_]
  refine ⟨isRest, _, getLast_mem some_, isLast, describes.last _ isLast, fun separator => ?_⟩
  rw [index, isUnindexed, isLast, noOpened]

theorem Describes.index_unindexed (describes : d.Describes crc interval t) (separator : FormedKey → FormedKey) :
    (d.index separator).unindexed = none := by
  cases isUnindexed : d.unindexed with
  | none => rw [index_none isUnindexed, isUnindexed]
  | some b =>
    obtain ⟨-, last, -, -, -, isDraft⟩ := describes.index_some isUnindexed
    rw [isDraft]

/-! ### The steps of the builder -/

theorem addAll_concat (es : List (Bytes × Bytes)) (e : Bytes × Bytes) :
    BlockBuilder.addAll interval (es ++ [e]) = (BlockBuilder.addAll interval es).add interval e.1 e.2 := by
  rw [BlockBuilder.addAll, foldl_append]
  rfl

theorem stored_concat (es : List FormedEntry) (e : FormedEntry) :
    internalCoding.stored (es ++ [e]) = internalCoding.stored es ++ [(e.1.1.encode, e.2)] := map_append

theorem empty_describes : empty.Describes crc interval .init where
  pending := rfl
  dataBlock := rfl
  indexBlock := rfl
  last := nofun
  alone := .inl rfl
  inFile := nofun
  offsets := .nil
  nonempty := nofun

theorem Describes.index (describes : d.Describes crc interval t) {f : InternalKey Bytes → InternalKey Bytes}
    {separator : FormedKey → FormedKey} (agree : ∀ k, (separator k).1 = f k.1) :
    (d.index separator).Describes crc interval (t.indexPending f) := by
  cases isUnindexed : d.unindexed with
  | none =>
    have sameTable : t.indexPending f = t := by
      rw [TableBuilder.indexPending, describes.pending, isUnindexed]
      rfl
    rw [index_none isUnindexed, sameTable]
    exact describes
  | some b =>
    obtain ⟨-, last, -, -, isKey, isDraft⟩ := describes.index_some isUnindexed
    have noOpened : d.opened = [] := describes.alone.resolve_right (by simp [isUnindexed])
    have isTable : t.indexPending f =
        { t with indexBlock := t.indexBlock.add 1 (f last.1.1).encode b.1.encode, pendingHandle := none } := by
      rw [TableBuilder.indexPending, describes.pending, isUnindexed, isKey]
      rfl
    have sameWritten := @index_written d separator
    rw [isDraft] at sameWritten ⊢
    rw [isTable]
    exact {
      pending := rfl
      dataBlock := describes.dataBlock.trans (by rw [noOpened])
      indexBlock := by
        simp only [indexEntries, map_append, map_singleton]
        rw [stored_concat, addAll_concat, describes.indexBlock, indexEntries, agree]
      last := by rintro _ ⟨⟩
      alone := .inl rfl
      inFile := by
        rw [sameWritten]
        exact describes.inFile
      offsets := by
        rw [sameWritten]
        exact describes.offsets
      nonempty := by
        rw [sameWritten]
        exact describes.nonempty }

theorem Describes.append (describes : d.Describes crc interval t) (noUnindexed : d.unindexed = none) (e : FormedEntry) :
    (d.append e).Describes crc interval
      { t with lastKey := some e.1.1, dataBlock := t.dataBlock.add interval e.1.1.encode e.2 } where
  pending := describes.pending
  dataBlock := by
    simp only [Draft.append]
    rw [stored_concat, addAll_concat, describes.dataBlock]
  indexBlock := describes.indexBlock
  last := by
    rw [append_rest, getLast?_concat]
    rintro _ ⟨⟩
    rfl
  alone := .inr noUnindexed
  inFile := describes.inFile
  offsets := describes.offsets
  nonempty := describes.nonempty

theorem addAll_buffer_eq_nil {es : List (Bytes × Bytes)} : (BlockBuilder.addAll interval es).buffer = [] ↔ es = [] := by
  constructor
  · intro noBytes
    by_contra some_
    obtain ⟨front, e, rfl⟩ := (eq_nil_or_concat' es).resolve_left some_
    have pos := BlockBuilder.encodeEntry_length_pos
      ((BlockBuilder.addAll interval front).sharedWith interval e.1) e.1 e.2
    rw [addAll_concat, BlockBuilder.add_buffer, append_eq_nil_iff] at noBytes
    rw [noBytes.2] at pos
    exact Nat.lt_irrefl 0 pos
  · rintro rfl
    rfl

theorem flush_entries (handle : BlockHandle) (alone : d.opened = [] ∨ d.unindexed = none) :
    (d.flush handle).rest = d.rest ∧ (d.flush handle).entries = d.entries ∧ (d.flush handle).opened = [] := by
  rw [flush]
  split
  case isTrue noOpened => exact ⟨rfl, rfl, noOpened⟩
  case isFalse some_ =>
    have noUnindexed := alone.resolve_left some_
    simp [entries, rest, noUnindexed]

theorem Describes.flush (describes : d.Describes crc interval t) :
    (d.flush ⟨t.file.length, t.dataBlock.finish.length⟩).Describes crc interval (t.flush (maskedCrc crc)) := by
  rw [Draft.flush]
  split
  case isTrue noOpened =>
    have noBytes : t.dataBlock.buffer = [] := by
      rw [describes.dataBlock, addAll_buffer_eq_nil, noOpened]
      rfl
    rw [TableBuilder.flush, if_pos noBytes]
    exact describes
  case isFalse some_ =>
    have noUnindexed := describes.alone.resolve_left some_
    have someBytes : t.dataBlock.buffer ≠ [] := by
      rw [describes.dataBlock, ne_eq, addAll_buffer_eq_nil, KeyCoding.stored, map_eq_nil_iff]
      exact some_
    have isWritten : d.written = d.pieces.map fun p => (p.handle, p.entries) := by simp [written, noUnindexed]
    have inFile := describes.inFile
    rw [isWritten] at inFile
    rw [TableBuilder.flush, if_neg someBytes, writeBlock_eq]
    exact {
      pending := rfl
      dataBlock := rfl
      indexBlock := describes.indexBlock
      last := by
        intro e isLast
        apply describes.last e
        simpa [rest, noUnindexed] using isLast
      alone := .inl rfl
      inFile := by
        apply SortedList.forall_mem_concat fun b mem => (inFile b mem).append _
        simp only [describes.dataBlock]
        exact isStored_written crc _ _
      offsets := SortedList.pairwise_concat (isWritten ▸ describes.offsets) fun a mem => (inFile a mem).offset_lt
      nonempty := SortedList.forall_mem_concat (isWritten ▸ describes.nonempty) some_ }

/-! ### The order of the separators -/

/-- The separators are between the blocks and below what is not yet in the index. -/
structure Separated (d : Draft) : Prop where
  ascending : Ascending d.entries
  ordered : Ordered d.pieces
  beforeRest : ∀ p ∈ d.pieces, ∀ e ∈ d.rest, p.Before e.1
  hasRest : d.pieces = [] ∨ d.rest ≠ []

theorem empty_separated : empty.Separated where
  ascending := .nil
  ordered := ⟨nofun, .nil⟩
  beforeRest := nofun
  hasRest := .inl rfl

section

variable (separated : d.Separated)

include separated

theorem Separated.flush (handle : BlockHandle) (alone : d.opened = [] ∨ d.unindexed = none) :
    (d.flush handle).Separated := by
  obtain ⟨sameRest, sameEntries, -⟩ := flush_entries handle alone
  have samePieces : (d.flush handle).pieces = d.pieces := by
    rw [Draft.flush]
    split <;> rfl
  constructor
  · rw [sameEntries]
    exact separated.ascending
  · rw [samePieces]
    exact separated.ordered
  · rw [samePieces, sameRest]
    exact separated.beforeRest
  · rw [samePieces, sameRest]
    exact separated.hasRest

theorem Separated.before_next {k : FormedKey} (above : ∀ e ∈ d.entries, e.1 < k) : ∀ p ∈ d.pieces, p.Before k := by
  intro p mem
  obtain noPieces | some_ := separated.hasRest
  · rw [noPieces] at mem
    cases mem
  · obtain ⟨e, inR⟩ := exists_mem_of_ne_nil _ some_
    exact (separated.beforeRest p mem e inR).trans (above e (mem_append_right _ inR))

theorem Separated.le_last {last : FormedEntry} (isLast : d.rest.getLast? = some last) : ∀ e ∈ d.rest, e.1 ≤ last.1 := by
  have asc : Ascending d.rest := (pairwise_append.mp separated.ascending).2.1
  obtain ⟨front, isRest⟩ := getLast?_eq_some_iff.mp isLast
  rw [isRest] at asc ⊢
  intro e mem
  obtain inFront | isLast := mem_append.mp mem
  · exact ((pairwise_append.mp asc).2.2 e inFront last (mem_singleton_self _)).le
  · rw [mem_singleton.mp isLast]

/-- With a separator that is not below the last key the pieces stay in order. -/
theorem Separated.index_ordered (describes : d.Describes crc interval t)
    {separator : FormedKey → FormedKey} (above : ∀ k, k ≤ separator k) : Ordered (d.index separator).pieces := by
  cases isUnindexed : d.unindexed with
  | none =>
    rw [index_none isUnindexed]
    exact separated.ordered
  | some b =>
    obtain ⟨isRest, last, -, isLast, -, isDraft⟩ := describes.index_some isUnindexed
    have greatest := separated.le_last isLast
    have beforeRest := separated.beforeRest
    rw [isRest] at greatest beforeRest
    rw [isDraft]
    exact separated.ordered.concat (fun e mem => (greatest e mem).trans (above _)) beforeRest

theorem Separated.add (describes : d.Describes crc interval t) {e : FormedEntry}
    (above : ∀ x ∈ d.entries, x.1 < e.1) : ((d.index (FormedKey.separator e.1)).append e).Separated := by
  have next := separated.before_next above
  constructor
  · rw [append_entries, index_entries]
    exact SortedList.pairwise_concat separated.ascending above
  · exact separated.index_ordered describes (FormedKey.le_separator e.1)
  · rw [append_rest]
    cases isUnindexed : d.unindexed with
    | none =>
      rw [index_none isUnindexed]
      intro p mem x inR
      obtain inR | isNext := mem_append.mp inR
      · exact separated.beforeRest p mem x inR
      · rw [mem_singleton.mp isNext]
        exact next p mem
    | some b =>
      obtain ⟨isRest, last, inB, -, -, isDraft⟩ := describes.index_some isUnindexed
      have inEntries : last ∈ d.entries := mem_append_right _ (isRest ▸ inB)
      rw [isDraft]
      intro p mem x isNext
      rw [mem_singleton.mp isNext]
      obtain mem | isPiece := mem_append.mp mem
      · exact next p mem
      · rw [mem_singleton.mp isPiece]
        exact Piece.before_separator inB (above last inEntries)
  · right
    rw [append_rest]
    exact append_ne_nil_of_right_ne_nil _ nofun

end

/-! ### The keys of the filters -/

/-- The key is in the filter for the offset, or in the one that is being made. -/
def Covers (filters : List (List Bytes)) (keys : List Bytes) (offset : Nat) (key : Bytes) : Prop :=
  ∃ ks, (filters ++ [keys])[offset / kFilterBase]? = some ks ∧ key ∈ ks

structure Filtered (d : Draft) (length : Nat) (filters : List (List Bytes)) (keys : List Bytes) : Prop where
  count : filters.length = length / kFilterBase
  opened : ∀ e ∈ d.opened, e.1.1.encode ∈ keys
  written : ∀ b ∈ d.written, ∀ e ∈ b.2, Covers filters keys b.1.offset e.1.1.encode

variable {filters : List (List Bytes)} {keys : List Bytes} {length : Nat} {key : Bytes}

section

variable {o : Nat} (covers : Covers filters keys o key)

include covers

theorem Covers.addKey (more : List Bytes) : Covers filters (keys ++ more) o key := by
  obtain ⟨ks, isFilter, mem⟩ := covers
  rw [Covers]
  by_cases made : o / kFilterBase < filters.length
  · rw [getElem?_append_left made] at isFilter ⊢
    exact ⟨ks, isFilter, mem⟩
  rw [getElem?_append_right (Nat.le_of_not_lt made)] at isFilter ⊢
  rw [getElem?_singleton] at isFilter ⊢
  split at isFilter
  case isTrue isLast =>
    cases isFilter
    exact ⟨_, if_pos isLast, mem_append_left _ mem⟩
  case isFalse => cases isFilter

theorem Covers.extend (turns : Nat) :
    Covers (FilterBlockBuilder.extend filters keys turns).1 (FilterBlockBuilder.extend filters keys turns).2 o key := by
  obtain ⟨ks, isFilter, mem⟩ := covers
  refine ⟨ks, ?_, mem⟩
  cases turns with
  | zero => exact isFilter
  | succ turns =>
    have longer : filters ++ keys :: replicate turns [] ++ [[]] =
        (filters ++ [keys]) ++ (replicate turns [] ++ [[]]) := by simp
    rw [FilterBlockBuilder.extend, longer]
    exact getElem?_append_left (List.getElem?_eq_some_iff.mp isFilter).1 ▸ isFilter

theorem Covers.allFilters :
    ∃ h : o / kFilterBase < (FilterBlockBuilder.allFilters filters keys).length,
      key ∈ (FilterBlockBuilder.allFilters filters keys)[o / kFilterBase] := by
  obtain ⟨ks, isFilter, mem⟩ := covers
  suffices found : (FilterBlockBuilder.allFilters filters keys)[o / kFilterBase]? = some ks by
    obtain ⟨h, eq⟩ := List.getElem?_eq_some_iff.mp found
    exact ⟨h, eq ▸ mem⟩
  rw [FilterBlockBuilder.allFilters]
  split
  case isFalse => exact isFilter
  case isTrue noKeys =>
    by_cases made : o / kFilterBase < filters.length
    · rwa [getElem?_append_left made] at isFilter
    rw [getElem?_append_right (Nat.le_of_not_lt made), getElem?_singleton, noKeys] at isFilter
    split at isFilter
    case isTrue =>
      cases isFilter
      cases mem
    case isFalse => cases isFilter

end

theorem extend_length (filters : List (List Bytes)) (keys : List Bytes) (turns : Nat) :
    (FilterBlockBuilder.extend filters keys turns).1.length = filters.length + turns := by
  cases turns with
  | zero => rfl
  | succ turns => simp [FilterBlockBuilder.extend]

theorem startBlock_ofFilters (policy : FilterPolicy) (o : Nat) :
    (FilterBlockBuilder.ofFilters policy filters keys).startBlock policy o =
      .ofFilters policy (FilterBlockBuilder.extend filters keys (o / kFilterBase - filters.length)).1
        (FilterBlockBuilder.extend filters keys (o / kFilterBase - filters.length)).2 := by
  rw [FilterBlockBuilder.startBlock, FilterBlockBuilder.ofFilters_offsets_length,
    FilterBlockBuilder.iterate_generateFilter]

theorem Filtered.append (filtered : d.Filtered length filters keys) (e : FormedEntry) :
    (d.append e).Filtered length filters (keys ++ [e.1.1.encode]) where
  count := filtered.count
  opened x mem := by
    obtain mem | isNext := mem_append.mp mem
    · exact mem_append_left _ (filtered.opened x mem)
    · rw [mem_singleton.mp isNext]
      exact mem_append_right _ (mem_singleton_self _)
  written b mem x inBlock := (filtered.written b mem x inBlock).addKey _

theorem Filtered.flush (filtered : d.Filtered length filters keys) (some_ : d.opened ≠ []) (size : Nat)
    {longer : Nat} (grows : length ≤ longer) :
    (d.flush ⟨length, size⟩).Filtered longer
      (FilterBlockBuilder.extend filters keys (longer / kFilterBase - filters.length)).1
      (FilterBlockBuilder.extend filters keys (longer / kFilterBase - filters.length)).2 where
  count := by
    have more : length / kFilterBase ≤ longer / kFilterBase := Nat.div_le_div_right grows
    rw [extend_length, filtered.count]
    omega
  opened := by
    rw [Draft.flush, if_neg some_]
    nofun
  written := by
    rw [Draft.flush, if_neg some_]
    intro b mem x inB
    obtain mem | last := mem_append.mp mem
    · exact (filtered.written b (mem_append_left _ mem) x inB).extend _
    cases mem_singleton.mp last
    apply Covers.extend
    refine ⟨keys, ?_, filtered.opened x inB⟩
    rw [← filtered.count, getElem?_concat_length]

/-! ### Runs of the builder -/

variable (crc interval) in
/-- The draft describes the builder, with filters if there is a policy. -/
structure Invariant (d : Draft) (policy : Option FilterPolicy) (w : TableWriter) : Prop where
  describes : d.Describes crc interval w.table
  separated : d.Separated
  filtered : ∃ filters keys, w.filterBlock = policy.map (fun policy => (policy, .ofFilters policy filters keys)) ∧
    d.Filtered w.table.file.length filters keys

variable {policy : Option FilterPolicy} {w : TableWriter}

theorem empty_invariant : empty.Invariant crc interval policy (.new policy) where
  describes := empty_describes
  separated := empty_separated
  filtered := ⟨[], [], rfl, (Nat.zero_div kFilterBase).symm, nofun, nofun⟩

theorem Invariant.flush (inv : d.Invariant crc interval policy w) :
    (d.flush ⟨w.table.file.length, w.table.dataBlock.finish.length⟩).Invariant crc interval policy (w.flush crc) where
  describes := by
    rw [TableWriter.flush_table]
    exact inv.describes.flush
  separated := inv.separated.flush _ inv.describes.alone
  filtered := by
    obtain ⟨filters, keys, isBlock, filtered⟩ := inv.filtered
    have isEmpty : w.table.dataBlock.buffer = [] ↔ d.opened = [] := by
      rw [inv.describes.dataBlock, addAll_buffer_eq_nil, KeyCoding.stored, map_eq_nil_iff]
    by_cases noOpened : d.opened = []
    · rw [TableWriter.flush, if_pos (isEmpty.mpr noOpened), Draft.flush, if_pos noOpened]
      exact ⟨filters, keys, isBlock, filtered⟩
    have someBytes := mt isEmpty.mp noOpened
    have grows : w.table.file.length ≤ (w.table.flush (maskedCrc crc)).file.length := by
      rw [TableBuilder.flush, if_neg someBytes, writeBlock_eq, length_append]
      exact Nat.le_add_right ..
    rw [TableWriter.flush, if_neg someBytes]
    refine ⟨_, _, ?_, filtered.flush noOpened _ grows⟩
    simp only [isBlock, Option.map_map, Function.comp_def, startBlock_ofFilters]

theorem Invariant.add {options : TableOptions} (inv : d.Invariant crc options.blockRestartInterval policy w)
    {e : FormedEntry} (above : ∀ x ∈ d.entries, x.1 < e.1) : ∃ d' : Draft,
      d'.Invariant crc options.blockRestartInterval policy (w.add crc options e) ∧ d'.entries = d.entries ++ [e] := by
  obtain ⟨filters, keys, isBlock, filtered⟩ := inv.filtered
  have isEntries : ((d.index (FormedKey.separator e.1)).append e).entries = d.entries ++ [e] := by
    rw [append_entries, index_entries]
  have sameFile := (w.table.indexPending_size fun lastKey => findShortestSeparator lastKey e.1).1
  have appended : ((d.index (FormedKey.separator e.1)).append e).Invariant crc options.blockRestartInterval policy
      ⟨{ w.table.indexPending fun lastKey => findShortestSeparator lastKey e.1 with
          lastKey := some e.1.1
          dataBlock := (w.table.indexPending fun lastKey => findShortestSeparator lastKey e.1).dataBlock.add
            options.blockRestartInterval e.1.1.encode e.2 },
        w.filterBlock.map fun (policy, fb) => (policy, fb.addKey e.1.1.encode)⟩ := by
    refine ⟨(inv.describes.index fun _ => rfl).append (inv.describes.index_unindexed _) e,
      inv.separated.add inv.describes above, filters, keys ++ [e.1.1.encode], ?_, ?_⟩
    · simp only [isBlock, Option.map_map]
      rfl
    simp only [sameFile]
    apply Filtered.append
    exact ⟨filtered.count, by rw [index_opened]; exact filtered.opened, by rw [index_written]; exact filtered.written⟩
  rw [TableWriter.add]
  simp only
  split
  case isTrue => exact ⟨_, appended.flush, (flush_entries _ appended.describes.alone).2.1.trans isEntries⟩
  case isFalse => exact ⟨_, appended, isEntries⟩

theorem build_invariant (options : TableOptions) {l : List FormedEntry} (asc : Ascending l) : ∃ d : Draft,
    d.Invariant crc options.blockRestartInterval policy (.build crc options policy l) ∧ d.entries = l := by
  induction l using List.reverseRecOn with
  | nil => exact ⟨_, empty_invariant, rfl⟩
  | append_singleton front e ih =>
    obtain ⟨frontAscending, -, above⟩ := pairwise_append.mp asc
    obtain ⟨d, inv, rfl⟩ := ih frontAscending
    rw [TableWriter.build, foldl_append]
    exact inv.add fun x mem => above x mem e (mem_singleton_self _)

end Draft

/-! ## The finished file -/

/-- The metaindex has at most the handle of the filter block. -/
def metaEntries (policy : Option FilterPolicy) (handle : BlockHandle) : List (Bytes × Bytes) :=
  policy.toList.map fun policy => (Table.filterKey policy, handle.encode)

/-- Data blocks in a file, with the separators and filters for them. -/
structure DataBlocks (crc : Crc) (interval : Nat) (file : Bytes) (pieces : List Piece) (filters : List (List Bytes))
    (keys : List Bytes) : Prop where
  ordered : Ordered pieces
  offsets : pieces.Pairwise fun p q => p.handle.offset < q.handle.offset
  nonempty : ∀ p ∈ pieces, p.entries ≠ []
  inFile : ∀ p ∈ pieces,
    IsStored crc file p.handle (BlockBuilder.addAll interval (internalCoding.stored p.entries)).finish
  covers : ∀ p ∈ pieces, ∀ e ∈ p.entries, Draft.Covers filters keys p.handle.offset e.1.1.encode

/-- A file with the entries, as a reader needs it. -/
structure TableFile (crc : Crc) (interval : Nat) (policy : Option FilterPolicy) (l : List FormedEntry)
    (contents : Bytes) where
  pieces : List Piece
  filters : List (List Bytes)
  keys : List Bytes
  metaindex : BlockHandle
  index : BlockHandle
  filter : BlockHandle
  isFooter : ∃ front, contents = front ++ TableBuilder.encodeFooter metaindex index
  isList : l = pieces.flatMap (·.entries)
  blocks : DataBlocks crc interval contents pieces filters keys
  isIndex : IsStored crc contents index
    (BlockBuilder.addAll 1 (internalCoding.stored (Draft.indexEntries pieces))).finish
  isMetaindex : IsStored crc contents metaindex (BlockBuilder.addAll interval (metaEntries policy filter)).finish
  isFilter : ∀ p ∈ policy, IsStored crc contents filter ((FilterBlockBuilder.ofFilters p filters keys).finish p)

section

variable {crc : Crc} {interval : Nat} {options : TableOptions} {policy : Option FilterPolicy} {w : TableWriter}

theorem DataBlocks.append {file : Bytes} {pieces : List Piece} {filters : List (List Bytes)} {keys : List Bytes}
    (blocks : DataBlocks crc interval file pieces filters keys) (more : Bytes) :
    DataBlocks crc interval (file ++ more) pieces filters keys :=
  { blocks with inFile := fun p mem => (blocks.inFile p mem).append more }

/-- After the last block has been written, and is in the index, there is nothing but data blocks. -/
theorem Draft.Invariant.dataBlocks {d : Draft} (inv : d.Invariant crc interval policy w) : ∃ pieces filters keys,
    d.entries = pieces.flatMap (·.entries) ∧
    DataBlocks crc interval (w.flush crc).table.file pieces filters keys ∧
    ((w.flush crc).table.indexPending findShortSuccessor).indexBlock =
      .addAll 1 (internalCoding.stored (Draft.indexEntries pieces)) ∧
    (w.flush crc).filterBlock = policy.map fun policy => (policy, .ofFilters policy filters keys) := by
  have flushed := inv.flush
  obtain ⟨-, sameEntries, noOpened⟩ := @Draft.flush_entries d ⟨w.table.file.length, w.table.dataBlock.finish.length⟩
    inv.describes.alone
  generalize d.flush ⟨w.table.file.length, w.table.dataBlock.finish.length⟩ = d' at flushed sameEntries noOpened
  obtain ⟨filters, keys, isBlock, filtered⟩ := flushed.filtered
  have indexed := @Draft.Describes.index _ _ _ _ flushed.describes findShortSuccessor FormedKey.successor fun _ => rfl
  have noUnindexed := flushed.describes.index_unindexed FormedKey.successor
  have isWritten : d'.written = (d'.index FormedKey.successor).pieces.map fun p => (p.handle, p.entries) := by
    rw [← Draft.index_written FormedKey.successor, Draft.written, noUnindexed, Option.toList_none, append_nil]
  have ofPiece : ∀ p ∈ (d'.index FormedKey.successor).pieces, (p.handle, p.entries) ∈ d'.written := by
    intro p mem
    rw [isWritten]
    exact mem_map_of_mem mem
  have offsets := flushed.describes.offsets
  rw [isWritten, pairwise_map] at offsets
  refine ⟨(d'.index FormedKey.successor).pieces, filters, keys, ?_, ?_, indexed.indexBlock, isBlock⟩
  · rw [← sameEntries, ← Draft.index_entries FormedKey.successor, Draft.entries, Draft.rest, noUnindexed,
      Draft.index_opened, noOpened, Option.toList_none, flatMap_nil, append_nil, append_nil]
  exact {
    ordered := flushed.separated.index_ordered flushed.describes FormedKey.le_successor
    offsets := offsets
    nonempty := fun p mem => flushed.describes.nonempty _ (ofPiece p mem)
    inFile := fun p mem => flushed.describes.inFile _ (ofPiece p mem)
    covers := fun p mem => filtered.written _ (ofPiece p mem) }

theorem TableWriter.finish_eq {fb : FilterPolicy → FilterBlockBuilder}
    (isBlock : (w.flush crc).filterBlock = policy.map fun policy => (policy, fb policy)) :
    ∃ file metaBlock indexBlock filter, w.finish crc options =
        file ++ withTrailer crc metaBlock ++ withTrailer crc indexBlock ++
          TableBuilder.encodeFooter ⟨file.length, metaBlock.length⟩
            ⟨(file ++ withTrailer crc metaBlock).length, indexBlock.length⟩ ∧
      metaBlock = (BlockBuilder.addAll options.blockRestartInterval (metaEntries policy filter)).finish ∧
      indexBlock = ((w.flush crc).table.indexPending findShortSuccessor).indexBlock.finish ∧
      (∃ more, file = (w.flush crc).table.file ++ more) ∧
      ∀ p ∈ policy, IsStored crc file filter ((fb p).finish p) := by
  cases policy with
  | none =>
    refine ⟨(w.flush crc).table.file, _, _, ⟨0, 0⟩, ?_, rfl, rfl, ⟨[], (append_nil _).symm⟩, nofun⟩
    rw [finish]
    simp only [isBlock, Option.map_none, writeBlock_eq]
    rfl
  | some policy =>
    refine ⟨(w.flush crc).table.file ++ withTrailer crc ((fb policy).finish policy), _, _,
      ⟨(w.flush crc).table.file.length, ((fb policy).finish policy).length⟩, ?_, rfl, rfl, ⟨_, rfl⟩, ?_⟩
    · rw [finish]
      simp only [isBlock, Option.map_some, writeBlock_eq]
      rfl
    · rintro _ ⟨⟩
      exact isStored_written crc _ _

/-- What is built from entries in ascending order is a file with them. -/
theorem finish_tableFile {l : List FormedEntry} (asc : Ascending l) :
    Nonempty (TableFile crc options.blockRestartInterval policy l
      ((TableWriter.build crc options policy l).finish crc options)) := by
  obtain ⟨d, inv, isList⟩ := @Draft.build_invariant crc policy options l asc
  obtain ⟨pieces, filters, keys, isEntries, blocks, isIndex, isBlock⟩ := inv.dataBlocks
  obtain ⟨file, metaBlock, indexBlock, filter, isContents, isMeta, isIndexBlock, ⟨more, isMore⟩, isFilter⟩ :=
    @TableWriter.finish_eq crc options policy _ _ isBlock
  rw [isIndex] at isIndexBlock
  rw [isContents, ← isList]
  exact ⟨{
    pieces, filters, keys, filter
    metaindex := ⟨file.length, metaBlock.length⟩
    index := ⟨(file ++ withTrailer crc metaBlock).length, indexBlock.length⟩
    isFooter := ⟨_, rfl⟩
    isList := isEntries
    blocks := by
      rw [isMore, append_assoc, append_assoc, append_assoc]
      exact blocks.append _
    isIndex := by
      rw [← isIndexBlock]
      exact (isStored_written crc _ _).append _
    isMetaindex := by
      rw [← isMeta]
      exact ((isStored_written crc _ _).append _).append _
    isFilter := fun p isPolicy => (((isFilter p isPolicy).append _).append _).append _ }⟩

end

end Elsm
