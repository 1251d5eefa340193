import Mathlib.Data.Finset.Sort
import Mathlib.Data.Prod.Lex
import Elsm.Format.Coding
import Elsm.Version.Recover

/-!
# The bytes of an edit (`VersionEdit::EncodeTo` and `DecodeFrom`)

Here keys and names are the strings they are stored as, of any content, and the deleted files are a set.  `EncodeTo`
writes tagged fields, and `DecodeFrom` undoes it (`decodeFrom_encodeTo`).  A byte string that `DecodeFrom` accepts
is cut into such fields without a rest (`decodeFrom_fields`).
-/

namespace Elsm

open List
open Merkle (Digest)
open Reading (Local andThen give)

/-! ## Strings and numbers -/

/-- `HeapMaxSize` in `Enclave.config.xml`. -/
def kHeapMaxSize : Nat := 0x100000000

/-- A `std::string`, which is allocated on the heap of the enclave. -/
abbrev HeapString := { s : Bytes // s.length < kHeapMaxSize }

abbrev UInt64Value := Fin (2 ^ 64)

abbrev UInt64Value.ofNat : Nat → UInt64Value := Fin.ofNat (2 ^ 64)

/-- `GetVarint64` -/
def getNumber : Reading.Reader UInt8 UInt64Value :=
  andThen getVarint64 fun value => give (UInt64Value.ofNat value)

/-- `GetLengthPrefixedSlice` into a string. -/
def getString : Reading.Reader UInt8 HeapString := fun input =>
  match isLength : getVarint32 input with
  | none => none
  | some (len, rest) =>
    if len ≤ rest.length then
      some (⟨rest.take len, (length_take_le ..).trans_lt (getVarint32_lt isLength)⟩, rest.drop len)
    else none

def getLevel (input : Bytes) : Option (Nat × Bytes) :=
  match getVarint32 input with
  | some (v, rest) => if v < kNumLevels then some (v, rest) else none
  | none => none

theorem getNumber_reads (n : UInt64Value) : Reading.Reads getNumber (encodeVarint64 n) n := by
  have reads : Reading.Reads getVarint64 (encodeVarint64 n) n.val := fun rest => getVarint64_encodeVarint64 n.2 rest
  have given := reads.andGive UInt64Value.ofNat
  rwa [UInt64Value.ofNat, Fin.ofNat_val_eq_self] at given

theorem getNumber_local : Local getNumber := (getVarintLoop_local 64 10 0 0).andThen fun _ => .give _

variable {input rest : Bytes}

theorem getString_eq {s : HeapString} :
    getString input = some (s, rest) ↔ getLengthPrefixedSlice input = some (s.1, rest) := by
  rw [getString, getLengthPrefixedSlice]
  split
  case h_1 isNone => simp [isNone]
  case h_2 len rest' isLength =>
    simp only [isLength]
    split
    case isTrue => simp [Subtype.ext_iff]
    case isFalse => simp

theorem getString_reads (s : HeapString) : Reading.Reads getString (putLengthPrefixedSlice s.1) s := by
  intro rest
  rw [getString_eq]
  exact getLengthPrefixedSlice_put s.2 rest

theorem getString_local : Local getString := by
  intro input s rest read
  obtain ⟨used, -, rfl, reads⟩ := getLengthPrefixedSlice_consumes _ _ _ (getString_eq.mp read)
  exact ⟨used, rfl, fun more => getString_eq.mpr (reads more)⟩

/-! ## The edit -/

/-- What is written of a `FileMetaData`, with the `rep_` of its keys. -/
structure FileEntry where
  number : UInt64Value
  fileSize : UInt64Value
  smallest : HeapString
  largest : HeapString
  deriving DecidableEq

/-- A `VersionEdit`.  A value is there when its `has_` flag is set. -/
@[ext]
structure EditRecord where
  comparator : Option HeapString
  logNumber : Option UInt64Value
  prevLogNumber : Option UInt64Value
  nextFileNumber : Option UInt64Value
  lastSequence : Option UInt64Value
  compactPointers : List (Nat × HeapString)
  /-- An ordered set of pairs of a level and a number. -/
  deletedFiles : Finset (Nat ×ₗ UInt64Value)
  newFiles : List (Nat × FileEntry)

inductive EditField where
  | comparator (name : HeapString)
  | logNumber (number : UInt64Value)
  | nextFileNumber (number : UInt64Value)
  | lastSequence (number : UInt64Value)
  | compactPointer (level : Nat) (key : HeapString)
  | deletedFile (level : Nat) (number : UInt64Value)
  | newFile (level : Nat) (f : FileEntry)
  | prevLogNumber (number : UInt64Value)

namespace EditField

/-- `PutVarint32(dst, tag)` and what follows it. -/
def put : EditField → Bytes
  | comparator name => encodeVarint32 1 ++ putLengthPrefixedSlice name.1
  | logNumber number => encodeVarint32 2 ++ encodeVarint64 number
  | nextFileNumber number => encodeVarint32 3 ++ encodeVarint64 number
  | lastSequence number => encodeVarint32 4 ++ encodeVarint64 number
  | compactPointer level key => encodeVarint32 5 ++ (encodeVarint32 level ++ putLengthPrefixedSlice key.1)
  | deletedFile level number => encodeVarint32 6 ++ (encodeVarint32 level ++ encodeVarint64 number)
  | newFile level f => encodeVarint32 7 ++ (encodeVarint32 level ++ (encodeVarint64 f.number ++
      (encodeVarint64 f.fileSize ++ (putLengthPrefixedSlice f.smallest.1 ++ putLengthPrefixedSlice f.largest.1))))
  | prevLogNumber number => encodeVarint32 9 ++ encodeVarint64 number

def body : Nat → Option (String × Reading.Reader UInt8 EditField)
  | 1 => some ("comparator name", andThen getString fun name => give (comparator name))
  | 2 => some ("log number", andThen getNumber fun number => give (logNumber number))
  | 3 => some ("next file number", andThen getNumber fun number => give (nextFileNumber number))
  | 4 => some ("last sequence number", andThen getNumber fun number => give (lastSequence number))
  | 5 => some ("compaction pointer", andThen getLevel fun level => andThen getString fun key =>
      give (compactPointer level key))
  | 6 => some ("deleted file", andThen getLevel fun level => andThen getNumber fun number =>
      give (deletedFile level number))
  | 7 => some ("new-file entry", andThen getLevel fun level => andThen getNumber fun number =>
      andThen getNumber fun fileSize => andThen getString fun smallest => andThen getString fun largest =>
        give (newFile level ⟨number, fileSize, smallest, largest⟩))
  | 9 => some ("previous log number", andThen getNumber fun number => give (prevLogNumber number))
  | _ => none

def LevelOk : EditField → Prop
  | compactPointer level _ | deletedFile level _ | newFile level _ => level < kNumLevels
  | _ => True

/-- `Encode` asserts that a key is not empty. -/
def KeysOk : EditField → Prop
  | compactPointer _ key => key.1 ≠ []
  | newFile _ f => f.smallest.1 ≠ [] ∧ f.largest.1 ≠ []
  | _ => True

instance : DecidablePred KeysOk := fun field =>
  match field with
  | compactPointer _ key => inferInstanceAs (Decidable (key.1 ≠ []))
  | newFile _ f => inferInstanceAs (Decidable (f.smallest.1 ≠ [] ∧ f.largest.1 ≠ []))
  | comparator _ | logNumber _ | nextFileNumber _ | lastSequence _ | deletedFile _ _ | prevLogNumber _ =>
    inferInstanceAs (Decidable True)

/-- A whole field: the tag and what it announces. -/
def get : Reading.Reader UInt8 EditField :=
  andThen getVarint32 fun tag => (body tag).elim (fun _ => none) (·.2)

end EditField

namespace EditRecord

def new : EditRecord := ⟨none, none, none, none, none, [], ∅, []⟩

/-- `Clear`, which leaves the compaction pointers. -/
def clear (edit : EditRecord) : EditRecord := { new with compactPointers := edit.compactPointers }

def set (edit : EditRecord) : EditField → EditRecord
  | .comparator name => { edit with comparator := some name }
  | .logNumber number => { edit with logNumber := some number }
  | .nextFileNumber number => { edit with nextFileNumber := some number }
  | .lastSequence number => { edit with lastSequence := some number }
  | .compactPointer level key => { edit with compactPointers := edit.compactPointers ++ [(level, key)] }
  | .deletedFile level number => { edit with deletedFiles := insert (toLex (level, number)) edit.deletedFiles }
  | .newFile level f => { edit with newFiles := edit.newFiles ++ [(level, f)] }
  | .prevLogNumber number => { edit with prevLogNumber := some number }

abbrev deletedList (edit : EditRecord) : List (Nat ×ₗ UInt64Value) := edit.deletedFiles.sort (· ≤ ·)

/-- The fields in the order in which `EncodeTo` writes them. -/
def fields (edit : EditRecord) : List EditField :=
  edit.comparator.toList.map .comparator ++ edit.logNumber.toList.map .logNumber ++
  edit.prevLogNumber.toList.map .prevLogNumber ++ edit.nextFileNumber.toList.map .nextFileNumber ++
  edit.lastSequence.toList.map .lastSequence ++
  edit.compactPointers.map (fun (level, key) => .compactPointer level key) ++
  edit.deletedList.map (fun entry => .deletedFile (ofLex entry).1 (ofLex entry).2) ++
  edit.newFiles.map fun (level, f) => .newFile level f

/-- `EncodeTo`, or `none` where an assertion fails. -/
def encodeTo (edit : EditRecord) : Option Bytes :=
  if ∀ field ∈ edit.fields, field.KeysOk then some (edit.fields.flatMap EditField.put) else none

/-- The loop of `DecodeFrom`: the message, the edit and what is left of the input.  Every tag takes a byte, so the
length of the input bounds its turns. -/
def decodeLoop : Nat → EditRecord → Bytes → Option String × EditRecord × Bytes
  | 0, edit, input => (none, edit, input)
  | bound + 1, edit, input =>
    match getVarint32 input with
    | none => (none, edit, input)
    | some (tag, input) =>
      match EditField.body tag with
      | none => (some "unknown tag", edit, input)
      | some (msg, read) =>
        match read input with
        | none => (some msg, edit, input)
        | some (field, input) => decodeLoop bound (edit.set field) input

def decodeFrom (edit : EditRecord) (src : Bytes) : Except Status EditRecord :=
  match decodeLoop (src.length + 1) edit.clear src with
  | (some msg, _, _) => .error (.corruption ("VersionEdit: " ++ msg))
  | (none, edit, input) => if input = [] then .ok edit else .error (.corruption "VersionEdit: invalid tag")

end EditRecord

/-! ## Fields are read back -/

theorem getLevel_reads {l : Nat} (isLevel : l < kNumLevels) : Reading.Reads getLevel (encodeVarint32 l) l := by
  intro rest
  have fits : l < 2 ^ 32 := isLevel.trans (by decide)
  rw [getLevel, getVarint32_encodeVarint32 fits]
  simp only [if_pos isLevel]

theorem getLevel_local : Local getLevel := by
  intro input l rest read
  rw [getLevel] at read
  split at read
  case h_1 v middle isNumber =>
    split at read
    case isTrue isLevel =>
      cases read
      obtain ⟨used, rfl, reads⟩ := getVarintLoop_local _ _ _ _ _ _ _ isNumber
      refine ⟨used, rfl, fun more => ?_⟩
      have isRead : getVarint32 (used ++ more) = some (l, more) := reads _
      simp only [getLevel, isRead, if_pos isLevel]
    case isFalse => cases read
  case h_2 => cases read

variable {field : EditField}

namespace EditField

variable {read : Reading.Reader UInt8 EditField}

theorem get_reads_of {tag : Nat} {msg : String} {used : Bytes}
    (isTag : tag < 2 ^ 32) (isBody : body tag = some (msg, read)) (reads : Reading.Reads read used field) :
    Reading.Reads get (encodeVarint32 tag ++ used) field := by
  have tagReads : Reading.Reads getVarint32 (encodeVarint32 tag) tag := getVarint32_encodeVarint32 isTag
  apply tagReads.andThen
  rwa [isBody]

theorem get_reads (levelOk : field.LevelOk) : Reading.Reads get field.put field := by
  cases field with
  | comparator name => exact get_reads_of (by decide) rfl ((getString_reads name).andGive _)
  | logNumber n | nextFileNumber n | lastSequence n | prevLogNumber n =>
    exact get_reads_of (by decide) rfl ((getNumber_reads n).andGive _)
  | compactPointer l key =>
    exact get_reads_of (by decide) rfl ((getLevel_reads levelOk).andThen ((getString_reads key).andGive _))
  | deletedFile l n =>
    exact get_reads_of (by decide) rfl ((getLevel_reads levelOk).andThen ((getNumber_reads n).andGive _))
  | newFile l f =>
    apply get_reads_of (by decide) rfl
    apply (getLevel_reads levelOk).andThen
    apply (getNumber_reads f.number).andThen
    apply (getNumber_reads f.fileSize).andThen
    exact (getString_reads f.smallest).andThen ((getString_reads f.largest).andGive _)

theorem body_local {tag : Nat} {msg : String} (isBody : body tag = some (msg, read)) : Local read := by
  unfold body at isBody
  split at isBody
  case h_1 => cases isBody; exact getString_local.andThen fun _ => .give _
  case h_2 | h_3 | h_4 | h_8 => cases isBody; exact getNumber_local.andThen fun _ => .give _
  case h_5 => cases isBody; exact getLevel_local.andThen fun _ => getString_local.andThen fun _ => .give _
  case h_6 => cases isBody; exact getLevel_local.andThen fun _ => getNumber_local.andThen fun _ => .give _
  case h_7 =>
    cases isBody
    exact getLevel_local.andThen fun _ => getNumber_local.andThen fun _ => getNumber_local.andThen fun _ =>
      getString_local.andThen fun _ => getString_local.andThen fun _ => .give _
  case h_9 => cases isBody

theorem get_local : Local get := by
  apply (getVarintLoop_local 32 5 0 0).andThen
  intro tag
  cases isBody : body tag with
  | none => exact fun _ _ _ => nofun
  | some found => exact body_local isBody

theorem put_length_pos (field : EditField) : 1 ≤ field.put.length := by
  obtain ⟨tag, used, isPut⟩ : ∃ tag used, field.put = encodeVarint32 tag ++ used := by
    cases field <;> exact ⟨_, _, rfl⟩
  rw [isPut, length_append]
  exact (encodeVarint32_length_pos tag).trans (Nat.le_add_right ..)

end EditField

namespace EditRecord

variable {edit : EditRecord} {fuel : Nat}

theorem decodeLoop_get (reads : EditField.get input = some (field, rest)) :
    decodeLoop (fuel + 1) edit input = decodeLoop fuel (edit.set field) rest := by
  obtain ⟨⟨tag, body⟩, isTag, isField⟩ := Option.bind_eq_some_iff.mp reads
  rw [decodeLoop, isTag]
  cases isBody : EditField.body tag with
  | none => simp [isBody] at isField
  | some found =>
    obtain ⟨msg, read⟩ := found
    simp only [isBody, Option.elim_some] at isField ⊢
    simp only [isField]

theorem decodeLoop_put {fields : List EditField} (levels : ∀ field ∈ fields, field.LevelOk)
    (le : fields.length < fuel) (edit : EditRecord) :
    decodeLoop fuel edit (fields.flatMap EditField.put) = (none, fields.foldl set edit, []) := by
  induction fields generalizing fuel edit with
  | nil =>
    obtain ⟨fuel, rfl⟩ := Nat.exists_eq_succ_of_ne_zero (Nat.ne_of_gt le)
    rfl
  | cons field rest ih =>
    obtain ⟨fuel, rfl⟩ := Nat.exists_eq_succ_of_ne_zero (Nat.ne_of_gt (Nat.zero_lt_of_lt le))
    have reads := EditField.get_reads (levels field mem_cons_self) (rest.flatMap EditField.put)
    rw [flatMap_cons, decodeLoop_get reads, foldl_cons]
    exact ih (forall_mem_cons.mp levels).2 (Nat.lt_of_succ_lt_succ le) _

/-! ## An edit is read back -/

theorem foldl_compactPointers (es : List (Nat × HeapString)) (start : EditRecord) :
    (es.map fun (l, key) => EditField.compactPointer l key).foldl set start =
      { start with compactPointers := start.compactPointers ++ es } := by
  induction es generalizing start with
  | nil => simp
  | cons e rest ih => rw [map_cons, foldl_cons, ih]; simp [set]

theorem foldl_deletedFiles (es : List (Nat ×ₗ UInt64Value)) (start : EditRecord) :
    (es.map fun e => EditField.deletedFile (ofLex e).1 (ofLex e).2).foldl set start =
      { start with deletedFiles := es.toFinset ∪ start.deletedFiles } := by
  induction es generalizing start with
  | nil => simp
  | cons e rest ih =>
    rw [map_cons, foldl_cons, ih, toFinset_cons]
    simp [set, Finset.insert_union, Finset.union_insert]

theorem foldl_newFiles (es : List (Nat × FileEntry)) (start : EditRecord) :
    (es.map fun (l, f) => EditField.newFile l f).foldl set start = { start with newFiles := start.newFiles ++ es } := by
  induction es generalizing start with
  | nil => simp
  | cons e rest ih => rw [map_cons, foldl_cons, ih]; simp [set]

theorem foldl_fields (edit : EditRecord) : edit.fields.foldl set new = edit := by
  rw [fields, foldl_append, foldl_newFiles, foldl_append, foldl_deletedFiles, foldl_append,
    foldl_compactPointers, Finset.sort_toFinset]
  obtain ⟨comparator, logNumber, prevLogNumber, nextFileNumber, lastSequence, _, _, _⟩ := edit
  cases comparator <;> cases logNumber <;> cases prevLogNumber <;> cases nextFileNumber <;> cases lastSequence <;>
    simp [set, new]

structure Valid (edit : EditRecord) : Prop where
  compactPointers : ∀ entry ∈ edit.compactPointers, entry.1 < kNumLevels ∧ entry.2.1 ≠ []
  deletedFiles : ∀ entry ∈ edit.deletedFiles, (ofLex entry).1 < kNumLevels
  newFiles : ∀ entry ∈ edit.newFiles, entry.1 < kNumLevels ∧ entry.2.smallest.1 ≠ [] ∧ entry.2.largest.1 ≠ []

theorem Valid.fields (valid : edit.Valid) : ∀ field ∈ edit.fields, field.LevelOk ∧ field.KeysOk := by
  intro field mem
  simp only [EditRecord.fields, mem_append, mem_map, Option.mem_toList, Finset.mem_sort] at mem
  rcases mem with ((((((⟨_, _, rfl⟩ | ⟨_, _, rfl⟩) | ⟨_, _, rfl⟩) | ⟨_, _, rfl⟩) | ⟨_, _, rfl⟩) |
    ⟨entry, inEdit, rfl⟩) | ⟨entry, inEdit, rfl⟩) | ⟨entry, inEdit, rfl⟩
  iterate 5 exact ⟨trivial, trivial⟩
  · exact valid.compactPointers entry inEdit
  · exact ⟨valid.deletedFiles entry inEdit, trivial⟩
  · exact valid.newFiles entry inEdit

theorem decodeFrom_encodeTo (valid : edit.Valid) :
    ∃ bytes, edit.encodeTo = some bytes ∧ decodeFrom new bytes = .ok edit := by
  have levels : ∀ field ∈ edit.fields, field.LevelOk := fun field mem => (valid.fields field mem).1
  have keys : ∀ field ∈ edit.fields, field.KeysOk := fun field mem => (valid.fields field mem).2
  have le : edit.fields.length ≤ (edit.fields.flatMap EditField.put).length := by
    rw [length_flatMap]
    induction edit.fields with
    | nil => exact Nat.le_refl _
    | cons field rest ih =>
      have := field.put_length_pos
      rw [length_cons, map_cons, sum_cons]
      omega
  refine ⟨_, if_pos keys, ?_⟩
  have isClear : new.clear = new := rfl
  rw [decodeFrom, isClear, decodeLoop_put levels (Nat.lt_succ_of_le le), foldl_fields]
  rfl

/-! ## What is accepted is a list of fields -/

/-- A list of fields, each with the bytes it was read from. -/
def Fields (input : Bytes) (fields : List EditField) : Prop :=
  ∃ pieces, input = pieces.flatten ∧ List.Forall₂ (Reading.Reads EditField.get) pieces fields

theorem decodeLoop_fields {edit' : EditRecord} (loop : decodeLoop fuel edit input = (none, edit', rest)) :
    ∃ fields run, input = run ++ rest ∧ Fields run fields ∧ edit' = fields.foldl set edit := by
  induction fuel generalizing edit input with
  | zero =>
    cases loop
    exact ⟨[], [], rfl, ⟨[], rfl, .nil⟩, rfl⟩
  | succ fuel ih =>
    rw [decodeLoop] at loop
    cases isTag : getVarint32 input with
    | none =>
      simp only [isTag] at loop
      cases loop
      exact ⟨[], [], rfl, ⟨[], rfl, .nil⟩, rfl⟩
    | some found =>
      simp only [isTag] at loop
      split at loop
      case h_1 => cases loop
      case h_2 msg read isBody =>
        split at loop
        case h_1 => cases loop
        case h_2 field input' isField =>
          have isGet : EditField.get input = some (field, input') := by
            rw [EditField.get, andThen, isTag, Option.bind_some, isBody]
            exact isField
          obtain ⟨used, rfl, reads⟩ := EditField.get_local _ _ _ isGet
          obtain ⟨fields, run, rfl, ⟨pieces, rfl, all⟩, rfl⟩ := ih loop
          exact ⟨field :: fields, used ++ pieces.flatten, (append_assoc ..).symm,
            ⟨used :: pieces, rfl, .cons reads all⟩, rfl⟩

theorem decodeFrom_fields {start : EditRecord} {src : Bytes} (accepts : decodeFrom start src = .ok edit) :
    ∃ fields, Fields src fields ∧ edit = fields.foldl set start.clear := by
  rw [decodeFrom] at accepts
  split at accepts
  case h_1 => cases accepts
  case h_2 edit' rest loop =>
    split at accepts
    case isFalse => cases accepts
    case isTrue isEnd =>
      cases accepts
      obtain ⟨fields, run, rfl, all, isEdit⟩ := decodeLoop_fields loop
      exact ⟨fields, by rwa [isEnd, append_nil], isEdit⟩

/-- An edit is read back as it was, and an accepted string has no byte that is not part of a field. -/
theorem roundTrip_and_consumed :
    (∀ edit : EditRecord, edit.Valid → ∃ bytes, edit.encodeTo = some bytes ∧ decodeFrom new bytes = .ok edit) ∧
    ∀ start src edit, decodeFrom start src = .ok edit →
      ∃ fields, Fields src fields ∧ edit = fields.foldl set start.clear :=
  ⟨fun _ => decodeFrom_encodeTo, fun _ _ _ => decodeFrom_fields⟩

def compactionEdit : EditRecord where
  comparator := none
  logNumber := some 4
  prevLogNumber := some 0
  nextFileNumber := some 9
  lastSequence := some 300
  compactPointers := [(1, ⟨[107, 1, 0, 0, 0, 0, 0, 0, 0], by decide⟩)]
  deletedFiles := {toLex (2, 5), toLex (1, 7)}
  newFiles := [(2, ⟨8, 1000, ⟨[97, 1, 0, 0, 0, 0, 0, 0, 0], by decide⟩, ⟨[107, 1, 0, 0, 0, 0, 0, 0, 0], by decide⟩⟩)]

theorem roundTrip_and_consumed_compaction :
    (∃ bytes, compactionEdit.encodeTo = some bytes ∧ decodeFrom new bytes = .ok compactionEdit) ∧
    ∃ fields, Fields [2, 4, 6, 1, 7] fields ∧ { new with logNumber := some 4, deletedFiles := {toLex (1, 7)} } =
      fields.foldl set new := by
  have valid : compactionEdit.Valid := by constructor <;> decide
  have accepts : decodeFrom new [2, 4, 6, 1, 7] =
      .ok { new with logNumber := some 4, deletedFiles := {toLex (1, 7)} } := rfl
  exact ⟨roundTrip_and_consumed.1 compactionEdit valid, roundTrip_and_consumed.2 new _ _ accepts⟩

end EditRecord

end Elsm
