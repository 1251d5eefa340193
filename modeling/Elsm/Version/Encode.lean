import Mathlib.Data.List.Sort
import Elsm.Version.Untrusted

/-!
# Writing an edit to a MANIFEST (`VersionEdit::EncodeTo`)

`decodeFrom_encodeTo` says what `DecodeFrom` makes of an encoded edit: the same edit, without the root hashes
of its files and with the deleted files in the order of their set.  `recoverEdits_eq` is the step from the
edits in a MANIFEST to `recover`, which knows nothing of the assertions on keys.
-/

namespace Elsm

open List
open Merkle (Digest)

variable {edit : VersionEdit Bytes}

def heapString (s : Bytes) : HeapString :=
  ⟨s.take (kHeapMaxSize - 1), (length_take_le ..).trans_lt (by decide)⟩

theorem heapString_val {s : Bytes} (short : s.length < kHeapMaxSize) : (heapString s).1 = s :=
  take_of_length_le (Nat.le_pred_of_lt short)

namespace VersionEdit

/-- `deleted_files_`, an ordered set of pairs. -/
def deletedSet (edit : VersionEdit Bytes) : List (Nat × Nat) :=
  edit.deletedFiles.dedup.insertionSort fun a b => toLex a ≤ toLex b

def record (edit : VersionEdit Bytes) : EditRecord where
  comparator := edit.comparator.map fun name => heapString (ascii name.toList)
  logNumber := edit.logNumber.map UInt64Value.ofNat
  prevLogNumber := edit.prevLogNumber.map UInt64Value.ofNat
  nextFileNumber := edit.nextFileNumber.map UInt64Value.ofNat
  lastSequence := edit.lastSequence.map UInt64Value.ofNat
  compactPointers := edit.compactPointers.map fun entry => (entry.1, heapString entry.2.encode)
  deletedFiles := (edit.deletedFiles.map fun entry => toLex (entry.1, UInt64Value.ofNat entry.2)).toFinset
  newFiles := edit.newFiles.map fun entry => (entry.1,
    ⟨UInt64Value.ofNat entry.2.number, UInt64Value.ofNat entry.2.fileSize, heapString entry.2.smallest.encode,
      heapString entry.2.largest.encode⟩)

def encodeTo (edit : VersionEdit Bytes) : Bytes := edit.record.fields.flatMap EditField.put

def ordered (edit : VersionEdit Bytes) : VersionEdit Bytes := { edit with deletedFiles := edit.deletedSet }

theorem mem_deletedSet {e : Nat × Nat} : e ∈ edit.deletedSet ↔ e ∈ edit.deletedFiles := by
  rw [deletedSet, mem_insertionSort, mem_dedup]

theorem ordered_deletes {l n : Nat} : edit.ordered.Deletes l n ↔ edit.Deletes l n := by
  simp only [Deletes, ordered, mem_deletedSet]

end VersionEdit

/-! ## What can be written -/

/-- A key of an edit: it has a tag, and its length fits into 32 bits. -/
structure InternalKey.Storable (key : InternalKey Bytes) : Prop where
  formed : key.Formed
  short : key.encode.length < 2 ^ 32

structure FileMetaData.Storable (f : FileMetaData Bytes) : Prop where
  number : f.number < 2 ^ 64
  fileSize : f.fileSize < 2 ^ 64
  smallest : f.smallest.Storable
  largest : f.largest.Storable
  ordered : f.smallest ≤ f.largest

theorem FileMetaData.Storable.formed {f : FileMetaData Bytes} (storable : f.Storable) : f.Formed :=
  ⟨storable.smallest.formed, storable.largest.formed, storable.ordered⟩

/-- The numbers are those that the fields of a `VersionEdit` can hold. -/
structure VersionEdit.Storable (edit : VersionEdit Bytes) : Prop where
  comparator : edit.comparator = none ∨ edit.comparator = some bytewiseComparatorName
  logNumber : ∀ n ∈ edit.logNumber, n < 2 ^ 64
  prevLogNumber : ∀ n ∈ edit.prevLogNumber, n < 2 ^ 64
  nextFileNumber : ∀ n ∈ edit.nextFileNumber, n < 2 ^ 64
  lastSequence : ∀ n ∈ edit.lastSequence, n < 2 ^ 64
  compactPointers : ∀ entry ∈ edit.compactPointers, entry.1 < kNumLevels ∧ entry.2.Storable
  deletedFiles : ∀ entry ∈ edit.deletedFiles, entry.1 < kNumLevels ∧ entry.2 < 2 ^ 64
  newFiles : ∀ entry ∈ edit.newFiles, entry.1 < kNumLevels ∧ entry.2.Storable

/-! ## The parts of a field -/

theorem InternalKey.decodeFrom_encode {key : InternalKey Bytes} (formed : key.Formed) :
    InternalKey.decodeFrom key.encode = key := by
  have len : key.encode.length = key.userKey.length + 8 := by
    rw [encode, length_append, encodeFixed64_length]
  rw [decodeFrom, if_neg (by omega), len, Nat.add_sub_cancel, encode, take_left, drop_left,
    decodeFixed64_encodeFixed64 formed]

namespace VersionEdit

variable {rh : Nat → Nat → Digest}

theorem deletedFiles_record (fits : ∀ e ∈ edit.deletedFiles, e.2 < 2 ^ 64) :
    (edit.record.toEdit rh).deletedFiles = edit.deletedSet := by
  have ascending : (edit.record.toEdit rh).deletedFiles.Pairwise fun a b => toLex a < toLex b := by
    simp only [EditRecord.toEdit, pairwise_map]
    refine (Finset.sortedLT_sort _).pairwise.imp ?_
    intro a b lt
    have parts := Prod.Lex.lt_iff.mp lt
    exact Prod.Lex.toLex_lt_toLex.mpr parts
  have ascending' : edit.deletedSet.Pairwise fun a b => toLex a < toLex b := by
    have distinct : edit.deletedSet.Nodup := (perm_insertionSort ..).nodup_iff.mpr (nodup_dedup _)
    exact (pairwise_insertionSort ..).imp₂ (fun _ _ le ne => lt_of_le_of_ne le fun eq => ne (toLex_inj.mp eq)) distinct
  have same : ∀ e, e ∈ (edit.record.toEdit rh).deletedFiles ↔ e ∈ edit.deletedSet := by
    intro e
    simp only [EditRecord.toEdit, record, mem_map, Finset.mem_sort, mem_toFinset, mem_deletedSet]
    constructor
    · rintro ⟨_, ⟨d, mem, rfl⟩, rfl⟩
      rwa [ofLex_toLex, Fin.val_ofNat, Nat.mod_eq_of_lt (fits d mem)]
    · intro mem
      exact ⟨_, ⟨e, mem, rfl⟩, by rw [ofLex_toLex, Fin.val_ofNat, Nat.mod_eq_of_lt (fits e mem)]⟩
  have distinct : ∀ {l : List (Nat × Nat)}, l.Pairwise (fun a b => toLex a < toLex b) → l.Nodup :=
    fun asc => asc.imp fun lt eq => lt.ne (congrArg toLex eq)
  refine Perm.eq_of_pairwise (fun a b _ _ lt lt' => absurd lt' lt.asymm) ascending ascending' ?_
  exact (perm_ext_iff_of_nodup (distinct ascending) (distinct ascending')).mpr same

theorem map_ofNat_val {number : Option Nat} (fits : ∀ n ∈ number, n < 2 ^ 64) :
    (number.map UInt64Value.ofNat).map Fin.val = number := by
  cases number with
  | none => rfl
  | some n => exact congrArg some (Nat.mod_eq_of_lt (fits n rfl))

theorem decodeFrom_heapString {key : InternalKey Bytes} (storable : key.Storable) :
    InternalKey.decodeFrom (heapString key.encode).1 = key := by
  rw [heapString_val storable.short, InternalKey.decodeFrom_encode storable.formed]

theorem toEdit_record (storable : edit.Storable) : edit.record.toEdit rh = edit.ordered.decoded rh := by
  have text : toText (ascii bytewiseComparatorName.toList) = bytewiseComparatorName := by decide
  have comparator : (edit.record.toEdit rh).comparator = edit.comparator := by
    cases storable.comparator with
    | inl isNone => simp [EditRecord.toEdit, record, isNone]
    | inr isName =>
      simp only [EditRecord.toEdit, record, isName, Option.map_some]
      rw [heapString_val (by decide), text]
  have pointers : (edit.record.toEdit rh).compactPointers = edit.compactPointers := by
    simp only [EditRecord.toEdit, record, map_map]
    refine (map_congr_left fun e mem => ?_).trans (map_id _)
    exact Prod.ext rfl (decodeFrom_heapString (storable.compactPointers e mem).2)
  have files : (edit.record.toEdit rh).newFiles = (edit.decoded rh).newFiles := by
    simp only [EditRecord.toEdit, record, decoded, map_map]
    refine map_congr_left fun e mem => ?_
    have stored := (storable.newFiles e mem).2
    simp only [Function.comp_apply, decodeFrom_heapString stored.smallest, decodeFrom_heapString stored.largest,
      Fin.val_ofNat, Nat.mod_eq_of_lt stored.number, Nat.mod_eq_of_lt stored.fileSize]
    rfl
  exact VersionEdit.ext comparator (map_ofNat_val storable.logNumber) (map_ofNat_val storable.prevLogNumber)
    (map_ofNat_val storable.nextFileNumber) (map_ofNat_val storable.lastSequence) pointers
    (deletedFiles_record fun e mem => (storable.deletedFiles e mem).2) files

theorem decodeFrom_encodeTo (storable : edit.Storable) :
    decodeFrom rh edit.encodeTo = .ok (edit.ordered.decoded rh) := by
  have valid : edit.record.Valid := by
    have keys : ∀ {key : InternalKey Bytes}, key.Storable → (heapString key.encode).1 ≠ [] := by
      intro key stored isEmpty
      have len := key.encode_length
      rw [heapString_val stored.short] at isEmpty
      rw [isEmpty, length_nil] at len
      omega
    refine ⟨fun e mem => ?_, fun e mem => ?_, fun e mem => ?_⟩
    · obtain ⟨p, inEdit, rfl⟩ := mem_map.mp mem
      exact ⟨(storable.compactPointers p inEdit).1, keys (storable.compactPointers p inEdit).2⟩
    · obtain ⟨d, inEdit, rfl⟩ := mem_map.mp (mem_toFinset.mp mem)
      exact (storable.deletedFiles d inEdit).1
    · obtain ⟨f, inEdit, rfl⟩ := mem_map.mp mem
      have stored := storable.newFiles f inEdit
      exact ⟨stored.1, keys stored.2.smallest, keys stored.2.largest⟩
  obtain ⟨bytes, encodes, decodes⟩ := EditRecord.decodeFrom_encodeTo valid
  rw [EditRecord.encodeTo, if_pos fun field mem => (valid.fields field mem).2] at encodes
  rw [decodeFrom, encodeTo, Option.some.inj encodes, decodes, Except.map, toEdit_record storable]

end VersionEdit

/-! ## Recovering what was written -/

theorem saveToChecked_eq {b : Builder Bytes} (formed : ∀ l, ∀ f ∈ (b l).addedFiles, f.Formed) :
    saveToChecked b = saveTo b .empty := by
  have levels : ∀ l, saveLevelChecked l (b l) = saveLevel l (b l) ((Version.empty : Version Bytes).files l) := by
    intro l
    rw [saveLevelChecked, foldlM_maybeAddFileChecked _ (by simp) fun f added _ => formed l f added, saveLevel]
    change _ = (mergeFiles [] (b l).addedFiles).foldlM _ _
    rw [mergeFiles_nil]
  simp only [saveToChecked, saveTo, levels]

variable {edits : List (VersionEdit Bytes)}

theorem recoverEdits_eq
    (comparators : ∀ edit ∈ edits, edit.comparator = none ∨ edit.comparator = some bytewiseComparatorName)
    (pointers : ∀ edit ∈ edits, ∀ e ∈ edit.compactPointers, e.2.Formed)
    (formed : ∀ edit ∈ edits, ∀ e ∈ edit.newFiles, e.2.Formed) :
    recoverEdits (edits, none) = recover edits := by
  have formed : ∀ l, ∀ f ∈ addedAt (newFilesOf edits) l, f.Formed := by
    intro l f added
    obtain ⟨edit, isEdit, new⟩ := mem_flatMap.mp (mem_addedAt.mp added)
    exact formed edit isEdit _ new
  have applicable : Applicable edits := ⟨fun edit isEdit e inEdit => .inl (pointers edit isEdit e inEdit),
      fun l _ f added => (formed l f added).smallest⟩
  have folded : edits.foldlM RecoverState.recordChecked .init = .ok (edits.foldl RecoverState.record .init) := by
    cases foldlM_recordChecked edits with
    | inl passes => exact passes.2
    | inr fails => exact absurd applicable fails.1
  have b := foldl_record_builder edits RecoverState.init
  have saved : saveToChecked (edits.foldl RecoverState.record .init).builder =
      saveTo (edits.foldl RecoverState.record .init).builder .empty := by
    apply saveToChecked_eq
    intro l f added
    rw [b, foldl_apply_addedFiles] at added
    change f ∈ (addedAt (newFilesOf edits) l).foldl _ [] at added
    rw [mem_foldl_insertFile _ List.Pairwise.nil] at added
    obtain old | ⟨-, pre, after, split, -⟩ := added
    · cases old
    · exact formed l f (split ▸ by simp)
  rw [recoverEdits, recover, folded, recoverLoop_ok comparators]
  change RecoverState.install _ = _
  generalize edits.foldl RecoverState.record .init = state at saved
  simp only [RecoverState.install, saved]
  cases state.nextFile <;> cases state.logNumber <;> cases state.lastSequence <;>
    cases saveTo state.builder .empty <;> rfl

theorem editsOf_encodeTo {rh : Nat → Nat → Digest} (storable : ∀ edit ∈ edits, edit.Storable) :
    editsOf rh (edits.map VersionEdit.encodeTo) = (edits.map fun edit => edit.ordered.decoded rh, none) := by
  induction edits with
  | nil => rfl
  | cons edit rest ih =>
    obtain ⟨here, others⟩ := forall_mem_cons.mp storable
    have matching : (edit.ordered.decoded rh).mismatch = none := by
      cases here.comparator with
      | inl isNone => simp only [VersionEdit.mismatch, VersionEdit.decoded, VersionEdit.ordered, isNone]
      | inr isName => simp [VersionEdit.mismatch, VersionEdit.decoded, VersionEdit.ordered, isName]
    rw [map_cons, editsOf, VersionEdit.decodeFrom_encodeTo here]
    simp only [matching, ih others, map_cons]

theorem recoverManifest_encoded {crc : Log.Crc} {rh : Nat → Nat → Digest} {whole : Bool} {bytes : Bytes}
    {fragments : List Log.Fragment} (framed : Log.Framed crc whole 0 bytes fragments)
    (noReports : Log.reported none fragments = [])
    (assembled : Log.assemble none fragments = edits.map VersionEdit.encodeTo)
    (storable : ∀ edit ∈ edits, edit.Storable) :
    recoverManifest crc rh bytes = recover (edits.map fun edit => edit.ordered.decoded rh) := by
  rw [recoverManifest_eq, manifestEdits_framed framed noReports, assembled, editsOf_encodeTo storable]
  apply recoverEdits_eq
  · intro edit mem
    obtain ⟨raw, isEdit, rfl⟩ := mem_map.mp mem
    exact (storable raw isEdit).comparator
  · intro edit mem e inEdit
    obtain ⟨raw, isEdit, rfl⟩ := mem_map.mp mem
    exact ((storable raw isEdit).compactPointers e inEdit).2.formed
  intro edit mem e inEdit
  obtain ⟨raw, isEdit, rfl⟩ := mem_map.mp mem
  obtain ⟨f, new, eq⟩ := VersionEdit.mem_decoded.mp inEdit
  have formed := ((storable raw isEdit).newFiles _ new).2.formed
  rw [eq]
  exact ⟨formed.smallest, formed.largest, formed.ordered⟩

end Elsm
