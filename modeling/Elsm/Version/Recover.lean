import Elsm.Version.Builder

/-!
# Reading a MANIFEST back (`VersionSet::Recover`, `VersionSet::WriteSnapshot`)

A MANIFEST is a sequence of edits.  `Recover` applies all of them to one builder on the empty
version and saves once, while the running database saved after every edit.  The two agree
when no edit brings a file number back to a level it was at before (`Replayed.apply`).

An edit is written without the root hashes of its files.  `VersionEdit.decoded` is what
`DecodeFrom` makes of it: every file gets the bytes its local `f` holds.
-/

namespace Elsm

open List

inductive Status where
  | notFound (message : String)
  | corruption (message : String)
  | invalidArgument (message : String)
  | ioError (message : String)
  /-- A check ends the process. -/
  | abort
  deriving DecidableEq, Repr

def bytewiseComparatorName : String := "leveldb.BytewiseComparator"

variable {K : Type*}

/-! ## What the encoding leaves out -/

def FileMetaData.relabel (rh : Nat → Nat → Merkle.Digest) (level : Nat) (f : FileMetaData K) : FileMetaData K :=
  { f with rh := rh level f.number }

/-- An edit after `EncodeTo` and `DecodeFrom`. -/
def VersionEdit.decoded (rh : Nat → Nat → Merkle.Digest) (edit : VersionEdit K) : VersionEdit K :=
  { edit with newFiles := edit.newFiles.map fun entry => (entry.1, entry.2.relabel rh entry.1) }

variable {rh : Nat → Nat → Merkle.Digest} {edit : VersionEdit K}

theorem VersionEdit.mem_decoded {lv : Nat} {f : FileMetaData K} :
    (lv, f) ∈ (edit.decoded rh).newFiles ↔ ∃ g, (lv, g) ∈ edit.newFiles ∧ f = g.relabel rh lv := by
  simp only [VersionEdit.decoded, mem_map, Prod.mk.injEq, Prod.exists]
  constructor
  · rintro ⟨l, g, mem, rfl, rfl⟩
    exact ⟨g, mem, rfl⟩
  · rintro ⟨g, mem, rfl⟩
    exact ⟨lv, g, mem, rfl, rfl⟩

def Version.relabel (rh : Nat → Nat → Merkle.Digest) (version : Version K) : Version K where
  files level := (version.files level).map (FileMetaData.relabel rh level)
  fileToCompact := none

variable [LinearOrder K]

/-! ## `Recover` -/

structure RecoverState (K : Type*) where
  builder : Builder K
  compactPointer : Nat → Option (InternalKey K)
  logNumber : Option Nat
  prevLogNumber : Option Nat
  nextFile : Option Nat
  lastSequence : Option Nat

def RecoverState.init : RecoverState K := ⟨Builder.init, fun _ => none, none, none, none, none⟩

def RecoverState.record (state : RecoverState K) (edit : VersionEdit K) : RecoverState K where
  builder := state.builder.apply edit
  compactPointer := applyCompactPointers edit state.compactPointer
  logNumber := edit.logNumber <|> state.logNumber
  prevLogNumber := edit.prevLogNumber <|> state.prevLogNumber
  nextFile := edit.nextFileNumber <|> state.nextFile
  lastSequence := edit.lastSequence <|> state.lastSequence

def recoverLoop : List (VersionEdit K) → RecoverState K → Except Status (RecoverState K)
  | [], state => .ok state
  | edit :: rest, state =>
    match edit.comparator with
    | none => recoverLoop rest (state.record edit)
    | some name =>
      if name = bytewiseComparatorName then recoverLoop rest (state.record edit)
      else .error (.invalidArgument (name ++ " does not match existing comparator " ++ bytewiseComparatorName))

structure Recovered (K : Type*) where
  version : Version K
  compactPointer : Nat → Option (InternalKey K)
  manifestFileNumber : Nat
  nextFileNumber : Nat
  lastSequence : Nat
  logNumber : Nat
  prevLogNumber : Nat

/-- `Recover` on the records of a MANIFEST. -/
def recover (records : List (VersionEdit K)) : Except Status (Recovered K) :=
  match recoverLoop records RecoverState.init with
  | .error status => .error status
  | .ok state =>
    match state.nextFile, state.logNumber, state.lastSequence with
    | none, _, _ => .error (.corruption "no meta-nextfile entry in descriptor")
    | some _, none, _ => .error (.corruption "no meta-lognumber entry in descriptor")
    | some _, some _, none => .error (.corruption "no last-sequence-number entry in descriptor")
    | some nextFile, some logNumber, some lastSequence =>
      match saveTo state.builder .empty with
      | none => .error .abort
      | some version =>
        .ok { version
              compactPointer := state.compactPointer
              manifestFileNumber := nextFile
              nextFileNumber := nextFile + 1
              lastSequence
              logNumber
              prevLogNumber := state.prevLogNumber.getD 0 }

/-- `WriteSnapshot`: the first record of a new MANIFEST.  What `AddFile` leaves in the root hashes
is not written. -/
def writeSnapshot (version : Version K) (compactPointer : Nat → Option (InternalKey K)) : VersionEdit K where
  comparator := some bytewiseComparatorName
  logNumber := none
  prevLogNumber := none
  nextFileNumber := none
  lastSequence := none
  compactPointers := (range kNumLevels).filterMap fun level =>
    (compactPointer level).map fun key => (level, key)
  deletedFiles := []
  newFiles := (range kNumLevels).flatMap fun level => (version.files level).map fun f => (level, f)

/-! ## Several edits in one builder -/

/-- The files a builder stands for on the empty version, with the root hashes it was fed. -/
structure Replayed (rh : Nat → Nat → Merkle.Digest) (builder : Builder K) (files : Nat → List (FileMetaData K)) :
    Prop where
  ordered : ∀ level, InOrder (builder level).addedFiles
  kept : ∀ level f, (f ∈ (builder level).addedFiles ∧ f.number ∉ (builder level).deletedFiles) ↔
    ∃ g ∈ files level, f = g.relabel rh level

theorem Replayed.init (rh : Nat → Nat → Merkle.Digest) : Replayed (K := K) rh Builder.init fun _ => [] :=
  ⟨fun _ => List.Pairwise.nil, by simp [Builder.init]⟩

omit [LinearOrder K] in
theorem decoded_distinct (dist : DistinctNumbers edit.newFiles)
    (rh : Nat → Nat → Merkle.Digest) : DistinctNumbers (edit.decoded rh).newFiles := by
  rw [DistinctNumbers, VersionEdit.decoded, pairwise_map]
  exact dist

/-- An edit whose files are new to their levels acts on the builder as it acted on the version. -/
theorem Replayed.apply {b : Builder K} {files files' : Nat → List (FileMetaData K)} (replayed : Replayed rh b files)
    (dist : DistinctNumbers edit.newFiles)
    (fresh : ∀ l f, (l, f) ∈ edit.newFiles → ∀ h ∈ (b l).addedFiles, h.number ≠ f.number)
    (after : ∀ l f, f ∈ files' l ↔ (f ∈ files l ∧ ¬ edit.Deletes l f.number) ∨ (l, f) ∈ edit.newFiles) :
    Replayed rh (b.apply (edit.decoded rh)) files' := by
  have freshDecoded : ∀ l f, (l, f) ∈ (edit.decoded rh).newFiles → ∀ h ∈ (b l).addedFiles, h.number ≠ f.number := by
    intro l f isNew
    obtain ⟨g, mem, rfl⟩ := VersionEdit.mem_decoded.mp isNew
    exact fresh l g mem
  refine ⟨apply_inOrder replayed.ordered _, fun l f => ?_⟩
  rw [mem_apply_added (replayed.ordered l) (decoded_distinct dist rh) (freshDecoded l), mem_apply_deleted]
  constructor
  · rintro ⟨old | new, notDeleted⟩
    · have notNew : ∀ g, (l, g) ∈ (edit.decoded rh).newFiles → g.number ≠ f.number :=
        fun g isNew => (freshDecoded l g isNew f old).symm
      obtain ⟨g, isFile, rfl⟩ := (replayed.kept l f).mp ⟨old, fun deleted => notDeleted ⟨.inl deleted, notNew⟩⟩
      refine ⟨g, (after l g).mpr (.inl ⟨isFile, fun deletes => ?_⟩), rfl⟩
      exact notDeleted ⟨.inr deletes.1, notNew⟩
    · obtain ⟨g, isNew, rfl⟩ := VersionEdit.mem_decoded.mp new
      exact ⟨g, (after l g).mpr (.inr isNew), rfl⟩
  · rintro ⟨g, isFile, rfl⟩
    cases (after l g).mp isFile with
    | inl old =>
      obtain ⟨added, notDeleted⟩ := (replayed.kept l _).mpr ⟨g, old.1, rfl⟩
      refine ⟨.inl added, fun deleted => ?_⟩
      cases deleted.1 with
      | inl pre => exact notDeleted pre
      | inr listed =>
        refine old.2 ⟨listed, fun h isNew => ?_⟩
        exact deleted.2 (h.relabel rh l) (VersionEdit.mem_decoded.mpr ⟨h, isNew, rfl⟩)
    | inr new =>
      have isNew : (l, g.relabel rh l) ∈ (edit.decoded rh).newFiles := VersionEdit.mem_decoded.mpr ⟨g, new, rfl⟩
      exact ⟨.inr isNew, fun deleted => deleted.2 _ isNew rfl⟩

variable {v : Version K}

omit [LinearOrder K] in
theorem mem_writeSnapshot {compactPointer : Nat → Option (InternalKey K)} {lv : Nat} {f : FileMetaData K} :
    (lv, f) ∈ (writeSnapshot v compactPointer).newFiles ↔ lv < kNumLevels ∧ f ∈ v.files lv := by
  simp only [writeSnapshot, mem_flatMap, mem_range, mem_map, Prod.mk.injEq]
  constructor
  · rintro ⟨l, bound, g, mem, rfl, rfl⟩
    exact ⟨bound, mem⟩
  · intro ⟨bound, mem⟩
    exact ⟨lv, bound, f, mem, rfl, rfl⟩

omit [LinearOrder K] in
theorem writeSnapshot_distinct (compactPointer : Nat → Option (InternalKey K))
    (dist : ∀ lv, (v.files lv).Pairwise fun f g => f.number ≠ g.number) :
    DistinctNumbers (writeSnapshot v compactPointer).newFiles := by
  rw [DistinctNumbers, writeSnapshot, pairwise_flatMap]
  constructor
  · intro lv _
    rw [pairwise_map]
    refine List.Pairwise.imp ?_ (dist lv)
    exact fun apart _ => apart
  · refine pairwise_lt_range.imp fun {l l'} lt e inL e' inL' eq => ?_
    obtain ⟨f, _, rfl⟩ := mem_map.mp inL
    obtain ⟨g, _, rfl⟩ := mem_map.mp inL'
    exact absurd eq lt.ne

theorem eq_of_inOrder {files files' : List (FileMetaData K)} (left : InOrder files) (right : InOrder files')
    (eq : ∀ f, f ∈ files ↔ f ∈ files') : files = files' := by
  have different : ∀ {files : List (FileMetaData K)}, InOrder files → files.Nodup :=
    fun ord => List.Pairwise.imp (fun lt equal => absurd (congrArg FileMetaData.sortKey equal) lt.ne) ord
  have permuted := (perm_ext_iff_of_nodup (different left) (different right)).mpr eq
  exact permuted.eq_of_pairwise (fun f g _ _ lt gt => absurd lt gt.asymm) left right

theorem Replayed.saveTo {b : Builder K} (replayed : Replayed rh b v.files) (inOrder : ∀ l, InOrder (v.files l))
    (chain : ∀ l, 0 < l → (v.files l).IsChain fun f g => f.largest < g.smallest)
    (depth : ∀ l, kNumLevels ≤ l → v.files l = []) :
    Elsm.saveTo b .empty = some (v.relabel rh) := by
  have kept : ∀ l, keptFiles (b l) ((Version.empty : Version K).files l) =
      (v.files l).map (FileMetaData.relabel rh l) := by
    intro l
    apply eq_of_inOrder
    · exact keptFiles_inOrder List.Pairwise.nil (replayed.ordered l) (by simp [Version.empty])
    · exact pairwise_map.mpr (inOrder l)
    intro f
    rw [mem_keptFiles, mem_map]
    simp only [Version.empty, not_mem_nil, false_or]
    rw [replayed.kept l f]
    constructor
    · rintro ⟨g, isFile, rfl⟩
      exact ⟨g, isFile, rfl⟩
    · rintro ⟨g, isFile, rfl⟩
      exact ⟨g, isFile, rfl⟩
  apply saveTo_eq kept
  · exact fun l pos => isChain_map_of_isChain (FileMetaData.relabel rh l) (fun _ _ lt => lt) (chain l pos)
  · exact fun l above => by rw [depth l above]; rfl

theorem Version.applyEdit_nothing (noNew : edit.newFiles = []) (noDeleted : edit.deletedFiles = [])
    (chain : ∀ l, 0 < l → (v.files l).IsChain fun f g => f.largest < g.smallest)
    (depth : ∀ l, kNumLevels ≤ l → v.files l = []) :
    v.applyEdit edit = some { v with fileToCompact := none } := by
  have kept : ∀ l, keptFiles (Builder.init.apply edit l) (v.files l) = v.files l := by
    intro l
    simp [keptFiles, Builder.apply, noNew, noDeleted, Builder.init, mergeFiles]
  exact saveTo_eq kept chain depth

/-! ## Recovering a MANIFEST -/

def replay (rh : Nat → Nat → Merkle.Digest) (records : List (VersionEdit K)) : Builder K :=
  (records.map (VersionEdit.decoded rh)).foldl Builder.apply Builder.init

theorem replay_append (rh : Nat → Nat → Merkle.Digest) (edits : List (VersionEdit K)) (edit : VersionEdit K) :
    replay rh (edits ++ [edit]) = (replay rh edits).apply (edit.decoded rh) := by
  simp [replay]

theorem recoverLoop_ok {edits : List (VersionEdit K)}
    (comparators : ∀ edit ∈ edits, edit.comparator = none ∨ edit.comparator = some bytewiseComparatorName)
    (state : RecoverState K) : recoverLoop edits state = .ok (edits.foldl RecoverState.record state) := by
  induction edits generalizing state with
  | nil => rfl
  | cons edit rest ih =>
    have ofRest := ih (fun other inR => comparators other (mem_cons_of_mem _ inR)) (state.record edit)
    cases comparators edit mem_cons_self with
    | inl none => simp only [recoverLoop, none, foldl_cons, ofRest]
    | inr named => simp only [recoverLoop, named, if_true, foldl_cons, ofRest]

theorem foldl_record_builder (edits : List (VersionEdit K)) (state : RecoverState K) :
    (edits.foldl RecoverState.record state).builder = edits.foldl Builder.apply state.builder := by
  induction edits generalizing state with
  | nil => rfl
  | cons edit rest ih => exact ih (state.record edit)

/-- A MANIFEST whose last record names all numbers is read back. -/
theorem recover_replayed {front : List (VersionEdit K)} {r : VersionEdit K} {logNumber prevLogNumber next last : Nat}
    (comparators : ∀ edit ∈ front ++ [r], edit.comparator = none ∨ edit.comparator = some bytewiseComparatorName)
    (hasLog : r.logNumber = some logNumber) (hasPrev : r.prevLogNumber = some prevLogNumber)
    (hasNext : r.nextFileNumber = some next) (hasLast : r.lastSequence = some last)
    (replayed : Replayed rh (replay rh (front ++ [r])) v.files) (inOrder : ∀ l, InOrder (v.files l))
    (chain : ∀ l, 0 < l → (v.files l).IsChain fun f g => f.largest < g.smallest)
    (depth : ∀ l, kNumLevels ≤ l → v.files l = []) :
    ∃ pointers, recover ((front ++ [r]).map (VersionEdit.decoded rh)) =
      .ok ⟨v.relabel rh, pointers, next, next + 1, last, logNumber, prevLogNumber⟩ := by
  have decoded : ∀ edit ∈ (front ++ [r]).map (VersionEdit.decoded rh),
      edit.comparator = none ∨ edit.comparator = some bytewiseComparatorName := by
    intro edit mem
    obtain ⟨raw, isRecord, rfl⟩ := mem_map.mp mem
    exact comparators raw isRecord
  have b := foldl_record_builder ((front ++ [r]).map (VersionEdit.decoded rh)) RecoverState.init
  have saved := replayed.saveTo inOrder chain depth
  rw [replay] at saved
  change _ = ((front ++ [r]).map (VersionEdit.decoded rh)).foldl Builder.apply Builder.init at b
  rw [← b] at saved
  rw [recover, recoverLoop_ok decoded]
  rw [map_append, foldl_append] at saved ⊢
  simp only [map_cons, map_nil, foldl_cons, foldl_nil] at saved ⊢
  generalize foldl RecoverState.record RecoverState.init (front.map (VersionEdit.decoded rh)) = state at saved
  simp only [RecoverState.record, VersionEdit.decoded, hasLog, hasPrev, hasNext, hasLast] at saved ⊢
  exact ⟨_, by rw [saved]; rfl⟩

end Elsm
