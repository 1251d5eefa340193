import Elsm.Version.Compaction

/-!
# The compaction loop (`db/db_impl.cpp`, `db/version_set.cpp`)

`DBImpl::DoCompactionWork` merges the input tables into new ones, entry by entry.  One
iteration of its loop is `compactEntry`; `Compaction::IsBaseLevelForKey` and
`Compaction::ShouldStopBefore` keep cursors between iterations.  `WorkInvariant` says what
the loop has done with the entries it has read: every one is in an output, or hidden by a
newer entry, or an obsolete deletion.
-/

namespace Elsm

open List

/-- A key with its value, as tables and memtables hold them. -/
abbrev Entry (K : Type*) := InternalKey K × Bytes

variable {K : Type*}

section Steering

variable [LinearOrder K]

/-! ## `Compaction::IsBaseLevelForKey` -/

/-- The scan from level `lvl` on, over the `remaining` levels, with the cursors of all
levels. -/
def baseLevelLoop (files : Nat → List (FileMetaData K)) (userKey : K) : Nat → Nat → (Nat → Nat) → Bool × (Nat → Nat)
  | 0, _, ptrs => (true, ptrs)
  | remaining + 1, lvl, ptrs =>
    -- the cursor stops at the first file that does not end before the key
    let index := ptrs lvl + ((files lvl).drop (ptrs lvl)).findIdx fun f => userKey ≤ f.largest.userKey
    let ptrs := Function.update ptrs lvl index
    match (files lvl)[index]? with
    | none => baseLevelLoop files userKey remaining (lvl + 1) ptrs
    | some f =>
      if f.smallest.userKey ≤ userKey then (false, ptrs)
      else baseLevelLoop files userKey remaining (lvl + 1) ptrs

def Compaction.isBaseLevelForKey (c : Compaction K) (userKey : K) : Bool × Compaction K :=
  let (base, ptrs) := baseLevelLoop c.inputVersion.files userKey (kNumLevels - (c.level + 2)) (c.level + 2) c.levelPtrs
  (base, { c with levelPtrs := ptrs })

/-- The cursors have only passed files that end before the key. -/
def PtrsBefore (files : Nat → List (FileMetaData K)) (ptrs : Nat → Nat) (userKey : K) : Prop :=
  ∀ lvl i f, i < ptrs lvl → (files lvl)[i]? = some f → f.largest.userKey < userKey

variable {files : Nat → List (FileMetaData K)}

theorem PtrsBefore.mono {ptrs : Nat → Nat} {u v : K}
    (pre : PtrsBefore files ptrs u) (later : u ≤ v) : PtrsBefore files ptrs v :=
  fun lvl i f passed isFile => (pre lvl i f passed isFile).trans_le later

theorem ptrsBefore_advance {ptrs : Nat → Nat} {k : K} (pre : PtrsBefore files ptrs k) (lvl : Nat) :
    PtrsBefore files (Function.update ptrs lvl
      (ptrs lvl + ((files lvl).drop (ptrs lvl)).findIdx fun f => k ≤ f.largest.userKey)) k := by
  intro i j f passed isFile
  by_cases same : i = lvl
  · subst same
    rw [Function.update_self] at passed
    by_cases old : j < ptrs i
    · exact pre i j f old isFile
    have scanned : j - ptrs i < ((files i).drop (ptrs i)).findIdx fun f => k ≤ f.largest.userKey := by
      omega
    have short := not_of_lt_findIdx scanned
    have place : ((files i).drop (ptrs i))[j - ptrs i]? = some f := by
      rw [getElem?_drop, show ptrs i + (j - ptrs i) = j by omega, isFile]
    obtain ⟨_, isF⟩ := List.getElem?_eq_some_iff.mp place
    rw [isF] at short
    simpa using short
  · rw [Function.update_of_ne same] at passed
    exact pre i j f passed isFile

/-- No file of the levels has a range of user keys that holds the key. -/
def NoRangeHolds (files : Nat → List (FileMetaData K)) (lower upper : Nat) (k : K) : Prop :=
  ∀ i, lower ≤ i → i < upper → ∀ f ∈ files i, ¬ (f.smallest.userKey ≤ k ∧ k ≤ f.largest.userKey)

/-- When the cursor of a sorted level is past the files before the key, the file it stops at
decides whether the key is in the range of any. -/
theorem no_range_of_stop {files : List (FileMetaData K)} (sorted : DisjointSorted files)
    (ordered : ∀ f ∈ files, f.smallest ≤ f.largest) {ptr : Nat} {k : K}
    (pre : ∀ i f, i < ptr → files[i]? = some f → f.largest.userKey < k)
    (stop : ∀ f, files[ptr + (files.drop ptr).findIdx fun f => k ≤ f.largest.userKey]? = some f →
      k < f.smallest.userKey) :
    ∀ f ∈ files, ¬ (f.smallest.userKey ≤ k ∧ k ≤ f.largest.userKey) := by
  intro f mem ⟨starts, reaches⟩
  obtain ⟨j, bound, rfl⟩ := getElem_of_mem mem
  have notBefore : ptr ≤ j := by
    by_contra earlier
    exact absurd reaches (not_le.mpr (pre j _ (by omega) (getElem?_eq_getElem bound)))
  have inDrop : files[j] ∈ files.drop ptr := by
    apply mem_of_getElem? (i := j - ptr)
    rw [getElem?_drop, show ptr + (j - ptr) = j by omega, getElem?_eq_getElem bound]
  cases found : (files.drop ptr).find? fun f => k ≤ f.largest.userKey with
  | none =>
    have missed := find?_eq_none.mp found _ inDrop
    simp [reaches] at missed
  | some g =>
    have stops : files[ptr + (files.drop ptr).findIdx fun f => k ≤ f.largest.userKey]? = some g := by
      rw [← getElem?_drop, ← find?_eq_getElem?_findIdx, found]
    have past := stop g stops
    have sortedDrop : DisjointSorted (files.drop ptr) := sorted.sublist (drop_sublist _ _)
    obtain rfl | apart := SortedList.find?_first sortedDrop found inDrop (by simpa using reaches)
    · exact absurd starts (not_le.mpr past)
    have inFiles : g ∈ files := mem_of_mem_drop (mem_of_find?_eq_some found)
    have first : g.smallest.userKey ≤ files[j].smallest.userKey :=
      InternalKey.userKey_le_of_le ((ordered g inFiles).trans apart.le)
    exact absurd starts (not_le.mpr (past.trans_le first))

section BaseLevel

variable {files : Nat → List (FileMetaData K)} (disjoint : ∀ l, 0 < l → DisjointSorted (files l))
  (ordered : ∀ l, ∀ f ∈ files l, f.smallest ≤ f.largest)

include disjoint ordered

theorem baseLevelLoop_spec (k : K) (rem lvl : Nat) (pos : 0 < lvl) (ptrs : Nat → Nat) (pre : PtrsBefore files ptrs k) :
    PtrsBefore files (baseLevelLoop files k rem lvl ptrs).2 k ∧
      ((baseLevelLoop files k rem lvl ptrs).1 = true ↔ NoRangeHolds files lvl (lvl + rem) k) := by
  induction rem generalizing lvl ptrs with
  | zero => exact ⟨pre, iff_of_true rfl fun i lower upper => absurd upper (by omega)⟩
  | succ rem ih =>
    have advanced := ptrsBefore_advance pre lvl
    have clear := no_range_of_stop (disjoint lvl pos) (ordered lvl) (fun i f => pre lvl i f)
    obtain ⟨before, deeper⟩ := ih (lvl + 1) (Nat.succ_pos lvl) _ advanced
    rw [Nat.add_right_comm lvl 1 rem] at deeper
    have combine (here : ∀ f ∈ files lvl, ¬ (f.smallest.userKey ≤ k ∧ k ≤ f.largest.userKey)) :
        NoRangeHolds files (lvl + 1) (lvl + rem + 1) k ↔ NoRangeHolds files lvl (lvl + rem + 1) k := by
      refine ⟨fun below i lower upper => ?_, fun all i lower => all i (by omega)⟩
      cases Nat.lt_or_eq_of_le lower with
      | inl above => exact below i above upper
      | inr eq => exact eq ▸ here
    simp only [baseLevelLoop]
    split
    case h_1 atEnd =>
      exact ⟨before, deeper.trans (combine (clear fun f isFile => by rw [atEnd] at isFile; cases isFile))⟩
    case h_2 f atFile =>
      split
      case isTrue starts =>
        refine ⟨advanced, iff_of_false nofun fun none => ?_⟩
        rw [← getElem?_drop, ← find?_eq_getElem?_findIdx] at atFile
        exact none lvl le_rfl (by omega) f (mem_of_mem_drop (mem_of_find?_eq_some atFile))
          ⟨starts, by simpa using find?_some atFile⟩
      case isFalse beyond =>
        refine ⟨before, deeper.trans (combine (clear fun g isFile => ?_))⟩
        rw [atFile] at isFile
        cases isFile
        exact not_le.mp beyond

end BaseLevel

namespace Compaction

variable {c : Compaction K} (disjoint : ∀ l, 0 < l → DisjointSorted (c.inputVersion.files l))
  (ordered : ∀ l, ∀ f ∈ c.inputVersion.files l, f.smallest ≤ f.largest)

include disjoint ordered

theorem isBaseLevelForKey_spec {k : K} (pre : PtrsBefore c.inputVersion.files c.levelPtrs k) :
    PtrsBefore c.inputVersion.files (c.isBaseLevelForKey k).2.levelPtrs k ∧
      ((c.isBaseLevelForKey k).1 = true ↔ NoRangeHolds c.inputVersion.files (c.level + 2) kNumLevels k) := by
  by_cases deep : c.level + 2 ≤ kNumLevels
  · obtain ⟨kept, clear⟩ := baseLevelLoop_spec disjoint ordered k (kNumLevels - (c.level + 2)) (c.level + 2)
      (by omega) c.levelPtrs pre
    rw [Nat.add_sub_cancel' deep] at clear
    exact ⟨kept, clear⟩
  · rw [isBaseLevelForKey, Nat.sub_eq_zero_of_le (by omega)]
    exact ⟨pre, iff_of_true rfl fun i lower upper => by omega⟩

omit disjoint ordered in
def isBaseLevelForKeys (c : Compaction K) : List K → List Bool
  | [] => []
  | k :: rest => (c.isBaseLevelForKey k).1 :: (c.isBaseLevelForKey k).2.isBaseLevelForKeys rest

/-- Asked for keys in order, the cursors answer as a scan of all files would. -/
theorem isBaseLevelForKeys_scan (fresh : c.levelPtrs = fun _ => 0) {keys : List K} (mono : keys.Pairwise (· ≤ ·)) :
    Forall₂ (fun k base => base = true ↔ NoRangeHolds c.inputVersion.files (c.level + 2) kNumLevels k) keys
      (c.isBaseLevelForKeys keys) := by
  suffices from_ptrs : ∀ ptrs, (∀ k ∈ keys, PtrsBefore c.inputVersion.files ptrs k) →
      Forall₂ (fun k base => base = true ↔ NoRangeHolds c.inputVersion.files (c.level + 2) kNumLevels k) keys
        ({ c with levelPtrs := ptrs }.isBaseLevelForKeys keys) by
    have start := from_ptrs c.levelPtrs fun k _ lvl i f passed => absurd passed (by simp [fresh])
    exact start
  induction mono with
  | nil => exact fun _ _ => .nil
  | @cons k rest first _ ih =>
    intro ptrs pre
    obtain ⟨kept, exact'⟩ := @isBaseLevelForKey_spec _ _ { c with levelPtrs := ptrs } disjoint ordered k
      (pre k mem_cons_self)
    exact .cons exact' (ih _ fun later mem => kept.mono (first later mem))

end Compaction

def deepVersion : Version Nat where
  files level :=
    if level = 0 then [⟨5, 100, .make 1 7 .value, .make 3 6 .value, Merkle.zeroDigest⟩]
    else if level = 2 then [⟨3, 100, .make 2 1 .value, .make 2 1 .value, Merkle.zeroDigest⟩] else []
  fileToCompact := none

/-- `CompactRange` picks this one for level 0. -/
def deepCompaction : Compaction Nat where
  level := 0
  maxOutputFileSize := 2097152
  inputVersion := deepVersion
  inputs0 := deepVersion.files 0
  inputs1 := []
  grandparents := deepVersion.files 2
  grandparentIndex := 0
  seenKey := false
  overlappedBytes := 0
  levelPtrs := fun _ => 0
  edit := VersionEdit.empty.setCompactPointer 0 (.make 3 6 .value)

theorem deepVersion_sorted : deepVersion.Sorted := by
  constructor
  · intro level f inFiles
    simp only [deepVersion] at inFiles
    split at inFiles
    · rw [mem_singleton.mp inFiles]
      exact ⟨by decide, by decide⟩
    split at inFiles
    · rw [mem_singleton.mp inFiles]
      exact ⟨le_rfl, by decide⟩
    · cases inFiles
  · intro level _
    simp only [deepVersion]
    split
    · exact pairwise_singleton _ _
    split
    · exact pairwise_singleton _ _
    · exact List.Pairwise.nil

theorem isBaseLevelForKeys_scan_deep : ∃ c, compactRange ⟨2097152⟩ deepVersion 0 none none = some c ∧
    Forall₂ (fun k base => base = true ↔ NoRangeHolds c.inputVersion.files 2 kNumLevels k) [1, 2, 2, 5]
      [true, false, false, true] := by
  have answers : deepCompaction.isBaseLevelForKeys [1, 2, 2, 5] = [true, false, false, true] := by decide
  refine ⟨deepCompaction, rfl, ?_⟩
  rw [← answers]
  exact Compaction.isBaseLevelForKeys_scan deepVersion_sorted.disjoint deepVersion_sorted.ordered rfl (by decide)

/-! ## `Compaction::ShouldStopBefore` -/

/-- How many grandparents end before the key, and the bytes counted while passing them. -/
def skipGrandparents (seenKey : Bool) (key : InternalKey K) : List (FileMetaData K) → Nat × Nat
  | [] => (0, 0)
  | g :: rest =>
    if g.largest < key then
      let (passed, bytes) := skipGrandparents seenKey key rest
      (passed + 1, (if seenKey then g.fileSize else 0) + bytes)
    else (0, 0)

def Compaction.shouldStopBefore (options : Options) (c : Compaction K) (key : InternalKey K) : Bool × Compaction K :=
  let (passed, bytes) := skipGrandparents c.seenKey key (c.grandparents.drop c.grandparentIndex)
  let c := { c with
    grandparentIndex := c.grandparentIndex + passed
    overlappedBytes := c.overlappedBytes + bytes
    seenKey := true }
  if (c.overlappedBytes : Int) > maxGrandParentOverlapBytes options then
    (true, { c with overlappedBytes := 0 })
  else (false, c)

end Steering

/-! ## `DBImpl::DoCompactionWork` -/

/-- `CompactionState::Output`, with the entries given to the table builder of the file. -/
structure Output (K : Type*) where
  number : Nat
  fileSize : Nat
  smallest : InternalKey K
  largest : InternalKey K
  contents : List (Entry K)

/-- `TableBuilder::FileSize()` after the given entries were added, before and after
`Finish()`. -/
structure TableSize (K : Type*) where
  building : List (Entry K) → Nat
  finished : List (Entry K) → Nat

/-- `CompactionState` together with the locals of `DoCompactionWork`.  `builder` is the output
being written, `outputs` are the finished ones, `input` is what the merging iterator has
left to yield. -/
structure CompactionState (K : Type*) where
  compaction : Compaction K
  smallestSnapshot : Nat
  outputs : List (Output K)
  builder : Option (Output K)
  input : List (Entry K)
  currentUserKey : Option K
  lastSequenceForKey : Nat

namespace CompactionState

def finishCompactionOutputFile (size : TableSize K) (cs : CompactionState K) : CompactionState K :=
  match cs.builder with
  | none => cs
  | some out =>
    { cs with
      builder := none
      outputs := cs.outputs ++ [{ out with fileSize := size.finished out.contents }] }

/-- The rules that drop an entry, with the state they leave. -/
def dropEntry [LinearOrder K] (cs : CompactionState K) (key : InternalKey K) : Bool × CompactionState K :=
  match parseInternalKey key with
  | none => (false, { cs with currentUserKey := none, lastSequenceForKey := kMaxSequenceNumber })
  | some ikey =>
    let lastSequenceForKey :=
      if cs.currentUserKey = some ikey.userKey then cs.lastSequenceForKey else kMaxSequenceNumber
    let (drop, compaction) := if lastSequenceForKey ≤ cs.smallestSnapshot then (true, cs.compaction)
      else if ikey.type = .deletion ∧ ikey.sequence ≤ cs.smallestSnapshot then
        cs.compaction.isBaseLevelForKey ikey.userKey
      else (false, cs.compaction)
    (drop, { cs with
      compaction := compaction
      currentUserKey := some ikey.userKey
      lastSequenceForKey := ikey.sequence })

/-- `builder->Add`, opening an output with the next file number when none is open. -/
def addEntry (nextFileNumber : Nat) (cs : CompactionState K) (entry : Entry K) : CompactionState K × Nat :=
  match cs.builder with
  | some out =>
    ({ cs with builder := some { out with largest := entry.1, contents := out.contents ++ [entry] } }, nextFileNumber)
  | none =>
    ({ cs with builder := some ⟨nextFileNumber, 0, entry.1, entry.1, [entry]⟩ }, nextFileNumber + 1)

/-- `FileSize() >= MaxOutputFileSize()`. -/
def isFull (size : TableSize K) (cs : CompactionState K) : Bool :=
  cs.builder.any fun out => cs.compaction.maxOutputFileSize ≤ size.building out.contents

def closeIf (size : TableSize K) (cs : CompactionState K) (answer : Bool × Compaction K) : CompactionState K :=
  let cs := { cs with compaction := answer.2 }
  if answer.1 then cs.finishCompactionOutputFile size else cs

def stopBefore [LinearOrder K] (options : Options) (size : TableSize K) (cs : CompactionState K)
    (key : InternalKey K) : CompactionState K :=
  cs.closeIf size (cs.compaction.shouldStopBefore options key)

/-- One iteration of the loop on the entry the input stands at. -/
def compactEntry [LinearOrder K] (options : Options) (size : TableSize K) (nextFileNumber : Nat)
    (cs : CompactionState K) (entry : Entry K) : CompactionState K × Nat :=
  let dropped := (cs.stopBefore options size entry.1).dropEntry entry.1
  if dropped.1 then (dropped.2, nextFileNumber)
  else
    let added := dropped.2.addEntry nextFileNumber entry
    (if added.1.isFull size then added.1.finishCompactionOutputFile size else added.1, added.2)

end CompactionState

/-! ## What the parts of an iteration change -/

namespace CompactionState

def written (cs : CompactionState K) : List (Entry K) :=
  (cs.outputs.map (·.contents)).flatten ++ (cs.builder.map (·.contents)).getD []

def allOutputs (cs : CompactionState K) : List (Output K) := cs.outputs ++ cs.builder.toList

end CompactionState

def Output.HasBounds (out : Output K) : Prop :=
  out.contents.head?.map Prod.fst = some out.smallest ∧ out.contents.getLast?.map Prod.fst = some out.largest

structure Compaction.SameInputs (c d : Compaction K) : Prop where
  level : d.level = c.level
  inputVersion : d.inputVersion = c.inputVersion
  inputs0 : d.inputs0 = c.inputs0
  inputs1 : d.inputs1 = c.inputs1
  edit : d.edit = c.edit
  maxOutputFileSize : d.maxOutputFileSize = c.maxOutputFileSize

namespace Compaction.SameInputs

theorem refl (c : Compaction K) : c.SameInputs c := ⟨rfl, rfl, rfl, rfl, rfl, rfl⟩

theorem trans {c d e : Compaction K} (first : c.SameInputs d) (snd : d.SameInputs e) : c.SameInputs e :=
  ⟨snd.level.trans first.level, snd.inputVersion.trans first.inputVersion,
    snd.inputs0.trans first.inputs0, snd.inputs1.trans first.inputs1, snd.edit.trans first.edit,
    snd.maxOutputFileSize.trans first.maxOutputFileSize⟩

theorem chosen [LinearOrder K] {c d : Compaction K} (eq : c.SameInputs d) (chosen : c.Chosen) : d.Chosen := by
  obtain ⟨ne, sublist0, sublist1, out, closed⟩ := chosen
  refine ⟨?_, ?_, ?_, ?_, ?_⟩ <;>
    simpa only [eq.level, eq.inputVersion, eq.inputs0, eq.inputs1]

end Compaction.SameInputs

theorem Compaction.shouldStopBefore_same [LinearOrder K] (opts : Options) (c : Compaction K) (key : InternalKey K) :
    c.SameInputs (c.shouldStopBefore opts key).2 ∧ (c.shouldStopBefore opts key).2.levelPtrs = c.levelPtrs := by
  simp only [shouldStopBefore]
  generalize maxGrandParentOverlapBytes opts = limit
  split <;> exact ⟨⟨rfl, rfl, rfl, rfl, rfl, rfl⟩, rfl⟩

variable {cs : CompactionState K} {size : TableSize K}

namespace CompactionState

@[simp] theorem finish_written (size : TableSize K) (cs : CompactionState K) :
    (cs.finishCompactionOutputFile size).written = cs.written := by
  rw [finishCompactionOutputFile]
  split
  · rfl
  case h_2 out isOpen => simp [written, isOpen]

theorem finish_others (size : TableSize K) (cs : CompactionState K) :
    (cs.finishCompactionOutputFile size).compaction = cs.compaction ∧
      (cs.finishCompactionOutputFile size).smallestSnapshot = cs.smallestSnapshot ∧
      (cs.finishCompactionOutputFile size).input = cs.input ∧
      (cs.finishCompactionOutputFile size).currentUserKey = cs.currentUserKey ∧
      (cs.finishCompactionOutputFile size).lastSequenceForKey = cs.lastSequenceForKey := by
  rw [finishCompactionOutputFile]
  split <;> exact ⟨rfl, rfl, rfl, rfl, rfl⟩

theorem mem_finish_allOutputs {out : Output K} (mem : out ∈ (cs.finishCompactionOutputFile size).allOutputs) :
    ∃ old ∈ cs.allOutputs, out.number = old.number ∧ out.smallest = old.smallest ∧
      out.largest = old.largest ∧ out.contents = old.contents := by
  rw [finishCompactionOutputFile] at mem
  split at mem
  · exact ⟨out, mem, rfl, rfl, rfl, rfl⟩
  case h_2 last isOpen =>
    simp only [allOutputs, Option.toList_none, append_nil, mem_append, mem_singleton] at mem
    cases mem with
    | inl finished => exact ⟨out, by simp [allOutputs, finished], rfl, rfl, rfl, rfl⟩
    | inr isLast => exact ⟨last, by simp [allOutputs, isOpen], by simp [isLast]⟩

theorem finish_numbers (size : TableSize K) (cs : CompactionState K) :
    (cs.finishCompactionOutputFile size).allOutputs.map (·.number) = cs.allOutputs.map (·.number) := by
  rw [finishCompactionOutputFile]
  split
  · rfl
  case h_2 out isOpen => simp [allOutputs, isOpen]

theorem finish_outputs {out : Output K} (isOutput : out ∈ (cs.finishCompactionOutputFile size).outputs) :
    ∃ old ∈ cs.allOutputs, old.number = out.number ∧ old.contents = out.contents := by
  rw [finishCompactionOutputFile] at isOutput
  split at isOutput
  · exact ⟨out, mem_append_left _ isOutput, rfl, rfl⟩
  case h_2 last isOpen =>
    cases mem_append.mp isOutput with
    | inl finished => exact ⟨out, mem_append_left _ finished, rfl, rfl⟩
    | inr isLast =>
      rw [mem_singleton.mp isLast]
      exact ⟨last, mem_append_right _ (by simp [isOpen]), rfl, rfl⟩

theorem finish_builder (size : TableSize K) (cs : CompactionState K) :
    (cs.finishCompactionOutputFile size).builder = none := by
  rw [finishCompactionOutputFile]
  split
  case h_1 isClosed => exact isClosed
  case h_2 => rfl

variable (n : Nat) (cs : CompactionState K) (entry : Entry K)

theorem addEntry_written : (cs.addEntry n entry).1.written = cs.written ++ [entry] := by
  rw [addEntry]
  split
  case h_1 out isOpen => simp [written, isOpen]
  case h_2 isClosed => simp [written, isClosed]

theorem addEntry_others :
    (cs.addEntry n entry).1.compaction = cs.compaction ∧
      (cs.addEntry n entry).1.smallestSnapshot = cs.smallestSnapshot ∧
      (cs.addEntry n entry).1.input = cs.input ∧
      (cs.addEntry n entry).1.currentUserKey = cs.currentUserKey ∧
      (cs.addEntry n entry).1.lastSequenceForKey = cs.lastSequenceForKey := by
  rw [addEntry]
  split <;> exact ⟨rfl, rfl, rfl, rfl, rfl⟩

theorem addEntry_allOutputs :
    (∃ finished out, cs.allOutputs = finished ++ [out] ∧ (cs.addEntry n entry).2 = n ∧
      (cs.addEntry n entry).1.allOutputs =
        finished ++ [{ out with largest := entry.1, contents := out.contents ++ [entry] }]) ∨
    ((cs.addEntry n entry).2 = n + 1 ∧
      (cs.addEntry n entry).1.allOutputs = cs.allOutputs ++ [⟨n, 0, entry.1, entry.1, [entry]⟩]) := by
  rw [addEntry]
  split
  case h_1 out isOpen => exact .inl ⟨cs.outputs, out, by simp [allOutputs, isOpen], rfl, rfl⟩
  case h_2 isClosed => exact .inr ⟨rfl, by simp [allOutputs, isClosed]⟩

end CompactionState

theorem CompactionState.finish_bounds (size : TableSize K) (bounds : ∀ out ∈ cs.allOutputs, out.HasBounds) :
    ∀ out ∈ (cs.finishCompactionOutputFile size).allOutputs, out.HasBounds := by
  intro out mem
  obtain ⟨old, wasOutput, _, sameSmallest, sameLargest, sameContents⟩ := mem_finish_allOutputs mem
  have oldBounds := bounds old wasOutput
  simpa only [Output.HasBounds, sameSmallest, sameLargest, sameContents] using oldBounds

theorem CompactionState.addEntry_bounds (n : Nat) (entry : Entry K) (bounds : ∀ out ∈ cs.allOutputs, out.HasBounds) :
    ∀ out ∈ (cs.addEntry n entry).1.allOutputs, out.HasBounds := by
  obtain ⟨finished, last, whole, _, extended⟩ | ⟨_, opened⟩ := cs.addEntry_allOutputs n entry
  · rw [extended]
    rw [whole] at bounds
    obtain ⟨old, lastBounds⟩ := forall_mem_append.mp bounds
    rw [forall_mem_singleton] at lastBounds
    refine SortedList.forall_mem_concat old ⟨?_, by simp⟩
    cases contents : last.contents with
    | nil => simp [Output.HasBounds, contents] at lastBounds
    | cons first rest => simpa [Output.HasBounds, contents] using lastBounds.1
  · rw [opened]
    exact SortedList.forall_mem_concat bounds (by simp [Output.HasBounds])

/-! ## What the loop has done -/

section Invariant

variable [LinearOrder K]

/-- No file of the levels below the output level has the user key in its range. -/
def Compaction.BaseLevel (c : Compaction K) (userKey : K) : Prop :=
  ∀ i, c.level + 2 ≤ i → i < kNumLevels → ∀ f ∈ c.inputVersion.files i,
    ¬ (f.smallest.userKey ≤ userKey ∧ userKey ≤ f.largest.userKey)

/-- Why an entry that was read may be in no output. -/
def CompactionState.MayDrop (cs : CompactionState K) (read : List (Entry K)) (e : Entry K) : Prop :=
  (∃ newer ∈ read, newer.1.userKey = e.1.userKey ∧ newer.1 < e.1 ∧ newer.1.sequence ≤ cs.smallestSnapshot) ∨
  (e.1.typeCode = ValueType.deletion.code ∧ e.1.sequence ≤ cs.smallestSnapshot ∧ cs.compaction.BaseLevel e.1.userKey)

structure CompactionState.LastRead (cs : CompactionState K) (read : List (Entry K)) : Prop where
  cursor : cs.currentUserKey = read.getLast?.map (·.1.userKey)
  lastSequence : cs.lastSequenceForKey = (read.getLast?.map (·.1.sequence)).getD kMaxSequenceNumber

namespace CompactionState.LastRead

variable {cs : CompactionState K} {read rest : List (Entry K)} {entry : Entry K}
  (lastRead : cs.LastRead read) (sorted : (read ++ entry :: rest).Pairwise fun a b => a.1 < b.1)

include lastRead sorted

/-- Rule (A) drops an entry that the one read just before hides from every snapshot. -/
theorem hidden
    (isCurrent : cs.currentUserKey = some entry.1.userKey) (isOld : cs.lastSequenceForKey ≤ cs.smallestSnapshot) :
    ∃ newer ∈ read, newer.1.userKey = entry.1.userKey ∧ newer.1 < entry.1 ∧ newer.1.sequence ≤ cs.smallestSnapshot := by
  rw [lastRead.cursor] at isCurrent
  obtain ⟨previous, isLast, sameUser⟩ := Option.map_eq_some_iff.mp isCurrent
  rw [lastRead.lastSequence, isLast] at isOld
  have inRead := mem_of_getLast? isLast
  exact ⟨previous, inRead, sameUser, (pairwise_append.mp sorted).2.2 previous inRead entry mem_cons_self, isOld⟩

/-- When rule (A) does not apply, every newer entry of the key is newer than the snapshots. -/
theorem visible (notOld : cs.currentUserKey = some entry.1.userKey → cs.smallestSnapshot < cs.lastSequenceForKey) :
    ∀ newer ∈ read, newer.1.userKey = entry.1.userKey → cs.smallestSnapshot < newer.1.sequence := by
  intro newer inRead sameUser
  obtain ⟨previous, isLast⟩ := getLast?_isSome.mpr (ne_nil_of_mem inRead) |> Option.isSome_iff_exists.mp
  have pre := (pairwise_append.mp sorted).2.2 previous (mem_of_getLast? isLast) entry mem_cons_self
  have between : newer.1 ≤ previous.1 := by
    obtain ⟨front, isFront⟩ := getLast?_eq_some_iff.mp isLast
    have ord := (pairwise_append.mp sorted).1
    rw [isFront] at ord inRead
    cases mem_append.mp inRead with
    | inl inFront => exact ((pairwise_append.mp ord).2.2 newer inFront previous (by simp)).le
    | inr isNewer => exact (mem_singleton.mp isNewer ▸ le_rfl)
  have previousUser : previous.1.userKey = entry.1.userKey :=
    le_antisymm (InternalKey.userKey_le_of_le pre.le) (sameUser ▸ InternalKey.userKey_le_of_le between)
  have recent := notOld (by rw [lastRead.cursor, isLast]; exact congrArg some previousUser)
  rw [lastRead.lastSequence, isLast] at recent
  have older := InternalKey.tag_le_of_le (sameUser.trans previousUser.symm) between
  exact recent.trans_le (Nat.div_le_div_right older)

end CompactionState.LastRead

structure WorkInvariant (cs : CompactionState K) (read : List (Entry K)) : Prop where
  sublist : cs.written.Sublist read
  bounds : ∀ out ∈ cs.allOutputs, out.HasBounds
  cursor : cs.currentUserKey = read.getLast?.map (·.1.userKey)
  lastSequence : cs.lastSequenceForKey = (read.getLast?.map (·.1.sequence)).getD kMaxSequenceNumber
  ptrs : ∀ e ∈ cs.input, PtrsBefore cs.compaction.inputVersion.files cs.compaction.levelPtrs e.1.userKey
  accounted : ∀ e ∈ read, e ∈ cs.written ∨ cs.MayDrop read e
  /-- Nothing is written that a newer entry hides from every snapshot. -/
  hidden : ∀ e ∈ cs.written, ∀ newer ∈ read, newer.1.userKey = e.1.userKey → newer.1 < e.1 →
    cs.smallestSnapshot < newer.1.sequence

structure DropSpec (cs after : CompactionState K) (ikey : ParsedInternalKey K) (drop : Bool) : Prop where
  outputs : after.outputs = cs.outputs
  builder : after.builder = cs.builder
  snapshot : after.smallestSnapshot = cs.smallestSnapshot
  cursor : after.currentUserKey = some ikey.userKey
  lastSequence : after.lastSequenceForKey = ikey.sequence
  same : cs.compaction.SameInputs after.compaction
  ptrs : PtrsBefore cs.compaction.inputVersion.files after.compaction.levelPtrs ikey.userKey
  reason : drop = true → (cs.currentUserKey = some ikey.userKey ∧ cs.lastSequenceForKey ≤ cs.smallestSnapshot) ∨
    (ikey.type = .deletion ∧ ikey.sequence ≤ cs.smallestSnapshot ∧ cs.compaction.BaseLevel ikey.userKey)
  kept : drop = false → cs.currentUserKey = some ikey.userKey → cs.smallestSnapshot < cs.lastSequenceForKey

section

variable (cs : CompactionState K)

/-- The drop rules set the locals and move the cursors of `IsBaseLevelForKey`, and nothing else. -/
theorem CompactionState.dropEntry_moves (key : InternalKey K) :
    ∃ ptrs user last, (cs.dropEntry key).2 = { cs with
        compaction := { cs.compaction with levelPtrs := ptrs }, currentUserKey := user, lastSequenceForKey := last } ∧
      (ptrs = cs.compaction.levelPtrs ∨ ∃ ikey, parseInternalKey key = some ikey ∧
        ptrs = (cs.compaction.isBaseLevelForKey ikey.userKey).2.levelPtrs) := by
  cases parsed : parseInternalKey key with
  | none => exact ⟨_, _, _, by simp only [dropEntry, parsed]; rfl, .inl rfl⟩
  | some ikey =>
    simp only [dropEntry, parsed]
    generalize (if cs.currentUserKey = some ikey.userKey then cs.lastSequenceForKey else kMaxSequenceNumber) = last
    by_cases hidden : last ≤ cs.smallestSnapshot
    · rw [if_pos hidden]
      exact ⟨_, _, _, rfl, .inl rfl⟩
    rw [if_neg hidden]
    split
    · exact ⟨_, _, _, rfl, .inr ⟨ikey, rfl, rfl⟩⟩
    · exact ⟨_, _, _, rfl, .inl rfl⟩

theorem CompactionState.dropEntry_same (key : InternalKey K) :
    cs.compaction.SameInputs (cs.dropEntry key).2.compaction := by
  obtain ⟨ptrs, user, last, moved, -⟩ := cs.dropEntry_moves key
  rw [moved]
  exact ⟨rfl, rfl, rfl, rfl, rfl, rfl⟩

theorem CompactionState.dropEntry_outputs (key : InternalKey K) :
    (cs.dropEntry key).2.outputs = cs.outputs ∧ (cs.dropEntry key).2.builder = cs.builder := by
  obtain ⟨ptrs, user, last, moved, -⟩ := cs.dropEntry_moves key
  rw [moved]
  exact ⟨rfl, rfl⟩

variable {ikey : ParsedInternalKey K} {key : InternalKey K}

/-- Rule (A) needs an older snapshot than the entry before, rule (B) an obsolete deletion. -/
theorem CompactionState.dropEntry_rules (parsed : parseInternalKey key = some ikey)
    (reserved : cs.smallestSnapshot < kMaxSequenceNumber) :
    ((cs.dropEntry key).1 = true →
      (cs.currentUserKey = some ikey.userKey ∧ cs.lastSequenceForKey ≤ cs.smallestSnapshot) ∨
      (ikey.type = .deletion ∧ ikey.sequence ≤ cs.smallestSnapshot ∧
        (cs.compaction.isBaseLevelForKey ikey.userKey).1 = true)) ∧
    ((cs.dropEntry key).1 = false → cs.currentUserKey = some ikey.userKey →
      cs.smallestSnapshot < cs.lastSequenceForKey) := by
  simp only [dropEntry, parsed]
  by_cases hidden : (if cs.currentUserKey = some ikey.userKey then cs.lastSequenceForKey else kMaxSequenceNumber) ≤
        cs.smallestSnapshot
  · simp only [if_pos hidden]
    refine ⟨fun _ => .inl ?_, fun isKept => by cases isKept⟩
    split at hidden
    case isTrue repeated => exact ⟨repeated, hidden⟩
    case isFalse => exact absurd hidden (not_le.mpr reserved)
  · simp only [if_neg hidden]
    have vis : cs.currentUserKey = some ikey.userKey → cs.smallestSnapshot < cs.lastSequenceForKey := by
      intro repeated
      rw [if_pos repeated] at hidden
      exact not_le.mp hidden
    by_cases obsolete : ikey.type = .deletion ∧ ikey.sequence ≤ cs.smallestSnapshot
    · simp only [if_pos obsolete]
      exact ⟨fun isBase => .inr ⟨obsolete.1, obsolete.2, isBase⟩, fun _ => vis⟩
    · simp only [if_neg obsolete]
      exact ⟨fun isTrue => (by cases isTrue), fun _ => vis⟩

theorem CompactionState.dropEntry_spec (parsed : parseInternalKey key = some ikey)
    (sorted : cs.compaction.inputVersion.Sorted) (reserved : cs.smallestSnapshot < kMaxSequenceNumber)
    (pre : PtrsBefore cs.compaction.inputVersion.files cs.compaction.levelPtrs ikey.userKey) :
    DropSpec cs (cs.dropEntry key).2 ikey (cs.dropEntry key).1 := by
  obtain ⟨advanced, base⟩ := cs.compaction.isBaseLevelForKey_spec sorted.disjoint sorted.ordered pre
  obtain ⟨reason, kept⟩ := cs.dropEntry_rules parsed reserved
  have ptrs : PtrsBefore cs.compaction.inputVersion.files (cs.dropEntry key).2.compaction.levelPtrs
      ikey.userKey := by
    obtain ⟨ptrs, _, _, moved, rfl | ⟨other, parsed', rfl⟩⟩ := cs.dropEntry_moves key
    · rw [moved]
      exact pre
    cases parsed.symm.trans parsed'
    rw [moved]
    exact advanced
  refine ⟨?_, ?_, ?_, ?_, ?_, cs.dropEntry_same key, ptrs, fun drop => ?_, kept⟩
  iterate 5 simp only [dropEntry, parsed]
  exact (reason drop).imp_right fun ⟨deletion, isOld, isBase⟩ => ⟨deletion, isOld, base.mp isBase⟩

end

/-- Closing the output before the entry moves cursors and outputs, not what was written. -/
structure ClosedSpec (cs after : CompactionState K) : Prop where
  written : after.written = cs.written
  numbers : after.allOutputs.map (·.number) = cs.allOutputs.map (·.number)
  same : cs.compaction.SameInputs after.compaction
  ptrs : after.compaction.levelPtrs = cs.compaction.levelPtrs
  snapshot : after.smallestSnapshot = cs.smallestSnapshot
  cursor : after.currentUserKey = cs.currentUserKey
  lastSequence : after.lastSequenceForKey = cs.lastSequenceForKey
  bounds : (∀ out ∈ cs.allOutputs, out.HasBounds) → ∀ out ∈ after.allOutputs, out.HasBounds

variable {answer : Bool × Compaction K}

omit [LinearOrder K] in
theorem CompactionState.closeIf_spec (size : TableSize K) (cs : CompactionState K)
    (eq : cs.compaction.SameInputs answer.2)
    (ptrs : answer.2.levelPtrs = cs.compaction.levelPtrs) : ClosedSpec cs (cs.closeIf size answer) := by
  simp only [closeIf]
  split
  · obtain ⟨isCompaction, snap, _, cursor, last⟩ := finish_others size { cs with compaction := answer.2 }
    refine ⟨?_, ?_, ?_, ?_, snap, cursor, last, ?_⟩
    · rw [finish_written]; rfl
    · rw [finish_numbers]; rfl
    · rw [isCompaction]; exact eq
    · rw [isCompaction]; exact ptrs
    · exact fun bounds => finish_bounds size bounds
  · exact ⟨rfl, rfl, eq, ptrs, rfl, rfl, rfl, fun bounds => bounds⟩

theorem CompactionState.stopBefore_spec (opts : Options) (size : TableSize K) (cs : CompactionState K)
    (key : InternalKey K) : ClosedSpec cs (cs.stopBefore opts size key) :=
  have kept := cs.compaction.shouldStopBefore_same opts key
  cs.closeIf_spec size kept.1 kept.2

omit [LinearOrder K] in
theorem CompactionState.finishIfFull_spec (size : TableSize K) (cs : CompactionState K) :
    ClosedSpec cs (if cs.isFull size then cs.finishCompactionOutputFile size else cs) := by
  split
  · obtain ⟨isCompaction, snap, _, cursor, last⟩ := finish_others size cs
    exact ⟨finish_written size cs, finish_numbers size cs, isCompaction ▸ .refl _, by rw [isCompaction],
      snap, cursor, last, finish_bounds size⟩
  · exact ⟨rfl, rfl, .refl _, rfl, rfl, rfl, rfl, fun bounds => bounds⟩

/-! ## Cuts do not steer the rules -/

/-- Two states from which the drop rules run alike. -/
structure CompactionState.SameDrops (cs ds : CompactionState K) : Prop where
  snapshot : ds.smallestSnapshot = cs.smallestSnapshot
  cursor : ds.currentUserKey = cs.currentUserKey
  lastSequence : ds.lastSequenceForKey = cs.lastSequenceForKey
  level : ds.compaction.level = cs.compaction.level
  inputVersion : ds.compaction.inputVersion = cs.compaction.inputVersion
  ptrs : ds.compaction.levelPtrs = cs.compaction.levelPtrs

omit [LinearOrder K] in
theorem ClosedSpec.sameDrops {after : CompactionState K} (closed : ClosedSpec cs after) : cs.SameDrops after :=
  ⟨closed.snapshot, closed.cursor, closed.lastSequence, closed.same.level, closed.same.inputVersion, closed.ptrs⟩

namespace CompactionState

omit [LinearOrder K] in
theorem SameDrops.refl (cs : CompactionState K) : cs.SameDrops cs := ⟨rfl, rfl, rfl, rfl, rfl, rfl⟩

variable {ds : CompactionState K}

omit [LinearOrder K] in
theorem SameDrops.trans {es : CompactionState K} (first : cs.SameDrops ds) (snd : ds.SameDrops es) : cs.SameDrops es :=
  ⟨snd.snapshot.trans first.snapshot, snd.cursor.trans first.cursor,
    snd.lastSequence.trans first.lastSequence, snd.level.trans first.level,
    snd.inputVersion.trans first.inputVersion, snd.ptrs.trans first.ptrs⟩

omit [LinearOrder K] in
theorem SameDrops.symm (eq : cs.SameDrops ds) : ds.SameDrops cs :=
  ⟨eq.snapshot.symm, eq.cursor.symm, eq.lastSequence.symm, eq.level.symm, eq.inputVersion.symm, eq.ptrs.symm⟩

theorem SameDrops.dropEntry (eq : cs.SameDrops ds) (key : InternalKey K) :
    (ds.dropEntry key).1 = (cs.dropEntry key).1 ∧ (cs.dropEntry key).2.SameDrops (ds.dropEntry key).2 := by
  obtain ⟨snap, cursor, lastSequence, l, inputVersion, ptrs⟩ := eq
  cases parsed : parseInternalKey key with
  | none =>
    simp only [CompactionState.dropEntry, parsed]
    exact ⟨trivial, snap, rfl, rfl, l, inputVersion, ptrs⟩
  | some ikey =>
    simp only [CompactionState.dropEntry, parsed, snap, cursor, lastSequence]
    generalize (if cs.currentUserKey = some ikey.userKey then cs.lastSequenceForKey else kMaxSequenceNumber) = last
    by_cases hidden : last ≤ cs.smallestSnapshot
    · simp only [if_pos hidden]
      exact ⟨trivial, rfl, rfl, rfl, l, inputVersion, ptrs⟩
    simp only [if_neg hidden]
    by_cases obsolete : ikey.type = .deletion ∧ ikey.sequence ≤ cs.smallestSnapshot
    · simp only [if_pos obsolete, Compaction.isBaseLevelForKey, l, inputVersion, ptrs]
      exact ⟨trivial, rfl, rfl, rfl, rfl, rfl, rfl⟩
    · simp only [if_neg obsolete]
      exact ⟨trivial, rfl, rfl, rfl, l, inputVersion, ptrs⟩

/-- One iteration writes the entry unless the rules drop it, and cuts do not steer the rules. -/
theorem compactEntry_kept (opts : Options) (size : TableSize K) (n : Nat) (eq : cs.SameDrops ds) (e : Entry K) :
    let after := (cs.compactEntry opts size n e).1
    after.SameDrops (ds.dropEntry e.1).2 ∧ after.written = cs.written ++ (if (ds.dropEntry e.1).1 then [] else [e]) ∧
      ((∀ out ∈ cs.allOutputs, out.HasBounds) → ∀ out ∈ after.allOutputs, out.HasBounds) := by
  have closed := cs.stopBefore_spec opts size e.1
  have sameClosed : (cs.stopBefore opts size e.1).SameDrops ds := closed.sameDrops.symm.trans eq
  simp only [compactEntry]
  generalize cs.stopBefore opts size e.1 = state at closed sameClosed
  obtain ⟨sameAnswer, sameAfter⟩ := sameClosed.dropEntry e.1
  have outputs := state.dropEntry_outputs e.1
  have wr : (state.dropEntry e.1).2.written = cs.written := by
    rw [← closed.written, written, written, outputs.1, outputs.2]
  have bounds : (∀ out ∈ cs.allOutputs, out.HasBounds) → ∀ out ∈ (state.dropEntry e.1).2.allOutputs, out.HasBounds := by
    rw [allOutputs, allOutputs, outputs.1, outputs.2]
    exact closed.bounds
  rw [sameAnswer]
  generalize state.dropEntry e.1 = dropped at sameAfter wr bounds
  by_cases drop : dropped.1 = true
  · simp only [if_pos drop, append_nil]
    exact ⟨sameAfter, wr, bounds⟩
  simp only [if_neg drop]
  obtain ⟨addCompaction, addSnapshot, -, addCursor, addLast⟩ := dropped.2.addEntry_others n e
  have addWritten := dropped.2.addEntry_written n e
  have addBounds := fun ofCs => addEntry_bounds n e (bounds ofCs)
  generalize dropped.2.addEntry n e = added at addCompaction addSnapshot addCursor addLast addWritten addBounds
  have full := added.1.finishIfFull_spec size
  generalize (if added.1.isFull size then added.1.finishCompactionOutputFile size else added.1) = final at full
  have sameAdded : dropped.2.SameDrops added.1 :=
    ⟨addSnapshot, addCursor, addLast, by rw [addCompaction], by rw [addCompaction], by rw [addCompaction]⟩
  exact ⟨(sameAdded.trans full.sameDrops).symm.trans sameAfter, by rw [full.written, addWritten, wr],
    fun ofCs => full.bounds (addBounds ofCs)⟩

end CompactionState

theorem CompactionState.compactEntry_same (opts : Options) (size : TableSize K) (n : Nat)
    (cs : CompactionState K) (entry : Entry K) :
    cs.compaction.SameInputs (cs.compactEntry opts size n entry).1.compaction := by
  have dropped := (cs.stopBefore_spec opts size entry.1).same.trans
    ((cs.stopBefore opts size entry.1).dropEntry_same entry.1)
  simp only [compactEntry]
  split
  · exact dropped
  refine dropped.trans (.trans ?_ (finishIfFull_spec size _).same)
  rw [(addEntry_others n _ entry).1]
  exact .refl _

theorem CompactionState.compactEntry_numbers (opts : Options) (size : TableSize K) (n : Nat)
    (cs : CompactionState K) (entry : Entry K) :
    let res := cs.compactEntry opts size n entry
    (res.2 = n ∧ res.1.allOutputs.map (·.number) = cs.allOutputs.map (·.number)) ∨
    (res.2 = n + 1 ∧ res.1.allOutputs.map (·.number) = cs.allOutputs.map (·.number) ++ [n]) := by
  have closedNumbers := (cs.stopBefore_spec opts size entry.1).numbers
  have dropKeeps : ∀ state : CompactionState K, (state.dropEntry entry.1).2.allOutputs = state.allOutputs := by
    intro state
    obtain ⟨ptrs, user, last, moved, -⟩ := state.dropEntry_moves entry.1
    rw [moved]
    rfl
  simp only [compactEntry]
  split
  · exact .inl ⟨rfl, by rw [dropKeeps, closedNumbers]⟩
  simp only
  rw [(finishIfFull_spec size _).numbers]
  obtain ⟨finished, last, whole, num, extended⟩ | ⟨num, opened⟩ := addEntry_allOutputs n
    ((cs.stopBefore opts size entry.1).dropEntry entry.1).2 entry
  · refine .inl ⟨num, ?_⟩
    rw [← closedNumbers, ← dropKeeps (cs.stopBefore opts size entry.1), whole, extended]
    simp
  refine .inr ⟨num, ?_⟩
  rw [← closedNumbers, ← dropKeeps (cs.stopBefore opts size entry.1), opened]
  simp

theorem CompactionState.compactEntry_fresh (opts : Options) (size : TableSize K) {n : Nat} (entry : Entry K)
    {files : Nat → List (FileMetaData K)} (below : ∀ l, ∀ f ∈ files l, f.number < n)
    (distinct : (cs.allOutputs.map (·.number)).Pairwise (· ≠ ·))
    (fresh : ∀ out ∈ cs.allOutputs, out.number < n ∧ ∀ l, ∀ f ∈ files l, f.number ≠ out.number) :
    let next := cs.compactEntry opts size n entry
    n ≤ next.2 ∧ (next.1.allOutputs.map (·.number)).Pairwise (· ≠ ·) ∧
      ∀ out ∈ next.1.allOutputs, out.number < next.2 ∧ ∀ l, ∀ f ∈ files l, f.number ≠ out.number := by
  have nums := cs.compactEntry_numbers opts size n entry
  generalize cs.compactEntry opts size n entry = next at nums
  have old : ∀ m ∈ cs.allOutputs.map (·.number), m < n ∧ ∀ l, ∀ f ∈ files l, f.number ≠ m :=
    forall_mem_map.mpr fresh
  obtain ⟨unchanged, same⟩ | ⟨more, oneMore⟩ := nums
  · refine ⟨unchanged.ge, same ▸ distinct, fun out isOutput => ?_⟩
    rw [unchanged]
    exact old _ (same ▸ mem_map_of_mem isOutput)
  refine ⟨more ▸ Nat.le_succ n, ?_, ?_⟩
  · rw [oneMore]
    exact SortedList.pairwise_concat distinct fun m isOld => (old m isOld).1.ne
  have all : ∀ m ∈ next.1.allOutputs.map (·.number), m < next.2 ∧ ∀ l, ∀ f ∈ files l, f.number ≠ m := by
    rw [oneMore, more]
    exact SortedList.forall_mem_concat (fun m isOld => ⟨Nat.lt_succ_of_lt (old m isOld).1, (old m isOld).2⟩)
      ⟨Nat.lt_succ_self n, fun l f isFile => (below l f isFile).ne⟩
  exact forall_mem_map.mp all

theorem WorkInvariant.init (c : Compaction K) (snap : Nat) (input : List (Entry K)) (fresh : c.levelPtrs = fun _ => 0) :
    WorkInvariant ⟨c, snap, [], none, input, none, kMaxSequenceNumber⟩ [] where
  sublist := List.Sublist.refl []
  bounds := by simp [CompactionState.allOutputs]
  cursor := rfl
  lastSequence := rfl
  ptrs e _ lvl i f passed _ := by simp [fresh] at passed
  accounted := by simp
  hidden := by simp [CompactionState.written]

variable {entry : Entry K}

/-- Reading one more entry, which is written or may be dropped, into a state that differs
otherwise in cursors only. -/
theorem WorkInvariant.extend {after : CompactionState K} {read rest kept : List (Entry K)}
    (inv : WorkInvariant cs read) (atEntry : cs.input = entry :: rest)
    (sorted : (read ++ cs.input).Pairwise fun a b => a.1 < b.1) (eq : cs.compaction.SameInputs after.compaction)
    (snap : after.smallestSnapshot = cs.smallestSnapshot)
    (wr : after.written = cs.written ++ kept) (sub : kept.Sublist [entry])
    (vis : entry ∈ kept → ∀ newer ∈ read, newer.1.userKey = entry.1.userKey → cs.smallestSnapshot < newer.1.sequence)
    (bounds : ∀ out ∈ after.allOutputs, out.HasBounds) (cursor : after.currentUserKey = some entry.1.userKey)
    (lastSequence : after.lastSequenceForKey = entry.1.sequence)
    (ptrs : PtrsBefore cs.compaction.inputVersion.files after.compaction.levelPtrs entry.1.userKey)
    (accounted : entry ∈ after.written ∨ after.MayDrop (read ++ [entry]) entry) :
    WorkInvariant { after with input := rest } (read ++ [entry]) := by
  have lastIs : (read ++ [entry]).getLast? = some entry := by simp
  refine ⟨?_, bounds, ?_, ?_, ?_, ?_, ?_⟩
  · change after.written.Sublist _
    rw [wr]
    exact inv.sublist.append sub
  · rw [lastIs]; simp [cursor]
  · rw [lastIs]; simp [lastSequence]
  · intro e inR
    have later : entry.1 < e.1 := by
      rw [atEntry] at sorted
      exact rel_of_pairwise_cons (pairwise_append.mp sorted).2.1 inR
    simp only [eq.inputVersion]
    exact ptrs.mono (InternalKey.userKey_le_of_le later.le)
  · intro e wasRead
    cases mem_append.mp wasRead with
    | inr isLast => exact mem_singleton.mp isLast ▸ accounted
    | inl earlier =>
      cases inv.accounted e earlier with
      | inl isWritten => exact .inl (wr ▸ mem_append_left _ isWritten)
      | inr mayDrop =>
        refine .inr ?_
        simp only [CompactionState.MayDrop, Compaction.BaseLevel, eq.level, eq.inputVersion, snap]
        obtain ⟨newer, inRead, facts⟩ | obsolete := mayDrop
        · exact .inl ⟨newer, by simp [inRead], facts⟩
        · exact .inr obsolete
  · have pre : ∀ e ∈ read, e.1 < entry.1 := fun e inRead =>
      (pairwise_append.mp sorted).2.2 e inRead entry (by simp [atEntry])
    intro e isWritten newer inRead sameUser lt
    change e ∈ after.written at isWritten
    change after.smallestSnapshot < _
    rw [snap]
    rw [wr] at isWritten
    cases mem_append.mp isWritten with
    | inl old =>
      cases mem_append.mp inRead with
      | inl earlier => exact inv.hidden e old newer earlier sameUser lt
      | inr isLast =>
        rw [mem_singleton.mp isLast] at lt
        exact absurd lt (pre e (inv.sublist.subset old)).asymm
    | inr new =>
      obtain rfl := mem_singleton.mp (sub.subset new)
      cases mem_append.mp inRead with
      | inl earlier => exact vis new newer earlier sameUser
      | inr isNewer => exact absurd lt (mem_singleton.mp isNewer ▸ lt_irrefl _)

structure HandledSpec (cs after : CompactionState K) (read : List (Entry K)) (entry : Entry K)
    (drop : Bool) : Prop where
  same : cs.compaction.SameInputs after.compaction
  snapshot : after.smallestSnapshot = cs.smallestSnapshot
  written : after.written = cs.written
  bounds : ∀ out ∈ after.allOutputs, out.HasBounds
  cursor : after.currentUserKey = some entry.1.userKey
  lastSequence : after.lastSequenceForKey = entry.1.sequence
  ptrs : PtrsBefore cs.compaction.inputVersion.files after.compaction.levelPtrs entry.1.userKey
  reason : drop = true → after.MayDrop (read ++ [entry]) entry
  kept : drop = false → ∀ newer ∈ read, newer.1.userKey = entry.1.userKey → cs.smallestSnapshot < newer.1.sequence

theorem WorkInvariant.handled {read rest : List (Entry K)} (inv : WorkInvariant cs read)
    (atEntry : cs.input = entry :: rest) (sorted : (read ++ cs.input).Pairwise fun a b => a.1 < b.1)
    (parsed : parseInternalKey entry.1 = some ikey) (versionSorted : cs.compaction.inputVersion.Sorted)
    (reserved : cs.smallestSnapshot < kMaxSequenceNumber) :
    HandledSpec cs (cs.dropEntry entry.1).2 read entry (cs.dropEntry entry.1).1 := by
  obtain ⟨isUser, isSequence, isDeletion⟩ : ikey.userKey = entry.1.userKey ∧ ikey.sequence = entry.1.sequence ∧
      (ikey.type = .deletion → entry.1.typeCode = ValueType.deletion.code) := by
    rw [parseInternalKey_eq_some parsed]
    simp only [InternalKey.make_userKey, InternalKey.make_sequence, InternalKey.make_typeCode, true_and]
    exact fun deletion => by rw [deletion]
  have lastRead : cs.LastRead read := ⟨inv.cursor, inv.lastSequence⟩
  have sorted' : (read ++ entry :: rest).Pairwise fun a b => a.1 < b.1 := atEntry ▸ sorted
  have dropSpec := cs.dropEntry_spec parsed versionSorted reserved (isUser ▸ inv.ptrs entry (by simp [atEntry]))
  generalize cs.dropEntry entry.1 = dropped at dropSpec
  refine ⟨dropSpec.same, dropSpec.snapshot, ?_, ?_, isUser ▸ dropSpec.cursor, isSequence ▸ dropSpec.lastSequence,
    isUser ▸ dropSpec.ptrs, ?_, ?_⟩
  · rw [CompactionState.written, CompactionState.written, dropSpec.outputs, dropSpec.builder]
  · rw [CompactionState.allOutputs, dropSpec.outputs, dropSpec.builder]
    exact inv.bounds
  · intro drop
    cases dropSpec.reason drop with
    | inl hidden =>
      obtain ⟨newer, inRead, sameUser, lt, isOld⟩ := lastRead.hidden sorted' (isUser ▸ hidden.1) hidden.2
      exact .inl ⟨newer, by simp [inRead], sameUser, lt, dropSpec.snapshot ▸ isOld⟩
    | inr obsolete =>
      obtain ⟨deletion, isOld, base⟩ := obsolete
      refine .inr ⟨isDeletion deletion, ?_, ?_⟩
      · rw [dropSpec.snapshot, ← isSequence]
        exact isOld
      · simp only [Compaction.BaseLevel, dropSpec.same.level, dropSpec.same.inputVersion, ← isUser]
        exact base
  · exact fun kept => lastRead.visible sorted' fun cur => dropSpec.kept kept (isUser ▸ cur)

theorem WorkInvariant.step (opts : Options) (size : TableSize K) (n : Nat)
    {read rest : List (Entry K)} {ikey : ParsedInternalKey K}
    (inv : WorkInvariant cs read) (atEntry : cs.input = entry :: rest)
    (sorted : (read ++ cs.input).Pairwise fun a b => a.1 < b.1) (parsed : parseInternalKey entry.1 = some ikey)
    (versionSorted : cs.compaction.inputVersion.Sorted) (reserved : cs.smallestSnapshot < kMaxSequenceNumber) :
    cs.compaction.SameInputs (cs.compactEntry opts size n entry).1.compaction ∧
      (cs.compactEntry opts size n entry).1.smallestSnapshot = cs.smallestSnapshot ∧
      WorkInvariant { (cs.compactEntry opts size n entry).1 with input := rest } (read ++ [entry]) := by
  have handled := inv.handled atEntry sorted parsed versionSorted reserved
  have eq := cs.compactEntry_same opts size n entry
  obtain ⟨alike, wr, bounds⟩ := CompactionState.compactEntry_kept opts size n (.refl cs) entry
  generalize (cs.compactEntry opts size n entry).1 = after at eq alike wr bounds
  generalize cs.dropEntry entry.1 = dropped at handled alike wr
  have snap : after.smallestSnapshot = cs.smallestSnapshot := alike.snapshot.symm.trans handled.snapshot
  refine ⟨eq, snap, inv.extend atEntry sorted eq snap wr ?_ (fun isKept => handled.kept ?_) (bounds inv.bounds)
    (alike.cursor.symm.trans handled.cursor) (alike.lastSequence.symm.trans handled.lastSequence)
    (alike.ptrs ▸ handled.ptrs) ?_⟩
  · cases dropped.1 <;> simp
  · simpa using isKept
  cases drop : dropped.1 with
  | true =>
    have reason := handled.reason drop
    simp only [CompactionState.MayDrop, Compaction.BaseLevel, alike.snapshot, alike.level,
      alike.inputVersion] at reason
    exact .inr reason
  | false => exact .inl (by simp [wr, drop])

/-! ## Where outputs are cut -/

/-- No output was over the size limit before its last entry, and the open one is not.  The others have the
size of what was written. -/
structure CompactionState.CutAtLimit (size : TableSize K) (cs : CompactionState K) : Prop where
  all : ∀ out ∈ cs.allOutputs, out.contents.dropLast = [] ∨
    size.building out.contents.dropLast < cs.compaction.maxOutputFileSize
  sized : ∀ out ∈ cs.outputs, out.fileSize = size.finished out.contents
  builder : ∀ out ∈ cs.builder, size.building out.contents < cs.compaction.maxOutputFileSize

namespace CompactionState.CutAtLimit

omit [LinearOrder K]

theorem finish (all : ∀ out ∈ cs.allOutputs, out.contents.dropLast = [] ∨
      size.building out.contents.dropLast < cs.compaction.maxOutputFileSize)
    (sized : ∀ out ∈ cs.outputs, out.fileSize = size.finished out.contents) :
    (cs.finishCompactionOutputFile size).CutAtLimit size := by
  refine ⟨fun out mem => ?_, fun out mem => ?_, by simp [finish_builder]⟩
  · obtain ⟨old, wasOutput, _, _, _, sameContents⟩ := mem_finish_allOutputs mem
    rw [sameContents, (cs.finish_others size).1]
    exact all old wasOutput
  rw [finishCompactionOutputFile] at mem
  split at mem
  · exact sized out mem
  · cases mem_append.mp mem with
    | inl old => exact sized out old
    | inr new => rw [mem_singleton.mp new]

theorem closeIf (cut : cs.CutAtLimit size) (eq : cs.compaction.SameInputs answer.2) :
    (cs.closeIf size answer).CutAtLimit size := by
  have moved : { cs with compaction := answer.2 }.CutAtLimit size := by
    refine ⟨?_, cut.sized, ?_⟩ <;> simp only [eq.maxOutputFileSize]
    · exact cut.all
    · exact cut.builder
  simp only [CompactionState.closeIf]
  split
  · exact finish moved.all moved.sized
  · exact moved

theorem addEntry (cut : cs.CutAtLimit size) (n : Nat) (entry : Entry K) :
    (if (cs.addEntry n entry).1.isFull size then (cs.addEntry n entry).1.finishCompactionOutputFile size
      else (cs.addEntry n entry).1).CutAtLimit size := by
  have sameLimit : (cs.addEntry n entry).1.compaction = cs.compaction := (cs.addEntry_others n entry).1
  have all : ∀ out ∈ (cs.addEntry n entry).1.allOutputs, out.contents.dropLast = [] ∨
      size.building out.contents.dropLast < (cs.addEntry n entry).1.compaction.maxOutputFileSize := by
    rw [sameLimit]
    intro out mem
    rw [CompactionState.addEntry] at mem
    split at mem
    case h_1 last isOpen =>
      simp only [allOutputs, Option.toList_some, mem_append, mem_singleton] at mem
      cases mem with
      | inl finished => exact cut.all out (by simp [allOutputs, finished])
      | inr isLast =>
        have notFull := cut.builder last isOpen
        rw [isLast]
        simpa using .inr notFull
    case h_2 isClosed =>
      simp only [allOutputs, Option.toList_some, mem_append, mem_singleton] at mem
      cases mem with
      | inl finished => exact cut.all out (by simp [allOutputs, finished])
      | inr new => exact .inl (by simp [new])
  have sized : ∀ out ∈ (cs.addEntry n entry).1.outputs, out.fileSize = size.finished out.contents := by
    rw [CompactionState.addEntry]
    split <;> exact cut.sized
  split
  · exact finish all sized
  case isFalse notFull =>
    refine ⟨all, sized, fun out isOpen => ?_⟩
    simp only [isFull, Option.any_eq_true, decide_eq_true_eq, not_exists, not_and, not_le] at notFull
    exact notFull out isOpen

end CompactionState.CutAtLimit

theorem CompactionState.CutAtLimit.dropEntry (cut : cs.CutAtLimit size) (key : InternalKey K) :
    (cs.dropEntry key).2.CutAtLimit size := by
  obtain ⟨ptrs, user, last, moved, -⟩ := cs.dropEntry_moves key
  rw [moved]
  exact ⟨cut.all, cut.sized, cut.builder⟩

theorem CompactionState.CutAtLimit.compactEntry (cut : cs.CutAtLimit size) (opts : Options) (n : Nat)
    (entry : Entry K) (rest : List (Entry K)) :
    { (cs.compactEntry opts size n entry).1 with input := rest }.CutAtLimit size := by
  have closed : (cs.stopBefore opts size entry.1).CutAtLimit size := by
    rw [stopBefore]
    exact cut.closeIf (cs.compaction.shouldStopBefore_same opts entry.1).1
  have forget : ∀ state : CompactionState K, state.CutAtLimit size →
      { state with input := rest }.CutAtLimit size := fun state cut => ⟨cut.all, cut.sized, cut.builder⟩
  apply forget
  simp only [CompactionState.compactEntry]
  generalize cs.stopBefore opts size entry.1 = state at closed
  have dropped := closed.dropEntry entry.1
  generalize state.dropEntry entry.1 = next at dropped
  split
  · exact dropped
  · exact dropped.addEntry n entry

end Invariant

end Elsm
