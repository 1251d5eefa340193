import Elsm.Version.Builder

/-!
# Choosing and steering a compaction (`db/version_set.cpp`)

`VersionSet::PickCompaction`, `SetupOtherInputs` and `CompactRange` choose the input files;
`Compaction::IsBaseLevelForKey` and `ShouldStopBefore` are asked by the loop that merges
them.  `Compaction.Chosen` collects what the choice guarantees.
-/

namespace Elsm

open List

structure Compaction (K : Type*) where
  level : Nat
  maxOutputFileSize : Nat
  inputVersion : Version K
  inputs0 : List (FileMetaData K)
  inputs1 : List (FileMetaData K)
  grandparents : List (FileMetaData K)
  grandparentIndex : Nat
  seenKey : Bool
  overlappedBytes : Nat
  levelPtrs : Nat → Nat
  edit : VersionEdit K

variable {K : Type*} [LinearOrder K]

/-! ## Ranges -/

/-- `GetRange`, with `none` for the empty list it must not be called on. -/
def getRange : List (FileMetaData K) → Option (InternalKey K × InternalKey K)
  | [] => none
  | f :: rest =>
    some (rest.foldl
      (fun range g =>
        (if g.smallest < range.1 then g.smallest else range.1, if range.2 < g.largest then g.largest else range.2))
      (f.smallest, f.largest))

theorem getRange_isSome {inputs : List (FileMetaData K)} (ne : inputs ≠ []) :
    ∃ range, getRange inputs = some range := by
  cases inputs with
  | nil => exact absurd rfl ne
  | cons f rest => exact ⟨_, rfl⟩

/-- `GetRange` is the least range around its files. -/
structure RangeOf (inputs : List (FileMetaData K)) (start limit : InternalKey K) : Prop where
  start_le : ∀ f ∈ inputs, start ≤ f.smallest
  le_limit : ∀ f ∈ inputs, f.largest ≤ limit
  start_mem : ∃ f ∈ inputs, f.smallest = start
  limit_mem : ∃ f ∈ inputs, f.largest = limit

variable {inputs : List (FileMetaData K)} {start limit : InternalKey K}

theorem RangeOf.extend (range : RangeOf inputs start limit) (g : FileMetaData K) :
    RangeOf (inputs ++ [g]) (if g.smallest < start then g.smallest else start)
      (if limit < g.largest then g.largest else limit) := by
  obtain ⟨first, inFirst, isStart⟩ := range.start_mem
  obtain ⟨last, inLast, isLimit⟩ := range.limit_mem
  rw [← min_def_lt, ← max_def_lt]
  refine ⟨?_, ?_, ?_, ?_⟩
  · exact forall_mem_append.mpr ⟨fun f old => min_le_of_right_le (range.start_le f old), by simp⟩
  · exact forall_mem_append.mpr ⟨fun f old => le_max_of_le_left (range.le_limit f old), by simp⟩
  · obtain eq | eq := min_choice g.smallest start
    · exact ⟨g, by simp, eq.symm⟩
    · exact ⟨first, by simp [inFirst], isStart.trans eq.symm⟩
  obtain eq | eq := max_choice limit g.largest
  · exact ⟨last, by simp [inLast], isLimit.trans eq.symm⟩
  · exact ⟨g, by simp, eq.symm⟩

theorem getRange_spec (range : getRange inputs = some (start, limit)) : RangeOf inputs start limit := by
  cases inputs with
  | nil => cases range
  | cons f rest =>
    simp only [getRange, Option.some.injEq] at range
    have carried : ∀ (seen rest : List (FileMetaData K)) (s l : InternalKey K), RangeOf seen s l →
        RangeOf (seen ++ rest) (rest.foldl (fun range g => (if g.smallest < range.1 then g.smallest else range.1,
            if range.2 < g.largest then g.largest else range.2)) (s, l)).1
          (rest.foldl (fun range g => (if g.smallest < range.1 then g.smallest else range.1,
            if range.2 < g.largest then g.largest else range.2)) (s, l)).2 := by
      intro seen rest
      induction rest generalizing seen with
      | nil => intro s l soFar; simpa using soFar
      | cons g rest ih =>
        intro s l soFar
        simpa using ih (seen ++ [g]) _ _ (soFar.extend g)
    have whole := carried [f] rest f.smallest f.largest ⟨by simp, by simp, ⟨f, by simp, rfl⟩, ⟨f, by simp, rfl⟩⟩
    rw [range] at whole
    exact whole

/-! ## `SetupOtherInputs` -/

/-- The inputs `SetupOtherInputs` settles on, and the largest key of the first level's:
the files of the next level under `inputs0`, and more files of the first level when that
leaves the number of next-level files unchanged. -/
def chooseInputs (options : Options) (current : Version K) (level : Nat) (inputs0 : List (FileMetaData K)) :
    Option (List (FileMetaData K) × List (FileMetaData K) × InternalKey K) := do
  let (smallest, largest) ← getRange inputs0
  let inputs1 := getOverlappingInputs current (level + 1) (some smallest) (some largest)
  let (allStart, allLimit) ← getRange (inputs0 ++ inputs1)
  if inputs1 = [] then
    return (inputs0, inputs1, largest)
  let expanded0 := getOverlappingInputs current level (some allStart) (some allLimit)
  if expanded0.length > inputs0.length ∧ ((totalFileSize inputs1 + totalFileSize expanded0 : Nat) : Int) <
        expandedCompactionByteSizeLimit options then
    let (newStart, newLimit) ← getRange expanded0
    let expanded1 := getOverlappingInputs current (level + 1) (some newStart) (some newLimit)
    if expanded1.length = inputs1.length then
      return (expanded0, expanded1, newLimit)
    else
      return (inputs0, inputs1, largest)
  else
    return (inputs0, inputs1, largest)

/-- The compaction built around the inputs of its first level.  `compact_pointer_[level]`
becomes the pointer recorded in its edit. -/
def setupOtherInputs (options : Options) (current : Version K) (level : Nat)
    (inputs0 : List (FileMetaData K)) : Option (Compaction K) := do
  let (inputs0, inputs1, largest) ← chooseInputs options current level inputs0
  let (allStart, allLimit) ← getRange (inputs0 ++ inputs1)
  return {
    level := level
    maxOutputFileSize := maxFileSizeForLevel options level
    inputVersion := current
    inputs0 := inputs0
    inputs1 := inputs1
    grandparents :=
      if level + 2 < kNumLevels then
        getOverlappingInputs current (level + 2) (some allStart) (some allLimit)
      else []
    grandparentIndex := 0
    seenKey := false
    overlappedBytes := 0
    levelPtrs := fun _ => 0
    edit := VersionEdit.empty.setCompactPointer level largest }

/-! ## `PickCompaction` and `CompactRange` -/

/-- The first file that ends after the compaction pointer, or else the first file. -/
def pickFile (pointer : Option (InternalKey K)) (files : List (FileMetaData K)) : Option (FileMetaData K) :=
  match files.find? fun f => pointer.all fun p => p < f.largest with
  | some f => some f
  | none => files.head?

/-- What `PickCompaction` does with the file it starts from.  At level 0 every file that
overlaps it is taken. -/
def compactFrom (options : Options) (current : Version K) (level : Nat) (picked : FileMetaData K) :
    Option (Compaction K) :=
  setupOtherInputs options current level
    (if level = 0 then getOverlappingInputs current 0 (some picked.smallest) (some picked.largest)
     else [picked])

def pickSizeCompaction (options : Options) (current : Version K)
    (compactPointer : Nat → Option (InternalKey K)) (level : Nat) : Option (Compaction K) := do
  let picked ← pickFile (compactPointer level) (current.files level)
  compactFrom options current level picked

def pickSeekCompaction (options : Options) (current : Version K) : Option (Compaction K) := do
  let (picked, level) ← current.fileToCompact
  compactFrom options current level picked

/-- The prefix of the inputs that reaches the size limit. -/
def truncateInputs (limit : Nat) : Nat → List (FileMetaData K) → List (FileMetaData K)
  | _, [] => []
  | total, f :: rest =>
    if total + f.fileSize ≥ limit then [f] else f :: truncateInputs limit (total + f.fileSize) rest

def compactRange (options : Options) (current : Version K) (level : Nat)
    (begin_ end_ : Option (InternalKey K)) : Option (Compaction K) :=
  let inputs := getOverlappingInputs current level begin_ end_
  if inputs = [] then none
  else
    setupOtherInputs options current level
      (if 0 < level then truncateInputs (maxFileSizeForLevel options level) 0 inputs else inputs)

def Compaction.isTrivialMove (options : Options) (c : Compaction K) : Bool :=
  c.inputs0.length = 1 ∧ c.inputs1.length = 0 ∧
    (totalFileSize c.grandparents : Int) ≤ maxGrandParentOverlapBytes options

def Compaction.addInputDeletions (c : Compaction K) (edit : VersionEdit K) : VersionEdit K :=
  let first := c.inputs0.foldl (fun edit f => edit.deleteFile c.level f.number) edit
  c.inputs1.foldl (fun edit f => edit.deleteFile (c.level + 1) f.number) first

/-! ## What the choice guarantees -/

/-- No file of `files` left out of `inputs` shares a user key with one of them. -/
def UserClosed (files inputs : List (FileMetaData K)) : Prop :=
  ∀ g ∈ files, g ∉ inputs → ∀ f ∈ inputs,
    g.largest.userKey < f.smallest.userKey ∨ f.largest.userKey < g.smallest.userKey

/-- The inputs come from two neighbouring levels of the input version.  A file of the second
level that is left out lies wholly on one side of all inputs, and apart in user keys from
those of the first level.  Level 0 is left in no overlapping file. -/
structure Compaction.Chosen (c : Compaction K) : Prop where
  nonempty : c.inputs0 ≠ []
  sublist0 : c.inputs0.Sublist (c.inputVersion.files c.level)
  sublist1 : c.inputs1.Sublist (c.inputVersion.files (c.level + 1))
  outside : ∀ g ∈ c.inputVersion.files (c.level + 1), g ∉ c.inputs1 →
    ((∀ f ∈ c.inputs0, g.largest.userKey < f.smallest.userKey) ∧ ∀ f ∈ c.inputs1, g.largest < f.smallest) ∨
    ((∀ f ∈ c.inputs0, f.largest.userKey < g.smallest.userKey) ∧ ∀ f ∈ c.inputs1, f.largest < g.smallest)
  closed : c.level = 0 → UserClosed (c.inputVersion.files 0) c.inputs0

theorem getOverlappingInputs_sublist (v : Version K) (level : Nat) (begin_ end_ : Option (InternalKey K)) :
    (getOverlappingInputs v level begin_ end_).Sublist (v.files level) := by
  obtain ⟨_, _, _, _, res, _⟩ := getOverlappingInputs_spec v level begin_ end_
  rw [res]
  exact filter_sublist

theorem getOverlappingInputs_all (v : Version K) (level : Nat) :
    getOverlappingInputs v level none none = v.files level := by
  obtain ⟨b, e, widerB, widerE, res, _⟩ := getOverlappingInputs_spec v level none none
  have noBegin : b = none := Option.eq_none_iff_forall_not_mem.mpr fun u isBegin => by
    obtain ⟨_, isNone, _⟩ := widerB u isBegin
    cases isNone
  have noEnd : e = none := Option.eq_none_iff_forall_not_mem.mpr fun u isEnd => by
    obtain ⟨_, isNone, _⟩ := widerE u isEnd
    cases isNone
  rw [res, noBegin, noEnd]
  exact filter_eq_self.mpr fun f _ => by simp [overlapsRange, afterFile, beforeFile]

/-- The file shares a user key with the hull of the inputs. -/
def MeetsHull (inputs : List (FileMetaData K)) (f : FileMetaData K) : Prop :=
  (∃ g ∈ inputs, g.smallest.userKey ≤ f.largest.userKey) ∧ ∃ g ∈ inputs, f.smallest.userKey ≤ g.largest.userKey

variable {level : Nat} {v : Version K} {f : FileMetaData K}

/-- A search for a range that meets a file finds it, at level 0 also where the range was widened. -/
theorem mem_getOverlappingInputs_of_meets (inFiles : f ∈ v.files level) (above : start.userKey ≤ f.largest.userKey)
    (below : f.smallest.userKey ≤ limit.userKey) : f ∈ getOverlappingInputs v level (some start) (some limit) := by
  obtain ⟨b, e, widerB, widerE, res, -⟩ := getOverlappingInputs_spec v level (some start) (some limit)
  rw [res, mem_filter]
  refine ⟨inFiles, RangeContains.overlaps ⟨widerB, widerE⟩ (overlapsRange_iff.mpr ⟨?_, ?_⟩)⟩
  · rintro _ ⟨⟩
    exact above
  · rintro _ ⟨⟩
    exact below

theorem hull_getOverlappingInputs {begin_ end_ : Option (InternalKey K)} (inFiles : f ∈ v.files 0)
    (meets : MeetsHull (getOverlappingInputs v 0 begin_ end_) f) :
    f ∈ getOverlappingInputs v 0 begin_ end_ := by
  obtain ⟨b, e, -, -, res, within, -⟩ := getOverlappingInputs_spec v 0 begin_ end_
  obtain ⟨⟨g, inInputs, above⟩, h, inInputs', below⟩ := meets
  rw [res, mem_filter, overlapsRange_iff]
  exact ⟨inFiles, fun u isB => ((within rfl g inInputs).1 u isB).trans above,
    fun u isE => below.trans ((within rfl h inInputs').2 u isE)⟩

theorem getOverlappingInputs_closed (zero : level = 0) (begin_ end_ : Option (InternalKey K)) :
    UserClosed (v.files 0) (getOverlappingInputs v level begin_ end_) := by
  subst zero
  intro g inFiles left f run
  by_contra meets
  push Not at meets
  exact left (hull_getOverlappingInputs inFiles ⟨⟨f, run, meets.1⟩, f, run, meets.2⟩)

theorem getOverlappingInputs_filter (pos : level ≠ 0)
    (begin_ end_ : Option (InternalKey K)) : getOverlappingInputs v level begin_ end_ =
      (v.files level).filter (overlapsRange (begin_.map (·.userKey)) (end_.map (·.userKey))) := by
  obtain ⟨b, e, _, _, res, _, eq⟩ := getOverlappingInputs_spec v level begin_ end_
  obtain ⟨rfl, rfl⟩ := eq pos
  exact res

theorem mem_getOverlappingInputs (pos : level ≠ 0) :
    f ∈ getOverlappingInputs v level (some start) (some limit) ↔ f ∈ v.files level ∧ start.userKey ≤ f.largest.userKey ∧
        f.smallest.userKey ≤ limit.userKey := by
  simp [getOverlappingInputs_filter pos, overlapsRange_iff]

variable {inputs0 : List (FileMetaData K)}

/-- A file of the next level that does not meet the range of the first inputs lies on one
side of them and of every file of its level that does. -/
theorem outside_of_range (sorted : v.Sorted) (range : RangeOf inputs0 start limit)
    {g : FileMetaData K} (inFiles : g ∈ v.files (level + 1))
    (left : g ∉ getOverlappingInputs v (level + 1) (some start) (some limit)) :
    ((∀ f ∈ inputs0, g.largest.userKey < f.smallest.userKey) ∧
      ∀ f ∈ getOverlappingInputs v (level + 1) (some start) (some limit), g.largest < f.smallest) ∨
    ((∀ f ∈ inputs0, f.largest.userKey < g.smallest.userKey) ∧
      ∀ f ∈ getOverlappingInputs v (level + 1) (some start) (some limit), f.largest < g.smallest) := by
  rw [mem_getOverlappingInputs (Nat.succ_ne_zero level)] at left
  have order : ∀ f ∈ v.files (level + 1), g = f ∨ g.largest < f.smallest ∨ f.largest < g.smallest := fun f alsoFile =>
    SortedList.rel_or_rel (sorted.disjoint (level + 1) (Nat.succ_pos level)) inFiles alsoFile
  have ord := sorted.ordered _ g inFiles
  by_cases before : g.largest.userKey < start.userKey
  · refine .inl ⟨fun f mem => before.trans_le (InternalKey.userKey_le_of_le (range.start_le f mem)), fun f mem => ?_⟩
    obtain ⟨alsoFile, reaches, -⟩ := (mem_getOverlappingInputs (Nat.succ_ne_zero level)).mp mem
    have ends := InternalKey.lt_of_userKey_lt (before.trans_le reaches)
    obtain rfl | apart | reversed := order f alsoFile
    · exact absurd ends (lt_irrefl _)
    · exact apart
    · exact absurd (reversed.trans_le ord) ends.not_gt
  · have after : limit.userKey < g.smallest.userKey := by
      by_contra within
      exact left ⟨inFiles, not_lt.mp before, not_lt.mp within⟩
    refine .inr ⟨fun f mem => (InternalKey.userKey_le_of_le (range.le_limit f mem)).trans_lt after, fun f mem => ?_⟩
    obtain ⟨alsoFile, -, starts⟩ := (mem_getOverlappingInputs (Nat.succ_ne_zero level)).mp mem
    have begins := InternalKey.lt_of_userKey_lt (starts.trans_lt after)
    obtain rfl | reversed | apart := order f alsoFile
    · exact absurd begins (lt_irrefl _)
    · exact absurd (ord.trans_lt reversed) begins.not_gt
    · exact apart

/-- The first inputs `SetupOtherInputs` may be given. -/
structure FirstInputs (current : Version K) (level : Nat) (inputs0 : List (FileMetaData K)) : Prop where
  nonempty : inputs0 ≠ []
  sublist : inputs0.Sublist (current.files level)
  closed : level = 0 → UserClosed (current.files 0) inputs0

variable {current : Version K} {options : Options}

section Choice

variable {chosen0 chosen1 : List (FileMetaData K)} {largest : InternalKey K}

/-- The inputs are the given ones, or those of an expansion that finds as many files of the next level. -/
theorem chooseInputs_cases (chosen : chooseInputs options current level inputs0 = some (chosen0, chosen1, largest)) :
    ∃ start, getRange chosen0 = some (start, largest) ∧
      chosen1 = getOverlappingInputs current (level + 1) (some start) (some largest) ∧
      (chosen0 = inputs0 ∨ ∃ range all, getRange inputs0 = some range ∧
        getRange (inputs0 ++ getOverlappingInputs current (level + 1) (some range.1) (some range.2)) = some all ∧
        chosen0 = getOverlappingInputs current level (some all.1) (some all.2) ∧ inputs0.length < chosen0.length ∧
        chosen1.length = (getOverlappingInputs current (level + 1) (some range.1) (some range.2)).length) := by
  simp only [chooseInputs, Option.bind_eq_bind, Option.bind_eq_some_iff] at chosen
  obtain ⟨range, isRange, all, isAll, rest⟩ := chosen
  split at rest
  · cases rest
    exact ⟨range.1, isRange, rfl, .inl rfl⟩
  split at rest
  case isFalse =>
    cases rest
    exact ⟨range.1, isRange, rfl, .inl rfl⟩
  case isTrue grows =>
    obtain ⟨new, isNew, last⟩ := Option.bind_eq_some_iff.mp rest
    split at last <;> cases last
    case isFalse => exact ⟨range.1, isRange, rfl, .inl rfl⟩
    case isTrue same =>
      exact ⟨new.1, isNew, rfl, .inr ⟨range, all, isRange, isAll, rfl, grows.1, same⟩⟩

theorem FirstInputs.chosen (first : FirstInputs current level inputs0)
    (chosen : chooseInputs options current level inputs0 = some (chosen0, chosen1, largest)) :
    FirstInputs current level chosen0 := by
  obtain ⟨_, -, -, rfl | ⟨_, _, -, -, rfl, grows, -⟩⟩ := chooseInputs_cases chosen
  · exact first
  exact ⟨ne_nil_of_length_pos (Nat.zero_lt_of_lt grows), getOverlappingInputs_sublist _ _ _ _,
    fun zero => getOverlappingInputs_closed zero _ _⟩

end Choice

variable {c : Compaction K}

theorem setupOtherInputs_spec (sorted : current.Sorted) (first : FirstInputs current level inputs0)
    (setup : setupOtherInputs options current level inputs0 = some c) :
    c.Chosen ∧ c.level = level ∧ c.inputVersion = current ∧ (c.levelPtrs = fun _ => 0) ∧
      ∃ key, c.edit = VersionEdit.empty.setCompactPointer level key := by
  simp only [setupOtherInputs, Option.bind_eq_bind, Option.bind_eq_some_iff] at setup
  obtain ⟨⟨chosen0, chosen1, largest⟩, chosen, ⟨allStart, allLimit⟩, _, built⟩ := setup
  have first' := first.chosen chosen
  obtain ⟨start, range, rfl, -⟩ := chooseInputs_cases chosen
  cases built
  refine ⟨⟨first'.nonempty, first'.sublist, getOverlappingInputs_sublist _ _ _ _, ?_, ?_⟩, rfl, rfl, rfl, largest, rfl⟩
  · intro g inFiles left
    exact outside_of_range sorted (getRange_spec range) inFiles left
  intro zero
  simp only at zero
  subst zero
  exact first'.closed rfl

theorem setupOtherInputs_limit (setup : setupOtherInputs options current level inputs0 = some c) :
    c.maxOutputFileSize = maxFileSizeForLevel options level := by
  simp only [setupOtherInputs, Option.bind_eq_bind, Option.bind_eq_some_iff] at setup
  generalize maxFileSizeForLevel options level = limit at setup ⊢
  obtain ⟨_, _, _, _, built⟩ := setup
  cases built
  rfl

theorem setupOtherInputs_alone (none : current.files (level + 1) = [])
    (setup : setupOtherInputs options current level inputs0 = some c) :
    c.inputs0 = inputs0 ∧ c.inputs1 = [] := by
  have nothing : ∀ begin_ end_, getOverlappingInputs current (level + 1) begin_ end_ = [] := by
    intro begin_ end_
    have sublist := getOverlappingInputs_sublist current (level + 1) begin_ end_
    rw [none] at sublist
    exact sublist_nil.mp sublist
  simp only [setupOtherInputs, Option.bind_eq_bind, Option.bind_eq_some_iff] at setup
  obtain ⟨⟨chosen0, chosen1, largest⟩, chosen, _, _, built⟩ := setup
  cases built
  simp only [chooseInputs, nothing, Option.bind_eq_bind, Option.bind_eq_some_iff] at chosen
  obtain ⟨_, _, _, _, eq⟩ := chosen
  cases eq
  exact ⟨rfl, rfl⟩

/-! ### The ways a compaction is started -/

theorem pickFile_mem {pointer : Option (InternalKey K)} {files : List (FileMetaData K)}
    (picked : pickFile pointer files = some f) : f ∈ files := by
  rw [pickFile] at picked
  split at picked
  case h_1 found =>
    cases picked
    exact mem_of_find?_eq_some found
  case h_2 => exact mem_of_mem_head? picked

theorem compactFrom_first {picked : FileMetaData K}
    (bounded : picked.Bounded) (inFiles : picked ∈ current.files level) :
    FirstInputs current level
      (if level = 0 then getOverlappingInputs current 0 (some picked.smallest) (some picked.largest)
       else [picked]) := by
  split
  case isTrue zero =>
    subst zero
    have found := mem_getOverlappingInputs_of_meets inFiles bounded.user_le bounded.user_le
    exact ⟨ne_nil_of_mem found, getOverlappingInputs_sublist _ _ _ _, fun _ => getOverlappingInputs_closed rfl _ _⟩
  case isFalse pos =>
    exact ⟨by simp, singleton_sublist.mpr inFiles, fun zero => absurd zero pos⟩

omit [LinearOrder K] in
theorem truncateInputs_initial (limit total : Nat) (inputs : List (FileMetaData K)) :
    truncateInputs limit total inputs <+: inputs := by
  induction inputs generalizing total with
  | nil => simp [truncateInputs]
  | cons f rest ih =>
    simp only [truncateInputs]
    split
    · exact ⟨rest, rfl⟩
    · exact cons_prefix_cons.mpr ⟨rfl, ih _⟩

omit [LinearOrder K] in
/-- Where the first files reach the limit, no later one is taken. -/
theorem truncateInputs_append {limit total : Nat} {files : List (FileMetaData K)} (less : total < limit)
    (enough : limit ≤ total + totalFileSize files) (rest : List (FileMetaData K)) :
    truncateInputs limit total (files ++ rest) <+: files := by
  induction files generalizing total with
  | nil => exact absurd enough (by simpa [totalFileSize] using less)
  | cons f files ih =>
    simp only [cons_append, truncateInputs]
    split
    · exact prefix_append [f] files
    case isFalse small =>
      refine (prefix_cons_inj f).mpr (ih (not_le.mp small) ?_)
      simp only [totalFileSize, map_cons, sum_cons] at enough ⊢
      omega

omit [LinearOrder K] in
theorem truncateInputs_ne_nil {limit total : Nat} (ne : inputs ≠ []) : truncateInputs limit total inputs ≠ [] := by
  cases inputs with
  | nil => exact absurd rfl ne
  | cons f rest =>
    simp only [truncateInputs]
    split <;> simp

theorem compactRange_first {options : Options} {current : Version K} {level : Nat}
    {begin_ end_ : Option (InternalKey K)} (nonempty : getOverlappingInputs current level begin_ end_ ≠ []) :
    FirstInputs current level
      (if 0 < level then
        truncateInputs (maxFileSizeForLevel options level) 0 (getOverlappingInputs current level begin_ end_)
       else getOverlappingInputs current level begin_ end_) := by
  have sublist := getOverlappingInputs_sublist current level begin_ end_
  split
  case isTrue pos =>
    exact ⟨truncateInputs_ne_nil nonempty, (truncateInputs_initial _ _ _).sublist.trans sublist,
      fun zero => absurd zero pos.ne'⟩
  case isFalse => exact ⟨nonempty, sublist, fun zero => getOverlappingInputs_closed zero _ _⟩

theorem setupOtherInputs_isSome (options : Options) {current : Version K} {level : Nat}
    {inputs0 : List (FileMetaData K)} (ne : inputs0 ≠ []) :
    ∃ c, setupOtherInputs options current level inputs0 = some c := by
  have chosen : ∃ chosen0 chosen1 largest, chosen0 ≠ [] ∧
      chooseInputs options current level inputs0 = some (chosen0, chosen1, largest) := by
    obtain ⟨range, isRange⟩ := getRange_isSome ne
    obtain ⟨all, isAll⟩ := @getRange_isSome K _ (inputs0 ++
      getOverlappingInputs current (level + 1) (some range.1) (some range.2)) (by simp [ne])
    simp only [chooseInputs, isRange, isAll, Option.bind_eq_bind, Option.bind_some]
    split
    · exact ⟨_, _, _, ne, rfl⟩
    split
    case isTrue grows =>
      have grown : getOverlappingInputs current level (some all.1) (some all.2) ≠ [] := by
        intro isNil
        simp only [isNil, length_nil, gt_iff_lt, Nat.not_lt_zero, false_and] at grows
      obtain ⟨new, isNew⟩ := getRange_isSome grown
      simp only [isNew, Option.bind_some]
      split
      · exact ⟨_, _, _, grown, rfl⟩
      · exact ⟨_, _, _, ne, rfl⟩
    case isFalse => exact ⟨_, _, _, ne, rfl⟩
  obtain ⟨chosen0, chosen1, largest, nonempty0, isChosen⟩ := chosen
  obtain ⟨all, isAll⟩ := @getRange_isSome K _ (chosen0 ++ chosen1) (by simp [nonempty0])
  simp only [setupOtherInputs, isChosen, isAll, Option.bind_eq_bind, Option.bind_some]
  exact ⟨_, rfl⟩

/-! ### The inputs are consistent -/

/-- The inputs that `PickCompaction` (marked `true`) and `CompactRange` hand to `SetupOtherInputs`. -/
inductive InitialInputs (options : Options) (current : Version K) (level : Nat) : Bool → List (FileMetaData K) → Prop
  | size {pointer : Option (InternalKey K)} {f : FileMetaData K} : pickFile pointer (current.files level) = some f →
      InitialInputs options current level true
        (if level = 0 then getOverlappingInputs current 0 (some f.smallest) (some f.largest) else [f])
  | seek {f : FileMetaData K} : current.fileToCompact = some (f, level) → InitialInputs options current level true
        (if level = 0 then getOverlappingInputs current 0 (some f.smallest) (some f.largest) else [f])
  | range {begin_ end_ : Option (InternalKey K)} : getOverlappingInputs current level begin_ end_ ≠ [] →
      InitialInputs options current level false
        (if 0 < level then
          truncateInputs (maxFileSizeForLevel options level) 0 (getOverlappingInputs current level begin_ end_)
         else getOverlappingInputs current level begin_ end_)

structure Compaction.Consistent (c : Compaction K) (fromPick : Bool) (initial : List (FileMetaData K)) : Prop where
  contains : ∀ f ∈ initial, f ∈ c.inputs0
  inputs1 : ∀ f, f ∈ c.inputs1 ↔ f ∈ c.inputVersion.files (c.level + 1) ∧ MeetsHull c.inputs0 f
  /-- The expansion leaves the files of the next level as they were. -/
  unchanged : ∀ f, f ∈ c.inputs1 ↔ f ∈ c.inputVersion.files (c.level + 1) ∧ MeetsHull initial f
  closed : fromPick = true → c.level = 0 → ∀ f ∈ c.inputVersion.files 0, MeetsHull c.inputs0 f → f ∈ c.inputs0
  grandparents : ∀ f, f ∈ c.grandparents ↔ c.level + 2 < kNumLevels ∧ f ∈ c.inputVersion.files (c.level + 2) ∧
    MeetsHull (c.inputs0 ++ c.inputs1) f
  pointer : ∃ f ∈ c.inputs0, (∀ g ∈ c.inputs0, g.largest ≤ f.largest) ∧
    c.edit = VersionEdit.empty.setCompactPointer c.level f.largest

section Consistent

variable {options : Options} {current : Version K} {level : Nat} {inputs0 : List (FileMetaData K)}
  {start limit : InternalKey K} {f : FileMetaData K}

theorem InitialInputs.first {fromPick : Bool} (sorted : current.Sorted)
    (seekFile : ∀ f, current.fileToCompact = some (f, level) → f ∈ current.files level)
    (initial : InitialInputs options current level fromPick inputs0) : FirstInputs current level inputs0 := by
  cases initial with
  | size picked => exact compactFrom_first (sorted.bounded _ _ (pickFile_mem picked)) (pickFile_mem picked)
  | seek picked => exact compactFrom_first (sorted.bounded _ _ (seekFile _ picked)) (seekFile _ picked)
  | range nonempty => exact compactRange_first nonempty

theorem RangeOf.meetsHull (range : RangeOf inputs0 start limit) :
    start.userKey ≤ f.largest.userKey ∧ f.smallest.userKey ≤ limit.userKey ↔ MeetsHull inputs0 f := by
  constructor
  · rintro ⟨above, below⟩
    obtain ⟨first, inFirst, rfl⟩ := range.start_mem
    obtain ⟨last, inLast, rfl⟩ := range.limit_mem
    exact ⟨⟨first, inFirst, above⟩, last, inLast, below⟩
  · rintro ⟨⟨g, inInputs, above⟩, h, inInputs', below⟩
    exact ⟨(InternalKey.userKey_le_of_le (range.start_le g inInputs)).trans above,
      below.trans (InternalKey.userKey_le_of_le (range.le_limit h inInputs'))⟩

theorem RangeOf.mem_overlapping (range : RangeOf inputs0 start limit) (pos : level ≠ 0) :
    f ∈ getOverlappingInputs current level (some start) (some limit) ↔
      f ∈ current.files level ∧ MeetsHull inputs0 f := by
  rw [mem_getOverlappingInputs pos, range.meetsHull]

theorem MeetsHull.mono (subset : inputs0 ⊆ inputs) (meets : MeetsHull inputs0 f) : MeetsHull inputs f := by
  obtain ⟨⟨g, inInputs, above⟩, h, inInputs', below⟩ := meets
  exact ⟨⟨g, subset inInputs, above⟩, h, subset inInputs', below⟩

/-- The expanded inputs contain those before, and find the same files of the next level. -/
theorem chooseInputs_expands {chosen0 chosen1 : List (FileMetaData K)} {largest : InternalKey K}
    (bounded : ∀ f ∈ current.files level, f.Bounded) (subset : inputs0 ⊆ current.files level)
    (chosen : chooseInputs options current level inputs0 = some (chosen0, chosen1, largest)) :
    inputs0 ⊆ chosen0 ∧ (∀ f, f ∈ chosen1 ↔ f ∈ current.files (level + 1) ∧ MeetsHull inputs0 f) ∧
      (chosen0 = inputs0 ∨ ∃ begin_ end_, chosen0 = getOverlappingInputs current level begin_ end_) := by
  obtain ⟨start, range, rfl, rfl | ⟨old, all, isOld, isAll, rfl, -, sameLength⟩⟩ := chooseInputs_cases chosen
  · exact ⟨List.Subset.refl _, fun f => (getRange_spec range).mem_overlapping (Nat.succ_ne_zero _), .inl rfl⟩
  have grows : inputs0 ⊆ getOverlappingInputs current level (some all.1) (some all.2) := by
    intro g mem
    have inRange := getRange_spec isAll
    have ord := (bounded g (subset mem)).user_le
    exact mem_getOverlappingInputs_of_meets (subset mem)
      ((InternalKey.userKey_le_of_le (inRange.start_le g (mem_append_left _ mem))).trans ord)
      (ord.trans (InternalKey.userKey_le_of_le (inRange.le_limit g (mem_append_left _ mem))))
  have eq : getOverlappingInputs current (level + 1) (some old.1) (some old.2) =
      getOverlappingInputs current (level + 1) (some start) (some largest) := by
    refine List.Sublist.eq_of_length ?_ sameLength.symm
    rw [getOverlappingInputs_filter (Nat.succ_ne_zero _), getOverlappingInputs_filter (Nat.succ_ne_zero _)]
    refine monotone_filter_right _ fun f meets => ?_
    have inHull := (getRange_spec isOld).meetsHull.mp (by simpa [overlapsRange_iff] using meets)
    simpa [overlapsRange_iff] using (getRange_spec range).meetsHull.mpr (inHull.mono grows)
  exact ⟨grows, fun f => eq ▸ (getRange_spec isOld).mem_overlapping (Nat.succ_ne_zero _), .inr ⟨_, _, rfl⟩⟩

/-- Whatever a compaction starts from, its inputs are those of the definition. -/
theorem setupOtherInputs_consistent {fromPick : Bool} (sorted : current.Sorted)
    (seekFile : ∀ f, current.fileToCompact = some (f, level) → f ∈ current.files level)
    (initial : InitialInputs options current level fromPick inputs0) :
    ∃ c, setupOtherInputs options current level inputs0 = some c ∧ c.level = level ∧ c.inputVersion = current ∧
      c.Consistent fromPick inputs0 := by
  have first := initial.first sorted seekFile
  obtain ⟨c, setup⟩ := setupOtherInputs_isSome options first.nonempty
  refine ⟨c, setup, ?_⟩
  simp only [setupOtherInputs, Option.bind_eq_bind, Option.bind_eq_some_iff] at setup
  obtain ⟨⟨chosen0, chosen1, largest⟩, chosen, ⟨allStart, allLimit⟩, allRange, built⟩ := setup
  obtain ⟨start, range, rfl, -⟩ := chooseInputs_cases chosen
  obtain ⟨grows, unchanged, source⟩ := chooseInputs_expands (sorted.bounded level) first.sublist.subset chosen
  cases built
  refine ⟨rfl, rfl, grows, fun f => (getRange_spec range).mem_overlapping (Nat.succ_ne_zero _), unchanged, ?_, ?_, ?_⟩
  · intro pick zero f inFiles meets
    dsimp only at zero meets ⊢
    subst zero
    obtain rfl | ⟨begin_, end_, rfl⟩ := source
    · cases initial with
      | size | seek => exact hull_getOverlappingInputs inFiles meets
      | range => cases pick
    · exact hull_getOverlappingInputs inFiles meets
  · intro f
    dsimp only
    split
    case isTrue deep => simp [deep, (getRange_spec allRange).mem_overlapping]
    case isFalse shallow => simp [shallow]
  · obtain ⟨f, member, rfl⟩ := (getRange_spec range).limit_mem
    exact ⟨f, member, (getRange_spec range).le_limit, rfl⟩

end Consistent

def overlappingLevels : Version Nat where
  files
    | 1 => [⟨7, 10, .make 1 1 .value, .make 3 2 .value, Merkle.zeroDigest⟩]
    | 2 => [⟨6, 10, .make 2 3 .value, .make 5 4 .value, Merkle.zeroDigest⟩]
    | _ => []
  fileToCompact := none

theorem setupOtherInputs_consistent_levels : ∃ c,
    setupOtherInputs ⟨2097152⟩ overlappingLevels 1 (overlappingLevels.files 1) = some c ∧ c.level = 1 ∧
      c.inputVersion = overlappingLevels ∧ c.Consistent true (overlappingLevels.files 1) := by
  refine setupOtherInputs_consistent ⟨fun level f member => ?_, fun level _ => ?_⟩ nofun ?_
  · match level with
    | 1 | 2 =>
      cases mem_singleton.mp member
      exact ⟨by decide, by decide⟩
  · match level with
    | 0 | 1 | 2 | _ + 3 => simp [overlappingLevels]
  · exact @InitialInputs.size Nat _ _ overlappingLevels 1 none _ rfl

end Elsm
