import Mathlib.Data.List.Chain
import Mathlib.Data.Prod.Lex
import Elsm.Version.Files

/-!
# Version edits and `VersionSet::Builder` (`db/version_edit.h`, `db/version_set.cpp`)

`Builder::Apply` collects the deletions and additions of a sequence of edits per level and
`Builder::SaveTo` merges them with the files of a base version.  The checks that `SaveTo`
and `MaybeAddFile` make on levels above 0 end the process; `none` stands for that.
-/

namespace Elsm

open List

@[ext]
structure VersionEdit (K : Type*) where
  comparator : Option String
  logNumber : Option Nat
  prevLogNumber : Option Nat
  nextFileNumber : Option Nat
  lastSequence : Option Nat
  compactPointers : List (Nat × InternalKey K)
  deletedFiles : List (Nat × Nat)
  newFiles : List (Nat × FileMetaData K)

variable {K : Type*}

namespace VersionEdit

def empty : VersionEdit K := ⟨none, none, none, none, none, [], [], []⟩

def setCompactPointer (edit : VersionEdit K) (level : Nat) (key : InternalKey K) : VersionEdit K :=
  { edit with compactPointers := edit.compactPointers ++ [(level, key)] }

def deleteFile (edit : VersionEdit K) (level number : Nat) : VersionEdit K :=
  { edit with deletedFiles := edit.deletedFiles ++ [(level, number)] }

/-- `AddFile` builds the `FileMetaData` it stores on its stack and sets four of its fields.
`rh` is what the stack holds at the place of the fifth. -/
def addFile (edit : VersionEdit K) (level number fileSize : Nat) (smallest largest : InternalKey K)
    (rh : Merkle.Digest) : VersionEdit K :=
  { edit with newFiles := edit.newFiles ++ [(level, ⟨number, fileSize, smallest, largest, rh⟩)] }

end VersionEdit

/-- The files added at a level, in the order of the edits. -/
def addedAt (entries : List (Nat × FileMetaData K)) (level : Nat) : List (FileMetaData K) :=
  entries.filterMap fun entry => if entry.1 = level then some entry.2 else none

def newFilesOf (edits : List (VersionEdit K)) : List (Nat × FileMetaData K) := edits.flatMap (·.newFiles)

/-- An edit deletes the number at the level, and neither it nor a later one adds it there. -/
def FinallyDeleted (edits : List (VersionEdit K)) (level number : Nat) : Prop :=
  ∃ before edit after, edits = before ++ edit :: after ∧ (level, number) ∈ edit.deletedFiles ∧
    ∀ f ∈ addedAt (newFilesOf (edit :: after)) level, f.number ≠ number

theorem addedAt_append (first snd : List (Nat × FileMetaData K)) (level : Nat) :
    addedAt (first ++ snd) level = addedAt first level ++ addedAt snd level :=
  filterMap_append

variable {level : Nat}

theorem mem_addedAt {es : List (Nat × FileMetaData K)} {f : FileMetaData K} :
    f ∈ addedAt es level ↔ (level, f) ∈ es := by
  simp only [addedAt, mem_filterMap, Option.ite_none_right_eq_some, Option.some.injEq]
  constructor
  · rintro ⟨⟨i, g⟩, mem, rfl, rfl⟩
    exact mem
  · intro mem
    exact ⟨(level, f), mem, rfl, rfl⟩

variable [LinearOrder K]

/-! ## The order of the files of a level -/

/-- The pair `BySmallestKey` compares. -/
def FileMetaData.sortKey (f : FileMetaData K) : InternalKey K ×ₗ Nat := toLex (f.smallest, f.number)

/-- `BySmallestKey`: by smallest key, ties broken by file number. -/
def bySmallestKey (f g : FileMetaData K) : Bool :=
  if f.smallest = g.smallest then decide (f.number < g.number) else decide (f.smallest < g.smallest)

variable {f g : FileMetaData K}

theorem bySmallestKey_iff : bySmallestKey f g = true ↔ f.sortKey < g.sortKey := by
  rw [bySmallestKey, FileMetaData.sortKey, FileMetaData.sortKey, Prod.Lex.toLex_lt_toLex]
  split
  case isTrue eq => simp [eq]
  case isFalse ne => simp [ne]

theorem smallest_le_of_sortKey (h : f.sortKey < g.sortKey) : f.smallest ≤ g.smallest := by
  obtain strict | ⟨eq, -⟩ := Prod.Lex.toLex_lt_toLex.mp h
  · exact strict.le
  · exact eq.le

omit [LinearOrder K] in
theorem sortKey_ne (ne : f.number ≠ g.number) : f.sortKey ≠ g.sortKey := by
  intro eq
  exact ne (congrArg (fun key => (ofLex key).2) eq)

/-- Strictly increasing in the order `BySmallestKey`. -/
abbrev InOrder (files : List (FileMetaData K)) : Prop :=
  files.Pairwise fun f g => f.sortKey < g.sortKey

/-- `added_files->insert(f)` on the ordered set. -/
def insertFile (f : FileMetaData K) : List (FileMetaData K) → List (FileMetaData K)
  | [] => [f]
  | g :: rest =>
    if bySmallestKey f g then f :: g :: rest
    else if bySmallestKey g f then g :: insertFile f rest
    else g :: rest

variable {files : List (FileMetaData K)}

theorem mem_of_mem_insertFile (mem : g ∈ insertFile f files) : g = f ∨ g ∈ files := by
  induction files with
  | nil => simpa [insertFile] using mem
  | cons head rest ih =>
    simp only [insertFile] at mem
    split at mem
    · simpa using mem
    split at mem
    · cases mem_cons.mp mem with
      | inl isHead => simp [isHead]
      | inr inR =>
        cases ih inR with
        | inl eq => exact .inl eq
        | inr old => exact .inr (mem_cons_of_mem _ old)
    · exact .inr mem

theorem mem_insertFile (ord : InOrder files) :
    g ∈ insertFile f files ↔ g ∈ files ∨ (g = f ∧ ∀ h ∈ files, h.sortKey ≠ f.sortKey) := by
  induction files with
  | nil => simp [insertFile]
  | cons head rest ih =>
    have ⟨headFirst, restOrdered⟩ := pairwise_cons.mp ord
    rw [insertFile]
    split
    case isTrue lt =>
      have first := bySmallestKey_iff.mp lt
      have fresh : ∀ h ∈ head :: rest, h.sortKey ≠ f.sortKey :=
        forall_mem_cons.mpr ⟨first.ne', fun h inR => (first.trans (headFirst h inR)).ne'⟩
      rw [mem_cons, or_comm, and_iff_left fresh]
    case isFalse notLess =>
      split
      case isTrue gt =>
        have apart := (bySmallestKey_iff.mp gt).ne
        rw [mem_cons, ih restOrdered, mem_cons, forall_mem_cons, and_iff_right apart, or_assoc]
      case isFalse notGreater =>
        rw [bySmallestKey_iff] at notLess notGreater
        have eq := le_antisymm (not_lt.mp notLess) (not_lt.mp notGreater)
        refine ⟨.inl, ?_⟩
        rintro (old | ⟨-, fresh⟩)
        · exact old
        · exact absurd eq (fresh head (by simp))

theorem insertFile_inOrder (ord : InOrder files) : InOrder (insertFile f files) := by
  induction files with
  | nil => simp [insertFile]
  | cons head rest ih =>
    have ⟨headFirst, restOrdered⟩ := pairwise_cons.mp ord
    simp only [insertFile]
    split
    case isTrue lt =>
      have first := bySmallestKey_iff.mp lt
      exact pairwise_cons.mpr ⟨forall_mem_cons.mpr ⟨first, fun g inR => first.trans (headFirst g inR)⟩, ord⟩
    case isFalse =>
      split
      case isTrue gt =>
        refine pairwise_cons.mpr ⟨?_, ih restOrdered⟩
        intro g mem
        cases mem_of_mem_insertFile mem with
        | inl eq => exact eq ▸ bySmallestKey_iff.mp gt
        | inr inR => exact headFirst g inR
      case isFalse => exact ord

/-! ## `Builder::Apply` -/

structure LevelState (K : Type*) where
  deletedFiles : List Nat
  addedFiles : List (FileMetaData K)

/-- The per-level states of a builder; its base version is kept apart. -/
abbrev Builder (K : Type*) := Nat → LevelState K

def Builder.init : Builder K := fun _ => ⟨[], []⟩

def Builder.delete (builder : Builder K) (entry : Nat × Nat) : Builder K :=
  Function.update builder entry.1 { builder entry.1 with deletedFiles := entry.2 :: (builder entry.1).deletedFiles }

def Builder.add (builder : Builder K) (entry : Nat × FileMetaData K) : Builder K :=
  Function.update builder entry.1
    { deletedFiles := (builder entry.1).deletedFiles.filter (· ≠ entry.2.number)
      addedFiles := insertFile entry.2 (builder entry.1).addedFiles }

def Builder.apply (builder : Builder K) (edit : VersionEdit K) : Builder K :=
  edit.newFiles.foldl Builder.add (edit.deletedFiles.foldl Builder.delete builder)

/-- `Apply`'s effect on `compact_pointer_`. -/
def applyCompactPointers (edit : VersionEdit K) (pointers : Nat → Option (InternalKey K)) :
    Nat → Option (InternalKey K) :=
  edit.compactPointers.foldl (fun p entry => Function.update p entry.1 (some entry.2)) pointers

/-! ### What a sequence of deletions and additions leaves at a level -/

omit [LinearOrder K] in
theorem foldl_delete_added (es : List (Nat × Nat)) (builder : Builder K) (level : Nat) :
    (es.foldl Builder.delete builder level).addedFiles = (builder level).addedFiles := by
  induction es generalizing builder with
  | nil => rfl
  | cons e rest ih =>
    rw [foldl_cons, ih]
    by_cases same : level = e.1
    · simp [Builder.delete, same]
    · simp [Builder.delete, same]

omit [LinearOrder K] in
theorem foldl_delete_deleted (es : List (Nat × Nat)) (builder : Builder K) (level n : Nat) :
    n ∈ (es.foldl Builder.delete builder level).deletedFiles ↔ n ∈ (builder level).deletedFiles ∨ (level, n) ∈ es := by
  induction es generalizing builder with
  | nil => simp
  | cons e rest ih =>
    obtain ⟨entryLevel, num⟩ := e
    rw [foldl_cons, ih]
    by_cases same : level = entryLevel
    · subst same
      simp only [Builder.delete, Function.update_self, mem_cons, Prod.mk.injEq, true_and]
      tauto
    · simp [Builder.delete, same]

abbrev DistinctNumbers (entries : List (Nat × FileMetaData K)) : Prop :=
  entries.Pairwise fun a b => a.1 = b.1 → a.2.number ≠ b.2.number

theorem foldl_add_deleted (es : List (Nat × FileMetaData K)) (builder : Builder K) (level n : Nat) :
    n ∈ (es.foldl Builder.add builder level).deletedFiles ↔
      n ∈ (builder level).deletedFiles ∧ ∀ f, (level, f) ∈ es → f.number ≠ n := by
  induction es generalizing builder with
  | nil => simp
  | cons e rest ih =>
    obtain ⟨entryLevel, f⟩ := e
    rw [foldl_cons, ih]
    by_cases same : level = entryLevel
    · subst same
      simp only [Builder.add, Function.update_self, mem_filter, decide_eq_true_eq, mem_cons, Prod.mk.injEq, true_and]
      constructor
      · intro ⟨⟨old, ne⟩, later⟩
        exact ⟨old, fun g mem => mem.elim (fun isHead => isHead ▸ ne.symm) (later g)⟩
      · intro ⟨old, every⟩
        exact ⟨⟨old, (every f (.inl rfl)).symm⟩, fun g inR => every g (.inr inR)⟩
    · simp [Builder.add, same]

theorem foldl_add_addedFiles (es : List (Nat × FileMetaData K)) (builder : Builder K) (level : Nat) :
    (es.foldl Builder.add builder level).addedFiles =
      (addedAt es level).foldl (fun files f => insertFile f files) (builder level).addedFiles := by
  induction es generalizing builder with
  | nil => rfl
  | cons e rest ih =>
    rw [foldl_cons, ih]
    by_cases same : level = e.1
    · subst same
      simp [Builder.add, addedAt]
    · have other : ¬e.1 = level := fun equal => same equal.symm
      simp [Builder.add, addedAt, same, other]

theorem foldl_insertFile_inOrder (adds : List (FileMetaData K)) (ord : InOrder files) :
    InOrder (adds.foldl (fun files f => insertFile f files) files) := by
  induction adds generalizing files with
  | nil => exact ord
  | cons head rest ih => exact ih (insertFile_inOrder ord)

/-- Of several files with one sort key the set keeps the first. -/
theorem mem_foldl_insertFile (adds : List (FileMetaData K)) (ord : InOrder files) (f : FileMetaData K) :
    f ∈ adds.foldl (fun files f => insertFile f files) files ↔ f ∈ files ∨ ((∀ h ∈ files, h.sortKey ≠ f.sortKey) ∧
        ∃ pre after, adds = pre ++ f :: after ∧ ∀ g ∈ pre, g.sortKey ≠ f.sortKey) := by
  induction adds generalizing files with
  | nil => simp
  | cons head rest ih =>
    rw [foldl_cons, ih (insertFile_inOrder ord), mem_insertFile ord]
    constructor
    · rintro ((old | ⟨rfl, fresh⟩) | ⟨fresh, pre, after, rfl, first⟩)
      · exact .inl old
      · exact .inr ⟨fresh, [], rest, rfl, nofun⟩
      have freshOld : ∀ h ∈ files, h.sortKey ≠ f.sortKey := fun h mem => fresh h ((mem_insertFile ord).mpr (.inl mem))
      refine .inr ⟨freshOld, head :: pre, after, rfl, ?_⟩
      rintro g (_ | ⟨_, mem⟩) eq
      · have clash : ∀ h ∈ files, h.sortKey ≠ head.sortKey := fun h mem => eq ▸ freshOld h mem
        exact fresh head ((mem_insertFile ord).mpr (.inr ⟨rfl, clash⟩)) eq
      · exact first g mem eq
    · rintro (old | ⟨fresh, pre, after, whole, first⟩)
      · exact .inl (.inl old)
      cases pre with
      | nil =>
        cases whole
        exact .inl (.inr ⟨rfl, fresh⟩)
      | cons other pre =>
        cases whole
        refine .inr ⟨?_, pre, after, rfl, fun g mem => first g (by simp [mem])⟩
        intro h mem
        cases mem_of_mem_insertFile mem with
        | inl isHead => exact isHead ▸ first head (by simp)
        | inr old => exact fresh h old

/-- Where a number stands for one file, the set holds all that were added. -/
theorem mem_foldl_insertFile_of_unique {adds : List (FileMetaData K)} (ord : InOrder files)
    (unique : ∀ f ∈ adds, ∀ h, h ∈ files ∨ h ∈ adds → h.number = f.number → h = f) :
    g ∈ adds.foldl (fun files f => insertFile f files) files ↔ g ∈ files ∨ g ∈ adds := by
  rw [mem_foldl_insertFile adds ord]
  constructor
  · rintro (old | ⟨-, pre, after, rfl, -⟩)
    · exact .inl old
    · exact .inr (by simp)
  rintro (old | new)
  · exact .inl old
  have twin : ∀ h, h ∈ files ∨ h ∈ adds → h.sortKey = g.sortKey → h = g :=
    fun h mem eq => unique g new h mem (congrArg (fun key => (ofLex key).2) eq)
  by_cases old : g ∈ files
  · exact .inl old
  obtain ⟨pre, after, rfl, first⟩ := eq_append_cons_of_mem new
  refine .inr ⟨fun h mem eq => old (twin h (.inl mem) eq ▸ mem), pre, after, rfl, ?_⟩
  exact fun h mem eq => first (twin h (.inr (by simp [mem])) eq ▸ mem)

section Apply

variable {builder : Builder K} {edit : VersionEdit K} {level : Nat}

theorem apply_addedFiles (builder : Builder K) (edit : VersionEdit K) (level : Nat) :
    (builder.apply edit level).addedFiles =
      (addedAt edit.newFiles level).foldl (fun files f => insertFile f files) (builder level).addedFiles := by
  rw [Builder.apply, foldl_add_addedFiles, foldl_delete_added]

theorem apply_inOrder (ord : ∀ level, InOrder (builder level).addedFiles) (edit : VersionEdit K) (level : Nat) :
    InOrder (builder.apply edit level).addedFiles := by
  rw [apply_addedFiles]
  exact foldl_insertFile_inOrder _ (ord level)

theorem mem_of_mem_apply_added (mem : g ∈ (builder.apply edit level).addedFiles) :
    g ∈ (builder level).addedFiles ∨ (level, g) ∈ edit.newFiles := by
  rw [apply_addedFiles, ← mem_addedAt] at *
  generalize (builder level).addedFiles = files at *
  generalize addedAt edit.newFiles level = adds at *
  induction adds generalizing files with
  | nil => exact .inl mem
  | cons head rest ih =>
    obtain old | new := ih (insertFile head files) mem
    · exact (mem_of_mem_insertFile old).symm.imp_right (by simp +contextual)
    · exact .inr (mem_cons_of_mem _ new)

theorem mem_apply_added (ord : InOrder (builder level).addedFiles) (dist : DistinctNumbers edit.newFiles)
    (fresh : ∀ f, (level, f) ∈ edit.newFiles → ∀ h ∈ (builder level).addedFiles, h.number ≠ f.number) :
    g ∈ (builder.apply edit level).addedFiles ↔ g ∈ (builder level).addedFiles ∨ (level, g) ∈ edit.newFiles := by
  rw [apply_addedFiles, mem_foldl_insertFile_of_unique ord, mem_addedAt]
  intro f new h mem eqNum
  rw [mem_addedAt] at new
  obtain old | new' := mem
  · exact absurd eqNum (fresh f new h old)
  obtain eq | apart | apart := SortedList.rel_or_rel dist new (mem_addedAt.mp new')
  · exact (congrArg Prod.snd eq).symm
  · exact absurd eqNum.symm (apart rfl)
  · exact absurd eqNum (apart rfl)

theorem mem_apply_deleted {n : Nat} : n ∈ (builder.apply edit level).deletedFiles ↔
      (n ∈ (builder level).deletedFiles ∨ (level, n) ∈ edit.deletedFiles) ∧
        ∀ f, (level, f) ∈ edit.newFiles → f.number ≠ n := by
  rw [Builder.apply, foldl_add_deleted, foldl_delete_deleted]

theorem foldl_apply_addedFiles (edits : List (VersionEdit K)) (builder : Builder K) (level : Nat) :
    (edits.foldl Builder.apply builder level).addedFiles =
      (addedAt (newFilesOf edits) level).foldl (fun files f => insertFile f files) (builder level).addedFiles := by
  induction edits generalizing builder with
  | nil => rfl
  | cons edit rest ih =>
    have files : newFilesOf (edit :: rest) = edit.newFiles ++ newFilesOf rest := rfl
    rw [foldl_cons, ih, apply_addedFiles, files, addedAt_append, foldl_append]

theorem foldl_apply_deleted (edits : List (VersionEdit K)) (builder : Builder K) (level n : Nat) :
    n ∈ (edits.foldl Builder.apply builder level).deletedFiles ↔
      (n ∈ (builder level).deletedFiles ∧ ∀ f ∈ addedAt (newFilesOf edits) level, f.number ≠ n) ∨
        FinallyDeleted edits level n := by
  induction edits generalizing builder with
  | nil => simp [newFilesOf, addedAt, FinallyDeleted]
  | cons edit rest ih =>
    have files : newFilesOf (edit :: rest) = edit.newFiles ++ newFilesOf rest := rfl
    have here : FinallyDeleted (edit :: rest) level n ↔
        ((level, n) ∈ edit.deletedFiles ∧ ∀ f ∈ addedAt (newFilesOf (edit :: rest)) level, f.number ≠ n) ∨
          FinallyDeleted rest level n := by
      constructor
      · rintro ⟨pre, deleter, after, whole, deletes, notAdded⟩
        cases pre with
        | nil =>
          cases whole
          exact .inl ⟨deletes, notAdded⟩
        | cons first pre =>
          cases whole
          exact .inr ⟨pre, deleter, after, rfl, deletes, notAdded⟩
      · rintro (⟨deletes, notAdded⟩ | ⟨pre, deleter, after, rfl, deletes, notAdded⟩)
        · exact ⟨[], edit, rest, rfl, deletes, notAdded⟩
        · exact ⟨edit :: pre, deleter, after, rfl, deletes, notAdded⟩
    rw [foldl_cons, ih, mem_apply_deleted, here, files, addedAt_append, forall_mem_append]
    simp only [mem_addedAt]
    tauto

end Apply

def VersionEdit.Deletes (edit : VersionEdit K) (level number : Nat) : Prop :=
  (level, number) ∈ edit.deletedFiles ∧ ∀ f, (level, f) ∈ edit.newFiles → f.number ≠ number

theorem init_apply_inOrder (edit : VersionEdit K) (level : Nat) : InOrder (Builder.init.apply edit level).addedFiles :=
  apply_inOrder (fun _ => List.Pairwise.nil) edit level

variable {edit : VersionEdit K}

theorem mem_init_apply_added (dist : DistinctNumbers edit.newFiles) :
    g ∈ (Builder.init.apply edit level).addedFiles ↔ (level, g) ∈ edit.newFiles := by
  rw [mem_apply_added List.Pairwise.nil dist (by simp [Builder.init])]
  simp [Builder.init]

theorem mem_init_apply_deleted {n : Nat} : n ∈ (Builder.init.apply edit level).deletedFiles ↔ edit.Deletes level n := by
  simp [mem_apply_deleted, Builder.init, VersionEdit.Deletes]

/-! ## `Builder::SaveTo` -/

/-- The order in which `SaveTo` offers files to `MaybeAddFile`: before each added file, the
base files up to `std::upper_bound`. -/
def mergeFiles : List (FileMetaData K) → List (FileMetaData K) → List (FileMetaData K)
  | base, [] => base
  | base, f :: added =>
    base.takeWhile (fun b => !bySmallestKey f b) ++ f :: mergeFiles (base.dropWhile fun b => !bySmallestKey f b) added

/-- `MaybeAddFile`.  The check after the loops of `SaveTo` compares the same neighbours. -/
def maybeAddFile (level : Nat) (deletedFiles : List Nat) (files : List (FileMetaData K))
    (f : FileMetaData K) : Option (List (FileMetaData K)) :=
  if f.number ∈ deletedFiles then some files
  else if 0 < level ∧ files.getLast?.any (fun last => !decide (last.largest < f.smallest)) then none
  else some (files ++ [f])

def saveLevel (level : Nat) (state : LevelState K) (base : List (FileMetaData K)) : Option (List (FileMetaData K)) :=
  (mergeFiles base state.addedFiles).foldlM (maybeAddFile level state.deletedFiles) []

def saveTo (builder : Builder K) (base : Version K) : Option (Version K) :=
  if (range kNumLevels).all fun level => (saveLevel level (builder level) (base.files level)).isSome then
    some
      { files := fun level =>
          if level < kNumLevels then (saveLevel level (builder level) (base.files level)).getD [] else []
        fileToCompact := none }
  else none

variable {base added : List (FileMetaData K)}

theorem mem_mergeFiles : f ∈ mergeFiles base added ↔ f ∈ base ∨ f ∈ added := by
  induction added generalizing base with
  | nil => simp [mergeFiles]
  | cons g added ih =>
    have whole : f ∈ base ↔ f ∈ base.takeWhile (fun b => !bySmallestKey g b) ∨
        f ∈ base.dropWhile (fun b => !bySmallestKey g b) := by
      rw [← mem_append, takeWhile_append_dropWhile]
    simp only [mergeFiles, mem_append, mem_cons, ih, whole]
    tauto

theorem mergeFiles_inOrder (baseOrdered : InOrder base)
    (addedOrdered : InOrder added) (apart : ∀ f ∈ added, ∀ b ∈ base, f.number ≠ b.number) :
    InOrder (mergeFiles base added) := by
  induction added generalizing base with
  | nil => exact baseOrdered
  | cons f added ih =>
    have ⟨first, restOrdered⟩ := pairwise_cons.mp addedOrdered
    simp only [mergeFiles]
    generalize smaller : base.takeWhile (fun b => !bySmallestKey f b) = pre
    generalize larger : base.dropWhile (fun b => !bySmallestKey f b) = after
    have whole : base = pre ++ after := by
      rw [← smaller, ← larger, takeWhile_append_dropWhile]
    subst whole
    obtain ⟨beforeOrdered, afterOrdered, across⟩ := pairwise_append.mp baseOrdered
    have belowF : ∀ b ∈ pre, b.sortKey < f.sortKey := by
      intro b mem
      have notLess : ¬ f.sortKey < b.sortKey := by
        have kept := SortedList.of_mem_takeWhile (smaller ▸ mem)
        simpa [← bySmallestKey_iff] using kept
      exact lt_of_le_of_ne (not_lt.mp notLess) (sortKey_ne (apart f (by simp) b (by simp [mem]))).symm
    have aboveF : ∀ b ∈ after, f.sortKey < b.sortKey := by
      intro b mem
      have dropped := SortedList.not_of_mem_dropWhile baseOrdered (p := fun b => !bySmallestKey f b)
        (fun y z lt notAbove => by
          simp only [Bool.not_eq_eq_eq_not, Bool.not_true, ← Bool.not_eq_true, bySmallestKey_iff] at notAbove ⊢
          exact fun above => notAbove (above.trans lt)) (larger ▸ mem)
      simpa [bySmallestKey_iff] using dropped
    have merged := ih afterOrdered restOrdered fun g inAdded b inAfter =>
      apart g (by simp [inAdded]) b (by simp [inAfter])
    have aboveAll : ∀ g ∈ mergeFiles after added, f.sortKey < g.sortKey := by
      intro g mem
      cases mem_mergeFiles.mp mem with
      | inl inAfter => exact aboveF g inAfter
      | inr inAdded => exact first g inAdded
    refine pairwise_append.mpr ⟨beforeOrdered, pairwise_cons.mpr ⟨aboveAll, merged⟩, ?_⟩
    intro b inBefore
    exact forall_mem_cons.mpr ⟨belowF b inBefore, fun g inMerged => (belowF b inBefore).trans (aboveAll g inMerged)⟩

def keptFiles (state : LevelState K) (base : List (FileMetaData K)) : List (FileMetaData K) :=
  (mergeFiles base state.addedFiles).filter fun f => f.number ∉ state.deletedFiles

theorem foldlM_maybeAddFile_some {deletedFiles : List Nat} {offered res : List (FileMetaData K)}
    (chain : 0 < level → files.IsChain fun f g => f.largest < g.smallest)
    (saved : offered.foldlM (maybeAddFile level deletedFiles) files = some res) :
    res = files ++ offered.filter (fun f => f.number ∉ deletedFiles) ∧
      (0 < level → res.IsChain fun f g => f.largest < g.smallest) := by
  induction offered generalizing files with
  | nil =>
    simp only [foldlM_nil, Option.pure_def, Option.some.injEq] at saved
    subst saved
    exact ⟨by simp, chain⟩
  | cons f offered ih =>
    rw [foldlM_cons] at saved
    by_cases gone : f.number ∈ deletedFiles
    · have step : maybeAddFile level deletedFiles files f = some files := by simp [maybeAddFile, gone]
      rw [step] at saved
      simpa [filter_cons, gone] using ih chain saved
    by_cases clash : 0 < level ∧ files.getLast?.any (fun last => !decide (last.largest < f.smallest)) = true
    · have step : maybeAddFile level deletedFiles files f = none := by
        rw [maybeAddFile, if_neg gone, if_pos clash]
      rw [step] at saved
      simp at saved
    · have step : maybeAddFile level deletedFiles files f = some (files ++ [f]) := by
        rw [maybeAddFile, if_neg gone, if_neg clash]
      rw [step] at saved
      have extended : 0 < level → (files ++ [f]).IsChain fun f g => f.largest < g.smallest := by
        intro pos
        refine (chain pos).append (isChain_singleton f) ?_
        intro last isLast first isFirst
        cases isFirst
        simpa [pos, Option.mem_def.mp isLast] using clash
      simpa [filter_cons, gone] using ih extended saved

theorem foldlM_maybeAddFile_of_chain {level : Nat} {deletedFiles : List Nat} {offered files : List (FileMetaData K)}
    (chain : 0 < level → (files ++ offered.filter fun f => f.number ∉ deletedFiles).IsChain
      fun f g => f.largest < g.smallest) :
    offered.foldlM (maybeAddFile level deletedFiles) files =
      some (files ++ offered.filter fun f => f.number ∉ deletedFiles) := by
  induction offered generalizing files with
  | nil => simp
  | cons f offered ih =>
    rw [foldlM_cons]
    by_cases gone : f.number ∈ deletedFiles
    · have step : maybeAddFile level deletedFiles files f = some files := by simp [maybeAddFile, gone]
      rw [step]
      simp only [filter_cons, gone, not_true_eq_false, decide_false, Bool.false_eq_true, if_false] at chain ⊢
      exact ih chain
    · simp only [filter_cons, gone, not_false_eq_true, decide_true, if_true] at chain ⊢
      have noClash : ¬ (0 < level ∧ files.getLast?.any (fun last => !decide (last.largest < f.smallest)) = true) := by
        intro ⟨pos, clash⟩
        cases isLast : files.getLast? with
        | none => simp [isLast] at clash
        | some last =>
          have joined := (isChain_append.mp (chain pos)).2.2 last isLast f (by simp)
          simp [isLast, joined] at clash
      have step : maybeAddFile level deletedFiles files f = some (files ++ [f]) := by
        rw [maybeAddFile, if_neg gone, if_neg noClash]
      have rest := @ih (files ++ [f]) (by simpa using chain)
      rw [step]
      simpa using rest

theorem isChain_disjointSorted (bounded : ∀ f ∈ files, f.Bounded)
    (chain : files.IsChain fun f g => f.largest < g.smallest) : DisjointSorted files := by
  let rel : FileMetaData K → FileMetaData K → Prop := fun f g =>
    f.largest < g.smallest ∧ g.smallest ≤ g.largest
  have transitive : ∀ f g h, rel f g → rel g h → rel f h :=
    fun f g h first snd => ⟨(first.1.trans_le first.2).trans snd.1, snd.2⟩
  have : Trans rel rel rel := ⟨fun {f g h} => transitive f g h⟩
  have strengthened : files.IsChain rel :=
    chain.imp_of_mem_imp fun f g _ inFiles apart => ⟨apart, (bounded g inFiles).ordered⟩
  exact (isChain_iff_pairwise.mp strengthened).imp fun joined => joined.1

variable {state : LevelState K}

theorem saveLevel_some {res : List (FileMetaData K)} (saved : saveLevel level state base = some res) :
    res = keptFiles state base ∧ (0 < level → res.IsChain fun f g => f.largest < g.smallest) := by
  have spec := foldlM_maybeAddFile_some (fun _ => isChain_nil) saved
  simpa [keptFiles] using spec

theorem mem_keptFiles : f ∈ keptFiles state base ↔
      (f ∈ base ∨ f ∈ state.addedFiles) ∧ f.number ∉ state.deletedFiles := by
  simp [keptFiles, mem_mergeFiles]

theorem keptFiles_inOrder (baseOrdered : InOrder base) (addedOrdered : InOrder state.addedFiles)
    (apart : ∀ f ∈ state.addedFiles, ∀ b ∈ base, f.number ≠ b.number) :
    InOrder (keptFiles state base) :=
  (mergeFiles_inOrder baseOrdered addedOrdered apart).filter _

theorem disjointSorted_of_inOrder (ord : InOrder files) (bounded : ∀ f ∈ files, f.Bounded)
    (separate : ∀ f ∈ files, ∀ g ∈ files, f ≠ g → f.largest < g.smallest ∨ g.largest < f.smallest) :
    DisjointSorted files := by
  refine List.Pairwise.imp_of_mem ?_ ord
  intro f g left right pre
  have ne : f ≠ g := fun eq => absurd pre (eq ▸ lt_irrefl _)
  cases separate f left g right ne with
  | inl apart => exact apart
  | inr reversed =>
    have backwards : g.largest < g.smallest := reversed.trans_le (smallest_le_of_sortKey pre)
    exact absurd (bounded g right).ordered (not_le.mpr backwards)

theorem saveLevel_of_isChain (chain : 0 < level → (keptFiles state base).IsChain fun f g => f.largest < g.smallest) :
    saveLevel level state base = some (keptFiles state base) := by
  have spec := @foldlM_maybeAddFile_of_chain K _ level state.deletedFiles (mergeFiles base state.addedFiles) [] chain
  simpa [keptFiles, saveLevel] using spec

/-! ## One edit on the current version

The version that `LogAndApply` builds: a fresh builder on the current version, one edit. -/

def Version.applyEdit (base : Version K) (edit : VersionEdit K) : Option (Version K) :=
  saveTo (Builder.init.apply edit) base

section

variable {builder : Builder K} {base v : Version K} (saved : saveTo builder base = some v)

include saved

theorem saveTo_some :
    v.fileToCompact = none ∧ (∀ level, kNumLevels ≤ level → v.files level = []) ∧
      ∀ level < kNumLevels, v.files level = keptFiles (builder level) (base.files level) ∧
        (0 < level → (v.files level).IsChain fun f g => f.largest < g.smallest) := by
  rw [saveTo] at saved
  split at saved
  case isTrue all =>
    cases saved
    refine ⟨rfl, fun level above => by simp [Nat.not_lt.mpr above], fun level bound => ?_⟩
    have isSome := all_eq_true.mp all level (mem_range.mpr bound)
    simp only [bound, if_true]
    exact saveLevel_some ((Option.some_get isSome).symm.trans (by rw [Option.get_eq_getD]))
  case isFalse => simp at saved

theorem saveTo_isChain (positive : 0 < level) : (v.files level).IsChain fun f g => f.largest < g.smallest := by
  by_cases bound : level < kNumLevels
  · exact ((saveTo_some saved).2.2 level bound).2 positive
  · rw [(saveTo_some saved).2.1 level (Nat.le_of_not_lt bound)]
    exact isChain_nil

end

theorem saveTo_of_isChain {builder : Builder K} {base : Version K} (chain : ∀ level, 0 < level → level < kNumLevels →
      (keptFiles (builder level) (base.files level)).IsChain fun f g => f.largest < g.smallest) :
    ∃ v, saveTo builder base = some v := by
  rw [saveTo, if_pos]
  · exact ⟨_, rfl⟩
  rw [all_eq_true]
  intro level inRange
  rw [saveLevel_of_isChain fun pos => chain level pos (mem_range.mp inRange)]
  rfl

/-- The version that is saved, where it is known which files are kept. -/
theorem saveTo_eq {builder : Builder K} {base : Version K} {files : Nat → List (FileMetaData K)}
    (kept : ∀ l, keptFiles (builder l) (base.files l) = files l)
    (chain : ∀ l, 0 < l → (files l).IsChain fun f g => f.largest < g.smallest)
    (depth : ∀ l, kNumLevels ≤ l → files l = []) : saveTo builder base = some ⟨files, none⟩ := by
  obtain ⟨⟨_, fileToCompact⟩, saved⟩ := @saveTo_of_isChain K _ builder base fun l pos _ => kept l ▸ chain l pos
  obtain ⟨noSeek, deeper, levels⟩ := saveTo_some saved
  rw [saved]
  simp only [Option.some.injEq, Version.mk.injEq]
  refine ⟨funext fun l => ?_, noSeek⟩
  by_cases bound : l < kNumLevels
  · exact (levels l bound).1.trans (kept l)
  · rw [depth l (Nat.le_of_not_lt bound)]
    exact deeper l (Nat.le_of_not_lt bound)

variable {base v : Version K}

theorem mem_applyEdit
    (dist : DistinctNumbers edit.newFiles) (saved : base.applyEdit edit = some v) (bound : level < kNumLevels) :
    f ∈ v.files level ↔ (f ∈ base.files level ∨ (level, f) ∈ edit.newFiles) ∧ ¬ edit.Deletes level f.number := by
  rw [((saveTo_some saved).2.2 level bound).1, mem_keptFiles, mem_init_apply_added dist, mem_init_apply_deleted]

theorem mem_applyEdit_iff (depth : ∀ l, kNumLevels ≤ l → base.files l = [])
    (levels : ∀ l f, (l, f) ∈ edit.newFiles → l < kNumLevels) (dist : DistinctNumbers edit.newFiles)
    (saved : base.applyEdit edit = some v) :
    f ∈ v.files level ↔ (f ∈ base.files level ∧ ¬ edit.Deletes level f.number) ∨ (level, f) ∈ edit.newFiles := by
  by_cases bound : level < kNumLevels
  · rw [mem_applyEdit dist saved bound, or_and_right]
    exact or_congr Iff.rfl ⟨And.left, fun new => ⟨new, fun deletes => deletes.2 f new rfl⟩⟩
  · have above := Nat.le_of_not_lt bound
    simp only [(saveTo_some saved).2.1 level above, depth level above, not_mem_nil, false_and, false_or, false_iff]
    exact fun new => bound (levels level f new)

theorem applyEdit_sorted (saved : base.applyEdit edit = some v)
    (bounded : ∀ level, ∀ f ∈ v.files level, f.Bounded) : v.Sorted where
  bounded := bounded
  disjoint level positive := isChain_disjointSorted (bounded level) (saveTo_isChain saved positive)

theorem applyEdit_inOrder (dist : DistinctNumbers edit.newFiles) (saved : base.applyEdit edit = some v)
    (ord : ∀ level, InOrder (base.files level))
    (fresh : ∀ level f, (level, f) ∈ edit.newFiles → ∀ b ∈ base.files level, f.number ≠ b.number)
    (level : Nat) : InOrder (v.files level) := by
  by_cases bound : level < kNumLevels
  · rw [((saveTo_some saved).2.2 level bound).1]
    exact keptFiles_inOrder (ord level) (init_apply_inOrder edit level)
      fun f added => fresh level f ((mem_init_apply_added dist).mp added)
  · rw [(saveTo_some saved).2.1 level (Nat.le_of_not_lt bound)]
    exact List.Pairwise.nil

theorem applyEdit_isSome (dist : DistinctNumbers edit.newFiles) (ord : ∀ level, InOrder (base.files level))
    (fresh : ∀ level f, (level, f) ∈ edit.newFiles → ∀ b ∈ base.files level, f.number ≠ b.number)
    (bounded : ∀ level f, (f ∈ base.files level ∨ (level, f) ∈ edit.newFiles) → f.Bounded)
    (separate : ∀ level f g, 0 < level →
      (f ∈ base.files level ∨ (level, f) ∈ edit.newFiles) → ¬ edit.Deletes level f.number →
      (g ∈ base.files level ∨ (level, g) ∈ edit.newFiles) → ¬ edit.Deletes level g.number →
      f ≠ g → f.largest < g.smallest ∨ g.largest < f.smallest) :
    ∃ v, base.applyEdit edit = some v := by
  apply saveTo_of_isChain
  intro level pos bound
  suffices sorted : DisjointSorted (keptFiles (Builder.init.apply edit level) (base.files level)) from
    sorted.isChain
  have kept : ∀ f, f ∈ keptFiles (Builder.init.apply edit level) (base.files level) ↔
      (f ∈ base.files level ∨ (level, f) ∈ edit.newFiles) ∧ ¬ edit.Deletes level f.number :=
    fun f => by rw [mem_keptFiles, mem_init_apply_added dist, mem_init_apply_deleted]
  apply disjointSorted_of_inOrder
  · exact keptFiles_inOrder (ord level) (init_apply_inOrder edit level)
      fun f added => fresh level f ((mem_init_apply_added dist).mp added)
  · intro f mem
    exact bounded level f ((kept f).mp mem).1
  intro f left g right ne
  obtain ⟨fromF, keptF⟩ := (kept f).mp left
  obtain ⟨fromG, keptG⟩ := (kept g).mp right
  exact separate level f g pos fromF keptF fromG keptG ne

/-! ## A sequence of edits on any version -/

/-- `SaveTo` after the edits: the files of the base and of the edits that are not deleted last, in order.  It ends the
process when two neighbours of a level above 0 share a key. -/
structure SavedAs (base : Version K) (edits : List (VersionEdit K)) (files : Nat → List (FileMetaData K)) : Prop where
  inOrder : ∀ level, InOrder (files level)
  mem : ∀ level f, f ∈ files level ↔
    (f ∈ base.files level ∨ (level, f) ∈ newFilesOf edits) ∧ ¬FinallyDeleted edits level f.number
  passes : (saveTo (edits.foldl Builder.apply Builder.init) base).isSome ↔
    ∀ level, 0 < level → level < kNumLevels → (files level).IsChain fun f g => f.largest < g.smallest
  saved : ∀ version, saveTo (edits.foldl Builder.apply Builder.init) base = some version →
    ∀ level < kNumLevels, version.files level = files level

theorem saveTo_setAlgebra {base : Version K} {edits : List (VersionEdit K)}
    (ordered : ∀ level, InOrder (base.files level))
    (same : ∀ e ∈ newFilesOf edits, ∀ e' ∈ newFilesOf edits, e.2.number = e'.2.number → e.2 = e'.2)
    (fresh : ∀ e ∈ newFilesOf edits, ∀ b ∈ base.files e.1, e.2.number ≠ b.number) :
    ∃ files, SavedAs base edits files := by
  have added : ∀ level f, f ∈ (edits.foldl Builder.apply Builder.init level).addedFiles ↔
      (level, f) ∈ newFilesOf edits := by
    intro level f
    rw [foldl_apply_addedFiles, mem_foldl_insertFile_of_unique (by simp [Builder.init]), mem_addedAt]
    · simp [Builder.init]
    intro f new h member number
    have new' := member.resolve_left (by simp [Builder.init])
    exact same (level, h) (mem_addedAt.mp new') (level, f) (mem_addedAt.mp new) number
  refine ⟨fun level => keptFiles (edits.foldl Builder.apply Builder.init level) (base.files level),
    fun level => ?_, fun level f => ?_, ⟨fun isSome level positive bound => ?_, fun chain => ?_⟩,
    fun version saved level bound => ((saveTo_some saved).2.2 level bound).1⟩
  · apply keptFiles_inOrder (ordered level)
    · rw [foldl_apply_addedFiles]
      exact foldl_insertFile_inOrder _ List.Pairwise.nil
    · exact fun f isAdded => fresh (level, f) ((added level f).mp isAdded)
  · rw [mem_keptFiles, added, foldl_apply_deleted]
    simp [Builder.init]
  · obtain ⟨version, saved⟩ := Option.isSome_iff_exists.mp isSome
    obtain ⟨kept, chain⟩ := (saveTo_some saved).2.2 level bound
    exact kept ▸ chain positive
  · exact Option.isSome_iff_exists.mpr (saveTo_of_isChain chain)

def sharedKeys : VersionEdit Nat :=
  (VersionEdit.empty.addFile 1 7 10 (.make 1 1 .value) (.make 5 2 .value) Merkle.zeroDigest).addFile 1 8 10
    (.make 2 3 .value) (.make 3 4 .value) Merkle.zeroDigest

/-- Files that share a key at a level above 0 are not saved. -/
theorem saveTo_shared_keys : DistinctNumbers sharedKeys.newFiles ∧
    saveTo ([sharedKeys].foldl Builder.apply Builder.init) Version.empty = none :=
  ⟨by decide, rfl⟩

def laterKeys : Version Nat where
  files level := if level = 1 then [⟨6, 10, .make 7 1 .value, .make 9 2 .value, Merkle.zeroDigest⟩] else []
  fileToCompact := none

/-- A second edit deletes one of the two files. -/
theorem saveTo_setAlgebra_deletion :
    ∃ files, SavedAs laterKeys [sharedKeys, VersionEdit.empty.deleteFile 1 8] files := by
  refine saveTo_setAlgebra (fun level => ?_) (by decide) (by decide)
  simp only [laterKeys]
  split
  · exact pairwise_singleton _ _
  · exact List.Pairwise.nil

end Elsm
