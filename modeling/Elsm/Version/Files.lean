import Mathlib.Data.List.Basic
import Elsm.Lib.Bisect
import Elsm.Lib.SortedList
import Elsm.Format.InternalKey
import Elsm.Merkle.BuildTable

/-!
# The files of a version (`db/version_edit.h`, `db/version_set.cpp`)

A version is a list of table descriptions per level.  This module holds the searches over
those lists: `FindFile`, `SomeFileOverlapsRange`, `Version::GetOverlappingInputs` and
`Version::PickLevelForMemTableOutput`, each with the one lemma its callers use.
-/

namespace Elsm

open List

/-! ## Configuration (`db/dbformat.h`, `db/version_set.cpp`) -/

def kNumLevels : Nat := 7

def kMaxMemCompactLevel : Nat := 2

structure Options where
  maxFileSize : Nat

/-- `int TargetFileSize`: the `size_t` option converted to a 32-bit `int`. -/
def targetFileSize (options : Options) : Int := Int.bmod options.maxFileSize 4294967296

-- the products are computed in `int` and only then widened
def maxGrandParentOverlapBytes (options : Options) : Int :=
  Int.bmod (10 * targetFileSize options) 4294967296

def expandedCompactionByteSizeLimit (options : Options) : Int :=
  Int.bmod (25 * targetFileSize options) 4294967296

def maxFileSizeForLevel (options : Options) (_level : Nat) : Nat :=
  (targetFileSize options % 18446744073709551616).toNat

/-! ### `SanitizeOptions` -/

/-- `static_cast<int>` of a `size_t`. -/
def castInt (value : Nat) : Int := Int.bmod value 4294967296

/-- `ClipToRange` on a `size_t`, which is compared as an `int`. -/
def clipToRange (value minvalue maxvalue : Nat) : Nat :=
  let value := if maxvalue < castInt value then maxvalue else value
  if castInt value < minvalue then minvalue else value

/-- The sizes in the options that `SanitizeOptions` changes: `max_file_size` and `write_buffer_size`. -/
structure SizeOptions where
  maxFileSize : UInt64
  writeBufferSize : UInt64

def SizeOptions.sanitizedMaxFileSize (src : SizeOptions) : Nat := clipToRange src.maxFileSize.toNat 1048576 1073741824

def SizeOptions.sanitizedWriteBufferSize (src : SizeOptions) : Nat :=
  clipToRange src.writeBufferSize.toNat 65536 1073741824

/-- The sizes are clamped to their ranges, and the limits are the multiples that they are meant to be. -/
def SizeOptions.Exact (src : SizeOptions) : Prop :=
  let options : Options := ⟨src.sanitizedMaxFileSize⟩
  src.sanitizedMaxFileSize = min (max src.maxFileSize.toNat 1048576) 1073741824 ∧
    src.sanitizedWriteBufferSize = min (max src.writeBufferSize.toNat 65536) 1073741824 ∧
    targetFileSize options = src.sanitizedMaxFileSize ∧
    maxGrandParentOverlapBytes options = 10 * src.sanitizedMaxFileSize ∧
    expandedCompactionByteSizeLimit options = 25 * src.sanitizedMaxFileSize

theorem castInt_spec (value : Nat) : -2147483648 ≤ castInt value ∧ castInt value < 2147483648 ∧
    ∃ high, castInt value + 4294967296 * high = value := by
  have lowest := @Int.le_bmod value 4294967296 (by decide)
  have highest := @Int.bmod_lt value 4294967296 (by decide)
  have parts := Int.bmod_add_bdiv value 4294967296
  exact ⟨lowest, highest, _, parts⟩

theorem clipToRange_eq_clamp {value lower : Nat} (inside : lower < 1073741824) :
    clipToRange value lower 1073741824 = min (max value lower) 1073741824 ↔
      value < 2147483648 ∨ 1073741824 < castInt value := by
  obtain ⟨lowest, highest, high, parts⟩ := castInt_spec value
  have top : castInt 1073741824 = 1073741824 := by decide
  simp only [clipToRange]
  split
  · rw [top]
    split <;> omega
  · split <;> omega

theorem sizeOptions_exact (src : SizeOptions) : src.Exact ↔ src.maxFileSize.toNat ≤ 85899345 ∧
    (src.writeBufferSize.toNat < 2147483648 ∨ 1073741824 < castInt src.writeBufferSize.toNat) := by
  have fileSize := @clipToRange_eq_clamp src.maxFileSize.toNat 1048576 (by decide)
  have bufferSize := @clipToRange_eq_clamp src.writeBufferSize.toNat 65536 (by decide)
  rw [SizeOptions.Exact, SizeOptions.sanitizedWriteBufferSize, bufferSize, SizeOptions.sanitizedMaxFileSize]
  have limits : ∀ size : Nat, size ≤ 1073741824 → (targetFileSize ⟨size⟩ = size ∧
      maxGrandParentOverlapBytes ⟨size⟩ = 10 * size ∧ expandedCompactionByteSizeLimit ⟨size⟩ = 25 * size ↔
        size ≤ 85899345) := by
    intro size le
    have target : targetFileSize ⟨size⟩ = size := 
      Int.bmod_eq_of_le (by simp only; omega) (by simp only; omega)
    simp only [maxGrandParentOverlapBytes, expandedCompactionByteSizeLimit, target]
    constructor
    · intro exact'
      have wraps := @Int.bmod_lt (25 * size) 4294967296 (by decide)
      omega
    · intro small
      refine ⟨trivial, Int.bmod_eq_of_le ?_ ?_, Int.bmod_eq_of_le ?_ ?_⟩ <;> omega
  constructor
  · rintro ⟨clamped, buffer, exact'⟩
    rw [clamped] at exact'
    have small := (limits _ (Nat.min_le_right ..)).mp exact'
    exact ⟨by omega, buffer⟩
  · rintro ⟨small, buffer⟩
    have clamped := fileSize.mpr (.inl (by omega))
    rw [clamped]
    exact ⟨rfl, buffer, (limits _ (Nat.min_le_right ..)).mpr (by omega)⟩

/-- A large file size is not clamped at all, and one of 205 MiB makes the overlap limit negative. -/
theorem sizeOptions_not_exact : ¬(SizeOptions.mk 4296015872 4194304).Exact ∧
    (SizeOptions.mk 4296015872 4194304).sanitizedMaxFileSize = 4296015872 ∧
    maxGrandParentOverlapBytes ⟨(SizeOptions.mk 214958080 4194304).sanitizedMaxFileSize⟩ < 0 := by
  refine ⟨fun isExact => ?_, by decide, by decide⟩
  exact absurd isExact.1 (by decide)

/-! ## Files and versions -/

structure FileMetaData (K : Type*) where
  number : Nat
  fileSize : Nat
  smallest : InternalKey K
  largest : InternalKey K
  rh : Merkle.Digest
  deriving DecidableEq

instance FileMetaData.lawful : LawfulBEq (FileMetaData Bytes) := inferInstance

structure Version (K : Type*) where
  files : Nat → List (FileMetaData K)
  /-- `file_to_compact_` with `file_to_compact_level_`. -/
  fileToCompact : Option (FileMetaData K × Nat)

variable {K : Type*}

def Version.empty : Version K := ⟨fun _ => [], none⟩

def totalFileSize (files : List (FileMetaData K)) : Nat := (files.map (·.fileSize)).sum

variable [LinearOrder K]

/-- The bounds of a file are in order, and a search for its last user key finds it. -/
structure FileMetaData.Bounded (f : FileMetaData K) : Prop where
  ordered : f.smallest ≤ f.largest
  seekable : f.largest.tag ≤ packSequenceAndType kMaxSequenceNumber kValueTypeForSeek

variable {f : FileMetaData K}

theorem FileMetaData.Bounded.user_le (bounded : f.Bounded) : f.smallest.userKey ≤ f.largest.userKey :=
  InternalKey.userKey_le_of_le bounded.ordered

/-- Files in key order with no key in common. -/
abbrev DisjointSorted (files : List (FileMetaData K)) : Prop :=
  files.Pairwise fun f g => f.largest < g.smallest

/-! ## `FindFile` -/

def findFile (files : List (FileMetaData K)) (key : InternalKey K) : Nat :=
  Bisect.bisect (fun i => (files[i]?).any fun f => f.largest < key) files.length 0 files.length

variable {files : List (FileMetaData K)}

section

variable (sorted : DisjointSorted files) (ord : ∀ f ∈ files, f.smallest ≤ f.largest) (key : InternalKey K)

include sorted ord

theorem findFile_eq : findFile files key = files.findIdx fun f => key ≤ f.largest := by
  have initial : files.Pairwise fun f g => decide (g.largest < key) = true → decide (f.largest < key) = true := by
    refine List.Pairwise.imp_of_mem ?_ sorted
    intro f g _ inFiles apart below
    simp only [decide_eq_true_eq] at below ⊢
    exact (apart.trans_le (ord g inFiles)).trans below
  rw [findFile, Bisect.bisect_eq_findIdx _ _ initial]
  have eq : (fun f : FileMetaData K => !decide (f.largest < key)) = fun f => decide (key ≤ f.largest) := by
    funext f
    simp [← not_lt]
  rw [eq]

theorem findFile_get : files[findFile files key]? = files.find? fun f => key ≤ f.largest := by
  rw [findFile_eq sorted ord, ← find?_eq_getElem?_findIdx]

end

/-! ## `SomeFileOverlapsRange` -/

/-- `AfterFile`: a missing key stands before all keys. -/
def afterFile (userKey : Option K) (f : FileMetaData K) : Bool :=
  userKey.any fun u => f.largest.userKey < u

/-- `BeforeFile`: a missing key stands after all keys. -/
def beforeFile (userKey : Option K) (f : FileMetaData K) : Bool :=
  userKey.any fun u => u < f.smallest.userKey

def overlapsRange (userBegin userEnd : Option K) (f : FileMetaData K) : Bool :=
  !afterFile userBegin f && !beforeFile userEnd f

def someFileOverlapsRange (disjointSortedFiles : Bool) (files : List (FileMetaData K))
    (smallestUserKey largestUserKey : Option K) : Bool :=
  if !disjointSortedFiles then
    files.any fun f => !(afterFile smallestUserKey f || beforeFile largestUserKey f)
  else
    let index := match smallestUserKey with
      | some u => findFile files (.make u kMaxSequenceNumber kValueTypeForSeek)
      | none => 0
    match files[index]? with
    | none => false
    | some f => !beforeFile largestUserKey f

theorem overlapsRange_iff {userBegin userEnd : Option K} : overlapsRange userBegin userEnd f = true ↔
      (∀ u ∈ userBegin, u ≤ f.largest.userKey) ∧ ∀ u ∈ userEnd, f.smallest.userKey ≤ u := by
  cases userBegin <;> cases userEnd <;> simp [overlapsRange, afterFile, beforeFile]

theorem seek_le_largest (bounded : f.Bounded) (u : K) :
    InternalKey.make u kMaxSequenceNumber kValueTypeForSeek ≤ f.largest ↔ u ≤ f.largest.userKey := by
  rw [InternalKey.le_iff]
  constructor
  · intro reaches
    obtain strict | ⟨eq, -⟩ := reaches
    · exact le_of_lt strict
    · exact le_of_eq eq
  · intro reaches
    obtain strict | eq := lt_or_eq_of_le reaches
    · exact .inl strict
    · exact .inr ⟨eq, bounded.seekable⟩

theorem someFileOverlapsRange_eq (disjoint : Bool)
    (sorted : disjoint = true → DisjointSorted files) (bounded : ∀ f ∈ files, f.Bounded)
    (smallestUserKey largestUserKey : Option K) :
    someFileOverlapsRange disjoint files smallestUserKey largestUserKey =
      files.any (overlapsRange smallestUserKey largestUserKey) := by
  cases disjoint with
  | false =>
    simp only [someFileOverlapsRange, Bool.not_false, if_true, Bool.not_or]
    rfl
  | true =>
    specialize sorted rfl
    simp only [someFileOverlapsRange, Bool.not_true, Bool.false_eq_true, if_false]
    have first : files[match smallestUserKey with
        | some u => findFile files (.make u kMaxSequenceNumber kValueTypeForSeek)
        | none => 0]? = files.find? fun f => !afterFile smallestUserKey f := by
      cases smallestUserKey with
      | none => cases files <;> simp [afterFile]
      | some u =>
        rw [findFile_get sorted fun f mem => (bounded f mem).ordered]
        apply SortedList.find?_congr
        intro f mem
        simp only [seek_le_largest (bounded f mem), afterFile, Option.any_some]
        simp [← not_lt]
    rw [first]
    cases found : files.find? fun f => !afterFile smallestUserKey f with
    | none =>
      simp only [find?_eq_none, Bool.not_eq_true, Bool.not_eq_false'] at found
      symm
      simp only [any_eq_false, overlapsRange]
      intro f mem
      simp [found f mem]
    | some f =>
      have mem := mem_of_find?_eq_some found
      have notAfter := find?_some found
      rw [Bool.eq_iff_iff]
      simp only [Bool.not_eq_eq_eq_not, Bool.not_true, any_eq_true]
      constructor
      · intro notBefore
        refine ⟨f, mem, ?_⟩
        simp only [overlapsRange, notBefore, Bool.not_false, Bool.and_true]
        exact notAfter
      · intro ⟨g, inFiles, meets⟩
        simp only [overlapsRange, Bool.and_eq_true] at meets
        obtain rfl | apart := SortedList.find?_first sorted found inFiles meets.1
        · simpa using meets.2
        cases largestUserKey with
        | none => rfl
        | some u =>
          have starts : f.smallest.userKey ≤ g.smallest.userKey :=
            InternalKey.userKey_le_of_le ((bounded f mem).ordered.trans apart.le)
          have within := meets.2
          simp only [beforeFile, Option.any_some, Bool.not_eq_eq_eq_not, Bool.not_true,
            decide_eq_false_iff_not, not_lt] at within ⊢
          exact starts.trans within

/-- The binary searches answer as scans over all files do. -/
theorem searches_agree_with_scans (files : List (FileMetaData K)) (sorted : DisjointSorted files)
    (bounded : ∀ f ∈ files, f.Bounded) :
    (∀ key, findFile files key = files.findIdx fun f => key ≤ f.largest) ∧
      ∀ smallestUserKey largestUserKey : Option K,
        someFileOverlapsRange true files smallestUserKey largestUserKey =
            someFileOverlapsRange false files smallestUserKey largestUserKey ∧
          (someFileOverlapsRange true files smallestUserKey largestUserKey = true ↔ ∃ f ∈ files,
            (∀ u ∈ smallestUserKey, u ≤ f.largest.userKey) ∧ ∀ u ∈ largestUserKey, f.smallest.userKey ≤ u) := by
  refine ⟨findFile_eq sorted fun f mem => (bounded f mem).ordered, fun smallestUserKey largestUserKey => ?_⟩
  rw [someFileOverlapsRange_eq true (fun _ => sorted) bounded, someFileOverlapsRange_eq false nofun bounded]
  refine ⟨rfl, ?_⟩
  simp only [any_eq_true, overlapsRange_iff]

/-- The versions of one user key are in two files. -/
theorem searches_agree_with_scans_shared :
    let files : List (FileMetaData Nat) :=
      [⟨1, 0, .make 1 5 .value, .make 2 9 .value, ⟨replicate 16 0, rfl⟩⟩,
        ⟨2, 0, .make 2 4 .value, .make 3 1 .value, ⟨replicate 16 0, rfl⟩⟩]
    findFile files (.make 2 4 .value) = 1 ∧ ∀ smallestUserKey largestUserKey,
      someFileOverlapsRange true files smallestUserKey largestUserKey =
        someFileOverlapsRange false files smallestUserKey largestUserKey := by
  intro files
  have bounded : ∀ f ∈ files, f.Bounded := by
    simp only [files, forall_mem_cons]
    exact ⟨⟨by decide, by decide⟩, ⟨by decide, by decide⟩, nofun⟩
  obtain ⟨finds, overlaps⟩ := searches_agree_with_scans files (by decide) bounded
  exact ⟨(finds _).trans (by decide), fun smallestUserKey largestUserKey => (overlaps smallestUserKey largestUserKey).1⟩

/-! ## `Version::GetOverlappingInputs` -/

/-- The scan over `files_[level]`.  `rest` is what is left from index `i` on; a level-0 file
that widens the range sends the scan back to the whole list. -/
def overlappingLoop (level : Nat) (files : List (FileMetaData K)) :
    Nat → List (FileMetaData K) → Option K → Option K → List (FileMetaData K) → List (FileMetaData K)
  | 0, _, _, _, inputs => inputs
  | _ + 1, [], _, _, inputs => inputs
  | fuel + 1, f :: rest, userBegin, userEnd, inputs =>
    if afterFile userBegin f then
      overlappingLoop level files fuel rest userBegin userEnd inputs
    else if beforeFile userEnd f then
      overlappingLoop level files fuel rest userBegin userEnd inputs
    else if level = 0 then
      if userBegin.any fun u => f.smallest.userKey < u then
        overlappingLoop level files fuel files (some f.smallest.userKey) userEnd []
      else if userEnd.any fun u => u < f.largest.userKey then
        overlappingLoop level files fuel files userBegin (some f.largest.userKey) []
      else overlappingLoop level files fuel rest userBegin userEnd (inputs ++ [f])
    else overlappingLoop level files fuel rest userBegin userEnd (inputs ++ [f])

/-- Each end of the range moves at most once per file, and a scan is one pass. -/
def overlappingFuel (files : List (FileMetaData K)) : Nat :=
  (2 * files.length + 1) * (files.length + 1) + 1

def getOverlappingInputs (version : Version K) (level : Nat)
    (begin_ end_ : Option (InternalKey K)) : List (FileMetaData K) :=
  overlappingLoop level (version.files level) (overlappingFuel (version.files level))
    (version.files level) (begin_.map (·.userKey)) (end_.map (·.userKey)) []

def FileMetaData.Within (userBegin userEnd : Option K) (f : FileMetaData K) : Prop :=
  (∀ u ∈ userBegin, u ≤ f.smallest.userKey) ∧ ∀ u ∈ userEnd, f.largest.userKey ≤ u

structure OverlappingSpec (level : Nat) (files : List (FileMetaData K))
    (userBegin userEnd : Option K) (inputs : List (FileMetaData K)) : Prop where
  range : ∃ userBegin' userEnd' : Option K, (∀ u' ∈ userBegin', ∃ u ∈ userBegin, u' ≤ u) ∧
    (∀ u' ∈ userEnd', ∃ u ∈ userEnd, u ≤ u') ∧
    inputs = files.filter (overlapsRange userBegin' userEnd') ∧
    (level = 0 → ∀ f ∈ inputs, f.Within userBegin' userEnd') ∧
    (level ≠ 0 → userBegin' = userBegin ∧ userEnd' = userEnd)

def RangeContains (userBegin' userEnd' userBegin userEnd : Option K) : Prop :=
  (∀ u' ∈ userBegin', ∃ u ∈ userBegin, u' ≤ u) ∧ ∀ u' ∈ userEnd', ∃ u ∈ userEnd, u ≤ u'

/-- The range contains, on its bounded sides, every file it meets. -/
def ClosedRange (files : List (FileMetaData K)) (userBegin userEnd : Option K) : Prop :=
  ∀ f ∈ files, overlapsRange userBegin userEnd f = true → f.Within userBegin userEnd

/-- The least range around the given one that contains every file it meets. -/
structure LeastClosed (files : List (FileMetaData K)) (userBegin userEnd userBegin' userEnd' : Option K) : Prop where
  covers : RangeContains userBegin' userEnd' userBegin userEnd
  closed : ClosedRange files userBegin' userEnd'
  least : ∀ b e, RangeContains b e userBegin userEnd → ClosedRange files b e → RangeContains b e userBegin' userEnd'

section Range

variable {b e b' e' userBegin userEnd : Option K} {f : FileMetaData K}

theorem RangeContains.refl (b e : Option K) : RangeContains b e b e :=
  ⟨fun u isB => ⟨u, isB, le_rfl⟩, fun u isE => ⟨u, isE, le_rfl⟩⟩

theorem RangeContains.trans (covers : RangeContains b e b' e') (covers' : RangeContains b' e' userBegin userEnd) :
    RangeContains b e userBegin userEnd := by
  refine ⟨fun u isB => ?_, fun u isE => ?_⟩
  · obtain ⟨v, isB', below⟩ := covers.1 u isB
    obtain ⟨w, isBegin, below'⟩ := covers'.1 v isB'
    exact ⟨w, isBegin, below.trans below'⟩
  obtain ⟨v, isE', above⟩ := covers.2 u isE
  obtain ⟨w, isEnd, above'⟩ := covers'.2 v isE'
  exact ⟨w, isEnd, above'.trans above⟩

theorem RangeContains.overlaps (covers : RangeContains b e userBegin userEnd)
    (meets : overlapsRange userBegin userEnd f = true) :
    overlapsRange b e f = true := by
  rw [overlapsRange_iff] at meets ⊢
  refine ⟨fun u isB => ?_, fun u isE => ?_⟩
  · obtain ⟨v, isBegin, below⟩ := covers.1 u isB
    exact below.trans (meets.1 v isBegin)
  · obtain ⟨v, isEnd, above⟩ := covers.2 u isE
    exact (meets.2 v isEnd).trans above

end Range

def widenings (files : List (FileMetaData K)) (userBegin userEnd : Option K) : Nat :=
  files.countP (fun f => userBegin.any fun u => f.smallest.userKey < u) +
    files.countP fun f => userEnd.any fun u => u < f.largest.userKey

theorem widenings_begin_lt {u : K} (userEnd : Option K) (mem : f ∈ files) (wider : f.smallest.userKey < u) :
    widenings files (some f.smallest.userKey) userEnd < widenings files (some u) userEnd := by
  apply Nat.add_lt_add_right
  apply SortedList.countP_lt mem
  · intro g _ below
    simp only [Option.any_some, decide_eq_true_eq] at below ⊢
    exact below.trans wider
  · simp
  · simpa using wider

theorem widenings_end_lt {u : K} (userBegin : Option K) (mem : f ∈ files) (wider : u < f.largest.userKey) :
    widenings files userBegin (some f.largest.userKey) < widenings files userBegin (some u) := by
  apply Nat.add_lt_add_left
  apply SortedList.countP_lt mem
  · intro g _ above
    simp only [Option.any_some, decide_eq_true_eq] at above ⊢
    exact wider.trans above
  · simp
  · simpa using wider

def ScanResult (level : Nat) (files : List (FileMetaData K)) (userBegin userEnd : Option K)
    (inputs : List (FileMetaData K)) : Prop :=
  ∃ b e, inputs = files.filter (overlapsRange b e) ∧ (level = 0 → LeastClosed files userBegin userEnd b e) ∧
    (level ≠ 0 → b = userBegin ∧ e = userEnd)

theorem ScanResult.widen {b e userBegin userEnd : Option K} {inputs : List (FileMetaData K)}
    (wider : RangeContains b e userBegin userEnd) (mem : f ∈ files) (meets : overlapsRange userBegin userEnd f = true)
    (needed : ∀ b' e', RangeContains b' e' userBegin userEnd → f.Within b' e' → RangeContains b' e' b e)
    (res : ScanResult 0 files b e inputs) : ScanResult 0 files userBegin userEnd inputs := by
  obtain ⟨b', e', isFilter, least, -⟩ := res
  have least := least rfl
  refine ⟨b', e', isFilter, fun _ => ⟨least.covers.trans wider, least.closed, fun b'' e'' covers closed => ?_⟩,
    absurd rfl⟩
  exact least.least b'' e'' (needed b'' e'' covers (closed f mem (covers.overlaps meets))) closed

/-- The scan with enough fuel left: the files before `rest` have been sorted into `inputs`
for the present range, and every restart spends one widening. -/
theorem overlappingLoop_spec {l fuel : Nat} {scanned rest inputs : List (FileMetaData K)} {userBegin userEnd : Option K}
    (split : files = scanned ++ rest) (collected : inputs = scanned.filter (overlapsRange userBegin userEnd))
    (ins : l = 0 → ClosedRange scanned userBegin userEnd)
    (enough : widenings files userBegin userEnd * (files.length + 1) + rest.length < fuel) :
    ScanResult l files userBegin userEnd (overlappingLoop l files fuel rest userBegin userEnd inputs) := by
  induction fuel generalizing scanned rest userBegin userEnd inputs with
  | zero => omega
  | succ fuel ih =>
    cases rest with
    | nil =>
      rw [append_nil] at split
      subst split
      exact ⟨userBegin, userEnd, collected, fun zero => ⟨.refl _ _, ins zero, fun _ _ covers _ => covers⟩,
        fun _ => ⟨rfl, rfl⟩⟩
    | cons f rest =>
      have mem : f ∈ files := by simp [split]
      rw [length_cons] at enough
      have passes : ∀ {inputs'}, inputs' = (scanned ++ [f]).filter (overlapsRange userBegin userEnd) →
          (l = 0 → overlapsRange userBegin userEnd f = true → f.Within userBegin userEnd) → _ := fun isInputs within =>
        ih (split.trans (append_cons _ _ _)) isInputs
          (fun zero => SortedList.forall_mem_concat (ins zero) (within zero)) (by omega)
      have room : ∀ {b e}, widenings files b e < widenings files userBegin userEnd →
          widenings files b e * (files.length + 1) + files.length < fuel := by
        intro b e spent
        have := Nat.mul_le_mul_right (files.length + 1) spent
        rw [Nat.succ_mul] at this
        omega
      have again : ∀ {b e}, widenings files b e < widenings files userBegin userEnd → _ := fun {b e} spent =>
        @ih [] files [] b e rfl rfl (fun _ => forall_mem_nil _) (room spent)
      simp only [overlappingLoop]
      split
      case isTrue after => exact passes (by simp [collected, overlapsRange, after]) (by simp [overlapsRange, after])
      split
      case isTrue before => exact passes (by simp [collected, overlapsRange, before]) (by simp [overlapsRange, before])
      rename_i after before
      have meets : overlapsRange userBegin userEnd f = true := by simp [overlapsRange, after, before]
      split
      case isFalse positive => exact passes (by simp [collected, meets]) fun zero => absurd zero positive
      case isTrue zero =>
        subst zero
        split
        case isTrue widens =>
          obtain ⟨u, rfl, lt⟩ := (Option.any_eq_true _ _).mp widens
          have wider := of_decide_eq_true lt
          apply (again (widenings_begin_lt userEnd mem wider)).widen ⟨?_, (RangeContains.refl none userEnd).2⟩ mem meets
          · exact fun b' e' covers within => ⟨fun v isB => ⟨_, rfl, within.1 v isB⟩, covers.2⟩
          · rintro _ ⟨⟩
            exact ⟨u, rfl, wider.le⟩
        split
        case isTrue widens =>
          obtain ⟨u, rfl, lt⟩ := (Option.any_eq_true _ _).mp widens
          have wider := of_decide_eq_true lt
          apply (again (widenings_end_lt userBegin mem wider)).widen ⟨(RangeContains.refl userBegin none).1,
            ?_⟩ mem meets
          · exact fun b' e' covers within => ⟨covers.1, fun v isE => ⟨_, rfl, within.2 v isE⟩⟩
          · rintro _ ⟨⟩
            exact ⟨u, rfl, wider.le⟩
        rename_i begins ends
        refine passes (by simp [collected, meets]) fun _ _ => ⟨fun u isBegin => ?_, fun u isEnd => ?_⟩
        · simpa [Option.mem_def.mp isBegin] using begins
        · simpa [Option.mem_def.mp isEnd] using ends

/-- The scan ends, however much fuel it is given beyond the bound. -/
theorem overlappingLoop_result (l : Nat) (files : List (FileMetaData K)) (userBegin userEnd : Option K) {fuel : Nat}
    (le : overlappingFuel files ≤ fuel) :
    ScanResult l files userBegin userEnd (overlappingLoop l files fuel files userBegin userEnd []) := by
  refine @overlappingLoop_spec _ _ files l fuel [] files [] _ _ rfl rfl (fun _ => forall_mem_nil _) ?_
  have few : widenings files userBegin userEnd ≤ files.length + files.length :=
    Nat.add_le_add countP_le_length countP_le_length
  have bound := Nat.mul_le_mul_right (files.length + 1) few
  simp only [overlappingFuel, Nat.add_mul, Nat.one_mul, Nat.two_mul] at le bound
  omega

theorem getOverlappingInputs_spec (v : Version K) (l : Nat) (begin_ end_ : Option (InternalKey K)) :
    OverlappingSpec l (v.files l) (begin_.map (·.userKey)) (end_.map (·.userKey))
      (getOverlappingInputs v l begin_ end_) := by
  obtain ⟨b, e, res, least, eq⟩ := overlappingLoop_result l (v.files l) (begin_.map (·.userKey))
    (end_.map (·.userKey)) (Nat.le_refl _)
  have covers : RangeContains b e (begin_.map (·.userKey)) (end_.map (·.userKey)) := by
    by_cases zero : l = 0
    · exact (least zero).covers
    · obtain ⟨rfl, rfl⟩ := eq zero
      exact .refl _ _
  refine ⟨b, e, covers.1, covers.2, res, fun zero f mem => ?_, eq⟩
  rw [getOverlappingInputs, res] at mem
  exact (least zero).closed f (mem_of_mem_filter mem) (mem_filter.mp mem).2

/-- Above level 0 the files that meet the range are found, at level 0 those that meet the least closed range around it.
More rounds than the bound change nothing. -/
theorem getOverlappingInputs_closure (version : Version K) (level : Nat) (begin_ end_ : Option (InternalKey K)) :
    (level ≠ 0 → getOverlappingInputs version level begin_ end_ =
      (version.files level).filter (overlapsRange (begin_.map (·.userKey)) (end_.map (·.userKey)))) ∧
    (level = 0 → ∃ userBegin userEnd,
      LeastClosed (version.files 0) (begin_.map (·.userKey)) (end_.map (·.userKey)) userBegin userEnd ∧
      getOverlappingInputs version 0 begin_ end_ = (version.files 0).filter (overlapsRange userBegin userEnd)) ∧
    ∀ fuel, overlappingFuel (version.files level) ≤ fuel →
      overlappingLoop level (version.files level) fuel (version.files level) (begin_.map (·.userKey))
        (end_.map (·.userKey)) [] = getOverlappingInputs version level begin_ end_ := by
  have result := fun {fuel} => @overlappingLoop_result K _ level (version.files level) (begin_.map (·.userKey))
    (end_.map (·.userKey)) fuel
  obtain ⟨b, e, found, least, same⟩ := result (Nat.le_refl _)
  refine ⟨fun positive => ?_, fun zero => ?_, fun fuel enough => ?_⟩
  · obtain ⟨rfl, rfl⟩ := same positive
    exact found
  · subst zero
    exact ⟨b, e, least rfl, found⟩
  obtain ⟨b', e', found', least', same'⟩ := result enough
  rw [getOverlappingInputs, found, found']
  apply filter_congr
  intro f _
  rw [Bool.eq_iff_iff]
  by_cases zero : level = 0
  · have covers := (least zero).least b' e' (least' zero).covers (least' zero).closed
    have covers' := (least' zero).least b e (least zero).covers (least zero).closed
    exact ⟨covers'.overlaps, covers.overlaps⟩
  · obtain ⟨rfl, rfl⟩ := same zero
    obtain ⟨rfl, rfl⟩ := same' zero
    exact Iff.rfl

/-! ## `Version::PickLevelForMemTableOutput` -/

def overlapInLevel (version : Version K) (level : Nat) (smallestUserKey largestUserKey : Option K) :
    Bool :=
  someFileOverlapsRange (decide (0 < level)) (version.files level) smallestUserKey largestUserKey

/-- The loop of `PickLevelForMemTableOutput`, with the iterations left before
`kMaxMemCompactLevel`. -/
def pickLevelLoop (options : Options) (version : Version K) (smallestUserKey largestUserKey : K) : Nat → Nat → Nat
  | 0, level => level
  | remaining + 1, level =>
    if overlapInLevel version (level + 1) (some smallestUserKey) (some largestUserKey) then level
    else if level + 2 < kNumLevels ∧ (totalFileSize (getOverlappingInputs version (level + 2)
          (some (.make smallestUserKey kMaxSequenceNumber kValueTypeForSeek))
          (some (.make largestUserKey 0 .deletion))) : Int) > maxGrandParentOverlapBytes options then
      level
    else pickLevelLoop options version smallestUserKey largestUserKey remaining (level + 1)

def pickLevelForMemTableOutput (options : Options) (version : Version K) (smallestUserKey largestUserKey : K) : Nat :=
  if !overlapInLevel version 0 (some smallestUserKey) (some largestUserKey) then
    pickLevelLoop options version smallestUserKey largestUserKey kMaxMemCompactLevel 0
  else 0

/-- Every level but the first is sorted, and the bounds of all files are in order. -/
structure Version.Sorted (version : Version K) : Prop where
  bounded : ∀ level, ∀ f ∈ version.files level, f.Bounded
  disjoint : ∀ level, 0 < level → DisjointSorted (version.files level)

variable {v : Version K}

theorem Version.Sorted.ordered (sorted : v.Sorted) (l : Nat) (f : FileMetaData K)
    (mem : f ∈ v.files l) : f.smallest ≤ f.largest :=
  (sorted.bounded l f mem).ordered

theorem Version.Sorted.overlapInLevel_eq (sorted : v.Sorted) (l : Nat) (smallestUserKey largestUserKey : Option K) :
    overlapInLevel v l smallestUserKey largestUserKey =
      (v.files l).any (overlapsRange smallestUserKey largestUserKey) :=
  someFileOverlapsRange_eq _ (fun pos => sorted.disjoint l (by simpa using pos))
    (sorted.bounded l) _ _

section

variable (opts : Options) (v : Version K) (smallestUserKey largestUserKey : K)

theorem pickLevelLoop_spec (rem l : Nat)
    (clear : ∀ i ≤ l, overlapInLevel v i (some smallestUserKey) (some largestUserKey) = false) :
    ∀ i ≤ pickLevelLoop opts v smallestUserKey largestUserKey rem l,
      overlapInLevel v i (some smallestUserKey) (some largestUserKey) = false := by
  induction rem generalizing l with
  | zero => exact clear
  | succ rem ih =>
    simp only [pickLevelLoop]
    split
    case isTrue => exact clear
    case isFalse next =>
      split
      case isTrue => exact clear
      case isFalse =>
        have clear' : ∀ i ≤ l + 1, overlapInLevel v i (some smallestUserKey) (some largestUserKey) = false := by
          intro i bound
          cases Nat.lt_or_eq_of_le bound with
          | inl earlier => exact clear i (by omega)
          | inr eq => simpa [eq] using next
        exact ih (l + 1) clear'

theorem pickLevelLoop_le (rem l : Nat) : pickLevelLoop opts v smallestUserKey largestUserKey rem l ≤ l + rem := by
  induction rem generalizing l with
  | zero => exact Nat.le_refl _
  | succ rem ih =>
    simp only [pickLevelLoop]
    split
    · omega
    split
    · omega
    · have bound := ih (l + 1)
      omega

theorem pickLevelForMemTableOutput_le :
    pickLevelForMemTableOutput opts v smallestUserKey largestUserKey ≤ kMaxMemCompactLevel := by
  simp only [pickLevelForMemTableOutput]
  split
  · have bound := pickLevelLoop_le opts v smallestUserKey largestUserKey kMaxMemCompactLevel 0
    omega
  · exact Nat.zero_le _

end

/-- A flushed table is pushed below level 0 only past levels it does not overlap. -/
theorem pickLevelForMemTableOutput_spec (opts : Options) (sorted : v.Sorted) (smallestUserKey largestUserKey : K) :
    0 < pickLevelForMemTableOutput opts v smallestUserKey largestUserKey →
      ∀ i ≤ pickLevelForMemTableOutput opts v smallestUserKey largestUserKey,
        ∀ f ∈ v.files i, overlapsRange (some smallestUserKey) (some largestUserKey) f = false := by
  simp only [pickLevelForMemTableOutput]
  split
  case isTrue clearZero =>
    have clear := pickLevelLoop_spec opts v smallestUserKey largestUserKey kMaxMemCompactLevel 0 (by
      intro i isZero
      rw [Nat.le_zero.mp isZero]
      simpa using clearZero)
    intro _ i below f mem
    have none := clear i below
    rw [sorted.overlapInLevel_eq] at none
    simpa using any_eq_false.mp none f mem
  case isFalse => exact fun pos => absurd pos (Nat.lt_irrefl 0)

end Elsm
