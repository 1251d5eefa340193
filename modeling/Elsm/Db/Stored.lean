import Elsm.Db.State

/-!
# Files and the tables behind them

`TableOk` says that a file describes a table, `Stored` that a version describes its tables
and names each once, and `EditOk` what an edit must satisfy for the version it leads to.
-/

namespace Elsm

open List
open Merkle (Digest Mac Record)

/-! ## Tables -/

/-- Keys the write path makes: a known type, and a sequence number below the reserved one. -/
structure InternalKey.Valid (k : InternalKey Bytes) : Prop where
  parses : ∃ ikey, parseInternalKey k = some ikey
  reserved : k.sequence < kMaxSequenceNumber

theorem InternalKey.Valid.tag_le {k : InternalKey Bytes} (valid : k.Valid) :
    k.tag ≤ packSequenceAndType kMaxSequenceNumber kValueTypeForSeek := by
  have below := valid.reserved
  simp only [InternalKey.sequence, packSequenceAndType] at below ⊢
  omega

/-- The records are in order, from the first to the last key of the file. -/
structure Ranged (f : FileMetaData Bytes) (records : List Record) : Prop where
  sorted : records.Pairwise fun a b => a.1 < b.1
  first : records.head?.map Prod.fst = some f.smallest
  last : records.getLast?.map Prod.fst = some f.largest

namespace Ranged

variable {f : FileMetaData Bytes} {records : List Record} (ok : Ranged f records)

include ok

theorem smallest_le : ∀ e ∈ records, f.smallest ≤ e.1 := by
  cases records with
  | nil => nofun
  | cons first rest =>
    have isFirst : first.1 = f.smallest := by simpa using ok.first
    exact forall_mem_cons.mpr ⟨isFirst.ge, fun e inR => isFirst ▸ (rel_of_pairwise_cons ok.sorted inR).le⟩

theorem le_largest : ∀ e ∈ records, e.1 ≤ f.largest := by
  intro e mem
  obtain ⟨last, isLast, isLargest⟩ := Option.map_eq_some_iff.mp ok.last
  obtain ⟨front, rfl⟩ := getLast?_eq_some_iff.mp isLast
  cases mem_append.mp mem with
  | inl inFront =>
    have pre := (pairwise_append.mp ok.sorted).2.2 e inFront last (by simp)
    exact isLargest ▸ pre.le
  | inr isE => exact mem_singleton.mp isE ▸ isLargest.le

theorem smallest_mem : ∃ e ∈ records, e.1 = f.smallest := by
  obtain ⟨e, isFirst, eq⟩ := Option.map_eq_some_iff.mp ok.first
  exact ⟨e, mem_of_mem_head? isFirst, eq⟩

theorem largest_mem : ∃ e ∈ records, e.1 = f.largest := by
  obtain ⟨e, isLast, eq⟩ := Option.map_eq_some_iff.mp ok.last
  exact ⟨e, mem_of_getLast? isLast, eq⟩

theorem ordered : f.smallest ≤ f.largest := by
  obtain ⟨e, mem, isLargest⟩ := ok.largest_mem
  exact isLargest ▸ ok.smallest_le e mem

theorem userKey_range {e : Record} (mem : e ∈ records) :
    f.smallest.userKey ≤ e.1.userKey ∧ e.1.userKey ≤ f.largest.userKey :=
  ⟨InternalKey.userKey_le_of_le (ok.smallest_le e mem), InternalKey.userKey_le_of_le (ok.le_largest e mem)⟩

end Ranged

structure Tabled (f : FileMetaData Bytes) (records : List Record) : Prop extends Ranged f records where
  parses : ∀ e ∈ records, (parseInternalKey e.1).isSome

structure TableOk (f : FileMetaData Bytes) (records : List Record) : Prop extends Ranged f records where
  valid : ∀ e ∈ records, e.1.Valid

theorem InternalKey.Valid.isSome {k : InternalKey Bytes} (valid : k.Valid) : (parseInternalKey k).isSome := by
  obtain ⟨ikey, parsed⟩ := valid.parses
  rw [parsed]
  rfl

namespace TableOk

variable {f : FileMetaData Bytes} {records : List Record} (ok : TableOk f records)

include ok

theorem tabled : Tabled f records := ⟨ok.toRanged, fun e mem => (ok.valid e mem).isSome⟩

theorem bounded : f.Bounded := by
  obtain ⟨e, mem, isLargest⟩ := ok.largest_mem
  exact ⟨isLargest ▸ ok.smallest_le e mem, isLargest ▸ (ok.valid e mem).tag_le⟩

end TableOk

structure Stored (version : Version Bytes) (tables : Nat → List Record) : Prop where
  table : ∀ level, ∀ f ∈ version.files level, TableOk f (tables f.number)
  disjoint : ∀ level, 0 < level → DisjointSorted (version.files level)
  inOrder : ∀ level, InOrder (version.files level)
  depth : ∀ level, kNumLevels ≤ level → version.files level = []
  /-- A file number stands for one file at one level. -/
  unique : ∀ l f l' f', f ∈ version.files l → f' ∈ version.files l' → f.number = f'.number → l = l' ∧ f = f'
  /-- A sequence number occurs in one table, and there with one key. -/
  once : ∀ l f l' f', f ∈ version.files l → f' ∈ version.files l' →
    ∀ e ∈ tables f.number, ∀ e' ∈ tables f'.number, e.1.sequence = e'.1.sequence → f.number = f'.number ∧ e.1 = e'.1

variable {version after : Version Bytes} {tables tables' : Nat → List Record}

section

variable (stored : Stored version tables)

include stored

theorem Stored.sorted : version.Sorted :=
  ⟨fun l f mem => (stored.table l f mem).bounded, stored.disjoint⟩

variable {f : FileMetaData Bytes}

theorem Stored.level_lt {l : Nat} (mem : f ∈ version.files l) : l < kNumLevels := by
  by_contra above
  rw [stored.depth l (Nat.le_of_not_lt above)] at mem
  simp at mem

theorem Stored.numbers_distinct (l : Nat) : (version.files l).Pairwise fun f g => f.number ≠ g.number := by
  refine List.Pairwise.imp_of_mem ?_ (stored.inOrder l)
  intro f g left right pre eq
  have equal := (stored.unique l f l g left right eq).2
  exact absurd pre (equal ▸ lt_irrefl _)

/-- What an edit must satisfy to keep tables and files in step.  Its new files may take up
numbers that the edit itself deletes elsewhere. -/
structure EditOk (version : Version Bytes) (tables tables' : Nat → List Record) (edit : VersionEdit Bytes) : Prop where
  distinct : DistinctNumbers edit.newFiles
  kept : ∀ l, ∀ f ∈ version.files l, ¬ edit.Deletes l f.number → tables' f.number = tables f.number
  table : ∀ l f, (l, f) ∈ edit.newFiles → l < kNumLevels ∧ TableOk f (tables' f.number)
  fresh : ∀ l f, (l, f) ∈ edit.newFiles → ∀ g ∈ version.files l, f.number ≠ g.number
  renumbered : ∀ l f, (l, f) ∈ edit.newFiles → ∀ l' g, g ∈ version.files l' → g.number = f.number →
    edit.Deletes l' g.number
  uniqueNew : ∀ l f l' f', (l, f) ∈ edit.newFiles → (l', f') ∈ edit.newFiles → f.number = f'.number → l = l' ∧ f = f'
  onceNew : ∀ l f l' f', (l, f) ∈ edit.newFiles → (l', f') ∈ edit.newFiles →
    ∀ e ∈ tables' f.number, ∀ e' ∈ tables' f'.number, e.1.sequence = e'.1.sequence → f.number = f'.number ∧ e.1 = e'.1
  onceOld : ∀ l f l' g, (l, f) ∈ edit.newFiles → g ∈ version.files l' → ¬ edit.Deletes l' g.number →
    ∀ e ∈ tables' f.number, ∀ e' ∈ tables g.number, e.1.sequence ≠ e'.1.sequence

section

variable {edit : VersionEdit Bytes} (ok : EditOk version tables tables' edit)
  (saved : version.applyEdit edit = some after)

include ok saved

theorem Stored.mem_iff {l : Nat} :
    f ∈ after.files l ↔ (f ∈ version.files l ∧ ¬ edit.Deletes l f.number) ∨ (l, f) ∈ edit.newFiles :=
  mem_applyEdit_iff stored.depth (fun l f new => (ok.table l f new).1) ok.distinct saved

theorem Stored.applyEdit : Stored after tables' := by
  have mem : ∀ l f, f ∈ after.files l → (f ∈ version.files l ∧ ¬ edit.Deletes l f.number) ∨
      (l, f) ∈ edit.newFiles := fun l f => (stored.mem_iff ok saved).mp
  have table : ∀ l, ∀ f ∈ after.files l, TableOk f (tables' f.number) := by
    intro l f isFile
    cases mem l f isFile with
    | inl old => rw [ok.kept l f old.1 old.2]; exact stored.table l f old.1
    | inr new => exact (ok.table l f new).2
  refine ⟨table, (applyEdit_sorted saved fun l f isFile => (table l f isFile).bounded).disjoint,
    applyEdit_inOrder ok.distinct saved stored.inOrder ok.fresh, (saveTo_some saved).2.1, ?_, ?_⟩
  · intro l f l' f' left right eq
    cases mem l f left with
    | inl old =>
      cases mem l' f' right with
      | inl old' => exact stored.unique l f l' f' old.1 old'.1 eq
      | inr new' => exact absurd (ok.renumbered l' f' new' l f old.1 eq) old.2
    | inr new =>
      cases mem l' f' right with
      | inl old' => exact absurd (ok.renumbered l f new l' f' old'.1 eq.symm) old'.2
      | inr new' => exact ok.uniqueNew l f l' f' new new' eq
  · intro l f l' f' left right e inE e' inE' eq
    cases mem l f left with
    | inl old =>
      rw [ok.kept l f old.1 old.2] at inE
      cases mem l' f' right with
      | inl old' =>
        rw [ok.kept l' f' old'.1 old'.2] at inE'
        exact stored.once l f l' f' old.1 old'.1 e inE e' inE' eq
      | inr new' => exact absurd eq.symm (ok.onceOld l' f' l f new' old.1 old.2 e' inE' e inE)
    | inr new =>
      cases mem l' f' right with
      | inl old' =>
        rw [ok.kept l' f' old'.1 old'.2] at inE'
        exact absurd eq (ok.onceOld l f l' f' new old'.1 old'.2 e inE e' inE')
      | inr new' => exact ok.onceNew l f l' f' new new' e inE e' inE' eq

end

theorem Stored.congr
    (agree : ∀ l, ∀ f ∈ version.files l, tables' f.number = tables f.number) : Stored version tables' := by
  refine ⟨?_, stored.disjoint, stored.inOrder, stored.depth, stored.unique, ?_⟩
  · intro l f mem
    rw [agree l f mem]
    exact stored.table l f mem
  intro l f l' f' left right
  rw [agree l f left, agree l' f' right]
  exact stored.once l f l' f' left right

end

/-! ## The entries a compaction reads -/

namespace Db

variable {c : Compaction Bytes}

theorem mem_inputEntries {e : Record} :
    e ∈ inputEntries tables c ↔ ∃ f, (f ∈ c.inputs0 ∨ f ∈ c.inputs1) ∧ e ∈ tables f.number := by
  simp [inputEntries, mem_insertionSort, or_and_right, exists_or]

theorem inputs_distinct (chosen : c.Chosen) (stored : Stored c.inputVersion tables) :
    (c.inputs0 ++ c.inputs1).Pairwise fun f g => f.number ≠ g.number := by
  refine pairwise_append.mpr ⟨(stored.numbers_distinct _).sublist chosen.sublist0,
    (stored.numbers_distinct _).sublist chosen.sublist1, ?_⟩
  intro f left g right eq
  have levels := (stored.unique _ f _ g (chosen.sublist0.subset left) (chosen.sublist1.subset right) eq).1
  omega

theorem inputs_mem (chosen : c.Chosen) (isInput : f ∈ c.inputs0 ∨ f ∈ c.inputs1) : ∃ l, f ∈ c.inputVersion.files l := by
  cases isInput with
  | inl first => exact ⟨_, chosen.sublist0.subset first⟩
  | inr snd => exact ⟨_, chosen.sublist1.subset snd⟩

/-- The merging iterator yields strictly increasing keys: no key is in two inputs. -/
theorem inputEntries_sorted (chosen : c.Chosen) (stored : Stored c.inputVersion tables) :
    (inputEntries tables c).Pairwise fun a b => a.1 < b.1 := by
  have different : ((c.inputs0 ++ c.inputs1).flatMap fun f => tables f.number).Pairwise fun a b => a.1 ≠ b.1 := by
    rw [pairwise_flatMap]
    constructor
    · intro f isInput
      obtain ⟨l, inFiles⟩ := inputs_mem chosen (mem_append.mp isInput)
      exact (stored.table l f inFiles).sorted.imp fun lt => lt.ne
    refine List.Pairwise.imp_of_mem ?_ (inputs_distinct chosen stored)
    intro f g left right apart e inF e' inG eq
    obtain ⟨l, fileF⟩ := inputs_mem chosen (mem_append.mp left)
    obtain ⟨l', fileG⟩ := inputs_mem chosen (mem_append.mp right)
    exact apart (stored.once l f l' g fileF fileG e inF e' inG (by rw [eq])).1
  have total : Std.Total fun a b : Record => a.1 ≤ b.1 := ⟨fun a b => le_total a.1 b.1⟩
  have transitive : IsTrans Record fun a b => a.1 ≤ b.1 := ⟨fun a b c => le_trans⟩
  have ord := pairwise_insertionSort (fun a b : Record => a.1 ≤ b.1)
    ((c.inputs0 ++ c.inputs1).flatMap fun f => tables f.number)
  have stillDifferent := (perm_insertionSort (fun a b : Record => a.1 ≤ b.1) _).symm.pairwise different
    fun {_ _} apart => Ne.symm apart
  exact ord.imp₂ (fun a b below apart => lt_of_le_of_ne below apart) stillDifferent

end Db

/-! ## The file a read charges -/

theorem mem_filesToSearch {f : FileMetaData Bytes} {v : Version Bytes} {key : InternalKey Bytes} {l : Nat}
    (mem : f ∈ filesToSearch v key l) : f ∈ v.files l := by
  rw [filesToSearch] at mem
  split at mem
  case isTrue isZero =>
    rw [mem_insertionSort] at mem
    exact isZero ▸ mem_of_mem_filter mem
  case isFalse =>
    split at mem
    · simp at mem
    case h_2 g isFile =>
      split at mem
      · simp at mem
      · exact mem_singleton.mp mem ▸ mem_of_getElem? isFile

/-- The files a read comes to are at deeper and deeper levels, but for those of level 0. -/
theorem overlapping_pairwise (v : Version Bytes) (key : InternalKey Bytes) :
    (v.overlapping key).Pairwise fun a b => a.2 = 0 ∨ a.2 < b.2 := by
  refine pairwise_flatMap.mpr ⟨fun l _ => ?_, pairwise_lt_range.imp fun less a isA b isB => ?_⟩
  · by_cases zero : l = 0
    · exact pairwise_map.mpr (pairwise_of_forall fun _ _ => .inl zero)
    · rw [filesToSearch, if_neg zero]
      split
      · exact .nil
      · split
        · exact .nil
        · exact pairwise_singleton _ _
  · obtain ⟨_, _, rfl⟩ := mem_map.mp isA
    obtain ⟨_, _, rfl⟩ := mem_map.mp isB
    exact .inr less

theorem seekFile_some {f : FileMetaData Bytes} {v : Version Bytes} {key : InternalKey Bytes} {lv : Nat}
    (isSeek : v.seekFile key = some (f, lv)) : f ∈ v.files lv ∧ lv + 1 < kNumLevels := by
  simp only [Version.seekFile] at isSeek
  split at isSeek
  case h_2 => cases isSeek
  case h_1 first other rest overlaps =>
    cases isSeek
    have known : ∀ a ∈ v.overlapping key, a.2 < kNumLevels ∧ a.1 ∈ v.files a.2 := by
      intro a mem
      obtain ⟨l, inRange, isFile⟩ := mem_flatMap.mp mem
      obtain ⟨g, searched, rfl⟩ := mem_map.mp isFile
      exact ⟨mem_range.mp inRange, mem_filesToSearch searched⟩
    have order := overlapping_pairwise v key
    rw [overlaps] at known order
    have deeper := rel_of_pairwise_cons order mem_cons_self
    have bound := (known other (by simp)).1
    refine ⟨(known (f, lv) mem_cons_self).2, ?_⟩
    simp only [kNumLevels] at bound ⊢
    omega

end Elsm
