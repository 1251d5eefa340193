import Mathlib.Data.Set.Finite.Lemmas
import Elsm.Version.CompactionWork

/-!
# What a compaction leaves readable (`db/db_impl.cpp`)

`DBImpl::DoCompactionWork` as a whole: the loop over a stream of entries and the last
`FinishCompactionOutputFile`.  Where the loop cuts its outputs does not matter for what is in
them: concatenated they are `keptEntries`, the run of the drop rules alone.  The rules thin a
stream out (`Thinned`) so that every reader at or above the smallest snapshot still finds what
it found before.
-/

namespace Elsm

open List

variable {K : Type*} [LinearOrder K]

/-! ## The whole loop -/

namespace CompactionState

def start (c : Compaction K) (smallestSnapshot : Nat) (input : List (Entry K)) : CompactionState K :=
  ⟨c, smallestSnapshot, [], none, input, none, kMaxSequenceNumber⟩

def compactAll (options : Options) (size : TableSize K) : Nat → CompactionState K → List (Entry K) → CompactionState K
  | _, cs, [] => cs
  | nextFileNumber, cs, entry :: rest =>
    let next := cs.compactEntry options size nextFileNumber entry
    compactAll options size next.2 { next.1 with input := rest } rest

/-- The entries that the drop rules keep, when no output is ever cut. -/
def keptEntries : CompactionState K → List (Entry K) → List (Entry K)
  | _, [] => []
  | cs, entry :: rest =>
    let dropped := cs.dropEntry entry.1
    if dropped.1 then keptEntries dropped.2 rest else entry :: keptEntries dropped.2 rest

/-- The state in which the drop rules leave the loop after some entries. -/
def dropAll (cs : CompactionState K) (read : List (Entry K)) : CompactionState K :=
  read.foldl (fun cs entry => (cs.dropEntry entry.1).2) cs

end CompactionState

/-- The outputs of `DoCompactionWork` when nothing fails and the database is not shut down. -/
def doCompactionWork (options : Options) (size : TableSize K) (nextFileNumber : Nat) (c : Compaction K)
    (smallestSnapshot : Nat) (input : List (Entry K)) : List (Output K) :=
  let cs := CompactionState.start c smallestSnapshot input
  ((cs.compactAll options size nextFileNumber input).finishCompactionOutputFile size).outputs

variable {cs : CompactionState K}

namespace CompactionState

variable {ds : CompactionState K}

theorem compactAll_kept (opts : Options) (size : TableSize K) (n : Nat)
    (eq : cs.SameDrops ds) (input : List (Entry K)) :
    (cs.compactAll opts size n input).written = cs.written ++ ds.keptEntries input ∧
      ((∀ out ∈ cs.allOutputs, out.HasBounds) →
        ∀ out ∈ (cs.compactAll opts size n input).allOutputs, out.HasBounds) := by
  induction input generalizing n cs ds with
  | nil => exact ⟨(append_nil _).symm, fun bounds => bounds⟩
  | cons e rest ih =>
    obtain ⟨sameNext, wr, bounds⟩ := compactEntry_kept opts size n eq e
    simp only [compactAll]
    generalize cs.compactEntry opts size n e = next at sameNext wr bounds
    have sameNext' : { next.1 with input := rest }.SameDrops (ds.dropEntry e.1).2 :=
      ⟨sameNext.snapshot, sameNext.cursor, sameNext.lastSequence, sameNext.level, sameNext.inputVersion, sameNext.ptrs⟩
    obtain ⟨restWritten, restBounds⟩ := ih next.2 sameNext'
    refine ⟨?_, fun ofCs => restBounds (bounds ofCs)⟩
    have sameWritten : { next.1 with input := rest }.written = next.1.written := rfl
    rw [restWritten, sameWritten, wr, keptEntries]
    split <;> simp

omit [LinearOrder K] in
theorem finish_contents (size : TableSize K) (cs : CompactionState K) :
    (cs.finishCompactionOutputFile size).outputs = (cs.finishCompactionOutputFile size).allOutputs ∧
      (cs.finishCompactionOutputFile size).outputs.flatMap (·.contents) = cs.written := by
  constructor
  · simp [allOutputs, finish_builder]
  · rw [← finish_written size cs, written, finish_builder, flatMap_def]
    simp

end CompactionState

theorem doCompactionWork_contents (opts : Options) (size : TableSize K) (n : Nat) (c : Compaction K)
    (smallestSnapshot : Nat) (input : List (Entry K)) :
    (doCompactionWork opts size n c smallestSnapshot input).flatMap (·.contents) =
        (CompactionState.start c smallestSnapshot input).keptEntries input ∧
      ∀ out ∈ doCompactionWork opts size n c smallestSnapshot input, out.HasBounds := by
  obtain ⟨wr, bounds⟩ := CompactionState.compactAll_kept opts size n
    (.refl (CompactionState.start c smallestSnapshot input)) input
  have none : ∀ out ∈ (CompactionState.start c smallestSnapshot input).allOutputs, out.HasBounds := by
    simp [CompactionState.start, CompactionState.allOutputs]
  simp only [doCompactionWork]
  generalize (CompactionState.start c smallestSnapshot input).compactAll opts size n input = final at wr bounds
  obtain ⟨allFinished, contents⟩ := final.finish_contents size
  refine ⟨?_, ?_⟩
  · rw [contents, wr]
    rfl
  · rw [allFinished]
    exact CompactionState.finish_bounds size (bounds none)

/-! ## Thinning out a stream -/

/-- The newest entry for a user key that a reader at `s` sees. -/
structure NewestAt (entries : Set (Entry K)) (s : Nat) (userKey : K) (e : Entry K) : Prop where
  mem : e ∈ entries
  user : e.1.userKey = userKey
  seen : e.1.sequence ≤ s
  newest : ∀ f ∈ entries, f.1.userKey = userKey → f.1.sequence ≤ s → e.1 ≤ f.1

/-- A reader at `s` finds the value; a deletion is read as absent. -/
def Reads (entries : Set (Entry K)) (s : Nat) (userKey : K) (value : Bytes) : Prop :=
  ∃ e, NewestAt entries s userKey e ∧ e.1.typeCode = ValueType.value.code ∧ e.2 = value

theorem exists_newestAt {es : List (Entry K)} {s : Nat} {userKey : K} {f : Entry K} (inList : f ∈ es)
    (user : f.1.userKey = userKey) (seen : f.1.sequence ≤ s) :
    ∃ e, NewestAt { e | e ∈ es } s userKey e := by
  have finite : { e | e ∈ es ∧ e.1.userKey = userKey ∧ e.1.sequence ≤ s }.Finite :=
    (finite_toSet es).subset fun e holds => holds.1
  obtain ⟨e, ⟨mem, isUser, isSeen⟩, least⟩ := Set.exists_min_image _ (fun e : Entry K => e.1) finite
    ⟨f, inList, user, seen⟩
  exact ⟨e, mem, isUser, isSeen, fun g inG userG seenG => least g ⟨inG, userG, seenG⟩⟩

/-- What the drop rules may do to a stream over deeper entries: an entry goes when a newer one
hides it from every snapshot, or when it is a deletion with nothing below to delete; a kept
entry is hidden by no newer one. -/
structure Thinned (smallestSnapshot : Nat) (deeper : Set (Entry K)) (input kept : List (Entry K)) : Prop where
  subset : ∀ e ∈ kept, e ∈ input
  dropped : ∀ e ∈ input, e ∈ kept ∨
    (∃ newer ∈ input, newer.1.userKey = e.1.userKey ∧ newer.1 < e.1 ∧ newer.1.sequence ≤ smallestSnapshot) ∨
    (e.1.typeCode = ValueType.deletion.code ∧ e.1.sequence ≤ smallestSnapshot ∧ ∀ d ∈ deeper, d.1.userKey ≠ e.1.userKey)
  hidden : ∀ e ∈ kept, ∀ newer ∈ input, newer.1.userKey = e.1.userKey → newer.1 < e.1 →
    smallestSnapshot < newer.1.sequence

variable {e : Entry K}

namespace Thinned

variable {smallestSnapshot s : Nat} {deeper : Set (Entry K)} {input kept : List (Entry K)} {userKey : K}
  (thinned : Thinned smallestSnapshot deeper input kept) (recent : smallestSnapshot ≤ s)

include thinned recent

/-- What is newest and a value before is still there, for it could only go as a deletion. -/
theorem newestAt_kept (newest : NewestAt ({ e | e ∈ input } ∪ deeper) s userKey e)
    (isValue : e.1.typeCode = ValueType.value.code) : NewestAt ({ e | e ∈ kept } ∪ deeper) s userKey e := by
  refine ⟨?_, newest.user, newest.seen, fun f inF => newest.newest f (inF.imp_left (thinned.subset f))⟩
  refine newest.mem.imp_left fun inInput => ?_
  obtain isKept | ⟨newer, inList, sameUser, lt, isOld⟩ | ⟨isDeletion, -⟩ := thinned.dropped e inInput
  · exact isKept
  · have notNewer := newest.newest newer (.inl inList) (sameUser.trans newest.user) (isOld.trans recent)
    exact absurd lt notNewer.not_gt
  · rw [isValue] at isDeletion
    cases isDeletion

/-- What is newest among the kept entries and the deeper ones was so before. -/
theorem newestAt_input (newest : NewestAt ({ e | e ∈ kept } ∪ deeper) s userKey e) :
    NewestAt ({ e | e ∈ input } ∪ deeper) s userKey e := by
  refine ⟨newest.mem.imp_left (thinned.subset e), newest.user, newest.seen, fun f inF userF seenF => ?_⟩
  cases inF with
  | inr inDeeper => exact newest.newest f (.inr inDeeper) userF seenF
  | inl inInput =>
    obtain ⟨first, isFirst⟩ := exists_newestAt inInput userF seenF
    refine le_trans ?_ (isFirst.newest f inInput userF seenF)
    obtain isKept | ⟨newer, inList, sameUser, lt, isOld⟩ | ⟨-, isOld, nothing⟩ := thinned.dropped first isFirst.mem
    · exact newest.newest first (.inl isKept) isFirst.user isFirst.seen
    · have notNewer := isFirst.newest newer inList (sameUser.trans isFirst.user) (isOld.trans recent)
      exact absurd lt notNewer.not_gt
    have sameUser : first.1.userKey = e.1.userKey := isFirst.user.trans newest.user.symm
    cases newest.mem with
    | inr inDeeper => exact absurd sameUser.symm (nothing e inDeeper)
    | inl isKept =>
      by_contra behind
      exact absurd isOld (thinned.hidden e isKept first isFirst.mem sameUser (not_le.mp behind)).not_ge

theorem reads_iff (val : Bytes) :
    Reads ({ e | e ∈ kept } ∪ deeper) s userKey val ↔ Reads ({ e | e ∈ input } ∪ deeper) s userKey val := by
  constructor
  · rintro ⟨e, newest, isValue, eq⟩
    exact ⟨e, thinned.newestAt_input recent newest, isValue, eq⟩
  · rintro ⟨e, newest, isValue, eq⟩
    exact ⟨e, thinned.newestAt_kept recent newest isValue, isValue, eq⟩

end Thinned

/-! ## The drop rules thin the stream out -/

namespace CompactionState

theorem dropAll_concat (cs : CompactionState K) (read : List (Entry K)) (e : Entry K) :
    cs.dropAll (read ++ [e]) = ((cs.dropAll read).dropEntry e.1).2 := by
  simp [dropAll]

variable {input : List (Entry K)}

/-- An entry is kept exactly when the rules answer so in the state its predecessors leave. -/
theorem mem_keptEntries : e ∈ cs.keptEntries input ↔
      ∃ read rest, input = read ++ e :: rest ∧ ((cs.dropAll read).dropEntry e.1).1 = false := by
  induction input generalizing cs with
  | nil => simp [keptEntries]
  | cons ent tail ih =>
    have later : e ∈ (cs.dropEntry ent.1).2.keptEntries tail ↔ ∃ read rest, ent :: tail = ent :: read ++ e :: rest ∧
          ((cs.dropAll (ent :: read)).dropEntry e.1).1 = false := by
      rw [ih]
      simp [dropAll]
    have here : e ∈ cs.keptEntries (ent :: tail) ↔
        (e = ent ∧ (cs.dropEntry ent.1).1 = false) ∨ e ∈ (cs.dropEntry ent.1).2.keptEntries tail := by
      rw [keptEntries]
      cases answer : (cs.dropEntry ent.1).1 <;> simp
    rw [here, later]
    constructor
    · rintro (⟨rfl, isKept⟩ | ⟨read, rest, split, isKept⟩)
      · exact ⟨[], tail, rfl, isKept⟩
      · exact ⟨ent :: read, rest, split, isKept⟩
    rintro ⟨read, rest, split, isKept⟩
    cases read with
    | nil =>
      cases split
      exact .inl ⟨rfl, isKept⟩
    | cons first read =>
      cases split
      exact .inr ⟨read, rest, rfl, isKept⟩

theorem keptEntries_sublist (cs : CompactionState K) (input : List (Entry K)) :
    (cs.keptEntries input).Sublist input := by
  induction input generalizing cs with
  | nil => exact List.Sublist.refl _
  | cons e rest ih =>
    rw [keptEntries]
    split
    · exact (ih _).cons _
    · exact (ih _).cons_cons _

theorem dropAll_snapshot (cs : CompactionState K) (read : List (Entry K)) :
    (cs.dropAll read).smallestSnapshot = cs.smallestSnapshot := by
  induction read using List.reverseRecOn with
  | nil => rfl
  | append_singleton read e ih =>
    rw [dropAll_concat, ← ih]
    simp only [dropEntry]
    split <;> rfl

theorem dropAll_lastRead (c : Compaction K) (smallestSnapshot : Nat) (input : List (Entry K))
    {read : List (Entry K)} (wellFormed : ∀ e ∈ read, (parseInternalKey e.1).isSome) :
    ((start c smallestSnapshot input).dropAll read).LastRead read := by
  cases read using List.reverseRecOn with
  | nil => exact ⟨rfl, rfl⟩
  | append_singleton read ent =>
    obtain ⟨ikey, parsed⟩ := Option.isSome_iff_exists.mp (wellFormed ent (by simp))
    have isKey := parseInternalKey_eq_some parsed
    rw [dropAll_concat]
    simp only [dropEntry, parsed]
    constructor <;> simp [isKey]

/-- `IsBaseLevelForKey` says yes, wherever the loop may ask it, only for user keys that no
deeper entry has. -/
def BaseOnly (cs : CompactionState K) (input : List (Entry K)) (deeper : Set (Entry K)) : Prop :=
  ∀ read entry rest, input = read ++ entry :: rest →
    ((cs.dropAll read).compaction.isBaseLevelForKey entry.1.userKey).1 = true →
    ∀ d ∈ deeper, d.1.userKey ≠ entry.1.userKey

theorem keptEntries_thinned (c : Compaction K) (smallestSnapshot : Nat)
    {deeper : Set (Entry K)} (sorted : input.Pairwise fun a b => a.1 < b.1)
    (wellFormed : ∀ e ∈ input, (parseInternalKey e.1).isSome)
    (base : (start c smallestSnapshot input).BaseOnly input deeper) (reserved : smallestSnapshot < kMaxSequenceNumber) :
    Thinned smallestSnapshot deeper input ((start c smallestSnapshot input).keptEntries input) := by
  have rules : ∀ read e rest, input = read ++ e :: rest → ∃ ikey, parseInternalKey e.1 = some ikey ∧
      ((start c smallestSnapshot input).dropAll read).LastRead read ∧
      ((start c smallestSnapshot input).dropAll read).smallestSnapshot = smallestSnapshot := by
    intro read e rest split
    obtain ⟨ikey, parsed⟩ := Option.isSome_iff_exists.mp (wellFormed e (by simp [split]))
    exact ⟨ikey, parsed, dropAll_lastRead c smallestSnapshot input fun f inRead => wellFormed f
      (by simp [split, inRead]),
      dropAll_snapshot _ read⟩
  refine ⟨fun e isKept => (keptEntries_sublist _ _).subset isKept, ?_, ?_⟩
  · intro e inInput
    obtain ⟨read, rest, split⟩ := append_of_mem inInput
    obtain ⟨ikey, parsed, lastRead, snap⟩ := rules read e rest split
    cases answer : (((start c smallestSnapshot input).dropAll read).dropEntry e.1).1 with
    | false => exact .inl (mem_keptEntries.mpr ⟨read, rest, split, answer⟩)
    | true =>
      have isKey := parseInternalKey_eq_some parsed
      have reason := (dropEntry_rules _ parsed (snap.symm ▸ reserved)).1 answer
      rw [snap] at reason
      obtain ⟨isCurrent, isOld⟩ | ⟨isDeletion, isOld, isBase⟩ := reason
      · obtain ⟨newer, inRead, facts⟩ := lastRead.hidden (split ▸ sorted) (by simpa [isKey] using isCurrent)
          (snap.symm ▸ isOld)
        rw [snap] at facts
        exact .inr (.inl ⟨newer, by simp [split, inRead], facts⟩)
      · have isUser : ikey.userKey = e.1.userKey := by simp [isKey]
        refine .inr (.inr ⟨by simp [isKey, isDeletion], by simpa [isKey] using isOld, ?_⟩)
        exact base read e rest split (isUser ▸ isBase)
  · intro e isKept newer inInput sameUser lt
    obtain ⟨read, rest, split, answer⟩ := mem_keptEntries.mp isKept
    obtain ⟨ikey, parsed, lastRead, snap⟩ := rules read e rest split
    have isKey := parseInternalKey_eq_some parsed
    have isUser : ikey.userKey = e.1.userKey := by simp [isKey]
    have notOld := (dropEntry_rules _ parsed (snap.symm ▸ reserved)).2 answer
    rw [isUser] at notOld
    have inRead : newer ∈ read := by
      rw [split] at inInput sorted
      have after := (pairwise_append.mp sorted).2.1
      cases mem_append.mp inInput with
      | inl inRead => exact inRead
      | inr inR =>
        cases mem_cons.mp inR with
        | inl same => exact absurd (same ▸ lt) (lt_irrefl _)
        | inr inR => exact absurd lt (rel_of_pairwise_cons after inR).asymm
    have vis := lastRead.visible (split ▸ sorted) notOld newer inRead sameUser
    rwa [snap] at vis

/-! ## When the answers of `IsBaseLevelForKey` are right -/

theorem dropAll_same (cs : CompactionState K) (read : List (Entry K)) :
    cs.compaction.SameInputs (cs.dropAll read).compaction := by
  induction read using List.reverseRecOn with
  | nil => exact .refl _
  | append_singleton read e ih =>
    rw [dropAll_concat]
    exact ih.trans (dropEntry_same _ _)

/-- Asked in key order, the cursors only pass files that end before the next key. -/
theorem dropAll_ptrs (fresh : cs.compaction.levelPtrs = fun _ => 0)
    (versionSorted : cs.compaction.inputVersion.Sorted) {read : List (Entry K)}
    (sorted : read.Pairwise fun a b => a.1 < b.1) {userKey : K} (later : ∀ e ∈ read, e.1.userKey ≤ userKey) :
    PtrsBefore cs.compaction.inputVersion.files (cs.dropAll read).compaction.levelPtrs userKey := by
  induction read using List.reverseRecOn generalizing userKey with
  | nil =>
    intro lvl i f passed
    simp [dropAll, fresh] at passed
  | append_singleton read ent ih =>
    obtain ⟨ord, -, apart⟩ := pairwise_append.mp sorted
    have pre : ∀ e ∈ read, e.1.userKey ≤ ent.1.userKey := fun e inRead =>
      InternalKey.userKey_le_of_le (apart e inRead ent (by simp)).le
    rw [dropAll_concat]
    obtain ⟨ptrs, _, _, moved, rfl | ⟨ikey, parsed, rfl⟩⟩ := (cs.dropAll read).dropEntry_moves ent.1
    · rw [moved]
      exact ih ord fun e inRead => later e (by simp [inRead])
    have isUser : ikey.userKey = ent.1.userKey := by simp [parseInternalKey_eq_some parsed]
    have eq := cs.dropAll_same read
    have advanced := ((cs.dropAll read).compaction.isBaseLevelForKey_spec (eq.inputVersion ▸ versionSorted.disjoint)
      (eq.inputVersion ▸ versionSorted.ordered)
      (eq.inputVersion ▸ ih ord pre)).1
    rw [moved, isUser]
    rw [eq.inputVersion] at advanced
    exact advanced.mono (later ent (by simp))

theorem baseOnly_of_sorted {c : Compaction K} (fresh : c.levelPtrs = fun _ => 0)
    (versionSorted : c.inputVersion.Sorted) (smallestSnapshot : Nat)
    (sorted : input.Pairwise fun a b => a.1 < b.1) {deeper : Set (Entry K)}
    (below : ∀ d ∈ deeper, ∃ i, c.level + 2 ≤ i ∧ i < kNumLevels ∧ ∃ f ∈ c.inputVersion.files i,
      f.smallest.userKey ≤ d.1.userKey ∧ d.1.userKey ≤ f.largest.userKey) :
    (start c smallestSnapshot input).BaseOnly input deeper := by
  intro read ent rest split isBase d inDeeper sameUser
  rw [split] at sorted
  obtain ⟨ord, -, apart⟩ := pairwise_append.mp sorted
  have pre : ∀ e ∈ read, e.1.userKey ≤ ent.1.userKey := fun e inRead =>
    InternalKey.userKey_le_of_le (apart e inRead ent (by simp)).le
  have eq := (start c smallestSnapshot input).dropAll_same read
  have ptrs : PtrsBefore c.inputVersion.files ((start c smallestSnapshot input).dropAll read).compaction.levelPtrs
      ent.1.userKey := dropAll_ptrs fresh versionSorted ord pre
  have clear := (((start c smallestSnapshot input).dropAll read).compaction.isBaseLevelForKey_spec
    (eq.inputVersion ▸ versionSorted.disjoint) (eq.inputVersion ▸ versionSorted.ordered)
    (eq.inputVersion ▸ ptrs)).2.mp isBase
  obtain ⟨i, deep, bound, f, inFiles, inRange⟩ := below d inDeeper
  rw [eq.inputVersion, eq.level] at clear
  exact clear i deep bound f inFiles (sameUser ▸ inRange)

end CompactionState

/-! ## What is written and what is read -/

/-- Compacting a sorted stream loses nothing that a reader at or above the smallest snapshot
could find: what is written is a part of the stream, cut into outputs with the right bounds,
and reads over it and the deeper entries are the same.  The maximal sequence number is taken
to be no snapshot. -/
theorem doCompactionWork_preserves_reads (options : Options) (size : TableSize K) (nextFileNumber : Nat)
    (c : Compaction K) (smallestSnapshot : Nat) (input : List (Entry K)) (deeper : Set (Entry K))
    (sorted : input.Pairwise fun a b => a.1 < b.1) (wellFormed : ∀ e ∈ input, (parseInternalKey e.1).isSome)
    (base : (CompactionState.start c smallestSnapshot input).BaseOnly input deeper)
    (reserved : smallestSnapshot < kMaxSequenceNumber) :
    let outputs := doCompactionWork options size nextFileNumber c smallestSnapshot input
    let written := outputs.flatMap (·.contents)
    written.Sublist input ∧ (∀ userKey s value, smallestSnapshot ≤ s →
        (Reads ({ e | e ∈ written } ∪ deeper) s userKey value ↔ Reads ({ e | e ∈ input } ∪ deeper) s userKey value)) ∧
      (∀ out ∈ outputs, out.HasBounds) ∧
      written = (CompactionState.start c smallestSnapshot input).keptEntries input := by
  obtain ⟨contents, bounds⟩ := doCompactionWork_contents options size nextFileNumber c smallestSnapshot input
  have thinned := CompactionState.keptEntries_thinned c smallestSnapshot sorted wellFormed base reserved
  simp only [contents]
  exact ⟨CompactionState.keptEntries_sublist _ _, fun userKey s value recent => thinned.reads_iff recent value,
    bounds, trivial⟩

def flatSize : TableSize Nat := ⟨fun entries => 60 * entries.length, fun entries => 60 * entries.length⟩

def deepInput : List (Entry Nat) :=
  [(.make 1 7 .value, [1]), (.make 1 5 .deletion, []), (.make 2 4 .deletion, []), (.make 3 6 .value, [])]

/-- The value of the first key is newer than the snapshot, the deletion behind it obsolete, and
the deletion of the second key still deletes something. -/
theorem doCompactionWork_preserves_reads_deletion : ∃ c, compactRange ⟨2097152⟩ deepVersion 0 none none = some c ∧
    let deeper : Set (Entry Nat) := {(.make 2 1 .value, [9])}
    let written := (doCompactionWork ⟨2097152⟩ flatSize 7 c 6 deepInput).flatMap (·.contents)
    written = [(.make 1 7 .value, [1]), (.make 2 4 .deletion, []), (.make 3 6 .value, [])] ∧ ∀ userKey s value, 6 ≤ s →
        (Reads ({ e | e ∈ written } ∪ deeper) s userKey value ↔
          Reads ({ e | e ∈ deepInput } ∪ deeper) s userKey value) := by
  have below : ∀ d ∈ ({(.make 2 1 .value, [9])} : Set (Entry Nat)), ∃ i, deepCompaction.level + 2 ≤ i ∧
      i < kNumLevels ∧ ∃ f ∈ deepCompaction.inputVersion.files i,
        f.smallest.userKey ≤ d.1.userKey ∧ d.1.userKey ≤ f.largest.userKey := by
    rintro d rfl
    exact ⟨2, by decide, by decide, _, mem_singleton.mpr rfl, by decide⟩
  exact ⟨deepCompaction, rfl, by decide, (doCompactionWork_preserves_reads ⟨2097152⟩ flatSize 7 deepCompaction 6 _ _
    (by decide) (by decide) (CompactionState.baseOnly_of_sorted rfl deepVersion_sorted 6 (by decide) below)
    (by decide)).2.1⟩

/-- With the maximal sequence number for snapshot every first entry of a key counts as
hidden, and the values of the stream are lost. -/
theorem doCompactionWork_at_maximal_snapshot : ∃ c, compactRange ⟨2097152⟩ deepVersion 0 none none = some c ∧
    (CompactionState.start c kMaxSequenceNumber deepInput).BaseOnly deepInput ∅ ∧
      Reads ({ e | e ∈ deepInput } ∪ ∅) kMaxSequenceNumber 1 [1] ∧
      ¬ Reads ({ e | e ∈ (doCompactionWork ⟨2097152⟩ flatSize 7 c kMaxSequenceNumber deepInput).flatMap
        (·.contents) } ∪ ∅) kMaxSequenceNumber 1 [1] := by
  refine ⟨deepCompaction, rfl, fun _ _ _ _ _ d inDeeper => inDeeper.elim, ?_, ?_⟩
  · refine ⟨_, ⟨.inl mem_cons_self, rfl, by decide, ?_⟩, rfl, rfl⟩
    have newest : ∀ e ∈ deepInput, e.1.userKey = 1 → .make 1 7 .value ≤ e.1 := by decide
    rintro f (inInput | inDeeper) sameKey _
    · exact newest f inInput sameKey
    · exact inDeeper.elim
  · have nothing : (doCompactionWork ⟨2097152⟩ flatSize 7 deepCompaction kMaxSequenceNumber deepInput).flatMap
        (·.contents) = [] := by decide
    rintro ⟨e, newest, -⟩
    rw [nothing] at newest
    exact newest.mem.elim not_mem_nil id

end Elsm
