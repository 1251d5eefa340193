import Elsm.Db.Filed

/-!
# Replaying the MANIFEST

`LogAndApply` applies each edit to the current version with a builder of its own, `Recover`
feeds all records to one builder.  `Replays` is the invariant that makes the two agree: what
the one builder keeps are the files of the current version, and no file comes back to a level
it has left.
-/

namespace Elsm

open Merkle (Digest Record)

namespace Db

/-- What the builder of a replay knows besides the files it stands for: its numbers are used up, a
live file was never at a deeper level, and the outputs of a running compaction are new. -/
structure NumbersUsed (db : Db) (builder : Builder Bytes) : Prop where
  old : ∀ l, ∀ g ∈ (builder l).addedFiles, g.number < db.nextFileNumber
  descends : ∀ l, ∀ f ∈ db.current.files l, ∀ l' > l, ∀ g ∈ (builder l').addedFiles, g.number ≠ f.number
  outputs : ∀ cs ∈ db.compaction, ∀ out ∈ cs.allOutputs, ∀ l, ∀ g ∈ (builder l).addedFiles, g.number ≠ out.number

/-- The last record has the log numbers, and a number above those of the files. -/
structure Ends (db : Db) (record : VersionEdit Bytes) (next last : Nat) : Prop where
  logNumber : record.logNumber = some db.logNumber
  prevLogNumber : record.prevLogNumber = some db.prevLogNumber
  nextFileNumber : record.nextFileNumber = some next
  lastSequence : record.lastSequence = some last
  logBelow : db.logNumber < next
  numbers : ∀ l, ∀ f ∈ db.current.files l, f.number < next

/-- The records of the MANIFEST and the lists of files agree. -/
structure Replays (db : Db) : Prop where
  comparators : ∀ edit ∈ db.manifest, edit.comparator = none ∨ edit.comparator = some bytewiseComparatorName
  last : ∃ front record next last, db.manifest = front ++ [record] ∧ Ends db record next last
  replayed : ∀ rh, Replayed rh (replay rh db.manifest) db.current.files
  used : ∀ rh, NumbersUsed db (replay rh db.manifest)

theorem init_replays : Replays init := by
  have noFiles : ∀ rh, ∀ l, (replay rh init.manifest l).addedFiles = [] ∧
      (replay rh init.manifest l).deletedFiles = [] := by
    intro rh l
    exact ⟨rfl, rfl⟩
  refine ⟨?_, ⟨[_], _, 4, 0, rfl, rfl, rfl, rfl, rfl, by decide, ?_⟩, fun rh => ⟨?_, ?_⟩, fun rh => ⟨?_, ?_, ?_⟩⟩
  · simp [init, VersionEdit.empty, bytewiseComparatorName]
  · simp [init, Version.empty]
  · intro l
    rw [(noFiles rh l).1]
    exact List.Pairwise.nil
  · intro l f
    rw [(noFiles rh l).1]
    simp [init, Version.empty]
  · intro l
    rw [(noFiles rh l).1]
    simp
  · simp [init, Version.empty]
  · simp [init]

theorem Ends.quiet {db db' : Db} {record : VersionEdit Bytes} {next last : Nat} (ends : Ends db record next last)
    (quiet : Quiet db db') : Ends db' record next last :=
  ⟨quiet.logNumber ▸ ends.logNumber, quiet.prevLogNumber ▸ ends.prevLogNumber, ends.nextFileNumber, ends.lastSequence,
    quiet.logNumber ▸ ends.logBelow, quiet.files ▸ ends.numbers⟩

theorem Replays.quiet {db db' : Db} (replays : Replays db) (quiet : Quiet db db') : Replays db' := by
  obtain ⟨front, r, next, last, split, ends⟩ := replays.last
  refine ⟨by rw [quiet.manifest]; exact replays.comparators,
    ⟨front, r, next, last, quiet.manifest.trans split, ends.quiet quiet⟩,
    by rw [quiet.manifest, quiet.files]; exact replays.replayed, fun rh => ?_⟩
  obtain ⟨old, descends, outs⟩ := replays.used rh
  rw [← quiet.manifest] at old descends outs
  refine ⟨fun l g added => (old l g added).trans_le quiet.nextFileNumber, by rw [quiet.files]; exact descends, ?_⟩
  intro cs' isRunning out isOutput l g added
  obtain ⟨cs, wasRunning, pre, isBefore, eq⟩ | new := quiet.outputs cs' isRunning out isOutput
  · exact eq ▸ outs cs wasRunning pre isBefore l g added
  · exact new ▸ (old l g added).ne

theorem NumbersUsed.fresh {db : Db} {b : Builder Bytes} (used : NumbersUsed db b) {l : Nat}
    {f : FileMetaData Bytes} (known : NumberKnown db l f) :
    ∀ l' ≥ l, ∀ g ∈ (b l').addedFiles, g.number ≠ f.number := by
  intro l' below g added
  obtain isNext | ⟨cs, isRunning, out, isOutput, eq⟩ | ⟨l'', lt, h, isFile, eq⟩ := known
  · exact isNext ▸ (used.old l' g added).ne
  · exact eq ▸ used.outputs cs isRunning out isOutput l' g added
  · exact eq ▸ used.descends l'' h isFile l' (by omega) g added

theorem Replays.listed {db db' : Db} (replays : Replays db) (filed : Filed db) (filed' : Filed db')
    {edit : VersionEdit Bytes} (listed : Listed db db' edit) : Replays db' := by
  have mem : ∀ l f, f ∈ db'.current.files l ↔
      (f ∈ db.current.files l ∧ ¬ edit.Deletes l f.number) ∨ (l, f) ∈ edit.newFiles := fun l f => listed.mem_iff filed
  have split := listed.manifest
  generalize isRecord : { edit with
    logNumber := some db'.logNumber
    prevLogNumber := some db'.prevLogNumber
    nextFileNumber := some db'.nextFileNumber
    lastSequence := some db'.lastSequence } = record at split
  have sameNew : record.newFiles = edit.newFiles := by rw [← isRecord]
  have sameDeletes : ∀ l n, record.Deletes l n ↔ edit.Deletes l n := by
    intro l n
    rw [← isRecord]
    rfl
  have dist : DistinctNumbers record.newFiles := sameNew ▸ listed.distinct
  have known : ∀ l f, (l, f) ∈ record.newFiles → NumberKnown db l f := sameNew ▸ listed.known
  have isNew : ∀ rh l g, g ∈ (replay rh db'.manifest l).addedFiles →
      g ∈ (replay rh db.manifest l).addedFiles ∨ ∃ f, (l, f) ∈ edit.newFiles ∧ g.number = f.number := by
    intro rh l g added
    rw [split, replay_append] at added
    cases mem_of_mem_apply_added added with
    | inl old => exact .inl old
    | inr new =>
      obtain ⟨f, isFile, rfl⟩ := VersionEdit.mem_decoded.mp new
      exact .inr ⟨f, sameNew ▸ isFile, rfl⟩
  refine ⟨?_, ⟨db.manifest, record, db'.nextFileNumber, db'.lastSequence, split, ?_⟩, ?_, ?_⟩
  · rw [split]
    intro other isEdit
    cases List.mem_append.mp isEdit with
    | inl old => exact replays.comparators other old
    | inr isLast =>
      rw [List.mem_singleton.mp isLast, ← isRecord]
      exact .inl listed.comparator
  · rw [← isRecord]
    exact ⟨rfl, rfl, rfl, rfl, filed'.logs.1.trans_lt filed'.logs.2, filed'.numbers⟩
  · intro rh
    rw [split, replay_append]
    refine (replays.replayed rh).apply dist ?_ ?_
    · exact fun l f new => (replays.used rh).fresh (known l f new) l le_rfl
    intro l f
    rw [sameDeletes, sameNew]
    exact mem l f
  · intro rh
    have used := replays.used rh
    refine ⟨?_, ?_, ?_⟩
    · intro l g added
      obtain old | ⟨f, new, eq⟩ := isNew rh l g added
      · exact (used.old l g old).trans_le listed.nextFileNumber
      · rw [eq]
        exact listed.below l f new
    · intro l f isFile l' deeper g added eq
      obtain old | ⟨h, new, eqNum⟩ := isNew rh l' g added
      · cases (mem l f).mp isFile with
        | inl kept => exact used.descends l f kept.1 l' deeper g old eq
        | inr newF => exact used.fresh (listed.known l f newF) l' deeper.le g old eq
      have isH := (mem l' h).mpr (.inr new)
      have levels := (filed'.unique l' h l f isH isFile (eqNum ▸ eq)).1
      omega
    · intro cs isRunning out isOutput l g added eq
      have wasRunning := listed.compaction cs isRunning
      obtain old | ⟨h, new, eqNum⟩ := isNew rh l g added
      · exact used.outputs cs wasRunning out isOutput l g old eq
      · exact (filed'.outputs cs isRunning).fresh out isOutput l h ((mem l h).mpr (.inr new)) (eqNum ▸ eq)

theorem Replays.step {p : Params} {db db' : Db} (replays : Replays db) (filed : Filed db) {lbl : Step}
    (run : Db.step p db lbl = .ok db') : Replays db' := by
  cases filed.commits run with
  | inl quiet => exact replays.quiet quiet
  | inr commits =>
    obtain ⟨edit, listed⟩ := commits
    exact replays.listed filed (filed.step run) listed

/-- One builder, fed with all records, saves the current version. -/
theorem Replays.recover {db : Db} (replays : Replays db) (filed : Filed db) (rh : Nat → Nat → Digest)
    {front : List (VersionEdit Bytes)} {r : VersionEdit Bytes} {next last : Nat}
    (split : db.manifest = front ++ [r]) (ends : Ends db r next last) :
    ∃ pointers, Elsm.recover (db.manifest.map (VersionEdit.decoded rh)) =
      .ok ⟨db.current.relabel rh, pointers, next, next + 1, last, db.logNumber, db.prevLogNumber⟩ := by
  have replayed := replays.replayed rh
  have comparators := replays.comparators
  rw [split] at replayed comparators ⊢
  exact recover_replayed comparators ends.logNumber ends.prevLogNumber ends.nextFileNumber ends.lastSequence replayed
    filed.inOrder filed.chain filed.depth

end Db

end Elsm
