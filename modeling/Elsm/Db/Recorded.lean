import Elsm.Db.Replays

/-!
# The MANIFEST describes the current version

`Inv.commits` says which steps append a record to the MANIFEST and what the record holds.
`Recorded` is the invariant: replaying the records in one builder gives the files of the
current version, and the last record bounds the file and sequence numbers in use.
-/

namespace Elsm

open Merkle (Digest Record)

variable {db : Db}

theorem Underway.takes {c : Compaction Bytes} (underway : Underway db c) : c.Takes db.current.files :=
  ⟨underway.levelBound, fun f isInput => underway.live _ f (underway.chosen.sublist0.subset isInput),
    fun f isInput => underway.live _ f (underway.chosen.sublist1.subset isInput), underway.edit⟩

namespace Db

variable {db' : Db}

theorem Inv.filed (inv : Inv db) : Filed db where
  inOrder := inv.stored.inOrder
  chain l positive := (inv.stored.disjoint l positive).isChain
  depth := inv.stored.depth
  unique := inv.stored.unique
  numbers := inv.numbers
  logs := inv.logs
  seek := inv.seek
  inputs cs isRunning := (inv.running cs isRunning).toUnderway.takes
  outputs cs isRunning := by
    have running := inv.running cs isRunning
    exact ⟨running.numbers, fun out isOutput => (running.fresh out isOutput).1,
      fun out isOutput => (running.fresh out isOutput).2⟩

variable {p : Params}

/-! ## The invariant -/

/-- The last record bounds what the version and its tables use. -/
structure LastRecord (db : Db) (record : VersionEdit Bytes)
    (next last : Nat) : Prop extends Ends db record next last where
  next_le : next ≤ db.nextFileNumber
  last_le : last ≤ db.lastSequence
  entries : ∀ l, ∀ f ∈ db.current.files l, ∀ e ∈ db.tables f.number, e.1.sequence ≤ last

structure Recorded (db : Db) : Prop extends Replays db where
  lastRecord : ∃ front record next last, db.manifest = front ++ [record] ∧ LastRecord db record next last

theorem init_recorded : Recorded init := by
  refine ⟨init_replays, [_], _, 4, 0, rfl, ⟨rfl, rfl, rfl, rfl, by decide, ?_⟩, le_rfl, le_rfl, ?_⟩
  · simp [init, Version.empty]
  · simp [init, Version.empty]

theorem Recorded.quiet (recorded : Recorded db) (quiet : Quiet db db') : Recorded db' := by
  obtain ⟨front, r, next, last, split, ofLast⟩ := recorded.lastRecord
  refine ⟨recorded.toReplays.quiet quiet, front, r, next, last, quiet.manifest.trans split, ofLast.quiet quiet,
    ofLast.next_le.trans quiet.nextFileNumber, ofLast.last_le.trans quiet.lastSequence, ?_⟩
  rw [quiet.files, quiet.tables]
  exact ofLast.entries

theorem Recorded.step (inv : Inv db) (recorded : Recorded db) {lbl : Step}
    (room : db.HasRoom lbl) (run : Db.step p db lbl = .ok db') : Recorded db' := by
  have inv' := inv.step room run
  cases inv.filed.commits run with
  | inl quiet => exact recorded.quiet quiet
  | inr commits =>
    obtain ⟨edit, listed⟩ := commits
    refine ⟨recorded.toReplays.listed inv.filed inv'.filed listed, db.manifest, _, db'.nextFileNumber, db'.lastSequence,
      listed.manifest, ⟨rfl, rfl, rfl, rfl, inv'.logs.1.trans_lt inv'.logs.2, inv'.numbers⟩, le_rfl, le_rfl,
      inv'.tablesOld⟩

end Db

end Elsm
