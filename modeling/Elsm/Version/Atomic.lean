import Elsm.Version.Listing

/-!
# Commits are all or nothing, unless a rename fails

After every operation of `LogAndApply` and `DeleteObsoleteFiles`, `Recover` finds the version before the edit or
the version after it.  A new MANIFEST is not looked at before CURRENT names it, so that part is a frame argument.
A MANIFEST in use only grows, and `recoverManifest_torn` says what is found in it meanwhile.

The argument needs a host that does what it is asked in two places where the code does not look at the
status: a rename, and the zeros that fill up a block.  Nor may a descriptor log be used on which a call
has failed.
-/

namespace Elsm

open List
open CrashFs
open Merkle (Digest)

/-- The host takes the zeros that fill up a block. -/
def FillsBlocks (outcome : HostOutcome) : Prop :=
  ∀ n name count, count < Log.kHeaderSize → outcome n (.append name (replicate count 0)) = .done

def Renames (outcome : HostOutcome) : Prop := ∀ n source target, outcome n (.rename source target) = .done

/-! ## Writing to the MANIFEST -/

/-- The file holds a beginning of `target`, and `base` for certain. -/
def Partly (name base target : Bytes) (dir : DbDirectory) : Prop :=
  ∃ file, dir name = some file ∧ base <+: file.bytes ∧ file.bytes <+: target ∧ base.length ≤ file.flushed

/-- All has gone well, and the file holds the bytes. -/
structure Holding (P : DbDirectory → Prop) (start : HostFiles) (name base target bytes : Bytes) (host : HostFiles) :
    Prop where
  follows : start.Follows [name] host
  kept : host.Kept P
  file : ∃ flushed, host.dir name = some ⟨bytes, flushed⟩ ∧ base.length ≤ flushed
  since : base <+: bytes
  within : bytes <+: target

/-- Something may have failed. -/
structure Fine (P : DbDirectory → Prop) (start : HostFiles) (name base target : Bytes) (host : HostFiles) : Prop where
  follows : start.Follows [name] host
  kept : host.Kept P
  partly : Partly name base target host.dir

section Descriptor

variable {P : DbDirectory → Prop} {start host : HostFiles} {name base target bytes : Bytes}

theorem Holding.fine (holding : Holding P start name base target bytes host) : Fine P start name base target host := by
  obtain ⟨flushed, present, le⟩ := holding.file
  exact ⟨holding.follows, holding.kept, ⟨_, present, holding.since, holding.within, le⟩⟩

theorem Fine.perform (fine : Fine P start name base target host) (op : Operation Bytes UInt8)
    (about : op.names = [name])
    (covers : ∀ dir, (∀ other ∉ [name], dir other = start.dir other) → Partly name base target dir → P dir)
    (partly : Partly name base target (host.perform op).2.dir) : Fine P start name base target (host.perform op).2 := by
  have follows : start.Follows [name] (host.perform op).2 := .perform op (by simp [about]) fine.follows
  exact ⟨follows, fine.kept.perform (covers _ (fun other isOther => follows.other isOther) partly), partly⟩

section

variable (holding : Holding P start name base target bytes host)
  (covers : ∀ dir, (∀ other ∉ [name], dir other = start.dir other) → Partly name base target dir → P dir)

include holding covers

theorem Holding.append {data : Bytes} (within : bytes ++ data <+: target) :
    Fine P start name base target (host.perform (.append name data)).2 ∧ ((host.perform (.append name data)).1 = true →
        Holding P start name base target (bytes ++ data) (host.perform (.append name data)).2) := by
  obtain ⟨flushed, present, le⟩ := holding.file
  obtain ⟨size, after, whole⟩ := Session.perform_append present data
  have since : base <+: bytes ++ data.take size := holding.since.trans (prefix_append _ _)
  have ins : bytes ++ data.take size <+: target :=
    ((prefix_append_right_inj bytes).mpr ( take_prefix size data)).trans within
  have fine := holding.fine.perform (.append name data) rfl covers ⟨_, after, since, ins, le⟩
  refine ⟨fine, fun succeeds => ⟨fine.follows, fine.kept, ⟨flushed, ?_, le⟩, ?_, within⟩⟩
  · rw [after, whole succeeds]
  · exact holding.since.trans (prefix_append _ _)

theorem Holding.flush :
    Fine P start name base target (host.perform (.flush name)).2 ∧
      ((host.perform (.flush name)).1 = true → Holding P start name base target bytes (host.perform (.flush name)).2 ∧
        (host.perform (.flush name)).2.dir name = some ⟨bytes, bytes.length⟩) := by
  obtain ⟨flushed, present, le⟩ := holding.file
  obtain ⟨succeeds, after⟩ | ⟨fails, after⟩ := Session.perform_flush present (.inl rfl)
  · have fine := holding.fine.perform (.flush name) rfl covers
      ⟨_, after, holding.since, holding.within, holding.since.length_le⟩
    exact ⟨fine, fun _ => ⟨⟨fine.follows, fine.kept, ⟨_, after, holding.since.length_le⟩, holding.since,
      holding.within⟩, after⟩⟩
  · have fine := holding.fine.perform (.flush name) rfl covers ⟨_, after, holding.since, holding.within, le⟩
    exact ⟨fine, fun succeeds => by rw [fails] at succeeds; cases succeeds⟩

end

theorem descriptorFile_fallible (fills : FillsBlocks start.outcome)
    (covers : ∀ dir, (∀ other ∉ [name], dir other = start.dir other) → Partly name base target dir → P dir) :
    Log.Fallible (descriptorFile name) target (Holding P start name base target) (Fine P start name base target) where
  fine holding := holding.fine
  append holding within := holding.append covers within
  fill := by
    intro bytes host count holding _ few within
    refine (holding.append covers within).2 ?_
    have takes : host.outcome host.passed.length (.append name (replicate count 0)) = .done := by
      rw [holding.follows.outcome]
      exact fills _ _ _ few
    simp only [Session.perform, takes, Operation.run]
  flush holding := ⟨(holding.flush covers).1, fun succeeds => ((holding.flush covers).2 succeeds).1⟩

theorem writeRecord_spec {crc : Log.Crc} {s : VersionSet} {edit : VersionEdit Bytes} {log : DescriptorLog}
    (fills : FillsBlocks start.outcome) (covers : ∀ dir, (∀ other ∉ [s.descriptorName], dir other = start.dir other) →
      Partly s.descriptorName base target dir → P dir)
    (holding : Holding P start s.descriptorName base target bytes host)
    (isTarget : (Log.addRecord Log.plainFile crc edit.encodeTo ⟨bytes, log.blockOffset⟩).2.dest = target) :
    Fine P start s.descriptorName base target (s.writeRecord crc edit log host).2.1 ∧
      ((s.writeRecord crc edit log host).1 = true →
        (s.writeRecord crc edit log host).2.1.dir s.descriptorName = some ⟨target, target.length⟩ ∧
        (s.writeRecord crc edit log host).2.2.blockOffset =
          (Log.addRecord Log.plainFile crc edit.encodeTo ⟨bytes, log.blockOffset⟩).2.blockOffset) := by
  have r := @Log.addRecord_fallible crc _ _ _ _ _ (descriptorFile_fallible fills covers) edit.encodeTo
    ⟨host, log.blockOffset⟩ ⟨bytes, log.blockOffset⟩ ⟨holding, rfl⟩ (isTarget ▸ prefix_rfl)
  simp only [VersionSet.writeRecord]
  cases succeeds : (Log.addRecord (descriptorFile s.descriptorName) crc edit.encodeTo ⟨host, log.blockOffset⟩).1 with
  | false => exact ⟨r.1, by simp⟩
  | true =>
    have beside := r.2 succeeds
    have synced := beside.holding.flush covers
    rw [isTarget] at synced
    simp only [if_true]
    exact ⟨synced.1, fun succeeds => ⟨(synced.2 succeeds).2, beside.offset⟩⟩

end Descriptor

/-! ## A new MANIFEST -/

theorem writeStringToFileSync_spec (data fname : Bytes) (host : HostFiles) :
    host.Follows [fname] (writeStringToFileSync data fname host).2 ∧ ((writeStringToFileSync data fname host).1 = true →
        (writeStringToFileSync data fname host).2.dir fname = some ⟨data, data.length⟩) := by
  have follow : ∀ {host' : HostFiles} (op : Operation Bytes UInt8), op.names = [fname] → host.Follows [fname] host' →
      host.Follows [fname] (host'.perform op).2 := fun op about pre => .perform op (by simp [about]) pre
  have opened := follow (.create fname) rfl (.refl host)
  simp only [writeStringToFileSync]
  cases opens : (host.perform (.create fname)).1 with
  | false =>
    simp only [Bool.false_eq_true, if_false, opens]
    exact ⟨opened, by rintro ⟨⟩⟩
  | true =>
    have isEmpty := Session.perform_create opens
    simp only [if_true]
    generalize (host.perform (.create fname)).2 = empty at opened isEmpty
    obtain ⟨size, after, whole⟩ := Session.perform_append isEmpty data
    have appended := follow (.append fname data) rfl opened
    cases appends : (empty.perform (.append fname data)).1 with
    | false =>
      simp only [Bool.false_eq_true, if_false, appends, Bool.false_and]
      exact ⟨follow (.delete fname) rfl (follow (.close fname) rfl appended), nofun⟩
    | true =>
      rw [whole appends, nil_append] at after
      simp only [if_true]
      generalize (empty.perform (.append fname data)).2 = written at appended after
      have flushed := follow (.flush fname) rfl appended
      have closed := follow (.close fname) rfl flushed
      have held : ∃ file, (written.perform (.flush fname)).2.dir fname = some file ∧ file.bytes = data := by
        obtain ⟨-, eq⟩ | ⟨-, eq⟩ := Session.perform_flush after (.inl rfl)
        · exact ⟨_, eq, rfl⟩
        · exact ⟨_, eq, rfl⟩
      obtain ⟨file, present, rfl⟩ := held
      obtain ⟨closes, ends⟩ | ⟨fails, -⟩ := Session.perform_flush present (.inr rfl)
      · cases flushes : (written.perform (.flush fname)).1 with
        | true => simpa [closes, flushes] using ⟨closed, ends⟩
        | false => simpa [flushes] using follow (.delete fname) rfl closed
      · simpa [fails] using follow (.delete fname) rfl closed

theorem setCurrentFile_spec (num : Nat) (host : HostFiles) :
    ((setCurrentFile num host).1 = false ∧ host.Follows [tempFileName num] (setCurrentFile num host).2) ∨
      ∃ host', setCurrentFile num host = (true, (host'.perform (.rename (tempFileName num) currentFileName)).2) ∧
        host.Follows [tempFileName num] host' ∧ host'.dir (tempFileName num) =
          some ⟨descriptorFileName num ++ ascii ['\n'], (descriptorFileName num ++ ascii ['\n']).length⟩ := by
  obtain ⟨follows, contents⟩ := writeStringToFileSync_spec (descriptorFileName num ++ ascii ['\n'])
    (tempFileName num) host
  simp only [setCurrentFile]
  generalize writeStringToFileSync (descriptorFileName num ++ ascii ['\n']) (tempFileName num) host = status
    at follows contents
  obtain ⟨ok, host'⟩ := status
  cases ok with
  | false => exact .inl ⟨rfl, .perform _ (by simp [Operation.names]) follows⟩
  | true => exact .inr ⟨host', rfl, follows, contents rfl⟩

namespace VersionSet

def tempName (s : VersionSet) : Bytes := tempFileName s.manifestFileNumber

variable {crc : Log.Crc} {s : VersionSet} {edit : VersionEdit Bytes} {host : HostFiles}

@[irreducible] def snapshotManifest (crc : Log.Crc) (s : VersionSet) : Log.Writer Bytes :=
  (Log.addRecord Log.plainFile crc (writeSnapshot s.current s.compactPointer).encodeTo ⟨[], 0⟩).2

/-- What the process has written when it makes CURRENT name its MANIFEST. -/
@[irreducible] def newManifest (crc : Log.Crc) (s : VersionSet) (edit : VersionEdit Bytes) : Log.Writer Bytes :=
  (Log.addRecord Log.plainFile crc edit.encodeTo (snapshotManifest crc s)).2

theorem newManifest_extends : (snapshotManifest crc s).dest <+: (newManifest crc s edit).dest := by
  rw [newManifest]
  exact Log.addRecord_extends _ _

theorem openDescriptor_new (noLog : s.descriptorLog = none) (fills : FillsBlocks host.outcome) :
    host.Follows [s.descriptorName] (s.openDescriptor crc host).2.1 ∧
      ((s.openDescriptor crc host).1 = true → ∃ log flushed, (s.openDescriptor crc host).2.2 = some log ∧
        log.edits = [writeSnapshot s.current s.compactPointer] ∧
        log.blockOffset = (snapshotManifest crc s).blockOffset ∧
        (s.openDescriptor crc host).2.1.dir s.descriptorName = some ⟨(snapshotManifest crc s).dest, flushed⟩) := by
  have opened : host.Follows [s.descriptorName] (host.perform (.create s.descriptorName)).2 :=
    .perform _ (by simp [Operation.names]) (.refl host)
  simp only [openDescriptor, noLog]
  cases opens : (host.perform (.create s.descriptorName)).1 with
  | false =>
    simp only [Bool.false_eq_true, if_false]
    exact ⟨opened, by rintro ⟨⟩⟩
  | true =>
    have isEmpty := Session.perform_create opens
    simp only [if_true]
    generalize (host.perform (.create s.descriptorName)).2 = empty at opened isEmpty
    have start : Holding (fun _ => True) empty s.descriptorName [] (snapshotManifest crc s).dest [] empty :=
      ⟨.refl _, fun _ _ => trivial, ⟨0, isEmpty, Nat.zero_le _⟩, nil_prefix, nil_prefix⟩
    have fallible := @descriptorFile_fallible (fun _ => True) empty s.descriptorName [] (snapshotManifest crc s).dest
      (opened.outcome ▸ fills) fun _ _ _ => trivial
    have r := @Log.addRecord_fallible crc _ _ _ _ _ fallible (writeSnapshot s.current s.compactPointer).encodeTo
      ⟨empty, 0⟩ ⟨[], 0⟩ ⟨start, rfl⟩ (by rw [snapshotManifest])
    have isPlain : (Log.addRecord Log.plainFile crc (writeSnapshot s.current s.compactPointer).encodeTo ⟨[], 0⟩).2 =
        snapshotManifest crc s := by rw [snapshotManifest]
    rw [isPlain] at r
    refine ⟨opened.trans r.1.follows, fun succeeds => ?_⟩
    obtain ⟨holding, o⟩ := r.2 succeeds
    obtain ⟨flushed, present, -⟩ := holding.file
    exact ⟨_, flushed, rfl, rfl, o, present⟩

/-- Only the rename at the end touches more than the two new files. -/
theorem commit_new (noLog : s.descriptorLog = none) (fills : FillsBlocks host.outcome) :
    ((s.commit crc edit host).1 = false ∧ host.Follows [s.descriptorName, s.tempName] (s.commit crc edit host).2.1) ∨
      ∃ host' log, s.commit crc edit host = (true, (host'.perform (.rename s.tempName currentFileName)).2, some log) ∧
        host.Follows [s.descriptorName, s.tempName] host' ∧
        log = ⟨(newManifest crc s edit).blockOffset, [writeSnapshot s.current s.compactPointer, edit], true⟩ ∧
        host'.dir s.descriptorName = some ⟨(newManifest crc s edit).dest, (newManifest crc s edit).dest.length⟩ ∧
        host'.dir s.tempName = some ⟨descriptorFileName s.manifestFileNumber ++ ascii ['\n'],
          (descriptorFileName s.manifestFileNumber ++ ascii ['\n']).length⟩ := by
  have onMine : ∀ name ∈ [s.descriptorName], name ∈ [s.descriptorName, s.tempName] := by simp
  have onTemp : ∀ name ∈ [s.tempName], name ∈ [s.descriptorName, s.tempName] := by simp
  obtain ⟨opened, snap⟩ := @openDescriptor_new crc s host noLog fills
  generalize isOpen : s.openDescriptor crc host = answer at opened snap
  obtain ⟨opens, host₁, log?⟩ := answer
  cases opens with
  | false =>
    simp only [commit, isOpen]
    exact .inl ⟨trivial, opened.mono onMine⟩
  | true =>
    obtain ⟨log, flushed, isLog, edits, o, present⟩ := snap rfl
    obtain rfl : log? = some log := isLog
    have start : Holding (fun _ => True) host₁ s.descriptorName [] (newManifest crc s edit).dest
        (snapshotManifest crc s).dest host₁ :=
      ⟨.refl _, fun _ _ => trivial, ⟨flushed, present, Nat.zero_le _⟩, nil_prefix, newManifest_extends⟩
    have plain : (⟨(snapshotManifest crc s).dest, log.blockOffset⟩ : Log.Writer Bytes) = snapshotManifest crc s := by
      rw [o]
    have r := @writeRecord_spec (fun _ => True) host₁ host₁ [] (newManifest crc s edit).dest
      (snapshotManifest crc s).dest crc s edit log (opened.outcome ▸ fills) (fun _ _ _ => trivial) start
      (by rw [plain, newManifest])
    have new : (Log.addRecord Log.plainFile crc edit.encodeTo (snapshotManifest crc s)).2 = newManifest crc s edit := by
      rw [newManifest]
    rw [plain, new] at r
    obtain ⟨wr, synced⟩ := r
    have isEdits : (s.writeRecord crc edit log host₁).2.2.edits = log.edits ++ [edit] := rfl
    have isIntact : (s.writeRecord crc edit log host₁).2.2.intact = (s.writeRecord crc edit log host₁).1 := rfl
    generalize isWritten : s.writeRecord crc edit log host₁ = answer at wr synced isEdits isIntact
    obtain ⟨writes, host₂, log₂⟩ := answer
    have follows₂ := (opened.trans wr.follows).mono onMine
    cases writes with
    | false =>
      simp only [commit, isOpen, isWritten]
      exact .inl ⟨trivial, follows₂⟩
    | true =>
      obtain ⟨file, isOffset⟩ := synced rfl
      simp only [commit, isOpen, isWritten, noLog, Option.isNone_none, if_true]
      obtain ⟨fails, temp⟩ | ⟨host₃, sets, temp, contents⟩ := setCurrentFile_spec s.manifestFileNumber host₂
      · exact .inl ⟨fails, follows₂.trans (temp.mono onTemp)⟩
      rw [sets]
      refine .inr ⟨host₃, log₂, rfl, follows₂.trans (temp.mono onTemp), ?_, ?_, contents⟩
      · obtain ⟨o₂, edits₂, intact₂⟩ := log₂
        simp only [DescriptorLog.mk.injEq]
        refine ⟨isOffset, ?_, isIntact⟩
        exact isEdits.trans (by rw [edits]; rfl)
      · have apart : s.descriptorName ∉ [tempFileName s.manifestFileNumber] := by
          rw [mem_singleton]
          exact (makeFileName_ne_descriptorFileName _ _ _).symm
        rw [temp.other apart]
        exact file

/-! ## The MANIFEST in use -/

@[irreducible] def grownManifest (crc : Log.Crc) (edit : VersionEdit Bytes) (bytes : Bytes) (log : DescriptorLog) :
    Log.Writer Bytes :=
  (Log.addRecord Log.plainFile crc edit.encodeTo ⟨bytes, log.blockOffset⟩).2

theorem commit_installed {log : DescriptorLog} (isLog : s.descriptorLog = some log) (fills : FillsBlocks host.outcome)
    {file : File UInt8} (present : host.dir s.descriptorName = some file) (synced : file.bytes.length ≤ file.flushed)
    {P : DbDirectory → Prop} (kept : host.Kept P)
    (covers : ∀ dir, (∀ other ∉ [s.descriptorName], dir other = host.dir other) →
      Partly s.descriptorName file.bytes (grownManifest crc edit file.bytes log).dest dir → P dir) :
    ∃ ok host' log', s.commit crc edit host = (ok, host', some log') ∧
      Fine P host s.descriptorName file.bytes (grownManifest crc edit file.bytes log).dest host' ∧
      log'.edits = log.edits ++ [edit] ∧ log'.intact = ok ∧
      (ok = true → log'.blockOffset = (grownManifest crc edit file.bytes log).blockOffset ∧
        host'.dir s.descriptorName = some ⟨(grownManifest crc edit file.bytes log).dest,
          (grownManifest crc edit file.bytes log).dest.length⟩) := by
  have grows : file.bytes <+: (grownManifest crc edit file.bytes log).dest := by
    rw [grownManifest]
    exact Log.addRecord_extends edit.encodeTo ⟨file.bytes, log.blockOffset⟩
  have start : Holding P host s.descriptorName file.bytes
      (grownManifest crc edit file.bytes log).dest file.bytes host :=
    ⟨.refl _, kept, ⟨file.flushed, present, synced⟩, prefix_rfl, grows⟩
  have r := @writeRecord_spec P host host file.bytes (grownManifest crc edit file.bytes log).dest file.bytes crc s
    edit log fills covers start (by rw [grownManifest])
  have isGrown : (Log.addRecord Log.plainFile crc edit.encodeTo ⟨file.bytes, log.blockOffset⟩).2 =
      grownManifest crc edit file.bytes log := by rw [grownManifest]
  rw [isGrown] at r
  have isEdits : (s.writeRecord crc edit log host).2.2.edits = log.edits ++ [edit] := rfl
  have isIntact : (s.writeRecord crc edit log host).2.2.intact = (s.writeRecord crc edit log host).1 := rfl
  have opens : s.openDescriptor crc host = (true, host, some log) := by simp only [openDescriptor, isLog]
  generalize isWritten : s.writeRecord crc edit log host = answer at r isEdits isIntact
  obtain ⟨writes, host', log'⟩ := answer
  refine ⟨writes, host', log', ?_, r.1, isEdits, isIntact, fun ok => (r.2 ok).symm⟩
  cases writes with
  | false => simp only [commit, opens, isWritten]
  | true => simp only [commit, opens, isWritten, isLog, Option.isNone_some, Bool.false_eq_true, if_false]

/-! ## On a host that does not fail -/

def Works (outcome : HostOutcome) : Prop := ∀ n op, (∀ source target, op ≠ .rename source target) → outcome n op = .done

section

variable {outcome : HostOutcome} (works : Works outcome)

include works

theorem Works.perform {host : HostFiles} (isOutcome : host.outcome = outcome)
    {op : Operation Bytes UInt8} (other : ∀ source target, op ≠ .rename source target) :
    (host.perform op).1 = true ∧ (host.perform op).2.outcome = outcome := by
  refine ⟨?_, isOutcome⟩
  simp only [Session.perform, isOutcome, works _ _ other]
  cases op with
  | rename source target => exact absurd rfl (other source target)
  | create | append | flush | close | delete => rfl

theorem Works.addRecord (name r : Bytes) {w : Log.Writer HostFiles} (isOutcome : w.dest.outcome = outcome) :
    (Log.addRecord (descriptorFile name) crc r w).1 = true ∧
      (Log.addRecord (descriptorFile name) crc r w).2.dest.outcome = outcome := by
  have append : ∀ data host, host.outcome = outcome → ((descriptorFile name).append data host).1 = true ∧
      ((descriptorFile name).append data host).2.outcome = outcome :=
    fun data host good => @Works.perform outcome works host good (.append name data) nofun
  have flush : ∀ host, host.outcome = outcome → ((descriptorFile name).flush host).1 = true ∧
      ((descriptorFile name).flush host).2.outcome = outcome :=
    fun host good => @Works.perform outcome works host good (.flush name) nofun
  exact @Log.addRecord_succeeds crc _ (descriptorFile name)
    (fun host => host.outcome = outcome) append flush r w isOutcome

theorem Works.setCurrentFile (num : Nat) (isOutcome : host.outcome = outcome) : (setCurrentFile num host).1 = true := by
  have perform : ∀ {host : HostFiles} (op : Operation Bytes UInt8), host.outcome = outcome →
      (∀ source target, op ≠ .rename source target) →
        (host.perform op).1 = true ∧ (host.perform op).2.outcome = outcome :=
    fun op isOutcome other => works.perform isOutcome other
  have opened := perform (.create (tempFileName num)) isOutcome nofun
  have wr := perform (.append (tempFileName num) (descriptorFileName num ++ ascii ['\n'])) opened.2 nofun
  have flushed := perform (.flush (tempFileName num)) wr.2 nofun
  have closed := perform (.close (tempFileName num)) flushed.2 nofun
  simp only [Elsm.setCurrentFile, writeStringToFileSync, opened.1, wr.1, flushed.1, closed.1, if_true, Bool.and_self]

theorem Works.commit (isOutcome : host.outcome = outcome) : (s.commit crc edit host).1 = true := by
  have opens : ∃ host' log, s.openDescriptor crc host = (true, host', some log) ∧ host'.outcome = outcome := by
    rw [openDescriptor]
    cases s.descriptorLog with
    | some log => exact ⟨host, log, rfl, isOutcome⟩
    | none =>
      have opened := @Works.perform outcome works host isOutcome (.create s.descriptorName) nofun
      simp only [opened.1, if_true]
      have r := @Works.addRecord crc outcome works s.descriptorName
        (writeSnapshot s.current s.compactPointer).encodeTo ⟨_, 0⟩ opened.2
      exact ⟨_, _, by rw [r.1], r.2⟩
  obtain ⟨host₁, log, isOpen, isOutcome₁⟩ := opens
  have r := @Works.addRecord crc outcome works s.descriptorName edit.encodeTo ⟨host₁, log.blockOffset⟩ isOutcome₁
  have synced := @Works.perform outcome works _ r.2 (.flush s.descriptorName) nofun
  simp only [VersionSet.commit, isOpen, writeRecord, r.1, if_true, synced.1]
  split
  · exact works.setCurrentFile _ synced.2
  · rfl

end

/-! ## The state between calls -/

/-- What the process listed in the MANIFEST it writes, or will list there first. -/
def listed (s : VersionSet) : List (VersionEdit Bytes) :=
  match s.descriptorLog with
  | some log => log.edits
  | none => [writeSnapshot s.current s.compactPointer]

structure Installed (dir : DbDirectory) (number : Nat) (bytes : Bytes) : Prop where
  names : Names dir number
  manifest : ∃ flushed, dir (descriptorFileName number) = some ⟨bytes, flushed⟩ ∧ bytes.length ≤ flushed

theorem Installed.frame {dir dir' : DbDirectory} {n : Nat} {bytes : Bytes} (inst : Installed dir n bytes)
    (cur : dir' currentFileName = dir currentFileName)
    (manifest : dir' (descriptorFileName n) = dir (descriptorFileName n)) : Installed dir' n bytes := by
  obtain ⟨⟨file, isCurrent, contents⟩, flushed, isManifest, le⟩ := inst
  exact ⟨⟨file, cur.trans isCurrent, contents⟩, flushed, manifest.trans isManifest, le⟩

theorem Installed.yields {dir : DbDirectory} {n : Nat} {bytes : Bytes} (inst : Installed dir n bytes)
    {v : Version Bytes}
    (recovers : ∀ rh, ∃ found, recoverManifest crc rh bytes = .ok found ∧ found.version = v.relabel rh) :
    Yields crc dir (· = v) := by
  obtain ⟨names, flushed, present, le⟩ := inst
  apply names.yields present
  intro rh size fits
  obtain ⟨found, isFound, eq⟩ := recovers rh
  rw [take_of_length_le (le.trans fits)]
  exact ⟨found, v, isFound, eq, rfl⟩

/-- The descriptor log has taken every edit so far. -/
structure InUse (crc : Log.Crc) (s : VersionSet) (log : DescriptorLog) (bytes : Bytes) : Prop where
  installed : Installed s.dir s.manifestFileNumber bytes
  holds : Log.Holds crc ⟨bytes, log.blockOffset⟩ (log.edits.map VersionEdit.encodeTo)
  lists : Lists log.edits s.current
  numbered : Numbered log.edits

structure Inv (crc : Log.Crc) (s : VersionSet) : Prop where
  sound : s.current.Storable
  pointers : ∀ level, ∀ key ∈ s.compactPointer level, key.Storable
  nextFileNumber : s.nextFileNumber < 2 ^ 64
  lastSequence : s.lastSequence < 2 ^ 64
  logNumber : s.logNumber < 2 ^ 64
  prevLogNumber : s.prevLogNumber < 2 ^ 64
  new : s.descriptorLog = none → ∃ number < s.manifestFileNumber, ∃ bytes, Installed s.dir number bytes ∧
    ∀ rh, ∃ found, recoverManifest crc rh bytes = .ok found ∧ found.version = s.current.relabel rh
  inUse : ∀ log ∈ s.descriptorLog, log.intact = true → ∃ bytes, InUse crc s log bytes
  failed : ∀ log ∈ s.descriptorLog, log.intact = false → s.bgError = true

end VersionSet

end Elsm
