import Elsm.Version.Atomic

/-!
# Runs of `LogAndApply` and `DeleteObsoleteFiles`

`commits_are_atomic` is about every state that a process reaches from a directory that `Recover` accepts, and every
directory that its next call passes through.  `failed_rename_loses_manifest` is a run in which the host does not rename
a file: the edit is reported as committed and is not, and the next pass over the directory deletes the MANIFEST that
CURRENT still names.
-/

namespace Elsm.VersionSet

open List Function
open CrashFs
open Merkle (Digest)

variable {crc : Log.Crc} {s s' : VersionSet} {edit : VersionEdit Bytes} {outcome : HostOutcome}

/-! ## What a call starts with -/

/-- The state in which `LogAndApply` writes: the compaction pointers of the edit are set already. -/
def applying (s : VersionSet) (edit : VersionEdit Bytes) : VersionSet :=
  { s with compactPointer := applyCompactPointers edit s.compactPointer }

def host (s : VersionSet) (outcome : HostOutcome) : HostFiles := ⟨s.dir, outcome, []⟩

def succeeded (s : VersionSet) (edit : VersionEdit Bytes) (version : Version Bytes) (host : HostFiles)
    (log : Option DescriptorLog) : VersionSet :=
  { s.applying edit with
    dir := host.dir
    passed := host.passed
    current := version
    logNumber := edit.logNumber.getD s.logNumber
    prevLogNumber := edit.prevLogNumber.getD s.prevLogNumber
    descriptorLog := log }

def gaveUp (s : VersionSet) (edit : VersionEdit Bytes) (host : HostFiles) (log : Option DescriptorLog) : VersionSet :=
  { s.applying edit with dir := host.dir, passed := host.passed, bgError := true, descriptorLog := log }

variable {ok : Bool}

theorem logAndApply_cases (run : s.logAndApply crc edit outcome = .ok (ok, s')) :
    ∃ v, s.current.applyEdit (s.filled edit) = some v ∧
      ∃ host log, (s.applying edit).commit crc (s.filled edit) (s.host outcome) = (ok, host, log) ∧
        ((ok = true ∧ s' = s.succeeded edit v host log) ∨
          (ok = false ∧ s.descriptorLog = none ∧ s' = s.gaveUp edit ((s.applying edit).dropDescriptor log host) none) ∨
          (ok = false ∧ s.descriptorLog ≠ none ∧ s' = s.gaveUp edit host log)) := by
  rw [logAndApply] at run
  split at run
  · cases run
  cases applied : s.current.applyEdit (s.filled edit) with
  | none => simp [applied] at run
  | some v =>
    simp only [applied] at run
    refine ⟨v, rfl, ?_⟩
    split at run
    case h_1 host log committed =>
      cases run
      exact ⟨host, log, committed, .inl ⟨rfl, rfl⟩⟩
    case h_2 host log committed =>
      split at run
      case isTrue noLog =>
        have none := Option.isNone_iff_eq_none.mp noLog
        cases run
        exact ⟨host, log, committed, .inr (.inl ⟨rfl, none, by rw [gaveUp, ← none]; rfl⟩)⟩
      case isFalse hasLog =>
        cases run
        exact ⟨host, log, committed, .inr (.inr ⟨rfl, fun none => hasLog (by simp [none]), rfl⟩)⟩

theorem filled_storable (inv : Inv crc s) (storable : edit.Storable) : (s.filled edit).Storable :=
  { storable with
    logNumber := by
      intro n isNumber
      cases Option.mem_some_iff.mp isNumber
      cases number : edit.logNumber with
      | none => exact inv.logNumber
      | some n => exact storable.logNumber n number
    prevLogNumber := by
      intro n isNumber
      cases Option.mem_some_iff.mp isNumber
      cases number : edit.prevLogNumber with
      | none => exact inv.prevLogNumber
      | some n => exact storable.prevLogNumber n number
    nextFileNumber := by
      intro n isNumber
      exact Option.mem_some_iff.mp isNumber ▸ inv.nextFileNumber
    lastSequence := by
      intro n isNumber
      exact Option.mem_some_iff.mp isNumber ▸ inv.lastSequence }

theorem filled_numbered (edits : List (VersionEdit Bytes)) : Numbered (edits ++ [s.filled edit]) :=
  ⟨edits, _, _, _, _, _, rfl, rfl, rfl, rfl, rfl⟩

theorem applyCompactPointers_storable (storable : edit.Storable) {pointers : Nat → Option (InternalKey Bytes)}
    (pre : ∀ l, ∀ key ∈ pointers l, key.Storable) :
    ∀ l, ∀ key ∈ applyCompactPointers edit pointers l, key.Storable := by
  have es := storable.compactPointers
  rw [applyCompactPointers]
  generalize edit.compactPointers = list at es
  induction list generalizing pointers with
  | nil => exact pre
  | cons e rest ih =>
    rw [foldl_cons]
    apply ih _ (forall_mem_cons.mp es).2
    intro l key isKey
    by_cases same : l = e.1
    · subst same
      rw [update_self, Option.mem_some_iff] at isKey
      exact isKey ▸ (es e mem_cons_self).2
    · rw [update_of_ne same] at isKey
      exact pre l key isKey

/-! ## One call -/

/-- What a call of `LogAndApply` is to guarantee: whenever the process ends, one of the two versions is found, and after
an OK the new one is. -/
structure Commits (crc : Log.Crc) (s : VersionSet) (version : Version Bytes) (ok : Bool) (s' : VersionSet) : Prop where
  passed : ∀ dir ∈ s'.dir :: s'.passed, Yields crc dir fun found => found = s.current ∨ found = version
  done : ok = true → Yields crc s'.dir (· = version)

/-- The calls that are looked at.  The last three conditions are on what the code does not check. -/
structure Admissible (s : VersionSet) (edit : VersionEdit Bytes) (outcome : HostOutcome) : Prop where
  storable : edit.Storable
  isNew : edit.NewTo s.listed
  intact : ∀ log ∈ s.descriptorLog, log.intact = true
  renames : Renames outcome
  fills : FillsBlocks outcome

theorem Installed.aside {n : Nat} {bytes : Bytes} (inst : Installed s.dir n bytes)
    (older : n < s.manifestFileNumber) {dir : DbDirectory}
    (others : ∀ name ∉ [s.descriptorName, s.tempName], dir name = s.dir name) : Installed dir n bytes := by
  apply inst.frame
  · apply others
    rw [mem_cons, mem_singleton, not_or]
    exact ⟨(descriptorFileName_ne_currentFileName _).symm, (tempFileName_ne_currentFileName _).symm⟩
  apply others
  rw [mem_cons, mem_singleton, not_or]
  exact ⟨fun eq => older.ne (descriptorFileName_inj eq), (makeFileName_ne_descriptorFileName _ _ _).symm⟩

theorem dropDescriptor_follows {log : Option DescriptorLog} {start host : HostFiles}
    (follows : start.Follows [s.descriptorName, s.tempName] host) :
    start.Follows [s.descriptorName, s.tempName] (s.dropDescriptor log host) := by
  rw [dropDescriptor]
  split
  · exact .perform _ (by simp [Operation.names]) (.perform _ (by simp [Operation.names]) follows)
  · exact .perform _ (by simp [Operation.names]) follows

theorem newManifest_holds (s : VersionSet) (edit : VersionEdit Bytes) : Log.Holds crc (newManifest crc s edit)
      ([writeSnapshot s.current s.compactPointer, edit].map VersionEdit.encodeTo) := by
  rw [newManifest, snapshotManifest]
  exact (Log.Holds.new.addRecord _).addRecord _

/-- The edit is new to the snapshot that the new MANIFEST begins with. -/
theorem Admissible.newToSnapshot (admissible : Admissible s edit outcome) (noLog : s.descriptorLog = none) :
    (s.filled edit).NewTo [writeSnapshot s.current (s.applying edit).compactPointer] := by
  have new := admissible.isNew
  rw [listed, noLog] at new
  exact ⟨new.distinct, new.fresh⟩

theorem installed_rename {start host : HostFiles} {bytes : Bytes} (renames : Renames start.outcome)
    (follows : start.Follows [s.descriptorName, s.tempName] host)
    (manifest : host.dir s.descriptorName = some ⟨bytes, bytes.length⟩)
    (temp : host.dir s.tempName = some ⟨descriptorFileName s.manifestFileNumber ++ ascii ['\n'],
      (descriptorFileName s.manifestFileNumber ++ ascii ['\n']).length⟩) :
    Installed (host.perform (.rename s.tempName currentFileName)).2.dir s.manifestFileNumber bytes := by
  have renamed := @Session.perform_rename _ _ _ host s.tempName currentFileName _ temp (follows.outcome ▸ renames _ _ _)
  have apart : s.descriptorName ∉ (Operation.rename s.tempName currentFileName : Operation Bytes UInt8).names := by
    rw [Operation.names, mem_cons, mem_singleton, not_or]
    exact ⟨(makeFileName_ne_descriptorFileName _ _ _).symm, descriptorFileName_ne_currentFileName _⟩
  exact ⟨⟨_, renamed, rfl, Nat.le_refl _⟩, _, (Session.perform_other apart).trans manifest, Nat.le_refl _⟩

variable {log : DescriptorLog}

theorem InUse.yields {bytes : Bytes} (inUse : InUse crc s log bytes) (sound : s.current.Storable) :
    Yields crc s.dir (· = s.current) :=
  inUse.installed.yields (recoverManifest_whole inUse.holds inUse.lists sound inUse.numbered)

theorem InUse.same {bytes : Bytes} (inUse : InUse crc s log bytes) (dir : s'.dir = s.dir)
    (cur : s'.current = s.current) (n : s'.manifestFileNumber = s.manifestFileNumber) :
    InUse crc s' log bytes :=
  ⟨dir ▸ n ▸ inUse.installed, inUse.holds, cur ▸ inUse.lists, inUse.numbered⟩

theorem Inv.succeeded (inv : Inv crc s) (storable : edit.Storable) {v : Version Bytes} {host : HostFiles}
    {bytes : Bytes}
    (sound : v.Storable) (intact : log.intact = true)
    (inUse : InUse crc { s with dir := host.dir, current := v } log bytes) :
    Inv crc (s.succeeded edit v host (some log)) :=
  { inv with
    sound
    pointers := applyCompactPointers_storable storable inv.pointers
    logNumber := (filled_storable inv storable).logNumber _ rfl
    prevLogNumber := (filled_storable inv storable).prevLogNumber _ rfl
    new := nofun
    inUse := fun other isOther _ => by
      cases Option.mem_some_iff.mp isOther
      exact ⟨bytes, inUse.same rfl rfl rfl⟩
    failed := fun other isOther broken => by
      cases Option.mem_some_iff.mp isOther
      cases intact.symm.trans broken }

/-- Without a descriptor log nothing is found of the edit before the rename. -/
theorem commits_new (inv : Inv crc s) (admissible : Admissible s edit outcome)
    (noLog : s.descriptorLog = none) (run : s.logAndApply crc edit outcome = .ok (ok, s')) :
    ∃ v, s.current.applyEdit (s.filled edit) = some v ∧ Commits crc s v ok s' ∧ Inv crc s' := by
  obtain ⟨v, applied, host, log, committed, res⟩ := logAndApply_cases run
  obtain ⟨n, older, bytes, inst, recovers⟩ := inv.new noLog
  have storable := filled_storable inv admissible.storable
  have pointers := applyCompactPointers_storable admissible.storable inv.pointers
  have pre : ∀ dir, (∀ name ∉ [s.descriptorName, s.tempName], dir name = s.dir name) →
      Yields crc dir fun found => found = s.current ∨ found = v := fun dir others =>
    ((inst.aside older others).yields recovers).mono fun _ eq => .inl eq
  have kept : ∀ {host : HostFiles}, (s.host outcome).Follows [s.descriptorName, s.tempName] host →
      host.Kept fun dir => Yields crc dir fun found => found = s.current ∨ found = v :=
    fun follows => follows.kept nofun pre
  refine ⟨v, applied, ?_⟩
  obtain ⟨isFalse, follows⟩ | ⟨host', newLog, isCommitted, follows, rfl, manifest, temp⟩ :=
    @commit_new crc (s.applying edit) (s.filled edit) (s.host outcome) noLog admissible.fills
  · rw [committed] at isFalse follows
    obtain ⟨isTrue, -⟩ | ⟨-, -, isAfter⟩ | ⟨-, hasLog, -⟩ := res
    · exact absurd (isFalse.symm.trans isTrue) (by decide)
    · subst isAfter isFalse
      have dropped := @dropDescriptor_follows (s.applying edit) log _ _ follows
      have others : ∀ name ∉ [s.descriptorName, s.tempName], _ = s.dir name := fun name => dropped.other
      refine ⟨⟨forall_mem_cons.mpr ⟨pre _ others, kept dropped⟩, nofun⟩,
        { inv with pointers, new := ?_, inUse := nofun, failed := nofun }⟩
      exact fun _ => ⟨n, older, bytes, inst.aside older others, recovers⟩
    · exact absurd noLog hasLog
  · rw [committed] at isCommitted
    obtain ⟨rfl, rfl, rfl⟩ : ok = true ∧ host = _ ∧ log = some _ := by simpa using isCommitted
    obtain rfl : s' = _ := by simpa using res
    have isNew := admissible.newToSnapshot noLog
    have first := @lists_writeSnapshot _ inv.sound (s.applying edit).compactPointer pointers
    have sound := inv.sound.apply first storable isNew applied
    have inst' := @installed_rename (s.applying edit) (s.host outcome) host' _ admissible.renames follows manifest temp
    have inUse : InUse crc { s with dir := (host'.perform _).2.dir, current := v } ⟨_, [_, _], true⟩ _ :=
      ⟨inst', newManifest_holds _ _, first.add inv.sound storable isNew applied, filled_numbered [_]⟩
    have after := inUse.yields sound
    have either : Yields crc _ fun found => found = s.current ∨ found = v := after.mono fun _ eq => .inr eq
    exact ⟨⟨forall_mem_cons.mpr ⟨either, forall_mem_cons.mpr ⟨either, kept follows⟩⟩, fun _ => after⟩,
      inv.succeeded admissible.storable sound rfl inUse⟩

theorem InUse.torn {bytes : Bytes} (inUse : InUse crc s log bytes) (sound : s.current.Storable)
    {v : Version Bytes} (lists : Lists (log.edits ++ [edit]) v) (soundAfter : v.Storable)
    (numbered : Numbered (log.edits ++ [edit])) {dir : DbDirectory}
    (others : ∀ other ∉ [s.descriptorName], dir other = s.dir other)
    (partly : Partly s.descriptorName bytes (grownManifest crc edit bytes log).dest dir) :
    Yields crc dir fun found => found = s.current ∨ found = v := by
  obtain ⟨file, present, since, within, synced⟩ := partly
  have names : Names dir s.manifestFileNumber := by
    rw [Names, others]
    · exact inUse.installed.names
    · rw [mem_singleton]
      exact (descriptorFileName_ne_currentFileName _).symm
  apply names.yields present
  intro rh size le
  have cut : file.bytes.take size = (grownManifest crc edit bytes log).dest.take (min size file.bytes.length) := by
    rw [prefix_iff_eq_take] at within
    nth_rewrite 1 [within]
    rw [take_take]
  have long : bytes.length ≤ min size file.bytes.length := by
    have len := since.length_le
    omega
  rw [cut, grownManifest]
  exact recoverManifest_torn inUse.holds inUse.lists sound inUse.numbered lists soundAfter numbered rh long

theorem commits_installed (inv : Inv crc s) (admissible : Admissible s edit outcome)
    (isLog : s.descriptorLog = some log) (run : s.logAndApply crc edit outcome = .ok (ok, s')) :
    ∃ v, s.current.applyEdit (s.filled edit) = some v ∧ Commits crc s v ok s' ∧ Inv crc s' := by
  obtain ⟨v, applied, host, log?, committed, res⟩ := logAndApply_cases run
  obtain ⟨bytes, inUse⟩ := inv.inUse log isLog (admissible.intact log isLog)
  have storable := filled_storable inv admissible.storable
  have isNew : (s.filled edit).NewTo log.edits := by
    have isNew := admissible.isNew
    rw [listed, isLog] at isNew
    exact ⟨isNew.distinct, isNew.fresh⟩
  have sound := inv.sound.apply inUse.lists storable isNew applied
  have lists := inUse.lists.add inv.sound storable isNew applied
  have numbered := @filled_numbered s edit log.edits
  obtain ⟨flushed, present, whole⟩ := inUse.installed.manifest
  obtain ⟨ok', host', log', isCommitted, fine, edits, intact, done⟩ :=
    @commit_installed crc (s.applying edit) (s.filled edit)
    (s.host outcome) log isLog admissible.fills ⟨bytes, flushed⟩ present whole
    (fun dir => Yields crc dir fun found => found = s.current ∨ found = v) (by rintro _ ⟨⟩)
    fun dir others partly => inUse.torn inv.sound lists sound numbered others partly
  rw [committed] at isCommitted
  obtain ⟨rfl, rfl, rfl⟩ : ok = ok' ∧ host = host' ∧ log? = some log' := by simpa using isCommitted
  have ended := inUse.torn inv.sound lists sound numbered (fun other isOther => fine.follows.other isOther) fine.partly
  have found : ∀ dir ∈ host.dir :: host.passed, Yields crc dir fun found => found = s.current ∨ found = v :=
    forall_mem_cons.mpr ⟨ended, fine.kept⟩
  refine ⟨v, applied, ?_⟩
  obtain ⟨rfl, rfl⟩ | ⟨-, noLog, -⟩ | ⟨rfl, -, rfl⟩ := res
  · obtain ⟨o, manifest⟩ := done rfl
    have holds : Log.Holds crc (grownManifest crc (s.filled edit) bytes log) (log'.edits.map VersionEdit.encodeTo) := by
      rw [edits, map_append, grownManifest]
      exact inUse.holds.addRecord _
    rw [← edits] at lists numbered
    have inst : Installed host.dir s.manifestFileNumber (grownManifest crc (s.filled edit) bytes log).dest := by
      refine ⟨?_, _, manifest, Nat.le_refl _⟩
      rw [Names, fine.follows.other]
      · exact inUse.installed.names
      · rw [mem_singleton]
        exact (descriptorFileName_ne_currentFileName _).symm
    have inUse' : InUse crc { s with dir := host.dir, current := v } log' _ := ⟨inst, o ▸ holds, lists, numbered⟩
    exact ⟨⟨found, fun _ => inUse'.yields sound⟩, inv.succeeded admissible.storable sound intact inUse'⟩
  · cases isLog.symm.trans noLog
  · refine ⟨⟨found, by rintro ⟨⟩⟩, ?_⟩
    exact
      { inv with
        pointers := applyCompactPointers_storable admissible.storable inv.pointers
        new := by rintro ⟨⟩
        inUse := fun other isOther isIntact => by
          cases Option.mem_some_iff.mp isOther
          cases intact.symm.trans isIntact
        failed := fun _ _ _ => rfl }

theorem logAndApply_commits (inv : Inv crc s) (admissible : Admissible s edit outcome)
    (run : s.logAndApply crc edit outcome = .ok (ok, s')) :
    ∃ v, s.current.applyEdit (s.filled edit) = some v ∧ Commits crc s v ok s' ∧ Inv crc s' := by
  cases isLog : s.descriptorLog with
  | none => exact commits_new inv admissible isLog run
  | some log => exact commits_installed inv admissible isLog run

/-! ## A pass over the directory -/

theorem keeps_manifest {live : Finset Nat} {filename : Bytes} {n : Nat} {type : FileType}
    (parses : parseFileName filename = some (n, type)) (dropped : s.keeps live n type = false) :
    filename ≠ currentFileName ∧ filename ≠ s.descriptorName := by
  constructor
  · rintro rfl
    have isCurrent : parseFileName currentFileName = some (0, .currentFile) := by decide
    rw [isCurrent] at parses
    cases parses
    cases dropped
  · rintro rfl
    cases parseFileName_descriptorFileName_some parses
    simp [keeps] at dropped

theorem deleteObsolete_follows {live : Finset Nat} {start : HostFiles} {names : List Bytes} (filenames : List Bytes)
    {host : HostFiles} (follows : start.Follows names host)
    (covers : ∀ filename ∈ filenames, filename ≠ currentFileName → filename ≠ s.descriptorName → filename ∈ names) :
    start.Follows names (filenames.foldl (s.deleteObsolete live) host) := by
  induction filenames generalizing host with
  | nil => exact follows
  | cons filename rest ih =>
    apply ih _ (forall_mem_cons.mp covers).2
    rw [deleteObsolete]
    cases parses : parseFileName filename with
    | none => exact follows
    | some parsed =>
      obtain ⟨n, type⟩ := parsed
      simp only
      split
      · exact follows
      case isFalse dropped =>
        obtain ⟨notCurrent, notMine⟩ := keeps_manifest parses (Bool.eq_false_iff.mpr dropped)
        have isCovered := covers filename mem_cons_self notCurrent notMine
        exact .perform _ (by simpa [Operation.names] using isCovered) follows

/-- As long as no call has failed, the pass leaves alone what `Recover` reads. -/
theorem deleteObsoleteFiles_commits (inv : Inv crc s) (hasLog : s.descriptorLog ≠ none) (live : Finset Nat)
    (filenames : List Bytes) (outcome : HostOutcome) :
    (∀ dir ∈ (s.deleteObsoleteFiles live filenames outcome).passed, Yields crc dir (· = s.current)) ∧
      (s.bgError = true → (s.deleteObsoleteFiles live filenames outcome).dir = s.dir) ∧
      Inv crc (s.deleteObsoleteFiles live filenames outcome) := by
  obtain ⟨log, isLog⟩ := Option.ne_none_iff_exists'.mp hasLog
  rw [deleteObsoleteFiles]
  cases failed : s.bgError with
  | true =>
    rw [if_pos rfl]
    exact ⟨nofun, fun _ => rfl, { inv with
      inUse := fun log isLog intact => (inv.inUse log isLog intact).imp fun _ inUse => inUse.same rfl rfl rfl
      failed := fun _ _ _ => rfl }⟩
  | false =>
    have intact : log.intact = true := by
      cases isIntact : log.intact with
      | true => rfl
      | false => cases failed.symm.trans (inv.failed log isLog isIntact)
    obtain ⟨bytes, inUse⟩ := inv.inUse log isLog intact
    have recovers := recoverManifest_whole inUse.holds inUse.lists inv.sound inUse.numbered
    let names := filenames.filter fun name => name ≠ currentFileName ∧ name ≠ s.descriptorName
    have apart : currentFileName ∉ names ∧ s.descriptorName ∉ names := by simp [names]
    have frame : ∀ dir : DbDirectory, (∀ name ∉ names, dir name = s.dir name) →
        Installed dir s.manifestFileNumber bytes := fun dir others =>
      inUse.installed.frame (others _ apart.1) (others _ apart.2)
    have follows := @deleteObsolete_follows s live (s.host outcome) names filenames _ (.refl _)
      fun filename mem notCurrent
      notMine => mem_filter.mpr ⟨mem, by simp [notCurrent, notMine]⟩
    have after := frame _ fun name other => follows.other other
    simp only [Bool.false_eq_true, if_false]
    refine ⟨?_, nofun, ?_⟩
    · exact follows.kept nofun fun dir others => (frame dir others).yields recovers
    exact
      { inv with
        new := fun noLog => absurd noLog hasLog
        inUse := fun other isOther _ => by
          cases isLog.symm.trans isOther
          exact ⟨bytes, after, inUse.holds, inUse.lists, inUse.numbered⟩
        failed := fun other isOther broken => by
          cases isLog.symm.trans isOther
          cases intact.symm.trans broken }

/-! ## Runs -/

def Admits (s : VersionSet) : CommitEvent → Prop
  | .newNumbers files sequences => s.nextFileNumber + files < 2 ^ 64 ∧ s.lastSequence + sequences < 2 ^ 64
  | .logAndApply edit outcome => s.Admissible edit outcome
  | .deleteObsoleteFiles _ _ _ => True

/-- A directory as this code leaves it: `Recover` accepts it, and the next MANIFEST will not be the one CURRENT
names. -/
structure Recoverable (crc : Log.Crc) (files : Bytes → Option Bytes) (found : Recovered Bytes) : Prop where
  recovers : ∀ rh, recoverFiles crc rh files = .ok { found with version := found.version.relabel rh }
  current : ∃ number < found.manifestFileNumber,
    files currentFileName = some (descriptorFileName number ++ ascii ['\n'])
  sound : found.version.Storable
  pointers : ∀ level, ∀ key ∈ found.compactPointer level, key.Storable
  nextFileNumber : found.nextFileNumber < 2 ^ 64
  lastSequence : found.lastSequence < 2 ^ 64
  logNumber : found.logNumber < 2 ^ 64
  prevLogNumber : found.prevLogNumber < 2 ^ 64

theorem reuseManifest_off {reuse : ReuseOptions} (off : reuse.reuseLogs = false) (files : Bytes → Option Bytes) :
    reuseManifest reuse files = none := by
  simp only [reuseManifest, off, Bool.false_eq_true, false_and, if_false]
  split <;> rfl

theorem Recoverable.inv {reuse : ReuseOptions} (off : reuse.reuseLogs = false) {files : Bytes → Option Bytes}
    {found : Recovered Bytes} (recoverable : Recoverable crc files found) : Inv crc (recovered reuse files found) where
  sound := recoverable.sound
  pointers := recoverable.pointers
  nextFileNumber := recoverable.nextFileNumber
  lastSequence := recoverable.lastSequence
  logNumber := recoverable.logNumber
  prevLogNumber := recoverable.prevLogNumber
  new _ := by
    obtain ⟨num, older, isCurrent⟩ := recoverable.current
    have reads : ∀ rh, ∃ bytes, files (descriptorFileName num) = some bytes ∧
        recoverManifest crc rh bytes = .ok { found with version := found.version.relabel rh } := by
      intro rh
      have recovers := recoverable.recovers rh
      rw [recoverFiles_named isCurrent] at recovers
      cases manifest : files (descriptorFileName num) with
      | none => simp [manifest] at recovers
      | some bytes => exact ⟨bytes, rfl, by simpa [manifest] using recovers⟩
    obtain ⟨bytes, manifest, -⟩ := reads fun _ _ => Merkle.zeroDigest
    have names : Names (recovered reuse files found).dir num := by
      simp only [Names, recovered, isCurrent]
      exact ⟨_, rfl, rfl, Nat.le_refl _⟩
    refine ⟨num, by simpa [recovered, reuseManifest_off off] using older, bytes,
      ⟨names, bytes.length, ?_, Nat.le_refl _⟩, fun rh => ?_⟩
    · simp only [recovered, manifest, Option.map_some]
    obtain ⟨bytes', eq, recovers⟩ := reads rh
    cases manifest.symm.trans eq
    exact ⟨_, recovers, rfl⟩
  inUse := by simp [recovered, reuseManifest_off off]
  failed := by simp [recovered, reuseManifest_off off]

theorem Inv.step {ev : CommitEvent} (inv : Inv crc s) (adm : s.Admits ev)
    (run : s.step crc ev = .ok s') : Inv crc s' := by
  cases ev with
  | newNumbers files sequences =>
    cases run
    exact { inv with
      nextFileNumber := adm.1
      lastSequence := adm.2
      inUse := fun log isLog intact => (inv.inUse log isLog intact).imp fun _ inUse => inUse.same rfl rfl rfl }
  | logAndApply edit outcome =>
    rw [VersionSet.step] at run
    cases called : s.logAndApply crc edit outcome with
    | error stop => simp [called, Except.map] at run
    | ok answer =>
      obtain ⟨ok, after⟩ := answer
      simp only [called, Except.map, Except.ok.injEq] at run
      obtain ⟨v, -, -, inv'⟩ := logAndApply_commits inv adm called
      exact run ▸ inv'
  | deleteObsoleteFiles live names outcome =>
    rw [VersionSet.step] at run
    split at run
    · cases run
    case isFalse hasLog =>
      cases run
      have hasLog' : s.descriptorLog ≠ none := fun none => hasLog (by simp [none])
      exact (deleteObsoleteFiles_commits inv hasLog' live names outcome).2.2

/-- In every run without `reuse_logs`, a call of `LogAndApply` leaves the version before the edit or the one after it to
be recovered, wherever the process ends, and the one after it when it returns OK.  A pass over the directory does not
change what is recovered. -/
theorem commits_are_atomic {reuse : ReuseOptions} (off : reuse.reuseLogs = false) {files : Bytes → Option Bytes}
    {found : Recovered Bytes} (recoverable : Recoverable crc files found) {s : VersionSet}
    (run : Transition.Reaches (Transition.Steps (step crc)) Admits (recovered reuse files found) s) :
    (∀ edit outcome ok s', s.Admissible edit outcome → s.logAndApply crc edit outcome = .ok (ok, s') →
      ∃ version, s.current.applyEdit (s.filled edit) = some version ∧ Commits crc s version ok s') ∧
    (∀ live filenames outcome, s.descriptorLog ≠ none →
      (∀ dir ∈ (s.deleteObsoleteFiles live filenames outcome).passed, Yields crc dir (· = s.current)) ∧
        (s.bgError = true → (s.deleteObsoleteFiles live filenames outcome).dir = s.dir)) := by
  have inv : Inv crc s := run.invariant (Inv crc) (recoverable.inv off) fun inv admitted taken =>
    inv.step admitted taken
  constructor
  · intro edit outcome ok s' admissible taken
    obtain ⟨version, applied, commits, -⟩ := logAndApply_commits inv admissible taken
    exact ⟨version, applied, commits⟩
  intro live filenames outcome hasLog
  obtain ⟨passed, same, -⟩ := deleteObsoleteFiles_commits inv hasLog live filenames outcome
  exact ⟨passed, same⟩

/-! ## The first edit of a new database -/

/-- What `DBImpl::NewDB` writes to the first MANIFEST. -/
def newDbEdit : VersionEdit Bytes :=
  { VersionEdit.empty with
    comparator := some bytewiseComparatorName
    logNumber := some 0
    nextFileNumber := some 2
    lastSequence := some 0 }

def newDbFiles (crc : Log.Crc) (name : Bytes) : Option Bytes :=
  if name = currentFileName then some (descriptorFileName 1 ++ ascii ['\n'])
  else if name = descriptorFileName 1 then some (Log.addRecord Log.plainFile crc newDbEdit.encodeTo ⟨[], 0⟩).2.dest
  else none

def newDb : Recovered Bytes := ⟨.empty, fun _ => none, 2, 3, 0, 0, 0⟩

theorem newDbEdit_storable : newDbEdit.Storable where
  comparator := .inr rfl
  logNumber := by simp [newDbEdit]
  prevLogNumber := by simp [newDbEdit, VersionEdit.empty]
  nextFileNumber := by simp [newDbEdit]
  lastSequence := by simp [newDbEdit]
  compactPointers := by simp [newDbEdit, VersionEdit.empty]
  deletedFiles := by simp [newDbEdit, VersionEdit.empty]
  newFiles := by simp [newDbEdit, VersionEdit.empty]

theorem newDb_recoverManifest (crc : Log.Crc) (rh : Nat → Nat → Digest) :
    recoverManifest crc rh (Log.addRecord Log.plainFile crc newDbEdit.encodeTo ⟨[], 0⟩).2.dest =
      .ok { newDb with version := newDb.version.relabel rh } := by
  obtain ⟨fragments, framed, assembled, noReports⟩ := (@Log.Holds.new crc).addRecord newDbEdit.encodeTo |>.read
  have storable : ∀ edit ∈ [newDbEdit], edit.Storable := by simpa using newDbEdit_storable
  have isEdit : Log.assemble none fragments = [newDbEdit].map VersionEdit.encodeTo := assembled
  rw [recoverManifest_encoded framed noReports isEdit storable]
  have nothing : (Version.empty : Version Bytes).applyEdit (newDbEdit.ordered.decoded rh) =
      some { (Version.empty : Version Bytes) with fileToCompact := none } :=
    Version.applyEdit_nothing rfl rfl (fun _ _ => isChain_nil) fun _ _ => rfl
  have loop : recoverLoop [newDbEdit.ordered.decoded rh] .init =
    .ok (RecoverState.init.record (newDbEdit.ordered.decoded rh)) := rfl
  rw [Version.applyEdit] at nothing
  simp only [map_cons, map_nil, recover, loop]
  have b : (RecoverState.init.record (newDbEdit.ordered.decoded rh)).builder =
      Builder.init.apply (newDbEdit.ordered.decoded rh) := rfl
  rw [b, nothing]
  rfl

theorem newDbFiles_current (crc : Log.Crc) :
    newDbFiles crc currentFileName = some (descriptorFileName 1 ++ ascii ['\n']) :=
  if_pos rfl

theorem newDbFiles_manifest (crc : Log.Crc) : newDbFiles crc (descriptorFileName 1) =
    some (Log.addRecord Log.plainFile crc newDbEdit.encodeTo ⟨[], 0⟩).2.dest :=
  (if_neg (descriptorFileName_ne_currentFileName 1)).trans (if_pos rfl)

theorem newDb_recoverable (crc : Log.Crc) : Recoverable crc (newDbFiles crc) newDb where
  recovers rh := by
    rw [recoverFiles_named (newDbFiles_current crc), newDbFiles_manifest]
    exact newDb_recoverManifest crc rh
  current := ⟨1, by decide, if_pos rfl⟩
  sound := ⟨nofun, fun _ => List.Pairwise.nil, fun _ _ => isChain_nil, fun _ _ => rfl, nofun⟩
  pointers := nofun
  nextFileNumber := by decide
  lastSequence := by decide
  logNumber := by decide
  prevLogNumber := by decide

def defaultReuse : ReuseOptions := ⟨⟨2097152⟩, false, true⟩

def opened (crc : Log.Crc) : VersionSet := { recovered defaultReuse (newDbFiles crc) newDb with nextFileNumber := 4 }

theorem opened_host {crc : Log.Crc} {name bytes : Bytes} (present : newDbFiles crc name = some bytes) :
    ((opened crc).host outcome).dir name = some ⟨bytes, bytes.length⟩ := by
  simp only [host, opened, recovered, present, Option.map_some]

def firstFile : FileMetaData Bytes := ⟨3, 100, ⟨[97], 257⟩, ⟨[97], 257⟩, Merkle.zeroDigest⟩

def firstEdit : VersionEdit Bytes := { VersionEdit.empty with newFiles := [(2, firstFile)] }

theorem opened_reachable (crc : Log.Crc) :
    Transition.Reaches (Transition.Steps (step crc)) Admits (recovered defaultReuse (newDbFiles crc) newDb)
      (opened crc) := by
  have adm : (recovered defaultReuse (newDbFiles crc) newDb).Admits (.newNumbers 1 0) :=
    ⟨(by decide : 3 + 1 < 2 ^ 64), (by decide : 0 + 0 < 2 ^ 64)⟩
  exact Transition.Reaches.refl.tail adm rfl

theorem firstEdit_storable : firstEdit.Storable where
  comparator := .inl rfl
  logNumber := nofun
  prevLogNumber := nofun
  nextFileNumber := nofun
  lastSequence := nofun
  compactPointers := nofun
  deletedFiles := nofun
  newFiles := by
    intro e mem
    rw [mem_singleton.mp mem]
    have key : InternalKey.Storable ⟨[97], 257⟩ := ⟨by decide, by decide⟩
    exact ⟨by decide, by decide, by decide, key, key, le_rfl⟩

theorem firstEdit_applies (crc : Log.Crc) : ∃ v,
    (opened crc).current.applyEdit ((opened crc).filled firstEdit) = some v ∧ v.files 2 ≠ [] := by
  have isSome : ((Version.empty : Version Bytes).applyEdit ((opened crc).filled firstEdit)).isSome := by rfl
  obtain ⟨v, applied⟩ := Option.isSome_iff_exists.mp isSome
  have mem : firstFile ∈ v.files 2 := (mem_applyEdit_iff (fun _ _ => rfl)
    (fun _ _ new => (firstEdit_storable.newFiles _ new).1) (pairwise_singleton _ _) applied).mpr (.inr mem_cons_self)
  exact ⟨v, applied, ne_nil_of_mem mem⟩

theorem firstEdit_admissible (crc : Log.Crc) {outcome : HostOutcome} (renames : Renames outcome)
    (fills : FillsBlocks outcome) : (opened crc).Admissible firstEdit outcome where
  storable := firstEdit_storable
  isNew := ⟨pairwise_singleton _ _, fun l f _ g isListed => by
    obtain ⟨edit, isEdit, new⟩ := mem_flatMap.mp isListed
    rw [mem_singleton.mp isEdit, mem_writeSnapshot] at new
    cases new.2⟩
  intact := nofun
  renames
  fills

theorem logAndApply_of_commit {v : Version Bytes} (noNumber : edit.logNumber = none)
    (applied : s.current.applyEdit (s.filled edit) = some v)
    (commits : ((s.applying edit).commit crc (s.filled edit) (s.host outcome)).1 = true) :
    ∃ host log, (s.applying edit).commit crc (s.filled edit) (s.host outcome) = (true, host, log) ∧
      s.logAndApply crc edit outcome = .ok (true, s.succeeded edit v host log) := by
  generalize isCommitted : (s.applying edit).commit crc (s.filled edit) (s.host outcome) = answer at commits
  obtain ⟨ok, host, log⟩ := answer
  obtain rfl : ok = true := commits
  refine ⟨host, log, rfl, ?_⟩
  rw [logAndApply, noNumber, Option.any_none, if_neg Bool.false_ne_true, applied]
  dsimp only
  split
  case h_1 commits =>
    cases isCommitted.symm.trans commits
    rw [succeeded, noNumber]
    rfl
  case h_2 fails => cases isCommitted.symm.trans fails

/-- The first edit of a new database on a host that does its work: it is committed. -/
theorem commits_are_atomic_first : let crc : Log.Crc := fun _ => 0; ∃ version s',
    (opened crc).logAndApply crc firstEdit (fun _ _ => .done) = .ok (true, s') ∧ version.files 2 ≠ [] ∧
      Yields crc s'.dir (· = version) := by
  intro crc
  obtain ⟨version, applied, hasFile⟩ := firstEdit_applies crc
  have works : Works fun _ _ => .done := fun _ _ _ => rfl
  obtain ⟨host, log, -, called⟩ :=
    logAndApply_of_commit rfl applied (works.commit (rfl : ((opened crc).host _).outcome = _))
  have admissible := @firstEdit_admissible crc (fun _ _ => .done) (fun _ _ _ => rfl) fun _ _ _ _ => rfl
  obtain ⟨version', applied', commits⟩ := (commits_are_atomic (rfl : defaultReuse.reuseLogs = false)
    (newDb_recoverable crc) (opened_reachable crc)).1
    firstEdit (fun _ _ => .done) true _ admissible called
  cases applied.symm.trans applied'
  exact ⟨version, _, called, hasFile, commits.done rfl⟩

/-! ## A rename that fails -/

def noRenames : HostOutcome := fun _ op =>
  match op with
  | .rename _ _ => .failed 0
  | _ => .done

def listing : List Bytes := [currentFileName, descriptorFileName 1, descriptorFileName 2, tempFileName 2]

theorem deleteObsoleteFiles_listing (noError : s.bgError = false) (n : s.manifestFileNumber = 2) :
    (s.deleteObsoleteFiles ∅ listing noRenames).dir =
      update (update s.dir (descriptorFileName 1) none) (tempFileName 2) none := by
  have parsedCurrent : parseFileName currentFileName = some (0, .currentFile) := by decide
  have parsedOld : parseFileName (descriptorFileName 1) = some (1, .descriptorFile) := by decide
  have parsedNew : parseFileName (descriptorFileName 2) = some (2, .descriptorFile) := by decide
  have parsedTemp : parseFileName (tempFileName 2) = some (2, .tempFile) := by decide
  simp only [deleteObsoleteFiles, noError, Bool.false_eq_true, if_false, listing, foldl_cons, foldl_nil,
    deleteObsolete, parsedCurrent, parsedOld, parsedNew, parsedTemp, keeps, n]
  rfl

/-- The host does not rename the temporary file.  The call returns OK, yet the version before the edit is found.  The
next pass deletes the MANIFEST that CURRENT names, and nothing is found any more. -/
theorem failed_rename_loses_manifest : let crc : Log.Crc := fun _ => 0
    let rh : Nat → Nat → Digest := fun _ _ => ⟨replicate 16 0, rfl⟩
    Recoverable crc (newDbFiles crc) newDb ∧ ∃ version s',
    (opened crc).current.applyEdit ((opened crc).filled firstEdit) = some version ∧ version.files 2 ≠ [] ∧
      (opened crc).logAndApply crc firstEdit noRenames = .ok (true, s') ∧
      (∀ image, Image s'.dir image →
        ∃ found, recoverFiles crc rh image = .ok found ∧ found.version = (opened crc).current.relabel rh) ∧
      ∀ image, Image (s'.deleteObsoleteFiles ∅ listing noRenames).dir image →
        recoverFiles crc rh image = .error (.ioError (toText (descriptorFileName 1))) := by
  intro crc rh
  clear_value crc rh
  obtain ⟨version, applied, hasFile⟩ := firstEdit_applies crc
  have works : Works noRenames := by
    intro _ op other
    cases op with
    | rename source target => exact absurd rfl (other source target)
    | create | append | flush | close | delete => rfl
  have fills : FillsBlocks noRenames := fun _ _ _ _ => rfl
  obtain ⟨host, log, isCommitted, called⟩ :=
    logAndApply_of_commit rfl applied (works.commit (rfl : ((opened crc).host noRenames).outcome = _))
  obtain ⟨fails, -⟩ | ⟨host', log', renamed, follows, -⟩ :=
    @commit_new crc ((opened crc).applying firstEdit) ((opened crc).filled firstEdit)
      ((opened crc).host noRenames) rfl fills
  · rw [isCommitted] at fails
    cases fails
  rw [isCommitted] at renamed
  have isHost : host = (host'.perform (.rename _ currentFileName)).2 := congrArg (·.2.1) renamed
  have sameDir : host.dir = host'.dir := by
    rw [isHost]
    simp only [Session.perform, follows.outcome]
    rfl
  have current := @opened_host noRenames crc _ _ (newDbFiles_current crc)
  have manifest := @opened_host noRenames crc _ _ (newDbFiles_manifest crc)
  rw [← follows.other (by exact (by decide : currentFileName ∉ [descriptorFileName 2, tempFileName 2])),
    ← sameDir] at current
  rw [← follows.other (by exact (by decide : descriptorFileName 1 ∉ [descriptorFileName 2, tempFileName 2])),
    ← sameDir] at manifest
  refine ⟨newDb_recoverable crc, version, _, applied, hasFile, called, ?_, ?_⟩
  · intro image isImage
    have seen := isImage.whole current le_rfl
    have found := isImage.whole manifest le_rfl
    refine ⟨{ newDb with version := newDb.version.relabel rh }, ?_, rfl⟩
    rw [recoverFiles_named seen, found]
    exact newDb_recoverManifest crc rh
  · intro image isImage
    rw [deleteObsoleteFiles_listing rfl rfl] at isImage
    have currentStays : update (update host.dir (descriptorFileName 1) none) (tempFileName 2) none
        currentFileName = host.dir currentFileName := by
      rw [update_of_ne (by decide), update_of_ne (by decide)]
    have seen := isImage.whole (currentStays.trans current) le_rfl
    have isDeleted : update (update host.dir (descriptorFileName 1) none) (tempFileName 2) none
        (descriptorFileName 1) = none := by
      rw [update_of_ne (by decide), update_self]
    have gone := isImage.missing isDeleted
    rw [recoverFiles_named seen, gone]

end Elsm.VersionSet
