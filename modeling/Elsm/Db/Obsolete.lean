import Elsm.Db.FileStore

/-!
# Needed files are not deleted

Every event keeps `FileStore.Inv`: what somebody may still read is in the directory.  The pass over the
directory keeps it because the versions in use are linked, outputs are pending until their version is
linked, and the numbers of the MANIFEST and the logs only move on when nothing before them is needed.
-/

namespace Elsm

open List
open RefCount (Table Counts)

namespace FileStore

/-! ## What has to be there -/

def Has (s : FileStore) (version : Version Bytes) : Prop :=
  ∀ n ∈ version.liveFiles, tableFileName n ∈ s.dir ∧ n < s.nextFileNumber

end FileStore

/-- The version that `BuildTable` is called with is held meanwhile. -/
def FileStore.FlushStage.base : FlushStage → Option Nat
  | .building base _ => some base
  | .logging _ _ => none

def FileStore.FlushStage.built : FlushStage → Option (Version Bytes)
  | .building _ _ => none
  | .logging built _ => some built

namespace FileStore.Work

def input : Work → Option Nat
  | .idle => none
  | .moving input _ => some input
  | .compacting working => some working.input
  | .installing working _ => some working.input

def built : Work → Option (Version Bytes)
  | .moving _ built => some built
  | .installing _ built => some built
  | _ => none

def outputs : Work → List Nat
  | .compacting working => working.outputs
  | .installing working _ => working.outputs
  | _ => []

def opening : Work → Option Nat
  | .compacting working => working.opening
  | .installing working _ => working.opening
  | _ => none

end FileStore.Work

variable {names : List Bytes}

namespace FileStore

def holders (s : FileStore) : List Nat :=
  s.current :: ((s.flush.bind (·.stage.base)).toList ++ s.work.input.toList ++ s.readers)

structure Inv (s : FileStore) : Prop where
  counts : Counts s.table s.holders
  made : ∀ v ∈ s.holders, v < s.made
  tables : ∀ v ∈ s.holders, s.Has (s.versions v)
  flushBuilt : ∀ built, s.flush.bind (·.stage.built) = some built → s.Has built
  workBuilt : ∀ built, s.work.built = some built → s.Has built
  outputs : ∀ n ∈ s.work.outputs, tableFileName n ∈ s.dir ∧ n < s.nextFileNumber ∧ n ∈ s.pendingOutputs
  opening : ∀ n, s.work.opening = some n → n < s.nextFileNumber ∧ n ∈ s.pendingOutputs
  /-- While a flush is under way, a compaction rests and the memtable is there. -/
  resting : s.flush ≠ none → s.work.built = none ∧ s.work.opening = none ∧ s.immLog ≠ none
  /-- The table of a flush is not known to anybody else. -/
  building : ∀ number base created, s.flush = some ⟨number, .building base created⟩ →
    (created = true → tableFileName number ∈ s.dir) ∧ number < s.nextFileNumber ∧ number ∉ s.work.outputs ∧
      ∀ v ∈ s.holders, number ∉ (s.versions v).liveFiles
  logging : ∀ number built logNumber, s.flush = some ⟨number, .logging built logNumber⟩ → logNumber = s.logfileNumber
  manifest : descriptorFileName s.manifestFileNumber ∈ s.dir
  log : logFileName s.logfileNumber ∈ s.dir ∧ s.logNumber ≤ s.logfileNumber ∧ s.logfileNumber < s.nextFileNumber
  immLog : ∀ n, s.immLog = some n → logFileName n ∈ s.dir ∧ s.logNumber ≤ n

variable {s s' : FileStore}

theorem Has.mono {v : Version Bytes} (has : s.Has v)
    (kept : ∀ name ∈ s.dir, name ∈ s'.dir) (later : s.nextFileNumber ≤ s'.nextFileNumber) : s'.Has v :=
  fun n isLive => ⟨kept _ (has n isLive).1, (has n isLive).2.trans_le later⟩

variable {n : Nat}

theorem mem_liveFiles {v : Version Bytes} : n ∈ v.liveFiles ↔ ∃ l < kNumLevels, ∃ f ∈ v.files l, f.number = n := by
  simp [Version.liveFiles]

section

variable {edit : VersionEdit Bytes} {built : Version Bytes} (applied : s.logAndApply edit = .ok built)

include applied

theorem logAndApply_live (isLive : n ∈ built.liveFiles) :
    n ∈ (s.versions s.current).liveFiles ∨ ∃ e ∈ edit.newFiles, e.2.number = n := by
  rw [logAndApply] at applied
  split at applied
  · cases applied
  split at applied
  · cases applied
  case h_2 v saved =>
    cases applied
    obtain ⟨l, bound, f, isFile, rfl⟩ := mem_liveFiles.mp isLive
    rw [((saveTo_some saved).2.2 l bound).1, mem_keptFiles] at isFile
    cases isFile.1 with
    | inl old => exact .inl (mem_liveFiles.mpr ⟨l, bound, f, old, rfl⟩)
    | inr added => exact .inr ⟨(l, f), (mem_of_mem_apply_added added).resolve_left nofun, rfl⟩

theorem logAndApply_has (cur : s.Has (s.versions s.current))
    (new : ∀ e ∈ edit.newFiles, tableFileName e.2.number ∈ s.dir ∧ e.2.number < s.nextFileNumber) :
    s.Has built := by
  intro n isLive
  cases logAndApply_live applied isLive with
  | inl old => exact cur n old
  | inr added =>
    obtain ⟨e, isNew, rfl⟩ := added
    exact new e isNew

end

/-! ## A pass over the directory -/

theorem subset_live : n ∈ s.live ↔ n ∈ s.pendingOutputs ∨ ∃ v ∈ s.table.linked, n ∈ (s.versions v).liveFiles := by
  have fold : ∀ (linked : List Nat) (live : Finset Nat),
      n ∈ linked.foldl (fun live v => live ∪ (s.versions v).liveFiles) live ↔
        n ∈ live ∨ ∃ v ∈ linked, n ∈ (s.versions v).liveFiles := by
    intro linked
    induction linked with
    | nil => simp
    | cons v rest ih =>
      intro live
      rw [foldl_cons, ih, Finset.mem_union, exists_mem_cons_iff, or_assoc]
  exact fold s.table.linked s.pendingOutputs

/-- A name stays if the parser refuses it or `keep` is set for what it reads. -/
theorem mem_deleteObsoleteFiles {name : Bytes} (present : name ∈ s.dir)
    (kept : ∀ n type, parseFileName name = some (n, type) → s.keeps n type = true)
    (names : List Bytes) : name ∈ (s.deleteObsoleteFiles names).dir := by
  rw [deleteObsoleteFiles]
  split
  · exact present
  simp only
  generalize s.dir = dir at present
  induction names generalizing dir with
  | nil => exact present
  | cons filename rest ih =>
    apply ih
    rw [deleteObsolete]
    split
    case h_2 => exact present
    case h_1 n type parses =>
      split
      · exact present
      case isFalse dropped =>
        rw [mem_filter]
        refine ⟨present, decide_eq_true fun eq => ?_⟩
        subst eq
        exact dropped (kept n type parses)

variable {type : FileType} {num : Nat}

theorem keeps_table (isLive : n ∈ s.live)
    (parses : parseFileName (tableFileName n) = some (num, type)) : s.keeps num type = true := by
  obtain ⟨isNumber, isType⟩ := parseFileName_makeFileName_some parses
  have table : type = .tableFile := Option.some.inj (isType.symm.trans (by decide))
  simp only at isNumber
  subst isNumber table
  exact decide_eq_true isLive

theorem keeps_log (recent : s.logNumber ≤ n)
    (parses : parseFileName (logFileName n) = some (num, type)) : s.keeps num type = true := by
  obtain ⟨isNumber, isType⟩ := parseFileName_makeFileName_some parses
  have log : type = .logFile := Option.some.inj (isType.symm.trans (by decide))
  simp only at isNumber
  subst isNumber log
  exact decide_eq_true (.inl recent)

theorem keeps_manifest (parses : parseFileName (descriptorFileName s.manifestFileNumber) = some (n, type)) :
    s.keeps n type = true := by
  cases parseFileName_descriptorFileName_some parses
  exact decide_eq_true le_rfl

theorem deleteObsoleteFiles_eq (s : FileStore) (names : List Bytes) :
    s.deleteObsoleteFiles names = { s with dir := (s.deleteObsoleteFiles names).dir } := by
  rw [deleteObsoleteFiles]
  split <;> rfl

/-- Files may go that no version in use, no compaction and no memtable needs. -/
theorem Inv.shrink (inv : Inv s) (noFlush : s.flush = none) (noBuilt : s.work.built = none) {dir : List Bytes}
    (tables : ∀ v ∈ s.holders, ∀ n ∈ (s.versions v).liveFiles, tableFileName n ∈ s.dir → tableFileName n ∈ dir)
    (outputs : ∀ n ∈ s.work.outputs, tableFileName n ∈ s.dir → tableFileName n ∈ dir)
    (logs : ∀ n, s.logNumber ≤ n → logFileName n ∈ s.dir → logFileName n ∈ dir)
    (manifest : descriptorFileName s.manifestFileNumber ∈ dir) : Inv { s with dir } :=
  { inv with
    tables := fun v held n isLive =>
      have table := inv.tables v held n isLive
      ⟨tables v held n isLive table.1, table.2⟩
    flushBuilt := fun built isBuilt => by simp [noFlush] at isBuilt
    workBuilt := fun built isBuilt => by simp [noBuilt] at isBuilt
    outputs := fun n isOutput =>
      have output := inv.outputs n isOutput
      ⟨outputs n isOutput output.1, output.2⟩
    building := fun num base created isFlush => by simp [noFlush] at isFlush
    manifest
    log := ⟨logs _ inv.log.2.1 inv.log.1, inv.log.2⟩
    immLog := fun n isImm => ⟨logs n (inv.immLog n isImm).2 (inv.immLog n isImm).1, (inv.immLog n isImm).2⟩ }

/-- The pass keeps what is needed when no built version waits to be installed. -/
theorem Inv.deleteObsoleteFiles (inv : Inv s) (noFlush : s.flush = none) (noBuilt : s.work.built = none)
    (names : List Bytes) : Inv (s.deleteObsoleteFiles names) := by
  have ts : ∀ n ∈ s.live, tableFileName n ∈ s.dir → tableFileName n ∈ (s.deleteObsoleteFiles names).dir :=
    fun n isLive present => mem_deleteObsoleteFiles present (fun _ _ => keeps_table isLive) names
  have isKept : Inv { s with dir := (s.deleteObsoleteFiles names).dir } := by
    apply inv.shrink noFlush noBuilt
    · intro v held n isLive
      exact ts n (subset_live.mpr (.inr ⟨v, (inv.counts.linked v).mpr held, isLive⟩))
    · exact fun n isOutput => ts n (subset_live.mpr (.inl (inv.outputs n isOutput).2.2))
    · exact fun n recent present => mem_deleteObsoleteFiles present (fun _ _ => keeps_log recent) names
    · exact mem_deleteObsoleteFiles inv.manifest (fun _ _ => keeps_manifest) names
  exact deleteObsoleteFiles_eq s names ▸ isKept

/-! ## Readers and writers -/

theorem current_mem_holders (s : FileStore) : s.current ∈ s.holders := mem_cons_self

section

variable (inv : Inv s)

include inv

theorem Inv.readers {table : Table Nat} {readers : List Nat}
    (counts : Counts table { s with readers }.holders) (sub : ∀ v ∈ { s with readers }.holders, v ∈ s.holders) :
    Inv { s with table, readers } :=
  { inv with
    counts
    made := fun v held => inv.made v (sub v held)
    tables := fun v held => inv.tables v (sub v held)
    building := fun n base created isFlush =>
      have pre := inv.building n base created isFlush
      ⟨pre.1, pre.2.1, pre.2.2.1, fun v held => pre.2.2.2 v (sub v held)⟩ }

theorem Inv.acquire : Inv s.acquire := by
  apply inv.readers
  · exact (inv.counts.ref s.current_mem_holders).perm (perm_middle.symm.cons _)
  intro v held
  simp only [holders, mem_cons, mem_append] at held ⊢
  tauto

theorem Inv.release {v : Nat} (run : s.release v = .ok s') : Inv s' := by
  rw [FileStore.release] at run
  split at run
  case isFalse => cases run
  case isTrue isReader =>
    cases run
    have others : s.holders.Perm (v :: { s with readers := s.readers.erase v }.holders) := by
      have split := perm_cons_erase isReader
      exact ((split.append_left _).trans perm_middle).cons _ |>.trans (List.Perm.swap _ _ _)
    apply inv.readers
    · exact (inv.counts.perm others).unref
    · exact fun w held => others.mem_iff.mpr (mem_cons_of_mem _ held)

theorem Inv.backgroundError : Inv { s with bgError := true } :=
  { inv with }

theorem Inv.grow {dir : List Bytes} {next : Nat} {pending : Finset Nat}
    (kept : ∀ name ∈ s.dir, name ∈ dir) (later : s.nextFileNumber ≤ next)
    (stillPending : ∀ n ∈ s.pendingOutputs, n ∈ pending) :
    Inv { s with dir, nextFileNumber := next, pendingOutputs := pending } :=
  { inv with
    tables := fun v held => (inv.tables v held).mono kept later
    flushBuilt := fun built isBuilt => (inv.flushBuilt built isBuilt).mono kept later
    workBuilt := fun built isBuilt => (inv.workBuilt built isBuilt).mono kept later
    outputs := fun n isOutput =>
      have output := inv.outputs n isOutput
      ⟨kept _ output.1, output.2.1.trans_le later, stillPending n output.2.2⟩
    opening := fun n isOpening =>
      have opening := inv.opening n isOpening
      ⟨opening.1.trans_le later, stillPending n opening.2⟩
    building := fun num base created isFlush =>
      have pre := inv.building num base created isFlush
      ⟨fun isCreated => kept _ (pre.1 isCreated), pre.2.1.trans_le later, pre.2.2⟩
    manifest := kept _ inv.manifest
    log := ⟨kept _ inv.log.1, inv.log.2.1, inv.log.2.2.trans_le later⟩
    immLog := fun n isImm => ⟨kept _ (inv.immLog n isImm).1, (inv.immLog n isImm).2⟩ }

theorem Inv.create (name : Bytes) : Inv (s.create name) :=
  inv.grow (fun _ present => mem_cons_of_mem _ present) le_rfl fun _ => id

theorem Inv.newOutput : Inv { s with
    nextFileNumber := s.nextFileNumber + 1, pendingOutputs := insert s.nextFileNumber s.pendingOutputs } :=
  inv.grow (fun _ => id) (Nat.le_succ _) fun _ isPending => Finset.mem_insert_of_mem isPending

theorem Inv.switchMemTable {created : Bool} (run : s.switchMemTable created = .ok s') : Inv s' := by
  unfold FileStore.switchMemTable at run
  split at run
  · cases run
  · cases run
    exact inv
  case h_3 noImm =>
    cases run
    have noFlush : s.flush = none := not_not.mp fun isFlush => (inv.resting isFlush).2.2 noImm
    have grown : Inv { s with dir := logFileName s.nextFileNumber :: s.dir, nextFileNumber := s.nextFileNumber + 1 } :=
      inv.grow (fun name present => mem_cons_of_mem _ present) (Nat.le_succ _) fun _ => id
    exact
      { grown with
        resting := fun isFlush => absurd noFlush isFlush
        logging := fun _ _ _ isFlush => nomatch noFlush.symm.trans isFlush
        log := ⟨mem_cons_self, inv.log.2.1.trans inv.log.2.2.le, Nat.lt_succ_self _⟩
        immLog := fun n isImm => by
          cases isImm
          exact ⟨grown.log.1, inv.log.2.1⟩ }

end

/-! ## Flushes -/

theorem canFlush_rests (can : s.canFlush = true) :
    s.flush = none ∧ s.immLog ≠ none ∧ s.work.built = none ∧ s.work.opening = none := by
  simp only [canFlush, Bool.and_eq_true, Option.isNone_iff_eq_none] at can
  obtain ⟨⟨imm, noFlush⟩, free⟩ := can
  have isImm : s.immLog ≠ none := Option.isSome_iff_ne_none.mp imm
  cases work : s.work with
  | idle => exact ⟨noFlush, isImm, rfl, rfl⟩
  | compacting job =>
    rw [work] at free
    exact ⟨noFlush, isImm, rfl, Option.isNone_iff_eq_none.mp free⟩
  | moving | installing =>
    rw [work] at free
    cases free

section

variable (inv : Inv s)

include inv

theorem Inv.startFlush (run : s.startFlush = .ok s') : Inv s' := by
  rw [FileStore.startFlush] at run
  split at run
  case isFalse => cases run
  case isTrue can =>
    cases run
    obtain ⟨noFlush, isImm, noBuilt, noOpening⟩ := canFlush_rests can
    have isHolders : s.holders = s.current :: (s.work.input.toList ++ s.readers) := by
      simp [holders, noFlush]
    have counts := inv.counts.ref s.current_mem_holders
    rw [isHolders] at counts
    have grown := inv.newOutput
    have sub : ∀ v ∈ s.current :: s.current :: (s.work.input.toList ++ s.readers), v ∈ s.holders := by
      intro v held
      rw [isHolders]
      simpa using held
    exact
      { grown with
        counts
        made := fun v held => inv.made v (sub v held)
        tables := fun v held => grown.tables v (sub v held)
        flushBuilt := nofun
        resting := fun _ => ⟨noBuilt, noOpening, isImm⟩
        building := fun num base created isFlush => by
          cases isFlush
          refine ⟨nofun, Nat.lt_succ_self _, fun isOutput => ?_, fun v held isLive => ?_⟩
          · exact absurd (inv.outputs _ isOutput).2.1 (lt_irrefl _)
          · exact absurd (inv.tables v (sub v held) _ isLive).2 (lt_irrefl _)
        logging := nofun }

theorem Inv.createTable (run : s.createTable = .ok s') : Inv s' := by
  rw [FileStore.createTable] at run
  split at run
  case h_2 => cases run
  case h_1 n base isFlush =>
    cases run
    have grown := inv.create (tableFileName n)
    have pre := grown.building n base false isFlush
    have sameHolders : { s.create (tableFileName n) with flush := some ⟨n, .building base true⟩ }.holders =
        (s.create (tableFileName n)).holders := by
      simp [holders, FileStore.create, isFlush, FlushStage.base]
    exact
      { grown with
        counts := sameHolders ▸ grown.counts
        made := sameHolders ▸ grown.made
        tables := sameHolders ▸ grown.tables
        flushBuilt := nofun
        resting := fun _ => grown.resting (by simp [FileStore.create, isFlush])
        building := fun _ _ _ isFlush' => by
          cases isFlush'
          exact ⟨fun _ => mem_cons_self, pre.2.1, pre.2.2.1, fun v held => pre.2.2.2 v (sameHolders ▸ held)⟩
        logging := nofun }

theorem Inv.calm {table : Table Nat} {pending : Finset Nat} {flush : Option Flush} {work : Work}
    (noFlush : flush = none) (counts : Counts table { s with flush, work }.holders)
    (sub : { s with flush, work }.holders ⊆ s.holders) (has : ∀ built, work.built = some built → s.Has built)
    (outputs : ∀ n ∈ work.outputs, tableFileName n ∈ s.dir ∧ n < s.nextFileNumber ∧ n ∈ pending)
    (opening : ∀ n, work.opening = some n → n < s.nextFileNumber ∧ n ∈ pending) :
    Inv { s with table, pendingOutputs := pending, flush, work } := by
  subst noFlush
  exact
    { inv with
      counts
      made := fun v held => inv.made v (sub held)
      tables := fun v held => inv.tables v (sub held)
      flushBuilt := nofun
      workBuilt := has
      outputs
      opening
      resting := fun isSome => absurd rfl isSome
      building := nofun
      logging := nofun }

/-- The end of `BuildTable`: the version is let go and the table is not pending any more. -/
theorem Inv.built {base : Nat} {created : Bool} (isFlush : s.flush = some ⟨num, .building base created⟩) :
    Inv { s with table := s.table.unref base, pendingOutputs := s.pendingOutputs.erase num, flush := none } := by
  obtain ⟨-, -, notOutput, -⟩ := inv.building num base created isFlush
  obtain ⟨-, noOpening, -⟩ := inv.resting (by simp [isFlush])
  have others : s.holders.Perm (base :: { s with flush := none }.holders) := by
    simp only [holders, isFlush, Option.bind_some, FlushStage.base]
    exact List.Perm.swap _ _ _
  apply inv.calm rfl (inv.counts.perm others).unref
  · exact fun v held => others.mem_iff.mpr (mem_cons_of_mem _ held)
  · exact inv.workBuilt
  · intro n isOutput
    have output := inv.outputs n isOutput
    have ne : n ≠ num := fun eq => notOutput (eq ▸ isOutput)
    exact ⟨output.1, output.2.1, Finset.mem_erase.mpr ⟨ne, output.2.2⟩⟩
  · simp [noOpening]

theorem Inv.delete (noFlush : s.flush = none) (noBuilt : s.work.built = none)
    (notOutput : num ∉ s.work.outputs) (unknown : ∀ v ∈ s.holders, num ∉ (s.versions v).liveFiles) :
    Inv (s.delete (tableFileName num)) := by
  have stays : ∀ name, name ≠ tableFileName num → name ∈ s.dir → name ∈ (s.delete (tableFileName num)).dir :=
    fun name ne present => mem_filter.mpr ⟨present, decide_eq_true ne⟩
  have ts : ∀ n, n ≠ num → tableFileName n ∈ s.dir → tableFileName n ∈ (s.delete (tableFileName num)).dir :=
    fun n ne => stays _ fun eq => ne (makeFileName_inj eq).1
  apply inv.shrink noFlush noBuilt
  · exact fun v held n isLive => ts n fun eq => unknown v held (eq ▸ isLive)
  · exact fun n isOutput => ts n fun eq => notOutput (eq ▸ isOutput)
  · exact fun n _ => stays _ fun eq => absurd (makeFileName_inj eq).2 (by decide)
  · exact stays _ (makeFileName_ne_descriptorFileName _ _ _).symm inv.manifest

theorem Inv.log_flush (noFlush : s.flush = none) (noBuilt : s.work.built = none)
    (noOpening : s.work.opening = none) (isImm : s.immLog ≠ none) {built : Version Bytes} (has : s.Has built)
    (n : Nat) : Inv { s with flush := some ⟨n, .logging built s.logfileNumber⟩ } := by
  have sameHolders : { s with flush := some ⟨n, .logging built s.logfileNumber⟩ }.holders = s.holders := by
    simp [holders, noFlush, FlushStage.base]
  exact
    { inv with
      counts := sameHolders ▸ inv.counts
      made := sameHolders ▸ inv.made
      tables := sameHolders ▸ inv.tables
      flushBuilt := fun _ isBuilt => Option.some.inj isBuilt ▸ has
      resting := fun _ => ⟨noBuilt, noOpening, isImm⟩
      building := nofun
      logging := fun _ _ _ isFlush => by
        cases isFlush
        rfl }

end

variable {e : Nat × FileMetaData Bytes}

theorem flushEdit_newFiles {res : Built} (new : e ∈ (s.flushEdit n res).newFiles) : e.2.number = n := by
  cases res with
  | table l fileSize smallest largest rh =>
    simp only [flushEdit, VersionEdit.addFile, VersionEdit.empty, nil_append, mem_singleton] at new
    rw [new]
  | failed | empty => cases new

theorem Inv.endBuild (inv : Inv s) {res : Built} (run : s.endBuild res = .ok s') : Inv s' := by
  unfold FileStore.endBuild at run
  split at run
  case h_2 => cases run
  case h_1 num base created isFlush =>
    obtain ⟨isThere, fresh, notOutput, unknown⟩ := inv.building num base created isFlush
    obtain ⟨noBuilt, noOpening, isImm⟩ := inv.resting (by simp [isFlush])
    have next := inv.built isFlush
    have stillUnknown : ∀ v ∈ { s with flush := none }.holders, num ∉ (s.versions v).liveFiles := by
      intro v held
      apply unknown v
      simp only [holders, Option.bind_none, Option.toList_none, nil_append, mem_cons, mem_append] at held
      simp only [holders, mem_cons, mem_append]
      tauto
    simp only at run
    split at run
    case h_1 deleted =>
      cases run
      apply Inv.backgroundError
      split
      · exact next.delete rfl noBuilt notOutput stillUnknown
      · exact next
    case h_2 =>
      split at run
      · cases run
      case h_2 built applied =>
        cases run
        have deleted := next.delete rfl noBuilt notOutput stillUnknown
        apply deleted.log_flush rfl noBuilt noOpening isImm
        exact logAndApply_has (s := s.delete _) applied (deleted.tables _ mem_cons_self) nofun
    case h_3 =>
      split at run
      case isFalse => cases run
      case isTrue isCreated =>
        split at run
        · cases run
        case h_2 built applied =>
          cases run
          apply next.log_flush rfl noBuilt noOpening isImm
          apply logAndApply_has applied (next.tables _ mem_cons_self)
          intro e new
          rw [flushEdit_newFiles new]
          exact ⟨isThere isCreated, fresh⟩

theorem Inv.appendVersion (inv : Inv s) (noFlush : ∀ n base created,
    s.flush ≠ some ⟨n, .building base created⟩) {built : Version Bytes} (has : s.Has built) :
    Inv (s.appendVersion built) := by
  have old : ∀ v ∈ s.holders, Function.update s.versions s.made built v = s.versions v :=
    fun v held => Function.update_of_ne (inv.made v held).ne _ _
  have counts : Counts (s.table.unref s.current) s.holders.tail := inv.counts.unref
  have fresh : s.made ∉ s.holders.tail := fun held => lt_irrefl _ (inv.made _ (mem_of_mem_tail held))
  exact
    { inv with
      counts := counts.link fresh
      made := forall_mem_cons.mpr ⟨Nat.lt_succ_self _, fun v isOld =>
        (inv.made v (mem_cons_of_mem _ isOld)).trans (Nat.lt_succ_self _)⟩
      tables := by
        refine forall_mem_cons.mpr ⟨?_, fun v isOld => ?_⟩
        · have inst : (s.appendVersion built).versions s.made = built := Function.update_self _ _ _
          change s.Has ((s.appendVersion built).versions s.made)
          rwa [inst]
        · have held : v ∈ s.holders := mem_cons_of_mem _ isOld
          have eq : (s.appendVersion built).versions v = s.versions v := old v held
          change s.Has ((s.appendVersion built).versions v)
          rw [eq]
          exact inv.tables v held
      building := fun n base created isFlush => absurd isFlush (noFlush n base created) }

theorem Inv.flushLogged (inv : Inv s) {wr : Bool} (run : s.flushLogged wr names = .ok s') : Inv s' := by
  unfold FileStore.flushLogged at run
  split at run
  case h_1 n built logNumber isFlush =>
    cases run
    have isLog := inv.logging n built logNumber isFlush
    obtain ⟨noBuilt, noOpening, -⟩ := inv.resting (by simp [isFlush])
    have next := inv.appendVersion (by simp [isFlush]) (inv.flushBuilt built (by simp [isFlush, FlushStage.built]))
    have sameHolders : { s.appendVersion built with flush := none }.holders = (s.appendVersion built).holders := by
      simp [holders, FileStore.appendVersion, isFlush, FlushStage.base]
    have calm := next.calm rfl (sameHolders ▸ next.counts)
      (sameHolders ▸ Subset.refl _) next.workBuilt next.outputs next.opening
    apply Inv.deleteObsoleteFiles
    · exact { calm with
        resting := fun isSome => absurd rfl isSome
        logging := nofun
        log := ⟨inv.log.1, isLog.le, inv.log.2.2⟩
        immLog := nofun }
    · rfl
    · exact noBuilt
  case h_2 n built logNumber isFlush =>
    cases run
    have sameHolders : { s with flush := none }.holders = s.holders := by
      simp [holders, isFlush, FlushStage.base]
    have calm := inv.calm rfl (sameHolders ▸ inv.counts)
      (sameHolders ▸ Subset.refl _) inv.workBuilt inv.outputs inv.opening
    exact calm.backgroundError
  case h_3 => cases run

/-! ## Compactions -/

theorem canCompact_free {c : Compaction Bytes} (can : s.canCompact c = true) :
    s.flush = none ∧ s.work = .idle ∧ ∀ f ∈ c.inputs0, f.number ∈ (s.versions s.current).liveFiles := by
  simp only [canCompact, Bool.and_eq_true, Option.isNone_iff_eq_none, all_eq_true, decide_eq_true_eq] at can
  obtain ⟨⟨⟨⟨⟨-, noFlush⟩, free⟩, inputs⟩, -⟩, bound⟩ := can
  have live : ∀ f ∈ c.inputs0, f.number ∈ (s.versions s.current).liveFiles :=
    fun f isInput => mem_liveFiles.mpr ⟨c.level, by omega, f, inputs f isInput, rfl⟩
  cases work : s.work with
  | idle => exact ⟨noFlush, rfl, live⟩
  | moving | compacting | installing =>
    rw [work] at free
    cases free

section

variable (inv : Inv s)

include inv

theorem Inv.startWork (noFlush : s.flush = none) (isIdle : s.work = .idle) {work : Work}
    (input : work.input = some s.current) (has : ∀ built, work.built = some built → s.Has built)
    (noOutputs : work.outputs = []) (noOpening : work.opening = none) :
    Inv { s with table := s.table.ref s.current, work } := by
  have idleInput : s.work.input = none := by
    rw [isIdle]
    rfl
  have isHolders : { s with work }.holders = s.current :: s.holders := by
    simp [holders, noFlush, idleInput, input]
  apply inv.calm noFlush
  · exact isHolders ▸ inv.counts.ref s.current_mem_holders
  · rw [isHolders]
    exact cons_subset.mpr ⟨s.current_mem_holders, Subset.refl _⟩
  · exact has
  · simp [noOutputs]
  · simp [noOpening]

theorem Inv.startMove {c : Picked} {rh : Merkle.Digest} (run : s.startMove c rh = .ok s') : Inv s' := by
  unfold FileStore.startMove at run
  split at run
  case h_2 => cases run
  case h_1 f can isInput =>
    obtain ⟨noFlush, isIdle, inputs⟩ := canCompact_free can
    split at run
    · cases run
    case h_2 built applied =>
      cases run
      have cur := inv.tables s.current s.current_mem_holders
      have has : s.Has built := by
        apply logAndApply_has applied cur
        intro e new
        simp only [Db.moveEdit, VersionEdit.addFile, VersionEdit.deleteFile, c.2, nil_append, mem_singleton] at new
        rw [new]
        exact cur f.number (inputs f (by simp [isInput]))
      exact inv.startWork noFlush isIdle rfl (fun _ isBuilt => Option.some.inj isBuilt ▸ has) rfl rfl

theorem Inv.startCompaction {c : Picked} (run : s.startCompaction c = .ok s') : Inv s' := by
  rw [FileStore.startCompaction] at run
  split at run
  case isFalse => cases run
  case isTrue can =>
    cases run
    obtain ⟨noFlush, isIdle, -⟩ := canCompact_free can
    exact inv.startWork noFlush isIdle rfl nofun rfl rfl

theorem Inv.setWork (noFlush : s.flush = none) {work : Work}
    (input : work.input = s.work.input) (has : ∀ built, work.built = some built → s.Has built)
    (outs : ∀ n ∈ work.outputs, tableFileName n ∈ s.dir ∧ n < s.nextFileNumber ∧ n ∈ s.pendingOutputs)
    (opening : ∀ n, work.opening = some n → n < s.nextFileNumber ∧ n ∈ s.pendingOutputs) : Inv { s with work } := by
  have sameHolders : { s with work }.holders = s.holders := by
    simp [holders, input]
  exact inv.calm noFlush (sameHolders ▸ inv.counts) (sameHolders ▸ Subset.refl _) has outs opening

theorem Inv.openOutput (run : s.openOutput = .ok s') : Inv s' := by
  unfold FileStore.openOutput at run
  split at run
  case h_2 => cases run
  case h_1 c input outs noFlush isWork =>
    cases run
    have grown := inv.newOutput
    apply grown.setWork noFlush
    · rw [isWork]
      rfl
    · nofun
    · intro n isOutput
      apply grown.outputs n
      rw [isWork]
      exact isOutput
    · intro n isOpening
      cases isOpening
      exact ⟨Nat.lt_succ_self _, Finset.mem_insert_self _ _⟩

theorem Inv.createOutput (run : s.createOutput = .ok s') : Inv s' := by
  rw [FileStore.createOutput] at run
  split at run
  case h_2 => cases run
  case h_1 c input outs num isWork =>
    cases run
    have isOpening : s.work.opening = some num := by rw [isWork]; rfl
    have noFlush : s.flush = none := by
      by_contra isSome
      rw [(inv.resting isSome).2.1] at isOpening
      cases isOpening
    have grown := inv.create (tableFileName num)
    apply grown.setWork noFlush
    · simp only [FileStore.create, isWork]
      rfl
    · nofun
    · refine SortedList.forall_mem_concat (fun n old => grown.outputs n ?_) ⟨mem_cons_self, inv.opening num isOpening⟩
      simp only [FileStore.create, isWork]
      exact old
    · nofun

end

theorem addInputDeletions_newFiles (c : Compaction Bytes) (edit : VersionEdit Bytes) :
    (c.addInputDeletions edit).newFiles = edit.newFiles := by
  have deletes : ∀ (files : List (FileMetaData Bytes)) (l : Nat) (edit : VersionEdit Bytes),
      (files.foldl (fun edit f => edit.deleteFile l f.number) edit).newFiles = edit.newFiles := by
    intro files l
    induction files with
    | nil => exact fun _ => rfl
    | cons f rest ih => exact fun edit => ih (edit.deleteFile l f.number)
  simp only [Compaction.addInputDeletions, deletes]

theorem resultsEdit_newFiles {c : Picked} {outs : List Nat} {about : Nat → OutputMeta}
    (new : e ∈ (resultsEdit c.1 outs about).newFiles) : e.2.number ∈ outs := by
  have adds : ∀ (outs : List Nat) (edit : VersionEdit Bytes),
      e ∈ (outs.foldl (fun edit n => edit.addFile (c.1.level + 1) n (about n).fileSize (about n).smallest
        (about n).largest (about n).rh) edit).newFiles → e ∈ edit.newFiles ∨ e.2.number ∈ outs := by
    intro outs
    induction outs with
    | nil => exact fun _ => .inl
    | cons n rest ih =>
      intro edit mem
      cases ih _ mem with
      | inr later => exact .inr (mem_cons_of_mem _ later)
      | inl here =>
        cases mem_append.mp here with
        | inl old => exact .inl old
        | inr added =>
          rw [mem_singleton.mp added]
          exact .inr mem_cons_self
  cases adds _ _ new with
  | inr isOutput => exact isOutput
  | inl old =>
    rw [addInputDeletions_newFiles, c.2] at old
    cases old

variable (inv : Inv s)

include inv

theorem Inv.endWork {about : Nat → OutputMeta} (run : s.endWork about = .ok s') : Inv s' := by
  unfold FileStore.endWork at run
  split at run
  case h_2 => cases run
  case h_1 c input outs noFlush isWork =>
    split at run
    · cases run
    case h_2 built applied =>
      cases run
      have present : ∀ n ∈ outs, tableFileName n ∈ s.dir ∧ n < s.nextFileNumber ∧ n ∈ s.pendingOutputs := by
        intro n isOutput
        apply inv.outputs n
        rw [isWork]
        exact isOutput
      have has : s.Has built := by
        apply logAndApply_has applied (inv.tables _ s.current_mem_holders)
        intro e new
        have output := present _ (resultsEdit_newFiles new)
        exact ⟨output.1, output.2.1⟩
      apply inv.setWork noFlush
      · rw [isWork]
        rfl
      · exact fun _ isBuilt => Option.some.inj isBuilt ▸ has
      · exact present
      · nofun

theorem Inv.endHold (noFlush : s.flush = none) {input : Nat} (isInput : s.work.input = some input)
    (pending : Finset Nat) :
    Inv { s with pendingOutputs := pending, table := s.table.unref input, work := .idle } := by
  have others : s.holders.Perm (input :: { s with work := .idle }.holders) := by
    simp only [holders, noFlush, isInput, Option.bind_none]
    exact List.Perm.swap _ _ _
  apply inv.calm noFlush (inv.counts.perm others).unref
  · exact fun v held => others.mem_iff.mpr (mem_cons_of_mem _ held)
  · nofun
  · nofun
  · nofun

theorem Inv.endCompaction (noFlush : s.flush = none) {work : Working}
    (isInput : s.work.input = some work.input) (names : List Bytes) :
    Inv (s.endCompaction work names) :=
  (inv.endHold noFlush isInput _).deleteObsoleteFiles noFlush rfl names

theorem Inv.logged {built : Version Bytes} (isBuilt : s.work.built = some built) (wr : Bool) :
    s.flush = none ∧ Inv (if wr then s.appendVersion built else { s with bgError := true }) := by
  have noFlush : s.flush = none := by
    by_contra isSome
    rw [(inv.resting isSome).1] at isBuilt
    cases isBuilt
  refine ⟨noFlush, ?_⟩
  cases wr with
  | false => exact inv.backgroundError
  | true => exact inv.appendVersion (by simp [noFlush]) (inv.workBuilt built isBuilt)

theorem Inv.moveLogged {wr : Bool} (run : s.moveLogged wr = .ok s') : Inv s' := by
  rw [FileStore.moveLogged] at run
  split at run
  case h_2 => cases run
  case h_1 input built isWork =>
    cases run
    have isInput : s.work.input = some input := by rw [isWork]; rfl
    obtain ⟨noFlush, next⟩ := inv.logged (by rw [isWork]; rfl) wr
    cases wr with
    | false | true => exact next.endHold noFlush isInput s.pendingOutputs

theorem Inv.failWork (run : s.failWork names = .ok s') : Inv s' := by
  unfold FileStore.failWork at run
  split at run
  case h_2 => cases run
  case h_1 work noFlush isWork =>
    cases run
    apply inv.backgroundError.endCompaction noFlush
    simp only [isWork]
    rfl

theorem Inv.workLogged {wr : Bool} (run : s.workLogged wr names = .ok s') : Inv s' := by
  rw [FileStore.workLogged] at run
  split at run
  case h_2 => cases run
  case h_1 work built isWork =>
    cases run
    have isInput : s.work.input = some work.input := by rw [isWork]; rfl
    obtain ⟨noFlush, next⟩ := inv.logged (by rw [isWork]; rfl) wr
    cases wr with
    | false | true => exact next.endCompaction noFlush isInput names

/-! ## Whole runs -/

theorem Inv.step {ev : FileStoreEvent} (run : s.step ev = .ok s') : Inv s' := by
  cases ev with
  | acquire =>
    cases run
    exact inv.acquire
  | release v => exact inv.release run
  | switchMemTable created => exact inv.switchMemTable run
  | backgroundError =>
    cases run
    exact inv.backgroundError
  | startFlush => exact inv.startFlush run
  | createTable => exact inv.createTable run
  | endBuild res => exact inv.endBuild run
  | flushLogged wr names => exact inv.flushLogged run
  | startMove c rh => exact inv.startMove run
  | moveLogged wr => exact inv.moveLogged run
  | startCompaction c => exact inv.startCompaction run
  | openOutput => exact inv.openOutput run
  | createOutput => exact inv.createOutput run
  | endWork about => exact inv.endWork run
  | failWork names => exact inv.failWork run
  | workLogged wr names => exact inv.workLogged run

end FileStore

/-- What was found is complete: the tables of the version and those written from logs are there, and what
is reused is. -/
structure RecoveredFiles.Complete (found : RecoveredFiles) : Prop where
  tables : ∀ n ∈ found.version.liveFiles, tableFileName n ∈ found.dir ∧ n < found.nextFileNumber
  written : ∀ entry ∈ found.edit.newFiles,
    tableFileName entry.2.number ∈ found.dir ∧ entry.2.number < found.nextFileNumber
  log : ∀ n, found.reusedLog = some n → logFileName n ∈ found.dir ∧ found.logNumber ≤ n ∧ n < found.nextFileNumber
  logNumber : found.logNumber ≤ found.nextFileNumber
  manifest : found.reusedManifest = true → descriptorFileName found.manifestFileNumber ∈ found.dir
  saves : found.reusedManifest = false → found.saveManifest = true

namespace FileStore

theorem recovered_counts (found : RecoveredFiles) (dir : List Bytes) (next log : Nat) :
    Counts (found.recovered dir next log).table (found.recovered dir next log).holders where
  count v := by
    by_cases isFirst : v = 0
    · simp [RecoveredFiles.recovered, holders, Work.input, isFirst]
    · have other : ¬0 = v := fun eq => isFirst eq.symm
      simp [RecoveredFiles.recovered, holders, Work.input, isFirst, other]
  linked v := by simp [RecoveredFiles.recovered, holders, Work.input]
  nodup := by simp [RecoveredFiles.recovered]

variable {found : RecoveredFiles}

/-- Before `LogAndApply`, the MANIFEST with the number may be missing. -/
theorem recovered_inv {dir : List Bytes} {next log : Nat}
    (ts : ∀ n ∈ found.version.liveFiles, tableFileName n ∈ dir ∧ n < next)
    (manifest : descriptorFileName found.manifestFileNumber ∈ dir)
    (isLog : logFileName log ∈ dir ∧ found.logNumber ≤ log ∧ log < next) : Inv (found.recovered dir next log) where
  counts := recovered_counts found dir next log
  made v held := by
    have isFirst : v = 0 := by simpa [RecoveredFiles.recovered, holders, Work.input] using held
    rw [isFirst]
    exact Nat.zero_lt_one
  tables _ _ := ts
  flushBuilt := nofun
  workBuilt := nofun
  outputs := nofun
  opening := nofun
  resting isSome := absurd rfl isSome
  building := nofun
  logging := nofun
  manifest := manifest
  log := isLog
  immLog := nofun

theorem withLog_eq (complete : found.Complete) : ∃ dir next log,
    found.withLog = found.recovered dir next log ∧ (∀ name ∈ found.dir, name ∈ dir) ∧ found.nextFileNumber ≤ next ∧
      logFileName log ∈ dir ∧ found.logNumber ≤ log ∧ log < next := by
  rw [RecoveredFiles.withLog]
  cases reused : found.reusedLog with
  | some n => exact ⟨_, _, _, rfl, fun _ => id, le_rfl, complete.log n reused⟩
  | none =>
    exact ⟨_, _, _, rfl, fun _ present => mem_cons_of_mem _ present, Nat.le_succ _, mem_cons_self,
      complete.logNumber, Nat.lt_succ_self _⟩

theorem openDb_inv (complete : found.Complete) {s : FileStore} (opened : found.openDb names = .ok s) : Inv s := by
  obtain ⟨dir, next, log, isState, kept, later, isLog⟩ := withLog_eq complete
  have ts : ∀ n ∈ found.version.liveFiles, tableFileName n ∈ dir ∧ n < next :=
    fun n isLive => ⟨kept _ (complete.tables n isLive).1, (complete.tables n isLive).2.trans_le later⟩
  rw [RecoveredFiles.openDb, isState] at opened
  simp only at opened
  split at opened
  case isFalse notSaved =>
    cases opened
    have isReused : found.reusedManifest = true := by
      by_contra fresh
      exact notSaved (complete.saves (Bool.eq_false_iff.mpr fresh))
    have inv := recovered_inv ts (kept _ (complete.manifest isReused)) isLog
    exact inv.deleteObsoleteFiles rfl rfl names
  case isTrue =>
    split at opened
    · cases opened
    case h_2 built applied =>
      cases opened
      have has : (found.recovered dir next log).Has built := by
        apply logAndApply_has applied ts
        intro e new
        have wr := complete.written e new
        exact ⟨kept _ wr.1, wr.2.trans_le later⟩
      obtain ⟨dir', isDir, grown, manifest⟩ : ∃ dir', (if found.reusedManifest = true then found.recovered dir next log
            else (found.recovered dir next log).create
              (descriptorFileName (found.recovered dir next log).manifestFileNumber)) = found.recovered dir' next log ∧
          (∀ name ∈ dir, name ∈ dir') ∧ descriptorFileName found.manifestFileNumber ∈ dir' := by
        split
        case isTrue isReused => exact ⟨dir, rfl, fun _ => id, kept _ (complete.manifest isReused)⟩
        case isFalse => exact ⟨_, rfl, fun _ present => mem_cons_of_mem _ present, mem_cons_self⟩
      rw [isDir]
      have inv : Inv (found.recovered dir' next log) :=
        recovered_inv (fun n isLive => ⟨grown _ (ts n isLive).1, (ts n isLive).2⟩) manifest ⟨grown _ isLog.1, isLog.2⟩
      have inst := inv.appendVersion nofun (has.mono grown le_rfl)
      apply Inv.deleteObsoleteFiles
      · exact { inst with
          log := ⟨grown _ isLog.1, le_rfl, isLog.2.2⟩
          immLog := nofun }
      · rfl
      · rfl

def Reachable (start s : FileStore) : Prop :=
  Transition.Reaches (Transition.Steps step) (fun _ _ => True) start s

/-- The version is the current one, or held by a reader, a flush or a running compaction. -/
def Referenced (s : FileStore) (v : Nat) : Prop :=
  v = s.current ∨ v ∈ s.readers ∨ s.work.input = some v ∨ s.flush.bind (·.stage.base) = some v

/-- The table is being written, or finished and not in a linked version yet. -/
def Uninstalled (s : FileStore) (n : Nat) : Prop :=
  n ∈ s.work.outputs ∨ (∃ base, s.flush = some ⟨n, .building base true⟩) ∨
    ∃ built, (s.work.built = some built ∨ s.flush.bind (·.stage.built) = some built) ∧ n ∈ built.liveFiles

def unflushedLogs (s : FileStore) : List Nat := s.logfileNumber :: s.immLog.toList

theorem Referenced.holds {s : FileStore} {v : Nat} (referenced : s.Referenced v) : v ∈ s.holders := by
  simp only [holders, mem_cons, mem_append, Option.mem_toList]
  obtain isCurrent | isReader | isInput | isBase := referenced
  · exact .inl isCurrent
  · exact .inr (.inr isReader)
  · exact .inr (.inl (.inr isInput))
  · exact .inr (.inl (.inl isBase))

/-- No file that somebody may still need is deleted, whatever the listings of the directory say. -/
theorem needed_files_kept {found : RecoveredFiles} (complete : found.Complete) {filenames : List Bytes}
    {start s : FileStore} (opened : found.openDb filenames = .ok start) (reached : Reachable start s) :
    (∀ v, s.Referenced v → ∀ level < kNumLevels, ∀ f ∈ (s.versions v).files level, tableFileName f.number ∈ s.dir) ∧
      (∀ n, s.Uninstalled n → tableFileName n ∈ s.dir) ∧ descriptorFileName s.manifestFileNumber ∈ s.dir ∧
      ∀ n ∈ s.unflushedLogs, logFileName n ∈ s.dir := by
  have inv : Inv s :=
    Transition.Reaches.invariant Inv (openDb_inv complete opened) (fun inv _ taken => inv.step taken) reached
  refine ⟨fun v referenced level bound f isFile => ?_, fun n uninstalled => ?_, inv.manifest, fun n isLog => ?_⟩
  · exact (inv.tables v referenced.holds f.number (mem_liveFiles.mpr ⟨level, bound, f, isFile, rfl⟩)).1
  · obtain isOutput | ⟨base, isFlush⟩ | ⟨built, isWork | isFlush, isLive⟩ := uninstalled
    · exact (inv.outputs n isOutput).1
    · exact (inv.building n base true isFlush).1 rfl
    · exact (inv.workBuilt built isWork n isLive).1
    · exact (inv.flushBuilt built isFlush n isLive).1
  · cases mem_cons.mp isLog with
    | inl isCurrent => exact isCurrent ▸ inv.log.1
    | inr isImm => exact (inv.immLog n (Option.mem_toList.mp isImm)).1

/-- A database that `NewDB` has just made, as `Recover` leaves it. -/
def newDatabase : RecoveredFiles where
  dir := [currentFileName, descriptorFileName 1]
  version := .empty
  edit := .empty
  saveManifest := true
  reusedManifest := false
  reusedLog := none
  nextFileNumber := 3
  manifestFileNumber := 2
  logNumber := 0
  prevLogNumber := 0

/-- A memtable is flushed while a reader holds the version before.  Its log is deleted with the old
MANIFEST, and the table stays. -/
theorem needed_files_kept_flush : ∃ start s, newDatabase.openDb [descriptorFileName 1] = .ok start ∧ Reachable start s ∧
    descriptorFileName 1 ∉ s.dir ∧ logFileName 3 ∉ s.dir ∧ s.readers = [1] ∧ s.Referenced s.current ∧
    tableFileName 5 ∈ s.dir := by
  have complete : newDatabase.Complete :=
    { tables := by simp [newDatabase, mem_liveFiles, Version.empty]
      written := nofun
      log := nofun
      logNumber := by decide
      manifest := nofun
      saves := fun _ => rfl }
  obtain ⟨start, opened, s, run, noManifest, noLog, isReader, f, isFile, isNumber⟩ :
      ∃ start ∈ (newDatabase.openDb [descriptorFileName 1]).toOption,
      ∃ s ∈ Transition.run step (fun _ _ => True) start [.acquire, .switchMemTable true, .startFlush, .createTable,
        .endBuild (.table 0 1 (.make [97] 1 .value) (.make [97] 1 .value) Merkle.zeroDigest),
        .flushLogged true [logFileName 3, logFileName 4, tableFileName 5]],
        descriptorFileName 1 ∉ s.dir ∧ logFileName 3 ∉ s.dir ∧ s.readers = [1] ∧
          ∃ f ∈ (s.versions s.current).files 0, f.number = 5 := by decide +kernel
  have opened := Transition.eq_ok_of_toOption opened
  have reached : Reachable start s := Transition.reaches_of_run .refl run
  have kept := (needed_files_kept complete opened reached).1 s.current (.inl rfl) 0 (by decide) f isFile
  exact ⟨start, s, opened, reached, noManifest, noLog, isReader, .inl rfl, isNumber ▸ kept⟩

end FileStore

end Elsm
