import Elsm.Db.Disjoint

/-!
# Recency across levels

A smaller level holds the newer entries of a key, and at level 0 the file with the larger
number does.  Flushes keep this whatever level they choose.  A compaction keeps it unless it
leaves behind a file that goes on with the user key one of its inputs ends with: the newer
entries of that key then move below the older ones.
-/

namespace Elsm

open List
open Merkle (Digest Mac Record zeroDigest)

/-- The records of the first table are newer than those of the second, key by key. -/
def NewerTable (newer older : List Record) : Prop :=
  ∀ e ∈ newer, ∀ e' ∈ older, e.1.userKey = e'.1.userKey → e'.1.sequence < e.1.sequence

structure Recent (version : Version Bytes) (tables : Nat → List Record) : Prop where
  levels : ∀ i j, i < j → ∀ f ∈ version.files i, ∀ g ∈ version.files j, NewerTable (tables f.number) (tables g.number)
  zero : ∀ f ∈ version.files 0, ∀ g ∈ version.files 0, g.number < f.number →
    NewerTable (tables f.number) (tables g.number)

/-- No input of the first level ends with the user key a file left behind begins with. -/
def Compaction.SplitsNoKey (c : Compaction Bytes) : Prop :=
  0 < c.level → ∀ f ∈ c.inputs0, ∀ g ∈ c.inputVersion.files c.level, g ∉ c.inputs0 →
    f.largest.userKey ≠ g.smallest.userKey

variable {c : Compaction Bytes}

theorem Compaction.SameInputs.splitsNoKey {d : Compaction Bytes} (eq : c.SameInputs d)
    (closed : c.SplitsNoKey) : d.SplitsNoKey := by
  simpa only [Compaction.SplitsNoKey, eq.level, eq.inputs0, eq.inputVersion] using closed

variable {f g : FileMetaData Bytes}

theorem UserApart.newerTable {records records' : List Record} (apart : UserApart f g) (ok : TableOk f records)
    (ok' : TableOk g records') :
    NewerTable records records' := by
  intro e mem e' mem' eq
  have range := ok.userKey_range mem
  have range' := ok'.userKey_range mem'
  rw [← eq] at range'
  cases apart with
  | inl pre => exact absurd (range'.1.trans range.2) (not_le.mpr pre)
  | inr after => exact absurd (range.1.trans range'.2) (not_le.mpr after)

/-- Of two files of one sorted level, the earlier holds the newer entries. -/
theorem Stored.newerTable_of_lt {v : Version Bytes} {ts : Nat → List Record}
    (stored : Stored v ts) {l : Nat} (isF : f ∈ v.files l) (isG : g ∈ v.files l) (pre : f.largest < g.smallest) :
    NewerTable (ts f.number) (ts g.number) := by
  intro e inF e' inG eqKey
  have lt : e.1 < e'.1 := ((stored.table l f isF).le_largest e inF).trans_lt
    (pre.trans_le ((stored.table l g isG).smallest_le e' inG))
  have tags := InternalKey.tag_lt_of_lt eqKey lt
  have sequences : e'.1.sequence ≤ e.1.sequence := Nat.div_le_div_right tags.le
  refine lt_of_le_of_ne sequences fun sameSequence => ?_
  have sameEntry := (stored.once l f l g isF isG e inF e' inG sameSequence.symm).2
  exact absurd lt (sameEntry ▸ lt_irrefl _)

namespace Db

def ClosedPicks (p : Params) (db : Db) : Step → Prop
  | .backgroundCompaction trigger _ => ∀ c ∈ db.pickCompaction p trigger, c.SplitsNoKey
  | _ => True

structure Recency (db : Db) : Prop where
  recent : Recent db.current db.tables
  closed : ∀ cs ∈ db.compaction, cs.compaction.SplitsNoKey

variable {db : Db}

theorem Recency.congr {db' : Db} (recency : Recency db) (ts : db'.tables = db.tables)
    (files : db'.current.files = db.current.files) (compaction : db'.compaction = db.compaction) :
    Recency db' := by
  refine ⟨⟨?_, ?_⟩, compaction ▸ recency.closed⟩
  · rw [ts, files]
    exact recency.recent.levels
  · rw [ts, files]
    exact recency.recent.zero

theorem Recency.flushed {p : Params} {db' : Db} (inv : Inv db) (recency : Recency db)
    {imm records : List Record} (flushed : Flushed p db db' imm records) : Recency db' := by
  have oldTable : ∀ l, ∀ f ∈ db.current.files l, db'.tables f.number = db.tables f.number :=
    fun l f mem => flushed.table_old (inv.numbers l f mem)
  have newest : ∀ l f, FlushedFile p db records l f → ∀ l', ∀ g ∈ db.current.files l',
      NewerTable (db'.tables f.number) (db'.tables g.number) := by
    intro l f isNew l' g isOld e inNew e' inOld _
    obtain ⟨i, inImm, key⟩ := flushed.key_mem isNew inNew
    rw [oldTable l' g isOld] at inOld
    exact key ▸ inv.immNewer i inImm l' g isOld e' inOld
  obtain ⟨_, _, _, eq⟩ := flushed.others
  refine ⟨⟨?_, ?_⟩, by rw [eq]; exact recency.closed⟩
  · intro i j lt f isF g isG
    cases flushed.cases i f isF with
    | inl oldF =>
      cases flushed.cases j g isG with
      | inl oldG =>
        rw [oldTable i f oldF, oldTable j g oldG]
        exact recency.recent.levels i j lt f oldF g oldG
      | inr newG =>
        have apart := inv.flushed_clear newG (by omega) i lt.le f oldF
        exact UserApart.newerTable apart.symm (flushed.stored.table i f isF) (flushed.stored.table j g isG)
    | inr newF =>
      cases flushed.cases j g isG with
      | inl oldG => exact newest i f newF j g oldG
      | inr newG =>
        have levels := (flushed.stored.unique i f j g isF isG (newF.number.trans newG.number.symm)).1
        omega
  · intro f isF g isG lt
    cases flushed.cases 0 f isF with
    | inl oldF =>
      cases flushed.cases 0 g isG with
      | inl oldG =>
        rw [oldTable 0 f oldF, oldTable 0 g oldG]
        exact recency.recent.zero f oldF g oldG lt
      | inr newG =>
        have bound := inv.numbers 0 f oldF
        rw [newG.number] at lt
        omega
    | inr newF =>
      cases flushed.cases 0 g isG with
      | inl oldG => exact newest 0 f newF 0 g oldG
      | inr newG =>
        rw [newF.number, newG.number] at lt
        exact absurd lt (lt_irrefl _)

/-- A file that a compaction leaves at its first level is newer than the inputs. -/
theorem Recency.left_newer (inv : Inv db) (underway : Underway db c) (closed : c.SplitsNoKey) (isInput : f ∈ c.inputs0)
    (isG : g ∈ db.current.files c.level) (left : g ∉ c.inputs0) :
    NewerTable (db.tables g.number) (db.tables f.number) := by
  have isF := underway.chosen.sublist0.subset isInput
  have liveF := underway.live _ f isF
  by_cases old : g ∈ c.inputVersion.files c.level
  · by_cases zero : c.level = 0
    · have apart := underway.chosen.closed zero g (zero ▸ old) left f isInput
      exact UserApart.newerTable apart (inv.stored.table _ g isG) (inv.stored.table _ f liveF)
    have pos := Nat.pos_of_ne_zero zero
    obtain eq | pre | after := SortedList.rel_or_rel (inv.stored.disjoint _ pos) isG liveF
    · exact absurd (eq ▸ isInput) left
    · exact inv.stored.newerTable_of_lt isG liveF pre
    have differ := closed pos f isInput g old left
    have apart : UserApart g f := .inr (lt_of_le_of_ne (InternalKey.userKey_le_of_le after.le) differ)
    exact apart.newerTable (inv.stored.table _ g isG) (inv.stored.table _ f liveF)
  · intro e inG e' inF _
    exact (underway.arrived _ g isG old).newer _ f isF e inG e' inF

theorem Recency.compacted {db' : Db} (inv : Inv db) (recency : Recency db)
    {new : FileMetaData Bytes → Prop} {snap : Nat} (comp : Compacted db db' c new snap)
    (closed : c.SplitsNoKey) : Recency db' := by
  refine ⟨⟨?_, ?_⟩, by simp [comp.idle]⟩
  · intro i j lt f isF g isG
    obtain ⟨oldF, keptF⟩ | ⟨rfl, newF⟩ := (comp.files i f).mp isF
    · rw [comp.tables i f oldF keptF]
      obtain ⟨oldG, keptG⟩ | ⟨rfl, newG⟩ := (comp.files j g).mp isG
      · rw [comp.tables j g oldG keptG]
        exact recency.recent.levels i j lt f oldF g oldG
      intro e inF e' inG eqKey
      obtain ⟨h, isInput, inH⟩ := mem_inputEntries.mp (comp.contents g newG e' inG)
      cases isInput with
      | inr snd =>
        have liveH := comp.underway.live _ h (comp.underway.chosen.sublist1.subset snd)
        exact recency.recent.levels i _ lt f oldF h liveH e inF e' inH eqKey
      | inl first =>
        have liveH := comp.underway.live _ h (comp.underway.chosen.sublist0.subset first)
        by_cases above : i < c.level
        · exact recency.recent.levels i _ above f oldF h liveH e inF e' inH eqKey
        have isLevel : i = c.level := by omega
        subst isLevel
        have left : f ∉ c.inputs0 := fun isInput => keptF (.inl ⟨rfl, isInput⟩)
        exact left_newer inv comp.underway closed first oldF left e inF e' inH eqKey
    · obtain ⟨oldG, keptG⟩ | ⟨sameLevel, _⟩ := (comp.files j g).mp isG
      · rw [comp.tables j g oldG keptG]
        intro e inF e' inG eqKey
        obtain ⟨l, h, isInput, liveH, inH⟩ := Underway.entry_live comp.underway (comp.contents f newF e inF)
        have above : l < j := by
          obtain ⟨isLevel, _⟩ | ⟨isLevel, _⟩ := isInput <;> omega
        exact recency.recent.levels l j above h liveH g oldG e inH e' inG eqKey
      · omega
  · intro f isF g isG lt
    obtain ⟨oldF, keptF⟩ | ⟨isLevel, _⟩ := (comp.files 0 f).mp isF
    · obtain ⟨oldG, keptG⟩ | ⟨isLevel, _⟩ := (comp.files 0 g).mp isG
      · rw [comp.tables 0 f oldF keptF, comp.tables 0 g oldG keptG]
        exact recency.recent.zero f oldF g oldG lt
      · omega
    · omega

theorem Recency.step {p : Params} {db db' : Db} (inv : Inv db) (recency : Recency db) {lbl : Step}
    (picks : ClosedPicks p db lbl) (run : step p db lbl = .ok db') : Recency db' := by
  cases inv.effect run with
  | write | switchMemTable | getSnapshot | releaseSnapshot | chargeSeek => exact recency.congr rfl rfl rfl
  | compactMemTable flushed => exact recency.flushed inv flushed
  | moved isPick _ comp => exact recency.compacted inv comp (picks _ isPick)
  | started _ isPick _ =>
    refine ⟨recency.recent, fun cs isRunning => ?_⟩
    simp only [startWork, Option.mem_def, Option.some.injEq] at isRunning
    exact isRunning ▸ picks _ isPick
  | compactionIteration isRunning eq =>
    refine ⟨recency.recent, fun cs₁ isCs => ?_⟩
    simp only [Option.mem_def, Option.some.injEq] at isCs
    exact isCs ▸ eq.splitsNoKey (recency.closed _ isRunning)
  | installCompaction isRunning comp =>
    exact recency.compacted inv comp (recency.closed _ isRunning)

theorem recency_of_reachable {p : Params} {db : Db}
    (run : Reachable p (fun db label => db.HasRoom label ∧ ClosedPicks p db label) db) : Inv db ∧ Recency db := by
  refine run.invariant (fun db => Inv db ∧ Recency db) ⟨init_inv, ?_⟩ ?_
  · refine ⟨⟨?_, ?_⟩, ?_⟩ <;> simp [init, Version.empty]
  · rintro before after label ⟨inv, recency⟩ ⟨room, closed⟩ taken
    exact ⟨inv.step room taken, recency.step inv closed taken⟩

/-- In every run whose compactions split no key, smaller levels are newer and so are the later
files of level 0. -/
theorem recency_across_levels (p : Params) (db : Db)
    (run : Reachable p (fun db label => db.HasRoom label ∧ ClosedPicks p db label) db) :
    Recent db.current db.tables :=
  (recency_of_reachable run).2.recent

instance (p : Params) (db : Db) (label : Step) : Decidable (ClosedPicks p db label) := by
  induction label using Step.casesOn <;> simp only [ClosedPicks, Compaction.SplitsNoKey] <;> infer_instance

/-- A key compacted into level 2 and written again, which puts the new entry at level 1. -/
theorem recency_across_levels_rewritten : ∃ db,
    compute sampleParams (fun db label => db.HasRoom label ∧ ClosedPicks sampleParams db label) init
      (nestedFlush [100] ++ [.installCompaction fun _ => zeroDigest] ++ sampleFlush (.put [97] [])) = some db ∧
      (db.current.files 1).map (fun f => (f.smallest.userKey, f.largest.userKey)) = [([97], [97])] ∧
      (db.current.files 2).map (fun f => (f.smallest.userKey, f.largest.userKey)) = [([97], [99]), ([100], [100])] ∧
      Recent db.current db.tables := by
  refine Transition.exists_of_eval (by decide +kernel)
    (Q := fun db => (db.current.files 1).map (fun f => (f.smallest.userKey, f.largest.userKey)) = [([97], [97])] ∧
      (db.current.files 2).map (fun f => (f.smallest.userKey, f.largest.userKey)) = [([97], [99]), ([100], [100])]) ?_
  intro db run files
  have reached := reachable_of_compute rfl
    (fun db label both => ⟨hasRoom_zeroed db label both.1, by cases label <;> exact both.2⟩) .refl run
  exact ⟨files.1, files.2, recency_across_levels sampleParams db reached⟩

/-! ## A key split by a compaction

Enough updates of one key, kept by a snapshot, fill more than one output. -/

/-- The loop of a compaction runs to its end, and cuts its outputs at the size limit. -/
theorem Inv.runs_loop {p : Params} (inv : Inv db) (reached : Reachable p HasRoom db)
    {cs : CompactionState Bytes} (isRunning : db.compaction = some cs) (cut : cs.CutAtLimit p.size) :
    ∃ next cs', Reachable p HasRoom { db with nextFileNumber := next, compaction := some cs' } ∧
      cs'.input = [] ∧ cs.compaction.SameInputs cs'.compaction ∧
      cs'.smallestSnapshot = cs.smallestSnapshot ∧ cs'.CutAtLimit p.size := by
  generalize isInput : cs.input = input
  induction input generalizing db cs with
  | nil =>
    refine ⟨db.nextFileNumber, cs, ?_, isInput, .refl _, rfl, cut⟩
    rw [← isRunning]
    exact reached
  | cons ent rest ih =>
    have cut' := cut.compactEntry p.options db.nextFileNumber ent rest
    have run : db.compactionIteration p = .ok { db with
        nextFileNumber := (cs.compactEntry p.options p.size db.nextFileNumber ent).2
        compaction := some { (cs.compactEntry p.options p.size db.nextFileNumber ent).1 with input := rest } } := by
      simp only [compactionIteration, isRunning, isInput]
    obtain ⟨cs₀, cs₁, next, _, isCs, after, eq, snap, _⟩ := iterated run
    generalize cs.compactEntry p.options p.size db.nextFileNumber ent = result at run cut' after
    have sameCs : cs₀ = cs := Option.some.inj (isCs.symm.trans isRunning)
    have sameCs' : cs₁ = { result.1 with input := rest } := by
      have compactions := congrArg Db.compaction after
      exact (Option.some.inj compactions).symm
    subst sameCs
    subst sameCs'
    obtain ⟨last, final, reached', done, eq', snap', cut''⟩ :=
      ih (inv.iterate run) (Reachable.step .compactionIteration reached trivial run) rfl cut' rfl
    exact ⟨last, final, reached', done, eq.trans eq', snap'.trans snap, cut''⟩

/-- A stored update of the key that a snapshot at 0 keeps. -/
def IsUpdate (e : Record) : Prop := e.1.userKey = [97] ∧ 0 < e.1.sequence ∧ e.2.length = 352

/-- All that is stored are updates of one key in the tables of one level, and a snapshot keeps every one. -/
structure OneKey (db : Db) (level : Nat) : Prop where
  reached : Reachable sampleParams HasRoom db
  imm : db.imm = none
  idle : db.compaction = none
  snapshots : db.snapshots = [0]
  only : ∀ l, ∀ f ∈ db.current.files l, l = level ∧ ∀ e ∈ db.tables f.number, IsUpdate e

theorem exists_oneKey_memtable : ∃ db mem, Reachable sampleParams HasRoom db ∧ db.imm = some mem ∧
    db.compaction = none ∧ db.snapshots = [0] ∧ db.current = .empty ∧ mem.length = 11940 ∧
    ∀ r ∈ mem, ∃ q, 0 < q ∧ r = (Op.put [97] []).entry q := by
  obtain ⟨ops, count, isPut⟩ : ∃ ops : List Op, ops.length = 11940 ∧ ∀ op ∈ ops, op = .put [97] [] :=
    ⟨replicate 11940 (.put [97] []), length_replicate, fun _ => eq_of_mem_replicate⟩
  let db₁ : Db := { init with snapshots := [0] }
  have reached₁ : Reachable sampleParams HasRoom db₁ := Reachable.step .getSnapshot .refl trivial rfl
  have room : db₁.HasRoom (.write ops) := by
    simp only [HasRoom, count]
    decide
  have reached₂ : Reachable sampleParams HasRoom (db₁.write ops) := Reachable.step (.write ops) reached₁ room rfl
  refine ⟨_, _, Reachable.step .switchMemTable reached₂ trivial rfl, rfl, rfl, rfl, rfl, ?_, fun r member => ?_⟩
  · simp [db₁, write, insertInto_length, count, init]
  · obtain old | ⟨q, op, isNew, rfl⟩ := mem_insertInto.mp member
    · simp [db₁, init] at old
    · rw [isPut op (op_mem_of_numbered isNew)]
      exact ⟨q, (mem_numbered isNew).1, rfl⟩

/-- Half of the updates in the table, stored with their proofs, exceed the file size limit. -/
theorem exists_oneKey_flushed : ∃ db f, OneKey db 2 ∧ f ∈ db.current.files 2 ∧ (∀ g ∈ db.current.files 2, g = f) ∧
    (db.tables f.number).length = 11940 := by
  obtain ⟨db, mem, reached, isMem, idle, snapshots, nothing, len, es⟩ := exists_oneKey_memtable
  have inv := inv_of_reachable (fun _ _ room => room) reached
  obtain ⟨db', flushes⟩ := @Inv.compactMemTable_isOk sampleParams db inv mem isMem idle
    (fun empty => by simp [empty] at len) (by rw [len]; decide)
    (fun r member => by
      obtain ⟨q, _, rfl⟩ := es r member
      simp [Merkle.FitsRecord, Op.entry, Merkle.KSIZE, Merkle.VSIZE])
    (fun _ => zeroDigest) (fun _ _ => 0) zeroDigest
  obtain ⟨imm, records, node, flushed, values⟩ := inv.compactMemTable_flushed flushes
  obtain rfl : mem = imm := Option.some.inj (isMem.symm.trans flushed.isImm)
  have lands : pickLevelForMemTableOutput sampleParams.options Version.empty [97] [97] = 2 := by decide
  have isNew : ∀ l g, FlushedFile sampleParams db records l g → l = 2 := by
    intro l g new
    obtain ⟨e, isFirst, smallest⟩ := Option.map_eq_some_iff.mp new.first
    obtain ⟨e', isLast, largest⟩ := Option.map_eq_some_iff.mp new.last
    obtain ⟨i, inMem, key⟩ := mem_of_sameKeys flushed.keys (mem_of_mem_head? isFirst)
    obtain ⟨i', inMem', key'⟩ := mem_of_sameKeys flushed.keys (mem_of_getLast? isLast)
    obtain ⟨q, _, rfl⟩ := es i inMem
    obtain ⟨q', _, rfl⟩ := es i' inMem'
    rw [new.level, ← smallest, ← key, ← largest, ← key', Op.entry_userKey, Op.entry_userKey, nothing]
    exact lands
  have noOld : ∀ l, ∀ g ∈ db'.current.files l, FlushedFile sampleParams db records l g := by
    intro l g isFile
    cases flushed.cases l g isFile with
    | inl old => simp [nothing, Version.empty] at old
    | inr new => exact new
  have recordsLength : records.length = 11940 := by
    rw [values, length_mapIdx, len]
  obtain ⟨l, f, isFile, new⟩ := flushed.added fun empty => by simp [empty] at recordsLength
  have table := flushed.table_new new
  have same : ∀ l, ∀ g ∈ db'.current.files l, l = 2 ∧ g = f := by
    intro l' g isG
    have newG := noOld l' g isG
    exact ⟨isNew l' g newG, (flushed.stored.unique l' g l f isG isFile (newG.number.trans new.number.symm)).2⟩
  obtain ⟨_, _, _, eq⟩ := flushed.others
  refine ⟨db', f, ⟨Reachable.step (.compactMemTable _ _ _) reached trivial flushes, by rw [eq], by rw [eq]; exact idle,
    by rw [eq]; exact snapshots, fun l' g isG => ⟨(same l' g isG).1, fun e member => ?_⟩⟩, isNew l f new ▸ isFile,
    fun g isG => (same 2 g isG).2, by rw [table, recordsLength]⟩
  rw [(same l' g isG).2, table, values] at member
  obtain ⟨i, bound, rfl⟩ := mem_mapIdx.mp member
  obtain ⟨q, pos, isEntry⟩ := es _ (getElem_mem bound)
  simp only [IsUpdate, isEntry, Op.entry_userKey, Op.entry_sequence]
  exact ⟨rfl, pos, Merkle.storedValue_length _ _ _ _⟩

theorem updates_sum {es : List Record} (updates : ∀ e ∈ es, IsUpdate e) :
    (es.map (·.2.length)).sum = 352 * es.length := by
  rw [map_congr_left fun e mem => (updates e mem).2.2]
  simp [mul_comm]

theorem splitOutput_length {cs : CompactionState Bytes} (cut : cs.CutAtLimit sampleParams.size)
    (limit : cs.compaction.maxOutputFileSize = 2097152) {out : Output Bytes} (isOutput : out ∈ cs.allOutputs)
    (updates : ∀ e ∈ out.contents, IsUpdate e) : out.contents.length ≤ 5970 := by
  have size := TableBuilder.build_size (fun _ => 0) .default out.contents.dropLast
  have shorter : out.contents.dropLast.length = out.contents.length - 1 := length_dropLast
  rw [updates_sum fun e mem => updates e (dropLast_subset _ mem)] at size
  cases cut.all out isOutput with
  | inl single =>
    rw [single, length_nil] at shorter
    omega
  | inr small =>
    rw [limit] at small
    change (TableBuilder.build (fun _ => 0) .default out.contents.dropLast).fileSize < 2097152 at small
    change _ ≤ _ + 4096 at size
    omega

/-- A manual compaction of the level has merged the inputs into the next one. -/
structure Rewritten (db db' : Db) (level : Nat) (inputs : List (FileMetaData Bytes)) : Prop where
  reached : Reachable sampleParams HasRoom db'
  imm : db'.imm = none
  idle : db'.compaction = none
  snapshots : db'.snapshots = [0]
  kept : ∀ f ∈ db.current.files level, f ∉ inputs →
    f ∈ db'.current.files level ∧ db'.tables f.number = db.tables f.number
  written : ∀ f ∈ inputs, ∀ e ∈ db.tables f.number, ∃ g ∈ db'.current.files (level + 1), e ∈ db'.tables g.number
  files : ∀ l, ∀ g ∈ db'.current.files l, (l = level ∧ g ∈ db.current.files level ∧ g ∉ inputs) ∨
    (l = level + 1 ∧ (db'.tables g.number).length ≤ 5970 ∧ 352 * (db'.tables g.number).length ≤ g.fileSize ∧
      ∀ e ∈ db'.tables g.number, IsUpdate e)

section

variable {level : Nat} (one : OneKey db level)

include one

theorem OneKey.next_empty : db.current.files (level + 1) = [] :=
  eq_nil_iff_forall_not_mem.mpr fun f mem => by
    have isLevel := (one.only _ f mem).1
    omega

theorem OneKey.picks (positive : 0 < level) (upper : level + 1 < kNumLevels)
    (nonempty : db.current.files level ≠ []) :
    ∃ c, db.pickCompaction sampleParams (.manual level none none) = some c ∧ c.level = level ∧
      c.inputs0 = truncateInputs 2097152 0 (db.current.files level) ∧ c.inputs1 = [] ∧
      c.maxOutputFileSize = 2097152 := by
  have inv := inv_of_reachable (fun _ _ room => room) one.reached
  have known := (truncateInputs_initial 2097152 0 (db.current.files level)).sublist
  have taken : truncateInputs 2097152 0 (db.current.files level) ≠ [] := truncateInputs_ne_nil nonempty
  obtain ⟨c, setup⟩ := @setupOtherInputs_isSome Bytes _ sampleParams.options db.current level _ taken
  have limit : maxFileSizeForLevel sampleParams.options level = 2097152 :=
    (by decide : maxFileSizeForLevel sampleParams.options 0 = 2097152)
  obtain ⟨alone, noSecond⟩ := setupOtherInputs_alone one.next_empty setup
  refine ⟨c, ?_, ?_, alone, noSecond, (setupOtherInputs_limit setup).trans limit⟩
  · simp only [pickCompaction, compactRange, getOverlappingInputs_all]
    rw [if_pos upper, if_neg nonempty, if_pos positive, limit]
    exact setup
  · exact (setupOtherInputs_spec inv.stored.sorted ⟨taken, known, fun zero => absurd zero positive.ne'⟩ setup).2.1

theorem OneKey.installs {c : Compaction Bytes} (lv : c.level = level)
    (picks : db.pickCompaction sampleParams (.manual level none none) = some c) :
    ∃ pointers next cs db', let db₂ : Db := { db with
        compactPointer := pointers, nextFileNumber := next, compaction := some cs }
      Reachable sampleParams HasRoom db₂ ∧ db₂.installCompaction sampleParams (fun _ => zeroDigest) = .ok db' ∧
        cs.input = [] ∧ c.SameInputs cs.compaction ∧ cs.smallestSnapshot = 0 ∧ cs.CutAtLimit sampleParams.size := by
  let db₁ : Db := { db with compactPointer := applyCompactPointers c.edit db.compactPointer }.startWork c
  have starts : step sampleParams db (.backgroundCompaction (.manual level none none) zeroDigest) = .ok db₁ := by
    simp [Db.step, backgroundCompaction, one.idle, one.imm, picks, Trigger.isManual, db₁]
  have reached₁ := Reachable.step (.backgroundCompaction (.manual level none none) zeroDigest)
    one.reached trivial starts
  obtain ⟨next, cs, reached₂, done, same, snap, cut⟩ := Inv.runs_loop
    (inv_of_reachable (fun _ _ room => room) reached₁) reached₁ rfl
    ⟨by simp [CompactionState.allOutputs], by simp, by simp⟩
  have guarded : Guarded { db₁ with nextFileNumber := next, compaction := some cs } := by
    intro cs' isCs g isFile
    rw [← Option.some.inj isCs, same.level, lv] at isFile
    exact absurd (one.next_empty ▸ isFile) not_mem_nil
  obtain ⟨db', installs⟩ := (inv_of_reachable (fun _ _ room => room) reached₂).installCompaction_isOk
    (p := sampleParams) guarded rfl done fun _ => zeroDigest
  refine ⟨_, next, cs, db', reached₂, installs, done, same, ?_, cut⟩
  rw [snap]
  simp [smallestSnapshot, one.snapshots]

theorem OneKey.compacts (positive : 0 < level) (upper : level + 1 < kNumLevels)
    (nonempty : db.current.files level ≠ []) :
    ∃ db', Rewritten db db' level (truncateInputs 2097152 0 (db.current.files level)) := by
  obtain ⟨c, picks, lv, alone, noSecond, limit⟩ := one.picks positive upper nonempty
  have known := (truncateInputs_initial 2097152 0 (db.current.files level)).sublist
  generalize truncateInputs 2097152 0 (db.current.files level) = inputs at known alone ⊢
  obtain ⟨pointers, next, cs, db', reached₂, installs, done, same, isSnapshot, cut⟩ := one.installs lv picks
  have inv₂ := inv_of_reachable (fun _ _ room => room) reached₂
  have comp := (inv₂.install_compacted rfl installs).2
  have ok := Running.outputsOk (inv₂.running cs rfl) done sampleParams.size
  have closed := CompactionState.CutAtLimit.finish cut.all cut.sized
  have sameCompaction := (cs.finish_others sampleParams.size).1
  have tables : ∀ out ∈ (cs.finishCompactionOutputFile sampleParams.size).outputs,
      db'.tables out.number = out.contents := by
    obtain ⟨cs', _, isCs, _, _, rfl⟩ := installCompaction_ok installs
    cases isCs
    exact fun out isOut => withOutputs_of_mem ok.numbers isOut
  generalize cs.finishCompactionOutputFile sampleParams.size = final at comp ok closed sameCompaction tables
  have isInput : ∀ l f, final.compaction.IsInput l f ↔ l = level ∧ f ∈ inputs := by
    intro l f
    rw [Compaction.IsInput, sameCompaction, same.level, same.inputs0, same.inputs1, lv, alone, noSecond]
    simp
  have entries : ∀ e, e ∈ inputEntries db.tables final.compaction ↔ ∃ f ∈ inputs, e ∈ db.tables f.number := by
    intro e
    rw [mem_inputEntries, sameCompaction, same.inputs0, same.inputs1, alone, noSecond]
    simp
  have updates : ∀ e ∈ inputEntries db.tables final.compaction, IsUpdate e := by
    intro e isEntry
    obtain ⟨f, isFile, inTable⟩ := (entries e).mp isEntry
    exact (one.only level f (known.subset isFile)).2 e inTable
  refine ⟨db', Reachable.step (.installCompaction fun _ => zeroDigest) reached₂ trivial installs,
    comp.imm.trans one.imm, comp.idle, comp.snapshots.trans one.snapshots, ?_, ?_, ?_⟩
  · intro f isFile left
    have notInput : ¬final.compaction.IsInput level f := fun taken => left ((isInput level f).mp taken).2
    exact ⟨(comp.files level f).mpr (.inl ⟨isFile, notInput⟩), comp.tables level f isFile notInput⟩
  · intro f isFile e inTable
    have isEntry := (entries e).mpr ⟨f, isFile, inTable⟩
    obtain ⟨g, new, inNew⟩ | ⟨newer, isNewer, -, -, old⟩ | ⟨-, old, -⟩ := comp.accounted e isEntry
    · exact ⟨g, (comp.files _ g).mpr (.inr ⟨by rw [sameCompaction, same.level, lv], new⟩), inNew⟩
    · have positive := (updates newer isNewer).2.1
      omega
    · have positive := (updates e isEntry).2.1
      omega
  · intro l g isFile
    obtain ⟨old, notInput⟩ | ⟨isNext, out, isOut, rfl⟩ := (comp.files l g).mp isFile
    · obtain rfl := (one.only l g old).1
      exact .inl ⟨rfl, old, fun taken => notInput ((isInput l g).mpr ⟨rfl, taken⟩)⟩
    · have outUpdates : ∀ e ∈ out.contents, IsUpdate e := fun e mem => updates e (ok.contents_mem isOut mem)
      have grown := TableBuilder.finish_size (fun _ => 0) .default out.contents
      rw [updates_sum outUpdates] at grown
      refine .inr ⟨by rw [isNext, sameCompaction, same.level, lv], ?_⟩
      change (db'.tables out.number).length ≤ _ ∧ _ * (db'.tables out.number).length ≤ out.fileSize ∧
        ∀ e ∈ db'.tables out.number, _
      rw [tables out isOut]
      refine ⟨splitOutput_length closed ?_ (by simp [CompactionState.allOutputs, isOut]) outUpdates, ?_, outUpdates⟩
      · rw [sameCompaction, same.maxOutputFileSize, limit]
      · exact (closed.sized out isOut).symm ▸ grown

end

theorem totalFileSize_ge {tables : Nat → List Record} {files : List (FileMetaData Bytes)}
    (each : ∀ f ∈ files, 352 * (tables f.number).length ≤ f.fileSize) :
    352 * (files.flatMap fun f => tables f.number).length ≤ totalFileSize files := by
  induction files with
  | nil => exact le_rfl
  | cons f files ih =>
    have ⟨first, rest⟩ := forall_mem_cons.mp each
    have later := ih rest
    simp only [totalFileSize, map_cons, sum_cons, flatMap_cons, length_append] at later ⊢
    omega

/-- The key is split over files of level 3, and those before the last one reach the limit of a manual
compaction. -/
theorem exists_oneKey_split : ∃ db files g, OneKey db 3 ∧ db.current.files 3 = files ++ [g] ∧
    2097152 ≤ totalFileSize files := by
  obtain ⟨db₀, f, one, isFile, only, count⟩ := exists_oneKey_flushed
  obtain ⟨db, rewritten⟩ := one.compacts (by decide) (by decide) (ne_nil_of_mem isFile)
  have isInput : ∀ g ∈ db₀.current.files 2, g ∈ truncateInputs 2097152 0 (db₀.current.files 2) := by
    intro g isG
    obtain ⟨first, isFirst⟩ := exists_mem_of_ne_nil (truncateInputs 2097152 0 (db₀.current.files 2))
      (truncateInputs_ne_nil (ne_nil_of_mem isFile))
    have sameFirst := only first ((truncateInputs_initial _ _ _).subset isFirst)
    rwa [only g isG, ← sameFirst]
  have next : ∀ l, ∀ g ∈ db.current.files l, l = 3 ∧ (db.tables g.number).length ≤ 5970 ∧
      352 * (db.tables g.number).length ≤ g.fileSize ∧ ∀ e ∈ db.tables g.number, IsUpdate e := by
    intro l g isG
    obtain ⟨_, old, left⟩ | new := rewritten.files l g isG
    · exact absurd (isInput g old) left
    · exact new
  have kept : db₀.tables f.number ⊆ (db.current.files 3).flatMap fun g => db.tables g.number := by
    intro e inTable
    exact mem_flatMap.mpr (rewritten.written f (isInput f isFile) e inTable)
  have distinct : (db₀.tables f.number).Nodup :=
    ((inv_of_reachable (fun _ _ room => room) one.reached).stored.table 2 f isFile).sorted.imp fun less same =>
      less.ne (congrArg Prod.fst same)
  have total := (subperm_of_subset distinct kept).length_le
  obtain empty | ⟨files, g, split⟩ := eq_nil_or_concat' (db.current.files 3)
  · simp [empty, count] at total
  refine ⟨db, files, g, ⟨rewritten.reached, rewritten.imm, rewritten.idle, rewritten.snapshots,
    fun l h isFile => ⟨(next l h isFile).1, (next l h isFile).2.2.2⟩⟩, split, ?_⟩
  have large := @totalFileSize_ge db.tables files fun h isH =>
    (next 3 h (split ▸ mem_append_left _ isH)).2.2.1
  have last := (next 3 g (split ▸ mem_append_right _ (mem_singleton_self g))).2.1
  simp only [split, count, flatMap_append, flatMap_singleton, length_append] at total
  omega

/-- With a snapshot that keeps all updates of a key, a compaction splits them over several files.  A manual
compaction of these, cut at the size limit, then moves the newer ones below the older. -/
theorem split_key_breaks_recency : ∃ db, Reachable sampleParams HasRoom db ∧ ¬ Recent db.current db.tables := by
  obtain ⟨db, files, g, one, split, enough⟩ := exists_oneKey_split
  have nonempty : db.current.files 3 ≠ [] := by simp [split]
  obtain ⟨db', rewritten⟩ := one.compacts (by decide) (by decide) nonempty
  have front := @truncateInputs_append _ 2097152 0 files (by decide) (by omega) [g]
  rw [← split] at front
  obtain ⟨f, isInput⟩ := exists_mem_of_ne_nil (truncateInputs 2097152 0 (db.current.files 3))
    (truncateInputs_ne_nil nonempty)
  have inv := inv_of_reachable (fun _ _ room => room) one.reached
  have isF : f ∈ db.current.files 3 := split ▸ mem_append_left _ (front.subset isInput)
  have isG : g ∈ db.current.files 3 := split ▸ mem_append_right _ (mem_singleton_self g)
  have before : ∀ h ∈ files, h.largest < g.smallest := by
    have sorted := inv.stored.disjoint 3 (by decide)
    rw [split] at sorted
    exact fun h isH => (pairwise_append.mp sorted).2.2 h isH g (mem_singleton_self g)
  have left : g ∉ truncateInputs 2097152 0 (db.current.files 3) := fun taken =>
    absurd (before g (front.subset taken)) (not_lt.mpr (inv.stored.table 3 g isG).bounded.ordered)
  obtain ⟨stays, same⟩ := rewritten.kept g isG left
  obtain ⟨e, inF, _⟩ := (inv.stored.table 3 f isF).smallest_mem
  obtain ⟨e', inG, _⟩ := (inv.stored.table 3 g isG).smallest_mem
  obtain ⟨h, isH, inH⟩ := rewritten.written f isInput e inF
  have eqKey : e.1.userKey = e'.1.userKey := by rw [((one.only 3 f isF).2 e inF).1, ((one.only 3 g isG).2 e' inG).1]
  have newer := inv.stored.newerTable_of_lt isF isG (before f (front.subset isInput)) e inF e' inG eqKey
  refine ⟨db', rewritten.reached, fun recent => ?_⟩
  have older := recent.levels 3 4 (by decide) g stays h isH e' (same ▸ inG) e inH eqKey.symm
  exact absurd newer (not_lt.mpr older.le)

end Db

end Elsm
