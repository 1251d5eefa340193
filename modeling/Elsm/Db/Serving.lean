import Elsm.Db.GroupCommit
import Elsm.Db.History
import Elsm.Db.Recorded

/-!
# The database behind the queue

While a group is applied the memtable holds some of its entries already.  Without them the
database is one that `DBImpl` reaches by whole writes: `Served` relates the two, and every event
keeps the relation.
-/

namespace Elsm

open Function
open Merkle (Digest Record)

variable {db : Db} {p : Params}

namespace Db

/-! ## Steps do not look at the memtable in use -/

def withMem (db : Db) (mem : List Record) : Db := { db with mem := mem }

theorem logAndApply_withMem {db' : Db} {edit : VersionEdit Bytes} (mem : List Record)
    (run : db.logAndApply edit = .ok db') : (db.withMem mem).logAndApply edit = .ok (db'.withMem mem) := by
  unfold withMem
  simp only [logAndApply] at run ⊢
  split at run
  · cases run
  case isFalse inRange =>
    rw [if_neg inRange]
    split at run
    · cases run
    case h_2 v saved =>
      cases run
      rfl

theorem commitFlush_withMem {db' : Db} {records : List Record} {rh : Digest} (mem : List Record)
    (run : db.commitFlush p records rh = .ok db') :
    (db.withMem mem).commitFlush p records rh = .ok (db'.withMem mem) := by
  simp only [commitFlush] at run
  split at run
  · cases run
  case h_2 after applied =>
    cases run
    have eq := logAndApply_withMem mem applied
    unfold withMem at eq ⊢
    simp only [commitFlush]
    split
    case h_1 failed => cases eq.symm.trans failed
    case h_2 done =>
      cases eq.symm.trans done
      rfl

theorem step_withMem {db' : Db} {lbl : Step} (isBackground : lbl.isBackground = true)
    (mem : List Record) (run : step p db lbl = .ok db') :
    step p (db.withMem mem) lbl = .ok (db'.withMem mem) := by
  cases lbl with
  | write | switchMemTable => cases isBackground
  | getSnapshot | releaseSnapshot =>
    cases run
    rfl
  | chargeSeek key =>
    unfold withMem
    simp only [step] at run ⊢
    split at run
    · cases run
      rfl
    · cases run
  | compactMemTable heap beyond rh =>
    simp only [step, compactMemTable] at run
    split at run
    · cases run
    · cases run
    case h_3 imm isImm working =>
      have isImm' : (db.withMem mem).imm = some imm := isImm
      have working' : ((db.withMem mem).compaction.any fun cs => cs.input.isEmpty) = false := working
      simp only [step, compactMemTable, isImm', working']
      split at run
      · cases run
      case h_2 => exact commitFlush_withMem mem run
      case h_3 => exact commitFlush_withMem mem run
  | backgroundCompaction trigger rh =>
    have samePick : (db.withMem mem).pickCompaction p trigger = db.pickCompaction p trigger := by
      cases trigger <;> rfl
    simp only [step, backgroundCompaction] at run ⊢
    split at run
    · cases run
    case isFalse free =>
      rw [if_neg (show ¬ ((db.withMem mem).compaction.isSome = true ∨ (db.withMem mem).imm.isSome = true) from free),
        samePick]
      split at run
      · cases run
      case h_2 c picks =>
        split at run
        case h_1 => exact logAndApply_withMem mem run
        · cases run
          rfl
  | compactionIteration =>
    obtain ⟨cs, e, rest, isRunning, atEntry, rfl⟩ := compactionIteration_ok run
    have isRunning' : (db.withMem mem).compaction = some cs := isRunning
    simp only [step, compactionIteration, isRunning', atEntry]
    rfl
  | installCompaction rh =>
    simp only [step, installCompaction] at run
    split at run
    · cases run
    case h_2 cs isRunning =>
      have isRunning' : (db.withMem mem).compaction = some cs := isRunning
      split at run
      · cases run
      case h_2 done =>
        split at run
        · cases run
        case h_2 after applied =>
          cases run
          simp only [step, installCompaction, isRunning', done]
          rw [isRunning] at applied
          have eq := logAndApply_withMem mem applied
          split
          case h_1 failed => cases eq.symm.trans failed
          case h_2 done =>
            cases eq.symm.trans done
            rfl

theorem WholePicks.withMem {lbl : Step} (whole : WholePicks p db lbl)
    (mem : List Record) : WholePicks p (db.withMem mem) lbl := by
  cases lbl with
  | backgroundCompaction trigger rh => cases trigger <;> exact whole
  | _ => trivial

/-! ## Sequence numbers that are not used -/

theorem Inv.skip (inv : Inv db) {last : Nat} (later : db.lastSequence ≤ last)
    (room : last < kMaxSequenceNumber) : Inv { db with lastSequence := last } :=
  { inv with
    reserved := room
    memOk := inv.memOk.mono later
    immOk := inv.immOk.mono later
    tablesOld := fun l f isFile e inT => (inv.tablesOld l f isFile e inT).trans later
    snapshotsOld := fun s member => (inv.snapshotsOld s member).trans later
    running := fun cs isRunning => (inv.running cs isRunning).transfer rfl rfl le_rfl later fun _ member =>
      .inl member }

theorem Answerable.skip {db : Db} (ready : Answerable db) {last : Nat} (later : db.lastSequence ≤ last)
    (room : last < kMaxSequenceNumber) : Answerable { db with lastSequence := last } where
  inv := ready.inv.skip later room
  recency := ready.recency.congr rfl rfl rfl
  logged := ⟨ready.logged.ordered, fun h inH => (ready.logged.old h inH).trans later,
    ready.logged.memory, ready.logged.tables⟩
  complete := ready.complete.congr rfl (fun _ readable => readable.imp id later.trans) fun _ => Iff.rfl
  whole := ready.whole

/-! ## Tables do not change -/

/-- The numbers are taken, and not by an output that is still being written. -/
def Taken (db : Db) (numbers : Nat → Prop) : Prop :=
  ∀ n, numbers n → n < db.nextFileNumber ∧ ∀ cs ∈ db.compaction, ∀ out ∈ cs.allOutputs, out.number ≠ n

theorem Inv.taken_current (inv : Inv db) : Taken db fun n => ∃ l, ∃ f ∈ db.current.files l, f.number = n := by
  rintro n ⟨l, f, isFile, rfl⟩
  refine ⟨inv.numbers l f isFile, fun cs isRunning out isOutput => ?_⟩
  exact (((inv.running cs isRunning).fresh out isOutput).2 l f isFile).symm

variable {p : Params} {db db' : Db} {nums : Nat → Prop} {lbl : Step} (inv : Inv db) (inUse : Taken db nums)
  (run : Db.step p db lbl = .ok db')

include inv inUse run

theorem Taken.step : Taken db' nums := by
  intro n isNumber
  have ⟨below, notOutput⟩ := inUse n isNumber
  cases inv.filed.commits run with
  | inl quiet =>
    refine ⟨below.trans_le quiet.nextFileNumber, fun cs isRunning out isOutput => ?_⟩
    obtain ⟨old, isOld, pre, isBefore, eq⟩ | isNext := quiet.outputs cs isRunning out isOutput
    · exact eq ▸ notOutput old isOld pre isBefore
    · rw [isNext]
      exact below.ne'
  | inr commits =>
    obtain ⟨edit, listed⟩ := commits
    exact ⟨below.trans_le listed.nextFileNumber, fun cs isRunning => notOutput cs (listed.compaction cs isRunning)⟩

theorem Taken.tables_step {n : Nat} (isNumber : nums n) : db'.tables n = db.tables n := by
  have ⟨below, notOutput⟩ := inUse n isNumber
  cases lbl with
  | compactMemTable heap beyond rh =>
    obtain ⟨_, _, _, flushed, _⟩ := inv.compactMemTable_flushed run
    exact flushed.table_old below
  | installCompaction rh =>
    obtain ⟨cs, _, isRunning, _, _, rfl⟩ := installCompaction_ok run
    refine withOutputs_of_ne fun out isOutput => ?_
    obtain ⟨pre, isBefore, eqNum, _⟩ := CompactionState.finish_outputs isOutput
    exact eqNum ▸ notOutput cs isRunning pre isBefore
  | backgroundCompaction trigger rh =>
    obtain ⟨_, _, c, _, ⟨f, _, _, _, _, applied⟩ | started⟩ := backgroundCompaction_ok run
    · obtain ⟨_, _, rfl⟩ := logAndApply_ok applied
      rfl
    · rw [started]
      rfl
  | write | switchMemTable | getSnapshot | releaseSnapshot | chargeSeek | compactionIteration =>
    have effect := inv.effect run
    cases effect
    rfl

end Db

/-! ## The relation -/

namespace System

/-- The database with whole writes only. -/
structure Served (s : System) (mem : List Record) : Prop where
  ready : (s.db.withMem mem).Answerable
  idle : (∀ t work, s.pc t ≠ .applying work) → s.db.mem = mem
  applying : ∀ t work, s.pc t = .applying work → s.db.mem = insertInto (s.db.lastSequence + 1) work.added mem

/-- The events under which reads can be answered: sequence numbers do not run out, and a compaction
leaves no part of a key behind. -/
def Admits (p : Params) (s : System) : Event → Prop
  | .finish t => ∀ work, s.pc t = .applying work → work.lastSequence < kMaxSequenceNumber
  | .background label => Db.WholePicks p s.db label
  | _ => True

/-- Checks the first of the two, and that no compaction is picked. -/
def picksNothing (s : System) : Event → Bool
  | .finish t =>
    match s.pc t with
    | .applying work => decide (work.lastSequence < kMaxSequenceNumber)
    | _ => true
  | .background (.backgroundCompaction _ _) => false
  | _ => true

theorem Admits.of_picksNothing {s : System} {ev : Event} (checked : s.picksNothing ev = true) : Admits p s ev := by
  cases ev with
  | finish t =>
    intro work here
    simpa only [picksNothing, here, decide_eq_true_eq] using checked
  | background lbl =>
    cases lbl with
    | backgroundCompaction => cases checked
    | _ => trivial
  | _ => trivial

theorem insertInto_append (seq : Nat) (ops : List Op) (op : Op) (mem : List Record) :
    insertInto seq (ops ++ [op]) mem = insertEntry (op.entry (seq + ops.length)) (insertInto seq ops mem) := by
  induction ops generalizing seq mem with
  | nil => rfl
  | cons first rest ih =>
    have shift : seq + (first :: rest).length = seq + 1 + rest.length := by
      simp only [List.length_cons]
      omega
    rw [shift]
    exact ih (seq + 1) _

theorem addTo_mem {table : Nat} (isTable : table = db.logfileNumber) (e : Record) :
    addTo db table e = db.withMem (insertEntry e db.mem) := by
  rw [addTo, if_pos isTable]
  rfl

section Serve

variable {s : System} {mem : List Record}

theorem Served.db_of_idle (served : Served s mem) (none : ∀ t work, s.pc t ≠ .applying work) : s.db.Answerable := by
  have ready := served.ready
  rw [← served.idle none] at ready
  exact ready

theorem Served.goto (served : Served s mem) {t : Nat} {pc : Pc}
    (pre : ∀ work, s.pc t = .applying work → ∃ work', pc = .applying work' ∧ work'.added = work.added)
    (after : ∀ work, pc = .applying work → s.db.mem = insertInto (s.db.lastSequence + 1) work.added mem) :
    Served (s.goto t pc) mem := by
  constructor
  · exact served.ready
  · intro none
    refine served.idle fun u work applying => ?_
    by_cases here : u = t
    · subst here
      obtain ⟨work', isPc, _⟩ := pre work applying
      exact none u work' (by simp [System.goto, isPc])
    · exact none u work (by simpa [System.goto, here] using applying)
  · intro u work applying
    by_cases here : u = t
    · subst here
      exact after work (by simpa [System.goto] using applying)
    · simp only [System.goto, update_of_ne here] at applying
      exact served.applying u work applying

variable {t : Nat}

theorem Served.popped (queued : Queued s) (ready : s.db.Answerable) (front : s.writers.head? = some t)
    (ms rest : List Nat) (status : Option Status) (ops : List Op) (first : Nat) (synced : Bool) :
    Served (s.popped t ms rest status ops first synced) s.db.mem := by
  constructor
  · exact ready
  · exact fun _ => rfl
  exact fun u work applying => absurd applying (queued.popped_idle front u work)

variable (served : Served s mem)

include served

theorem Served.switches (queued : Queued s) {force allowDelay : Bool}
    (here : s.pc t = .makingRoom force allowDelay) (p : Params) (switched : s.db.switchMemTable = .ok db) :
    Served { s.goto t (.makingRoom false allowDelay) with db := db } db.mem := by
  have none := queued.none_applying here
  have ready := served.db_of_idle none
  have front := queued.leader t (by rw [here]; trivial)
  have queued' : Queued (s.goto t (.makingRoom false allowDelay)) := queued.goto front trivial
  have none' := queued'.none_applying (update_self _ _ _)
  have ready' : db.Answerable := @Db.Answerable.step p s.db db ready .switchMemTable trivial trivial switched
  exact ⟨ready', fun _ => rfl, fun u work applying => absurd applying (none' u work)⟩

theorem Served.adds (queued : Queued s) (working : Working s) {work : Work}
    (here : s.pc t = .applying work) {table seq : Nat} {op : Op} {rest : List Op}
    (stage : work.stage = .inserting table seq (op :: rest)) :
    Served { s.goto t (.applying { work with stage := .inserting table (seq + 1) rest }) with
      db := addTo s.db table (op.entry seq)
      adds := s.adds ++ [⟨table, seq, op⟩] } mem := by
  have doing := working.doing t work here
  obtain ⟨added, isAdded, isSequence, isTable, isNext, _⟩ := doing.inserting stage
  have front := queued.leader t (by rw [here]; trivial)
  have queued' : Queued (s.goto t (.applying { work with stage := .inserting table (seq + 1) rest })) :=
    queued.goto front trivial
  rw [addTo_mem isTable]
  constructor
  · exact served.ready
  · intro none
    exact absurd (update_self _ _ _) (none t { work with stage := .inserting table (seq + 1) rest })
  intro u other there
  have eq : u = t := queued'.only_applying (update_self _ _ _) there
  subst eq
  have isWork : other = { work with stage := .inserting table (seq + 1) rest } := by
    simpa [System.goto] using there.symm
  rw [isWork, isNext]
  change insertEntry (op.entry seq) s.db.mem = insertInto (s.db.lastSequence + 1) (added ++ [op]) mem
  rw [insertInto_append, served.applying u work here, isAdded, isSequence, doing.sequence]

theorem Served.finishes (queued : Queued s) (working : Working s) (p : Params)
    {work : Work} (here : s.pc t = .applying work) {status bgError : Option Status} {syncError : Bool}
    (stage : work.stage = .finished status syncError) (room : work.lastSequence < kMaxSequenceNumber)
    (ms rest : List Nat) :
    Served ((s.applied work status bgError).popped t ms rest status
      (if status.isNone then work.updates else []) (s.db.lastSequence + 1) work.synced)
      s.db.mem := by
  have doing := working.doing t work here
  have front := queued.leader t (by rw [here]; trivial)
  have isMem := served.applying t work here
  have isLast := doing.lastSequence
  have added : work.added = if status.isNone then work.updates else [] := by
    simp [Work.added, stage]
  refine Served.popped (queued.applied work status bgError) ?_ front ms rest status _ _ work.synced
  cases status with
  | none =>
    have wr := @Db.Answerable.step p (s.db.withMem mem) _ served.ready (.write work.updates)
      (show s.db.lastSequence + work.updates.length < kMaxSequenceNumber by omega) trivial rfl
    have isMem' : s.db.mem = insertInto (s.db.lastSequence + 1) work.updates mem := by
      rw [isMem, added]
      rfl
    have eq : (s.applied work none bgError).db = (s.db.withMem mem).write work.updates := by
      simp only [System.applied, Db.write, Db.withMem, isLast, ← isMem', Option.isNone_none, if_true]
    rw [eq]
    exact wr
  | some error =>
    have isMem' : s.db.mem = mem := by
      rw [isMem, added]
      rfl
    have skipped := @Db.Answerable.skip _ served.ready work.lastSequence
      (show s.db.lastSequence ≤ work.lastSequence by omega) room
    have eq : (s.applied work (some error) bgError).db =
        { s.db.withMem mem with lastSequence := work.lastSequence } := by
      simp [System.applied, Db.withMem, ← isMem', numbered]
    rw [eq]
    exact skipped

theorem Served.congr {s' : System} (db : s'.db = s.db) (pc : s'.pc = s.pc) : Served s' mem := by
  constructor
  · rw [db]
    exact served.ready
  · rw [db, pc]
    exact served.idle
  · rw [db, pc]
    exact served.applying

theorem Served.background {lbl : Step} (isBackground : lbl.isBackground = true)
    (picks : Db.WholePicks p s.db lbl) (run : s.db.step p lbl = .ok db) :
    Served { s with db := db } mem := by
  have apart := (Db.step_apart isBackground run).1
  have room : (s.db.withMem mem).HasRoom lbl := by
    cases lbl with
    | write => cases isBackground
    | _ => trivial
  constructor
  · exact served.ready.step room (picks.withMem mem) (Db.step_withMem isBackground mem run)
  · intro none
    exact apart.mem.trans (served.idle none)
  intro t work applying
  change db.mem = insertInto (db.lastSequence + 1) work.added mem
  rw [apart.mem, apart.lastSequence]
  exact served.applying t work applying

end Serve

theorem Served.effect {s s' : System} {mem : List Record} {ev : Event} (served : Served s mem)
    (queued : Queued s) (working : Working s) (adm : Admits p s ev) (effect : Effect p s ev s') :
    ∃ mem', Served s' mem' := by
  have moves : ∀ {t : Nat} {pc : Pc}, (∀ work, s.pc t ≠ .applying work) → (∀ work, pc ≠ .applying work) →
      Served (s.goto t pc) mem := by
    intro t pc pre after
    exact served.goto (fun work applying => absurd applying (pre work))
      fun work applying => absurd applying (after work)
  have stays : ∀ {t : Nat} {work work' : Work}, s.pc t = .applying work → work'.added = work.added →
      Served (s.goto t (.applying work')) mem := by
    intro t work work' here added
    refine served.goto (fun other applying => ⟨work', rfl, ?_⟩) fun other applying => ?_
    · rw [applying] at here
      cases here
      exact added
    cases applying
    rw [added]
    exact served.applying t work here
  cases effect with
  | call out =>
    refine ⟨mem, (moves (by simp [out]) ?_).congr rfl rfl⟩
    simp
  | idle => exact ⟨mem, served⟩
  | returns waits | leads waits => exact ⟨mem, moves (by simp [waits]) (by simp)⟩
  | delays here => exact ⟨mem, moves (by simp [here]) (by simp)⟩
  | switches here _ switched => exact ⟨_, served.switches queued here p switched⟩
  | alone here =>
    have front := queued.leader _ (by rw [here]; trivial)
    exact ⟨_, Served.popped queued (served.db_of_idle (queued.none_applying here)) front _ _ _ _ _ _⟩
  | builds here =>
    refine ⟨mem, (served.goto (fun work applying => absurd applying (by simp [here])) ?_).congr rfl rfl⟩
    intro work applying
    cases applying
    exact served.idle (queued.none_applying here)
  | syncFails here stage | inserts here stage | inserted here stage =>
    exact ⟨mem, stays here (by simp [Work.added, stage])⟩
  | adds here stage => exact ⟨mem, served.adds queued working here stage⟩
  | finishes here stage => exact ⟨_, served.finishes queued working p here stage (adm _ here) _ _⟩
  | background isBackground run => exact ⟨mem, served.background isBackground adm run⟩
  | backgroundError => exact ⟨mem, served.congr rfl rfl⟩

/-- What the queue and the database keep together. -/
structure Serving (base : Nat) (s : System) : Prop where
  invariant : Invariant base s
  served : ∃ mem, Served s mem

theorem start_serving (ready : db.Answerable) : Serving db.lastSequence (start db) where
  invariant := start_invariant db
  served := ⟨db.mem, ready, fun _ => rfl, fun _ _ applying => by simp [start] at applying⟩

theorem Serving.step {writeBufferSize base : Nat} {s s' : System} {ev : Event}
    (serving : Serving base s) (adm : Admits p s ev) (run : s.step p writeBufferSize ev = .ok s') :
    Serving base s' := by
  obtain ⟨mem, served⟩ := serving.served
  exact ⟨serving.invariant.step run,
    served.effect serving.invariant.queued serving.invariant.working adm (step_effect run)⟩

end System

end Elsm
