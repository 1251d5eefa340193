import Elsm.Db.Serving
import Elsm.Db.Crash

/-!
# What a reader sees

`Get` and `NewInternalIterator` take the last sequence number, the memtables and the current
version under the mutex and read them without it, while groups are applied and versions
installed.
-/

namespace Elsm

open List
open Merkle (Record)

namespace System

/-- What a reader takes under the mutex.  A memtable is held by its pointer. -/
structure View where
  sequence : Nat
  mem : Nat
  imm : List Record
  current : Version Bytes

def capture (s : System) : View := ⟨s.db.lastSequence, s.db.logfileNumber, s.db.imm.getD [], s.db.current⟩

/-- The entries a reader finds when it gets round to reading. -/
def View.Sees (view : View) (s : System) (e : Record) : Prop :=
  e.1.sequence ≤ view.sequence ∧
    (e ∈ s.memtable view.mem ∨ e ∈ view.imm ∨ ∃ l, ∃ f ∈ view.current.files l, e ∈ s.db.tables f.number)

variable {e : Record}

theorem mem_memtable {s : System} {table : Nat} :
    e ∈ s.memtable table ↔ ∃ a ∈ s.adds, a.table = table ∧ a.entry = e := by
  simp [memtable, and_assoc]

variable {s s' : System} {mem : List Record}

/-! ## The operations behind the last sequence number -/

def Credited (earlier : List (Nat × Op)) (s : System) : Prop :=
  s.db.history = earlier ++ s.groups.flatMap fun g => numbered g.first g.ops

theorem Credited.effect {p : Params} {earlier : List (Nat × Op)} {ev : Event}
    (credited : Credited earlier s) (effect : Effect p s ev s') : Credited earlier s' := by
  cases effect with
  | call | idle | returns | leads | delays | builds | syncFails | inserts | inserted | backgroundError =>
    exact credited
  | switches _ free switched =>
    simp only [Db.switchMemTable, free] at switched
    cases switched
    exact credited
  | adds =>
    have eq : ∀ table e, (addTo s.db table e).history = s.db.history := by
      intro table e
      rw [addTo]
      split <;> rfl
    exact (eq _ _).trans credited
  | alone =>
    change s.db.history = earlier ++ (s.groups ++ [_]).flatMap _
    rw [flatMap_append, ← append_assoc, ← credited]
    exact (append_nil _).symm
  | finishes =>
    change s.db.history ++ _ = earlier ++ (s.groups ++ [_]).flatMap _
    rw [flatMap_append, ← append_assoc, ← credited, flatMap_singleton]
  | background isBackground run => exact (Db.step_apart isBackground run).1.history.trans credited

/-! ## While the reader reads -/

/-- What was there when the reader came stays as it was, and what comes later has a larger number. -/
structure Since (s₀ s : System) : Prop where
  sequence : s₀.db.lastSequence ≤ s.db.lastSequence
  history : s₀.db.history <+: s.db.history
  adds : ∃ later, s.adds = s₀.adds ++ later ∧ ∀ a ∈ later, s₀.db.lastSequence < a.sequence
  taken : s.db.Taken fun n => ∃ l, ∃ f ∈ s₀.db.current.files l, f.number = n
  tables : ∀ l, ∀ f ∈ s₀.db.current.files l, s.db.tables f.number = s₀.db.tables f.number

theorem Since.refl (served : Served s mem) : Since s s where
  sequence := le_rfl
  history := prefix_rfl
  adds := ⟨[], (append_nil _).symm, fun _ none => absurd none not_mem_nil⟩
  taken := served.ready.inv.taken_current
  tables _ _ _ := rfl

theorem Since.congr {s₀ s s' : System} (since : Since s₀ s) (adds : s'.adds = s.adds)
    (seq : s.db.lastSequence ≤ s'.db.lastSequence) (history : s.db.history <+: s'.db.history)
    (next : s.db.nextFileNumber ≤ s'.db.nextFileNumber) (compaction : s'.db.compaction = s.db.compaction)
    (ts : s'.db.tables = s.db.tables) : Since s₀ s' where
  sequence := since.sequence.trans seq
  history := since.history.trans history
  adds := adds ▸ since.adds
  taken n isNumber := by
    have ⟨below, notOutput⟩ := since.taken n isNumber
    exact ⟨below.trans_le next, by rw [compaction]; exact notOutput⟩
  tables := ts ▸ since.tables

theorem Since.effect {p : Params} {s₀ s s' : System} {ev : Event} (since : Since s₀ s)
    (served : Served s mem) (working : Working s) (effect : Effect p s ev s') : Since s₀ s' := by
  cases effect with
  | call | idle | returns | leads | delays | alone | builds | syncFails | inserts | inserted | backgroundError =>
    exact since.congr rfl le_rfl prefix_rfl le_rfl rfl rfl
  | switches _ free switched =>
    simp only [Db.switchMemTable, free] at switched
    cases switched
    exact since.congr rfl le_rfl prefix_rfl (Nat.le_succ _) rfl rfl
  | finishes here =>
    rename_i t work _ _ _ _ _ _ _ _
    have larger : s.db.lastSequence ≤ work.lastSequence := by
      rw [(working.doing t work here).lastSequence]
      exact Nat.le_add_right _ _
    exact since.congr rfl larger (prefix_append _ _) le_rfl rfl rfl
  | adds here stage =>
    rename_i t work table sequence op rest
    have doing := working.doing t work here
    obtain ⟨added, _, isSequence, isTable, _, _⟩ := doing.inserting stage
    obtain ⟨later, isLater, larger⟩ := since.adds
    rw [addTo_mem isTable]
    refine ⟨since.sequence, since.history, ⟨later ++ [⟨table, sequence, op⟩], ?_, ?_⟩, since.taken, since.tables⟩
    · change s.adds ++ [_] = _
      rw [isLater, append_assoc]
    apply SortedList.forall_mem_concat larger
    have first := doing.sequence
    have := since.sequence
    change s₀.db.lastSequence < sequence
    omega
  | background isBackground run =>
    have apart := (Db.step_apart isBackground run).1
    have run' := Db.step_withMem isBackground mem run
    refine ⟨apart.lastSequence ▸ since.sequence, apart.history ▸ since.history, since.adds, ?_, ?_⟩
    · have inUse := @Db.Taken.step _ (s.db.withMem mem) _ _ _ served.ready.inv since.taken run'
      exact inUse
    intro l f isFile
    have kept := @Db.Taken.tables_step _ (s.db.withMem mem) _ _ _ served.ready.inv since.taken run' f.number
      ⟨l, f, isFile, rfl⟩
    exact kept.trans (since.tables l f isFile)

/-! ## The entries seen -/

section Seen

variable {s₀ s : System} {mem : List Record}

theorem Served.mem_iff (served : Served s₀ mem) : e ∈ mem ↔ e ∈ s₀.db.mem ∧ e.1.sequence ≤ s₀.db.lastSequence := by
  have old : e ∈ mem → e.1.sequence ≤ s₀.db.lastSequence := served.ready.inv.memOk.old e
  by_cases someone : ∃ t work, s₀.pc t = .applying work
  · obtain ⟨t, work, here⟩ := someone
    rw [served.applying t work here, mem_insertInto]
    constructor
    · exact fun member => ⟨.inl member, old member⟩
    rintro ⟨member | ⟨q, op, isNumbered, rfl⟩, small⟩
    · exact member
    have larger := (mem_numbered isNumbered).1
    rw [Op.entry_sequence] at small
    omega
  · have idle : ∀ t work, s₀.pc t ≠ .applying work := fun t work here => someone ⟨t, work, here⟩
    rw [served.idle idle]
    exact ⟨fun member => ⟨member, old member⟩, And.left⟩

variable (since : Since s₀ s) (served : Served s₀ mem)
  (placed : ∀ e, e ∈ s₀.db.mem ↔ e ∈ s₀.memtable s₀.db.logfileNumber)

include since served placed

/-- A reader sees what the database held in whole groups when it came. -/
theorem Since.sees_iff : (capture s₀).Sees s e ↔ (s₀.db.withMem mem).Held e := by
  have ⟨later, isLater, larger⟩ := since.adds
  have inMem : e.1.sequence ≤ s₀.db.lastSequence →
      (e ∈ s.memtable s₀.db.logfileNumber ↔ e ∈ s₀.memtable s₀.db.logfileNumber) := by
    intro small
    rw [mem_memtable, mem_memtable, isLater]
    constructor
    · rintro ⟨a, isAdd, isTable, isEntry⟩
      cases mem_append.mp isAdd with
      | inl old => exact ⟨a, old, isTable, isEntry⟩
      | inr isLate =>
        have isLarge := larger a isLate
        rw [← isEntry] at small
        rw [Add.entry, Op.entry_sequence] at small
        omega
    · rintro ⟨a, isAdd, known⟩
      exact ⟨a, mem_append_left _ isAdd, known⟩
  have inv := served.ready.inv
  constructor
  · rintro ⟨small, inT | inImm | ⟨l, f, isFile, inFile⟩⟩
    · exact .inl (served.mem_iff.mpr ⟨(placed e).mpr ((inMem small).mp inT), small⟩)
    · exact .inr (.inl inImm)
    · exact .inr (.inr ⟨l, f, isFile, since.tables l f isFile ▸ inFile⟩)
  · rintro (inMemory | inImm | ⟨l, f, isFile, inFile⟩)
    · have ⟨inUse, small⟩ := served.mem_iff.mp inMemory
      exact ⟨small, .inl ((inMem small).mpr ((placed e).mp inUse))⟩
    · exact ⟨inv.immOk.old e inImm, .inr (.inl inImm)⟩
    refine ⟨inv.tablesOld l f isFile e inFile, .inr (.inr ⟨l, f, isFile, ?_⟩)⟩
    rw [since.tables l f isFile]
    exact inFile

theorem Since.known (isSeen : (capture s₀).Sees s e) : ∃ h ∈ s₀.db.history, e = h.2.entry h.1 ∨ StoredEntry h e := by
  have logged := served.ready.logged
  obtain inMem | inImm | ⟨l, f, isFile, inT⟩ := (since.sees_iff served placed).mp isSeen
  · obtain ⟨h, inH, isEntry⟩ := logged.memory e (.inl inMem)
    exact ⟨h, inH, .inl isEntry⟩
  · obtain ⟨h, inH, isEntry⟩ := logged.memory e (.inr inImm)
    exact ⟨h, inH, .inl isEntry⟩
  · obtain ⟨h, inH, isStored⟩ := logged.tables l f isFile e inT
    exact ⟨h, inH, .inr isStored⟩

end Seen

/-! ## Runs -/

section Runs

variable {p : Params} {writeBufferSize : Nat} {db : Db} {s₀ s : System}

theorem captured_of_run (ready : db.Answerable) (empty : db.mem = [])
    (run : Transition.Reaches (Transition.Steps (step p writeBufferSize)) (Admits p) (start db) s₀) :
    Serving db.lastSequence s₀ ∧ (∀ e, e ∈ s₀.db.mem ↔ e ∈ s₀.memtable s₀.db.logfileNumber) ∧
      Credited db.history s₀ := by
  have placed := placed_of_reachable ready.inv.logs.2 (run.mono fun _ _ _ => trivial)
  have both := run.invariant (fun s => Serving db.lastSequence s ∧ Credited db.history s)
    ⟨start_serving ready, by simp [Credited, start]⟩ fun inv adm taken =>
      ⟨inv.1.step adm taken, inv.2.effect (step_effect taken)⟩
  refine ⟨both.1, fun e => ?_, both.2⟩
  rw [placed.mem.mem_iff, contents, empty]
  simp

theorem since_of_run {base : Nat} (serving : Serving base s₀)
    (reads : Transition.Reaches (Transition.Steps (step p writeBufferSize)) (Admits p) s₀ s) : Since s₀ s := by
  obtain ⟨mem, served⟩ := serving.served
  suffices both : Serving base s ∧ Since s₀ s from both.2
  refine reads.invariant (fun s => Serving base s ∧ Since s₀ s) ⟨serving, Since.refl served⟩ ?_
  intro pre after ev ⟨serving, since⟩ adm run
  obtain ⟨mem, served⟩ := serving.served
  exact ⟨serving.step adm run, since.effect served serving.invariant.working (step_effect run)⟩

end Runs

/-- A reader sees no operation of a group that has not left the queue, and of the operations of
those that have left with an OK status it knows the newest for every key. -/
theorem reads_see_whole_groups (p : Params) (writeBufferSize : Nat) (db : Db)
    (opened : Db.SessionReachable p (Db.Saves p) db) (empty : db.mem = []) (s₀ s : System)
    (run : Transition.Reaches (Transition.Steps (step p writeBufferSize)) (Admits p) (start db) s₀)
    (reads : Transition.Reaches (Transition.Steps (step p writeBufferSize)) (Admits p) s₀ s) :
    s₀.db.history = db.history ++ s₀.groups.flatMap (fun g => numbered g.first g.ops) ∧
      (∀ g ∈ s₀.groups, g.ops = if g.status.isNone then g.members.flatMap s₀.ops else []) ∧
      (∀ e, (capture s₀).Sees s e → ∃ h ∈ s₀.db.history, e = h.2.entry h.1 ∨ StoredEntry h e) ∧
      ∀ h, IsNewest s₀.db.history s₀.db.lastSequence h → (∃ e, (capture s₀).Sees s e ∧ e.1 = (h.2.entry h.1).1) ∨
          (∃ key, h.2 = .delete key) ∧ ∀ e, (capture s₀).Sees s e → e.1.userKey ≠ h.2.key := by
  have ready := (Db.saved_of_sessions opened).2.1
  obtain ⟨serving, placed, credited⟩ := captured_of_run ready empty run
  have since := since_of_run serving reads
  obtain ⟨mem, served⟩ := serving.served
  have sees : ∀ {e}, (capture s₀).Sees s e ↔ (s₀.db.withMem mem).Held e := since.sees_iff served placed
  refine ⟨credited, serving.invariant.working.ops, fun e isSeen => since.known served placed isSeen, ?_⟩
  · intro h newest
    cases served.ready.complete s₀.db.lastSequence (.inr le_rfl) h newest with
    | inl found =>
      obtain ⟨e, held, isEntry⟩ := found
      exact .inl ⟨e, sees.mpr held, isEntry⟩
    | inr hidden =>
      refine .inr ⟨hidden.1, fun e isSeen sameKey => ?_⟩
      exact absurd isSeen.1 (hidden.2 e (sees.mp isSeen) sameKey).not_ge

def midway : List Event :=
  [.call 0 (some (oneOp (.put [97] [1]))) false] ++ leaderEvents 0 1 ++
    [.call 1 (some (oneOp (.put [98] [2]))) false, .check 1, .makeRoom 1 0 none, .syncLog 1 none, .add 1]

theorem reads_see_whole_groups_midway : ∃ s₀ s,
    Transition.run (step Db.sampleParams 4194304) (fun s event => s.picksNothing event = true)
      (start Db.init) midway = some s₀ ∧
      Transition.run (step Db.sampleParams 4194304) (fun s event => s.picksNothing event = true) s₀
        [.add 1, .finish 1] = some s ∧
      s.db.history = [(1, .put [97] [1]), (2, .put [98] [2])] ∧ s₀.db.history = [(1, .put [97] [1])] ∧
      (∀ e, (capture s₀).Sees s e → e.1.userKey = [97]) ∧ ∃ e, (capture s₀).Sees s e ∧ e.1.userKey = [97] := by
  obtain ⟨s₀, runs, s, reads, history, history₀, last⟩ :
      ∃ s₀ ∈ Transition.run (step Db.sampleParams 4194304) (fun s event => s.picksNothing event = true)
        (start Db.init) midway,
      ∃ s ∈ Transition.run (step Db.sampleParams 4194304)
        (fun s event => s.picksNothing event = true) s₀ [.add 1, .finish 1],
        s.db.history = [(1, .put [97] [1]), (2, .put [98] [2])] ∧ s₀.db.history = [(1, .put [97] [1])] ∧
          s₀.db.lastSequence = 1 := by decide +kernel
  have admits : ∀ (s : System) (event : Event), s.picksNothing event = true → Admits Db.sampleParams s event :=
    fun _ _ => .of_picksNothing
  obtain ⟨_, _, known, complete⟩ := reads_see_whole_groups Db.sampleParams 4194304 Db.init .refl rfl s₀ s
    ((Transition.reaches_of_run .refl runs).mono admits) ((Transition.reaches_of_run .refl reads).mono admits)
  refine ⟨s₀, s, runs, reads, history, history₀, fun e isSeen => ?_, ?_⟩
  · obtain ⟨h, inHistory, isEntry | isStored⟩ := known e isSeen
    all_goals
      rw [history₀, mem_singleton] at inHistory
      subst inHistory
    · rw [isEntry]
      rfl
    · rw [isStored.key]
      rfl
  · have newest : IsNewest s₀.db.history s₀.db.lastSequence (1, .put [97] [1]) := by
      rw [history₀, last]
      exact ⟨mem_singleton_self _, le_rfl, by simp⟩
    obtain ⟨e, isSeen, isEntry⟩ | ⟨⟨key, isDelete⟩, _⟩ := complete _ newest
    · exact ⟨e, isSeen, by rw [isEntry]; rfl⟩
    · cases isDelete

def syncFailure : List Event :=
  [.call 0 (some (oneOp (.put [97] [1]))) true, .check 0, .makeRoom 0 0 none,
    .syncLog 0 (some (.ioError "000003.log")), .finish 0]

/-- Its sequence number is published, and its operation is nowhere. -/
theorem failed_group_not_seen : ∃ s,
    Transition.run (step Db.sampleParams 4194304) (fun s event => s.picksNothing event = true) (start Db.init)
        syncFailure = some s ∧
      s.pc 0 = .returned (some (.ioError "000003.log")) ∧ s.ops 0 = [.put [97] [1]] ∧ s.db.lastSequence = 1 ∧
      ∀ e, ¬ (capture s).Sees s e := by
  refine Transition.exists_of_eval (by decide +kernel)
    (Q := fun s => s.pc 0 = .returned (some (.ioError "000003.log")) ∧
    s.ops 0 = [.put [97] [1]] ∧ s.db.lastSequence = 1 ∧ s.db.history = []) ?_
  rintro s runs ⟨returned, ops, last, history⟩
  refine ⟨returned, ops, last, fun e isSeen => ?_⟩
  have run := (Transition.reaches_of_run .refl runs).mono
    fun s event (checked : s.picksNothing event = true) => (.of_picksNothing checked : Admits Db.sampleParams s event)
  obtain ⟨serving, placed, _⟩ := captured_of_run Db.init_answerable rfl run
  obtain ⟨mem, served⟩ := serving.served
  obtain ⟨h, inHistory, _⟩ := (Since.refl served).known served placed isSeen
  simp [history] at inHistory

end System

end Elsm
