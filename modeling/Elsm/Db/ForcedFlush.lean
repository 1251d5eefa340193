import Elsm.Db.ReadView

/-!
# Forced compaction of the memtable

`TEST_CompactMemTable` calls `Write` with a `NULL` batch, which makes its leader switch the
memtable, and waits until there is no immutable memtable.  A `NULL` batch that another leader
takes into its group switches nothing.
-/

namespace Elsm

open List Function
open Merkle (Record)

/-- The operation is in a table of the current version, or it is a deletion that has nothing left to
delete for a reader at `r`. -/
def Db.InTables (db : Db) (r : Nat) (h : Nat × Op) : Prop :=
  (∃ l, ∃ f ∈ db.current.files l, ∃ e ∈ db.tables f.number, e.1 = (h.2.entry h.1).1) ∨ (∃ key, h.2 = .delete key) ∧
      ∀ l, ∀ f ∈ db.current.files l, ∀ e ∈ db.tables f.number, e.1.userKey = h.2.key → r < e.1.sequence

namespace System

/-- When a call with a batch is at the front, no `NULL` batch is in the queue. -/
def NullsLead (s : System) : Event → Prop
  | .makeRoom t _ _ => (s.writer t).batch.isSome → ∀ u ∈ s.writers, (s.writer u).batch.isSome
  | _ => True

instance (s : System) (event : Event) : Decidable (s.NullsLead event) := by
  cases event <;> simp only [NullsLead] <;> infer_instance

def Cleared (last : Nat) (s : System) : Prop := ∀ e ∈ s.db.mem, last < e.1.sequence

def Behind (t : Nat) (s : System) : Prop :=
  ∀ u work, s.pc u = .applying work → ∀ members rest,
    popWriters work.lastWriter s.writers = some (members, rest) → t ∉ members

/-- A call with a `NULL` batch on its way to the front, and what it has done there. -/
structure Forcing (last t : Nat) (s : System) : Prop where
  begun : s.pc t ≠ .outside
  batch : (s.writer t).batch = none
  queued : s.pc t = .waiting → t ∈ s.writers ∧ Behind t s
  room : ∀ force allowDelay, s.pc t = .makingRoom force allowDelay → force = true ∨ Cleared last s
  batchless : ∀ work, s.pc t ≠ .applying work
  returned : s.pc t = .returned none → Cleared last s
  later : last ≤ s.db.lastSequence

section Force

variable {last t : Nat} {s s' : System}

section

variable (forcing : Forcing last t s)

include forcing

theorem Forcing.keep (pc : s'.pc t = s.pc t) (writer : (s'.writer t).batch = (s.writer t).batch)
    (waits : s.pc t = .waiting → t ∈ s.writers → Behind t s → t ∈ s'.writers ∧ Behind t s')
    (cleared : Cleared last s → Cleared last s') (later : s.db.lastSequence ≤ s'.db.lastSequence) :
    Forcing last t s' where
  begun := pc ▸ forcing.begun
  batch := writer.trans forcing.batch
  queued waiting := by
    rw [pc] at waiting
    have ⟨inQueue, behind⟩ := forcing.queued waiting
    exact waits waiting inQueue behind
  room force allowDelay here := (forcing.room force allowDelay (pc ▸ here)).imp id cleared
  batchless := pc ▸ forcing.batchless
  returned isReturned := cleared (forcing.returned (pc ▸ isReturned))
  later := forcing.later.trans later

theorem Forcing.congr (pc : s'.pc = s.pc) (writer : s'.writer = s.writer)
    (writers : s'.writers = s.writers) (cleared : Cleared last s → Cleared last s')
    (later : s.db.lastSequence ≤ s'.db.lastSequence) : Forcing last t s' := by
  refine forcing.keep (congrFun pc t) (by rw [writer]) (fun _ inQueue behind => ?_) cleared later
  rw [writers]
  refine ⟨inQueue, ?_⟩
  rw [Behind, pc, writers]
  exact behind

theorem Forcing.goto_self {pc : Pc} (begun : pc ≠ .outside) (moved : pc ≠ .waiting)
    (room : ∀ force allowDelay, pc = .makingRoom force allowDelay → force = true ∨ Cleared last s)
    (batchless : ∀ work, pc ≠ .applying work) (returned : pc = .returned none → Cleared last s) :
    Forcing last t (s.goto t pc) := by
  have here : (s.goto t pc).pc t = pc := update_self _ _ _
  constructor
  · rw [here]
    exact begun
  · exact forcing.batch
  · rw [here]
    exact fun waiting => absurd waiting moved
  · rw [here]
    exact room
  · rw [here]
    exact batchless
  · rw [here]
    exact returned
  · exact forcing.later

variable {u : Nat}

theorem Forcing.goto_other (other : u ≠ t) {pc : Pc}
    (group : ∀ work, pc = .applying work → t ∈ s.writers → Behind t s → ∀ ms rest,
      popWriters work.lastWriter s.writers = some (ms, rest) → t ∉ ms) :
    Forcing last t (s.goto u pc) := by
  refine forcing.keep (update_of_ne other.symm _ _) rfl (fun _ inQueue behind => ⟨inQueue, ?_⟩) id le_rfl
  intro v work applying ms rest pops
  by_cases here : v = u
  · subst here
    simp only [System.goto, update_self] at applying
    exact group work applying inQueue behind ms rest pops
  · simp only [System.goto, update_of_ne here] at applying
    exact behind v work applying ms rest pops

theorem Forcing.makesRoom {force allowDelay : Bool}
    (room : u = t → force = true ∨ Cleared last s) : Forcing last t (s.goto u (.makingRoom force allowDelay)) := by
  by_cases here : u = t
  · subst here
    refine forcing.goto_self (by simp) (by simp) (fun force' allowDelay' eq => ?_) (by simp) (by simp)
    cases eq
    exact room rfl
  · exact forcing.goto_other here (by simp)

theorem Forcing.popped (queued : Queued s) (other : u ≠ t)
    (front : s.writers.head? = some u) {lastWriter : Nat} {ms rest : List Nat}
    (pops : popWriters lastWriter s.writers = some (ms, rest)) (out : s.pc t = .waiting → t ∉ ms)
    (status : Option Status) (ops : List Op) (first : Nat) (synced : Bool) :
    Forcing last t (s.popped u ms rest status ops first synced) := by
  refine forcing.keep (update_of_ne other.symm _ _) ?_ (fun waiting inQueue _ => ⟨?_, ?_⟩) id le_rfl
  · simp only [System.popped]
    split <;> rfl
  · rw [(popWriters_eq pops).1] at inQueue
    exact (mem_append.mp inQueue).resolve_left (out waiting)
  exact fun v work applying => absurd applying (queued.popped_idle front v work)

theorem Forcing.call (working : Working s) (out : s.pc u = .outside) (batch : Option WriteBatch) (sync : Bool) :
    Forcing last t (s.called u batch sync) := by
  have other : t ≠ u := fun eq => forcing.begun (eq ▸ out)
  refine forcing.keep (update_of_ne other _ _) ?_ (fun _ inQueue behind => ?_) id le_rfl
  · exact congrArg Writer.batch (update_of_ne other _ _)
  refine ⟨mem_append_left _ inQueue, fun v work applying ms rest pops => ?_⟩
  obtain ⟨_, applying, ms', rest', pops', after⟩ := working.behind applying
  cases after.symm.trans pops
  exact behind v work applying ms rest' pops'

theorem Forcing.effect {p : Params} {ev : Event} (queued : Queued s)
    (working : Working s) (lead : s.NullsLead ev) (effect : Effect p s ev s') : Forcing last t s' := by
  have front : ∀ {u : Nat} {pc : Pc}, s.pc u = pc → pc.Leads → s.writers.head? = some u :=
    fun here leads => queued.leader _ (here ▸ leads)
  have applies : ∀ {u : Nat} {work : Work}, s.pc u = .applying work → u ≠ t :=
    fun here eq => forcing.batchless _ (eq ▸ here)
  have stays : ∀ {u : Nat} {work work' : Work}, s.pc u = .applying work → work'.lastWriter = work.lastWriter →
      Forcing last t (s.goto u (.applying work')) := by
    intro u work work' here eq
    refine forcing.goto_other (applies here) fun _ isWork _ behind ms rest pops => ?_
    cases isWork
    exact behind u work here ms rest (eq ▸ pops)
  cases effect with
  | call out => exact forcing.call working out _ _
  | idle => exact forcing
  | returns waits isDone =>
    rename_i u
    have other : u ≠ t := by
      rintro rfl
      have notDone := (queued.pending u (forcing.queued waits).1).1
      exact absurd (notDone.symm.trans isDone) (by simp)
    exact forcing.goto_other other (by simp)
  | leads waits pending isFront => exact forcing.makesRoom fun here => .inl (by simp [here, forcing.batch])
  | delays at_ => exact forcing.makesRoom fun here => forcing.room _ _ (here ▸ at_)
  | switches at_ free switched =>
    rename_i u _ _ force allowDelay db
    have switches : Cleared last { s with db := db } ∧ db.lastSequence = s.db.lastSequence := by
      simp only [Db.switchMemTable, free] at switched
      cases switched
      simp [Cleared]
    have forcing' : Forcing last t { s with db := db } := forcing.congr rfl rfl rfl (fun _ => switches.1) switches.2.ge
    exact forcing'.makesRoom fun _ => .inr switches.1
  | alone at_ nothing unforced pops =>
    rename_i u _ _ force allowDelay status ms rest
    by_cases here : u = t
    · subst here
      have moved : Forcing last u (s.goto u (.returned status)) := by
        refine forcing.goto_self (by simp) (by simp) (by simp) (by simp) fun isOk => ?_
        cases isOk
        have notForced := unforced rfl
        exact (forcing.room force allowDelay at_).resolve_left (by simp [notForced])
      constructor
      · exact moved.begun
      · have isBatch := forcing.batch
        simp only [System.popped]
        split <;> exact isBatch
      · intro waiting
        simp [System.popped] at waiting
      · exact moved.room
      · exact moved.batchless
      · exact moved.returned
      · exact forcing.later
    · refine forcing.popped queued here (front at_ trivial) pops (fun _ => ?_) _ _ _ _
      rw [popWriters_front (front at_ trivial) pops, mem_singleton]
      exact Ne.symm here
  | builds at_ isBatch noError built =>
    rename_i u _ _ _ _ batch group
    have other : u ≠ t := by
      rintro rfl
      rw [forcing.batch] at isBatch
      cases isBatch
    refine (@Forcing.goto_other last t s forcing u other (.applying _) ?_).congr rfl rfl rfl id le_rfl
    intro work _ inQueue
    have someBatch := lead (by simp [isBatch]) t inQueue
    simp [forcing.batch] at someBatch
  | syncFails here | inserts here | inserted here => exact stays here rfl
  | adds here stage =>
    rename_i u work table sequence op rest
    have doing := working.doing u work here
    obtain ⟨added, _, isSequence, isTable, _, _⟩ := doing.inserting stage
    rw [addTo_mem isTable]
    refine Forcing.congr (s := s.goto u (.applying { work with stage := .inserting table (sequence + 1) rest }))
      (stays here rfl) rfl rfl rfl (fun cleared e inMem => ?_) le_rfl
    cases mem_insertEntry.mp inMem with
    | inl isNew =>
      have first := doing.sequence
      have old := forcing.later
      rw [isNew, Op.entry_sequence]
      omega
    | inr inOld => exact cleared e inOld
  | finishes here stage errors pops =>
    rename_i u work status _ bgError ms rest
    have larger : s.db.lastSequence ≤ work.lastSequence := by
      rw [(working.doing u work here).lastSequence]
      exact Nat.le_add_right _ _
    have forcing' : Forcing last t (s.applied work status bgError) := forcing.congr rfl rfl rfl id larger
    refine forcing'.popped (queued.applied _ _ _) (applies here) (front here trivial) pops (fun waiting => ?_) _ _ _ _
    exact (forcing.queued waiting).2 u work here ms rest pops
  | background isBackground run =>
    have apart := (Db.step_apart isBackground run).1
    refine forcing.congr rfl rfl rfl (fun cleared e inMem => ?_) apart.lastSequence.ge
    exact cleared e (apart.mem ▸ inMem)
  | backgroundError => exact forcing.congr rfl rfl rfl id le_rfl

end

theorem Forcing.begin (queued : Queued s) (working : Working s) (out : s.pc t = .outside) (sync : Bool) :
    Forcing s.db.lastSequence t (s.called t none sync) := by
  have fresh : t ∉ s.order := (queued.outside t).mp out
  constructor
  · simp [System.called]
  · simp [System.called]
  · refine fun _ => ⟨by simp [System.called], fun u work applying ms rest pops => ?_⟩
    obtain ⟨_, _, ms', rest', pops', after⟩ := working.behind applying
    cases after.symm.trans pops
    intro mem
    have inQueue : t ∈ s.writers := (popWriters_eq pops').1 ▸ mem_append_left _ mem
    exact fresh (queued.mem_order inQueue)
  · simp [System.called]
  · simp [System.called]
  · simp [System.called]
  · exact le_rfl

end Force

/-- The operations of a call that returned OK carry the sequence numbers that its group gave them,
and these are published. -/
theorem Serving.published {base : Nat} {earlier : List (Nat × Op)} {s : System} (serving : Serving base s)
    (credited : Credited earlier s) (returned : s.pc u = .returned none) :
    ∃ g ∈ s.groups, ∃ before after, g.members = before ++ u :: after ∧
      ∀ h ∈ numbered (g.first + (before.flatMap s.ops).length) (s.ops u),
        h ∈ s.db.history ∧ h.1 ≤ s.db.lastSequence := by
  obtain ⟨g, isGroup, member, isOk⟩ := serving.invariant.returned_group returned
  obtain ⟨before, after, split⟩ := append_of_mem member
  refine ⟨g, isGroup, before, after, split, fun h isNumbered => ?_⟩
  have ops : g.ops = before.flatMap s.ops ++ (s.ops u ++ after.flatMap s.ops) := by
    rw [serving.invariant.working.ops g isGroup, isOk, split]
    exact flatMap_append
  have inHistory : h ∈ s.db.history := by
    rw [credited]
    refine mem_append_right _ (mem_flatMap.mpr ⟨g, isGroup, ?_⟩)
    rw [ops, numbered_append, numbered_append]
    exact mem_append_right _ (mem_append_left _ isNumbered)
  obtain ⟨mem, served⟩ := serving.served
  exact ⟨inHistory, served.ready.logged.old h inHistory⟩

/-- What is accounted for and not in memory is in the tables. -/
theorem inTables_of_accounts {db : Db} {r : Nat} {h : Nat × Op} (accounts : db.Accounts r h)
    (notMem : ∀ e ∈ db.mem, e.1.sequence ≠ h.1) (noImm : db.imm = none) : db.InTables r h := by
  cases accounts with
  | inl found =>
    obtain ⟨e, inMem | inImm | ⟨l, f, isFile, inT⟩, isEntry⟩ := found
    · refine absurd ?_ (notMem e inMem)
      rw [isEntry, Op.entry_sequence]
    · simp [noImm] at inImm
    · exact .inl ⟨l, f, isFile, e, inT, isEntry⟩
  | inr hidden =>
    exact .inr ⟨hidden.1, fun l f isFile e inT => hidden.2 e (.inr (.inr ⟨l, f, isFile, inT⟩))⟩

/-- In every run in which a call with a batch leads only when no `NULL` batch is queued: when
`TEST_CompactMemTable` returns OK, no operation of a call that had returned OK before is in a
memtable, and for every sequence number in use by a reader that the operation is the newest for, it
is in the tables of the current version.  The number of an operation is the one that the group
that carried the call gave it. -/
theorem forced_compaction_covers (p : Params) (writeBufferSize : Nat) (db : Db)
    (opened : Db.SessionReachable p (Db.Saves p) db) (empty : db.mem = []) (s₀ s₁ s : System)
    (run : Transition.Reaches (Transition.Steps (step p writeBufferSize))
      (fun s event => Admits p s event ∧ s.NullsLead event) (start db) s₀) (t : Nat) (sync : Bool)
    (invoked : s₀.step p writeBufferSize (.call t none sync) = .ok s₁)
    (waits : Transition.Reaches (Transition.Steps (step p writeBufferSize))
      (fun s event => Admits p s event ∧ s.NullsLead event) s₁ s)
    (returned : s.pc t = .returned none) (flushed : s.db.imm = none)
    (u : Nat) (earlier : s₀.pc u = .returned none) :
    ∃ g ∈ s₀.groups, ∃ before after, g.members = before ++ u :: after ∧
      ∀ h ∈ numbered (g.first + (before.flatMap s₀.ops).length) (s₀.ops u),
        h ∈ s.db.history ∧ (∀ e ∈ s.db.mem, e.1.sequence ≠ h.1) ∧
          ∀ r, s.db.Readable r → IsNewest s.db.history r h → s.db.InTables r h := by
  have ready := (Db.saved_of_sessions opened).2.1
  obtain ⟨serving₀, _, credited₀⟩ := captured_of_run ready empty (run.mono fun _ _ both => both.1)
  obtain ⟨g, isGroup, before, after, split, numbers⟩ := serving₀.published credited₀ earlier
  have admitted₁ : Admits p s₀ (.call t none sync) := trivial
  have forcing₁ : Forcing s₀.db.lastSequence t s₁ := by
    cases outside : s₀.pc t with
    | outside =>
      simp only [step, outside] at invoked
      cases invoked
      exact Forcing.begin serving₀.invariant.queued serving₀.invariant.working outside sync
    | _ => simp [step, outside] at invoked
  have since := since_of_run serving₀ ((Transition.Reaches.refl.tail admitted₁ invoked).trans
    (waits.mono fun _ _ both => both.1))
  obtain ⟨serving, forcing⟩ : Serving db.lastSequence s ∧ Forcing s₀.db.lastSequence t s := by
    refine waits.invariant (fun s => Serving db.lastSequence s ∧ Forcing s₀.db.lastSequence t s)
      ⟨serving₀.step admitted₁ invoked, forcing₁⟩ ?_
    rintro before after event ⟨serving, forcing⟩ admitted taken
    have inv := serving.invariant
    exact ⟨serving.step admitted.1 taken, forcing.effect inv.queued inv.working admitted.2 (step_effect taken)⟩
  refine ⟨g, isGroup, before, after, split, fun h isNumbered => ?_⟩
  obtain ⟨inHistory, published⟩ := numbers h isNumbered
  have notMem : ∀ e ∈ s.db.mem, e.1.sequence ≠ h.1 := by
    intro e inMem same
    have later := forcing.returned returned e inMem
    omega
  refine ⟨since.history.subset inHistory, notMem, fun r readable newest => ?_⟩
  obtain ⟨mem, served⟩ := serving.served
  have accounts := served.ready.complete r readable h newest
  exact @inTables_of_accounts (s.db.withMem mem) r h accounts
    (fun e inMem => notMem e (served.mem_iff.mp inMem).1) flushed

def putReturned : List Event := [.call 0 (some (oneOp (.put [97] [1]))) false] ++ leaderEvents 0 1

def forcedFlush : List Event :=
  [.check 1, .makeRoom 1 0 none, .makeRoom 1 0 none,
    .background (.compactMemTable (fun _ => Merkle.zeroDigest) (fun _ _ => 0) Merkle.zeroDigest)]

theorem forced_compaction_covers_put : ∃ s₀ s₁ s,
    Transition.run (step Db.sampleParams 4194304) (fun s event => s.picksNothing event = true ∧ s.NullsLead event)
        (start Db.init) putReturned = some s₀ ∧
      s₀.step Db.sampleParams 4194304 (.call 1 none false) = .ok s₁ ∧
      Transition.run (step Db.sampleParams 4194304) (fun s event => s.picksNothing event = true ∧ s.NullsLead event)
        s₁ forcedFlush = some s ∧
      s.pc 1 = .returned none ∧ ∃ l, ∃ f ∈ s.db.current.files l, ∃ e ∈ s.db.tables f.number, e.1.userKey = [97] := by
  obtain ⟨s₀, runs, s₁, invoked, s, waits, earlier, ops, returned, flushed, history, last⟩ :
      ∃ s₀ ∈ Transition.run (step Db.sampleParams 4194304)
        (fun s event => s.picksNothing event = true ∧ s.NullsLead event) (start Db.init) putReturned,
      ∃ s₁ ∈ (s₀.step Db.sampleParams 4194304 (.call 1 none false)).toOption,
      ∃ s ∈ Transition.run (step Db.sampleParams 4194304)
        (fun s event => s.picksNothing event = true ∧ s.NullsLead event) s₁ forcedFlush,
        s₀.pc 0 = .returned none ∧ s₀.ops 0 = [.put [97] [1]] ∧ s.pc 1 = .returned none ∧
          s.db.imm.isNone ∧ s.db.history = [(1, .put [97] [1])] ∧ s.db.lastSequence = 1 := by decide +kernel
  have invoked := Transition.eq_ok_of_toOption invoked
  have admits : ∀ (s : System) (event : Event), s.picksNothing event = true ∧ s.NullsLead event →
      Admits Db.sampleParams s event ∧ s.NullsLead event := fun _ _ both => ⟨.of_picksNothing both.1, both.2⟩
  obtain ⟨g, _, before, _, _, covered⟩ := forced_compaction_covers Db.sampleParams 4194304 Db.init .refl rfl s₀ s₁ s
    ((Transition.reaches_of_run .refl runs).mono admits) 1 false invoked
    ((Transition.reaches_of_run .refl waits).mono admits) returned (Option.isNone_iff_eq_none.mp flushed) 0 earlier
  obtain ⟨inHistory, _, inTables⟩ := covered (g.first + (before.flatMap s₀.ops).length, .put [97] [1]) (by
    rw [ops]
    exact mem_singleton_self _)
  rw [history, mem_singleton] at inHistory
  rw [inHistory] at inTables
  have newest : IsNewest s.db.history 1 (1, .put [97] [1]) := by
    rw [history]
    exact ⟨mem_singleton_self _, le_rfl, by simp⟩
  refine ⟨s₀, s₁, s, runs, invoked, waits, returned, ?_⟩
  obtain ⟨l, f, isFile, e, inTable, isEntry⟩ | ⟨⟨key, isDelete⟩, _⟩ := inTables 1 (.inr last.le) newest
  · exact ⟨l, f, isFile, e, inTable, by rw [isEntry]; rfl⟩
  · cases isDelete

/-- A `NULL` batch that the leader of another put takes into its group. -/
def nullFollows : List Event :=
  [.call 2 (some (oneOp (.put [98] [2]))) false, .call 1 none false] ++ leaderEvents 2 1 ++ [.check 1]

/-- `TEST_CompactMemTable` returns OK with the first put in the memtable. -/
theorem forced_compaction_swallowed : ∃ s₀ s,
    Transition.run (step Db.sampleParams 4194304) (fun _ _ => True) (start Db.init) putReturned = some s₀ ∧
      s₀.pc 0 = .returned none ∧ s₀.pc 1 = .outside ∧ s₀.ops 0 = [.put [97] [1]] ∧
      Transition.run (step Db.sampleParams 4194304) (fun _ _ => True) s₀ nullFollows = some s ∧
      s.pc 1 = .returned none ∧ s.db.imm = none ∧ (Op.put [97] [1]).entry 1 ∈ s.db.mem := by
  obtain ⟨s₀, runs, s, later, earlier, outside, ops, returned, flushed, inMem⟩ :
      ∃ s₀ ∈ Transition.run (step Db.sampleParams 4194304) (fun _ _ => True) (start Db.init) putReturned,
      ∃ s ∈ Transition.run (step Db.sampleParams 4194304) (fun _ _ => True) s₀ nullFollows,
        s₀.pc 0 = .returned none ∧ s₀.pc 1 = .outside ∧ s₀.ops 0 = [.put [97] [1]] ∧
          s.pc 1 = .returned none ∧ s.db.imm.isNone ∧ (Op.put [97] [1]).entry 1 ∈ s.db.mem := by decide +kernel
  exact ⟨s₀, s, runs, earlier, outside, ops, later, returned, Option.isNone_iff_eq_none.mp flushed, inMem⟩

end System

end Elsm
