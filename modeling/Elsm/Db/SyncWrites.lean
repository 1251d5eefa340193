import Elsm.Db.GroupCommit

/-!
# Sync writes

A leader syncs the log when its own options ask for it.  `Writer::sync` is false whatever the
options, so `BuildBatchGroup` has nothing to go by when it takes in a writer that asks for a
sync.
-/

namespace Elsm.System

/-- When a call that asks for no sync is at the front, nobody in the queue asks for one. -/
def SyncsLead (s : System) : Event → Prop
  | .makeRoom t _ _ => s.optionsSync t = false → ∀ u ∈ s.writers, s.optionsSync u = false
  | _ => True

instance (s : System) (event : Event) : Decidable (s.SyncsLead event) := by
  induction event using Event.casesOn <;> simp only [SyncsLead] <;> infer_instance

/-- A leader past its sync has done as its options say, and if it does not sync nobody in its group
asked for it. -/
structure Syncing (s : System) (t : Nat) (work : Work) : Prop where
  asked : work.stage = .unlocked ∨ work.synced = s.optionsSync t
  nobody : s.optionsSync t = false → ∀ members rest, popWriters work.lastWriter s.writers = some (members, rest) →
    ∀ u ∈ members, s.optionsSync u = false

structure Synced (s : System) : Prop where
  work : ∀ t work, s.pc t = .applying work → Syncing s t work
  groups : ∀ g ∈ s.groups, g.status = none → ∀ t ∈ g.members, (s.writer t).batch.isSome →
    s.optionsSync t = true → g.synced = true

section Step

variable {s : System} (synced : Synced s)

include synced

theorem Synced.congr {s' : System} (writers : s'.writers = s.writers)
    (writer : s'.writer = s.writer) (pc : s'.pc = s.pc) (optionsSync : s'.optionsSync = s.optionsSync)
    (groups : s'.groups = s.groups) : Synced s' := by
  constructor
  · intro t work here
    rw [pc] at here
    have old := synced.work t work here
    constructor
    · rw [optionsSync]
      exact old.asked
    · rw [optionsSync, writers]
      exact old.nobody
  · rw [groups, writer, optionsSync]
    exact synced.groups

theorem Synced.applied (work : Work) (status bgError : Option Status) : Synced (s.applied work status bgError) :=
  synced.congr rfl rfl rfl rfl rfl

theorem Synced.goto {t : Nat} {pc : Pc} (after : ∀ work, pc = .applying work → Syncing s t work) :
    Synced (s.goto t pc) := by
  constructor
  · intro u work applying
    by_cases here : u = t
    · subst here
      have isPc : pc = .applying work := by simpa [System.goto] using applying
      have ok := after work isPc
      exact ⟨ok.asked, ok.nobody⟩
    · simp only [System.goto, Function.update_of_ne here] at applying
      have old := synced.work u work applying
      exact ⟨old.asked, old.nobody⟩
  · exact synced.groups

theorem Synced.call (queued : Queued s) (working : Working s) {t : Nat}
    (out : s.pc t = .outside) (batch : Option WriteBatch) (sync : Bool) :
    Synced (s.called t batch sync) := by
  have fresh : t ∉ s.order := (queued.outside t).mp out
  have others : ∀ u ∈ s.writers, u ≠ t := fun u inQueue eq => fresh (eq ▸ queued.mem_order inQueue)
  constructor
  · intro u work applying
    obtain ⟨there, applying, ms, rest, pops, after⟩ := working.behind applying
    have old := synced.work u work applying
    constructor
    · simpa [System.called, there] using old.asked
    intro notAsked ms' rest' pops' v mem
    cases after.symm.trans pops'
    have inQueue : v ∈ s.writers := (popWriters_eq pops).1 ▸ List.mem_append_left _ mem
    simp only [System.called, Function.update_of_ne there] at notAsked
    simpa [System.called, others v inQueue] using old.nobody notAsked ms rest pops v mem
  · intro g isGroup isNone u mem
    have there : u ≠ t := fun eq => fresh (eq ▸ queued.mem_order_of_group isGroup mem)
    simpa [System.called, there] using synced.groups g isGroup isNone u mem

theorem Synced.popped (queued : Queued s) {t : Nat} (front : s.writers.head? = some t)
    {ms rest : List Nat} {status : Option Status} {ops : List Op} {first : Nat} {isSynced : Bool}
    (ok : status = none → ∀ u ∈ ms, (s.writer u).batch.isSome → s.optionsSync u = true → isSynced = true) :
    Synced (s.popped t ms rest status ops first isSynced) := by
  have sameBatch : ∀ u, ((s.popped t ms rest status ops first isSynced).writer u).batch = (s.writer u).batch := by
    intro u
    simp only [System.popped]
    split <;> rfl
  constructor
  · intro u work applying
    exfalso
    by_cases here : u = t
    · simp [System.popped, here] at applying
    simp only [System.popped, Function.update_of_ne here] at applying
    have eq := (queued.leader u (by rw [applying]; trivial)).symm.trans front
    exact here (Option.some.inj eq)
  · intro g isGroup isNone u mem
    rw [sameBatch]
    cases List.mem_append.mp isGroup with
    | inl old => exact synced.groups g old isNone u mem
    | inr new =>
      rw [List.mem_singleton.mp new] at isNone mem ⊢
      exact ok isNone u mem

theorem Synced.effect {p : Params} {s' : System} {ev : Event} (queued : Queued s)
    (working : Working s) (lead : s.SyncsLead ev) (effect : Effect p s ev s') : Synced s' := by
  have front : ∀ {t : Nat} {pc : Pc}, s.pc t = pc → pc.Leads → s.writers.head? = some t :=
    fun here leads => queued.leader _ (here ▸ leads)
  cases effect with
  | call out => exact synced.call queued working out _ _
  | idle => exact synced
  | returns | leads | delays => exact synced.goto (by simp)
  | switches here =>
    exact (@Synced.goto s synced _ (.makingRoom _ _) fun _ eq => nomatch eq).congr rfl rfl rfl rfl rfl
  | alone here nothing _ pops =>
    refine synced.popped queued (front here trivial) fun isNone u mem hasBatch => ?_
    rw [popWriters_front (front here trivial) pops, List.mem_singleton] at mem
    subst mem
    cases nothing with
    | inl failed => simp [isNone] at failed
    | inr noBatch => simp [noBatch] at hasBatch
  | builds here _ _ built =>
    refine (@Synced.goto s synced _ (.applying _) fun work eq => ?_).congr rfl rfl rfl rfl rfl
    cases eq
    refine ⟨.inl rfl, fun notAsked ms rest pops u mem => ?_⟩
    exact lead notAsked u ((popWriters_eq pops).1 ▸ List.mem_append_left _ mem)
  | syncFails here | inserts here =>
    refine synced.goto fun work eq => ?_
    cases eq
    exact ⟨.inr rfl, (synced.work _ _ here).nobody⟩
  | adds here stage =>
    refine (@Synced.goto s synced _ (.applying _) fun work eq => ?_).congr rfl rfl rfl rfl rfl
    cases eq
    have old := synced.work _ _ here
    exact ⟨.inr (old.asked.resolve_left (by simp [stage])), old.nobody⟩
  | inserted here stage =>
    refine synced.goto fun work eq => ?_
    cases eq
    have old := synced.work _ _ here
    exact ⟨.inr (old.asked.resolve_left (by simp [stage])), old.nobody⟩
  | finishes here stage errors pops =>
    have old := synced.work _ _ here
    refine (synced.applied _ _ _).popped (queued.applied _ _ _) (front here trivial) fun _ u mem _ asked => ?_
    rw [old.asked.resolve_left (by simp [stage])]
    by_contra notAsked
    have nobody := old.nobody (by simpa using notAsked) _ _ pops u mem
    exact absurd (nobody.symm.trans asked) (by simp)
  | background | backgroundError => exact synced.congr rfl rfl rfl rfl rfl

end Step

theorem start_synced (db : Db) : Synced (start db) := by
  constructor <;> simp [start]

/-- In every run in which a call without sync leads only when no call with sync is queued, a batch
whose call asked for a sync and returned OK was in a group whose leader synced the log after it had
taken the group and before it left the queue. -/
theorem sync_writes_synced (p : Params) (writeBufferSize : Nat) (db : Db) (s : System)
    (run : Transition.Reaches (Transition.Steps (step p writeBufferSize)) SyncsLead (start db) s) (t : Nat)
    (returned : s.pc t = .returned none) (hasBatch : (s.writer t).batch.isSome) (asked : s.optionsSync t = true) :
    ∃ g ∈ s.groups, t ∈ g.members ∧ g.status = none ∧ g.synced = true := by
  have inv : Invariant db.lastSequence s ∧ Synced s := by
    refine run.invariant (fun s => Invariant db.lastSequence s ∧ Synced s) ⟨start_invariant db, start_synced db⟩ ?_
    intro before after event ⟨inv, synced⟩ lead taken
    exact ⟨inv.step taken, synced.effect inv.queued inv.working lead (step_effect taken)⟩
  obtain ⟨g, isGroup, member, isStatus⟩ := inv.1.returned_group returned
  exact ⟨g, isGroup, member, isStatus, inv.2.groups g isGroup isStatus t member hasBatch asked⟩

/-- A call with sync leads and takes in one without. -/
def syncLeads : List Event :=
  [.call 0 (some (oneOp (.put [97] [1]))) true, .call 1 (some (oneOp (.put [98] [2]))) false] ++ leaderEvents 0 2

theorem sync_writes_synced_syncLeads : ∃ s,
    Transition.run (step Db.sampleParams 4194304) SyncsLead (start Db.init) syncLeads = some s ∧
      s.pc 0 = .returned none ∧ ∃ g ∈ s.groups, 0 ∈ g.members ∧ g.status = none ∧ g.synced = true := by
  refine Transition.exists_of_eval (by decide +kernel)
    (Q := fun s => s.pc 0 = .returned none ∧ (s.writer 0).batch.isSome ∧ s.optionsSync 0 = true) ?_
  rintro s runs ⟨returned, hasBatch, asked⟩
  exact ⟨returned, sync_writes_synced Db.sampleParams 4194304 Db.init s
    (Transition.reaches_of_run .refl runs) 0 returned hasBatch asked⟩

/-- A call without sync leads and takes in one that asks for a sync. -/
def syncFollows : List Event :=
  [.call 0 (some (oneOp (.put [97] [1]))) false, .call 1 (some (oneOp (.put [98] [2]))) true] ++
    leaderEvents 0 2 ++ [.check 1]

/-- It returns OK, and nobody has synced the log. -/
theorem sync_write_not_synced : ∃ s,
    Transition.run (step Db.sampleParams 4194304) (fun _ _ => True) (start Db.init) syncFollows = some s ∧
      Reachable Db.sampleParams 4194304 Db.init s ∧ s.pc 1 = .returned none ∧ (s.writer 1).batch.isSome ∧
      s.optionsSync 1 = true ∧ s.groups.map (fun g => (g.members, g.synced)) = [([0, 1], false)] := by
  refine Transition.exists_of_eval (by decide +kernel) (Q := fun s => s.pc 1 = .returned none ∧
    (s.writer 1).batch.isSome ∧ s.optionsSync 1 = true ∧
      s.groups.map (fun g => (g.members, g.synced)) = [([0, 1], false)]) ?_
  exact fun s runs facts => ⟨Transition.reaches_of_run .refl runs, facts⟩

end Elsm.System
