import Elsm.Db.Computed
import Elsm.Db.QueueSteps

/-!
# Group commit

Only the writer at the front of the queue leads, and its group is a front part of the queue
that nobody else touches until it leaves.  So groups are applied one after another, in queue
order, and each takes the sequence numbers after those of the one before.
-/

namespace Elsm

open List Function
open Merkle (Digest Record)

variable {t last : Nat} {s' : System} {g : Group} {rest ms : List Nat}

namespace System

/-! ## The queue -/

/-- Who is in the queue, who leads and who has left. -/
structure Queued (s : System) : Prop where
  order : s.order = s.groups.flatMap (·.members) ++ s.writers
  nodup : s.order.Nodup
  outside : ∀ t, s.pc t = .outside ↔ t ∉ s.order
  pending : ∀ t ∈ s.writers, (s.writer t).done = false ∧ ∀ status, s.pc t ≠ .returned status
  leader : ∀ t, (s.pc t).Leads → s.writers.head? = some t
  settled : ∀ g ∈ s.groups, ∀ t ∈ g.members, s.pc t = .returned g.status ∨
    (s.pc t = .waiting ∧ (s.writer t).done = true ∧ (s.writer t).status = g.status)

section Queue

variable {s : System} (queued : Queued s)

include queued

theorem Queued.writers_nodup : s.writers.Nodup := by
  have nodup := queued.nodup
  rw [queued.order] at nodup
  exact (nodup_append.mp nodup).2.1

theorem Queued.not_member (waits : t ∈ s.writers) (isGroup : g ∈ s.groups) : t ∉ g.members := by
  intro mem
  have nodup := queued.nodup
  rw [queued.order] at nodup
  exact (nodup_append.mp nodup).2.2 t (mem_flatMap.mpr ⟨g, isGroup, mem⟩) t waits rfl

theorem Queued.mem_order (waits : t ∈ s.writers) : t ∈ s.order := by
  rw [queued.order]
  exact mem_append_right _ waits

theorem Queued.waiting (waits : t ∈ s.writers) (behind : s.writers.head? ≠ some t) : s.pc t = .waiting := by
  cases here : s.pc t with
  | outside => exact absurd (queued.mem_order waits) ((queued.outside t).mp here)
  | waiting => rfl
  | makingRoom | applying => exact absurd (queued.leader t (by rw [here]; trivial)) behind
  | returned status => exact absurd here ((queued.pending t waits).2 status)

theorem Queued.congr (order : s'.order = s.order) (groups : s'.groups = s.groups)
    (writers : s'.writers = s.writers) (writer : s'.writer = s.writer) (pc : s'.pc = s.pc) : Queued s' := by
  constructor
  · rw [order, groups, writers]
    exact queued.order
  · rw [order]
    exact queued.nodup
  · rw [order, pc]
    exact queued.outside
  · rw [writers, writer, pc]
    exact queued.pending
  · rw [writers, pc]
    exact queued.leader
  · rw [groups, writer, pc]
    exact queued.settled

theorem Queued.applied (work : Work) (status bgError : Option Status) : Queued (s.applied work status bgError) :=
  queued.congr rfl rfl rfl rfl rfl

theorem Queued.goto {t : Nat} (front : s.writers.head? = some t) {pc : Pc} (leads : pc.Leads) :
    Queued (s.goto t pc) := by
  have waits : t ∈ s.writers := mem_of_head? front
  have notReturned : ∀ status, pc ≠ .returned status := by
    intro status eq
    rw [eq] at leads
    exact leads
  constructor
  · exact queued.order
  · exact queued.nodup
  · intro u
    by_cases here : u = t
    · subst here
      have notOutside : pc ≠ .outside := by
        intro eq
        rw [eq] at leads
        exact leads
      simp [System.goto, notOutside, queued.mem_order waits]
    · simp only [System.goto, update_of_ne here]
      exact queued.outside u
  · intro u inQueue
    refine ⟨(queued.pending u inQueue).1, fun status => ?_⟩
    by_cases here : u = t
    · subst here
      simpa [System.goto] using notReturned status
    · simpa [System.goto, update_of_ne here] using (queued.pending u inQueue).2 status
  · intro u uLeads
    by_cases here : u = t
    · exact here ▸ front
    · simp only [System.goto, update_of_ne here] at uLeads
      exact queued.leader u uLeads
  · intro g isGroup u mem
    have here : u ≠ t := fun eq => queued.not_member waits isGroup (eq ▸ mem)
    simpa only [System.goto, update_of_ne here] using queued.settled g isGroup u mem

theorem Queued.mem_order_of_group (isGroup : g ∈ s.groups) (mem : t ∈ g.members) : t ∈ s.order := by
  rw [queued.order]
  exact mem_append_left _ (mem_flatMap.mpr ⟨g, isGroup, mem⟩)

theorem Queued.call (out : s.pc t = .outside) (batch : Option WriteBatch) (sync : Bool) :
    Queued (s.called t batch sync) := by
  have fresh : t ∉ s.order := (queued.outside t).mp out
  constructor
  · simp only [System.called]
    rw [queued.order, append_assoc]
  · exact nodup_append.mpr ⟨queued.nodup, nodup_singleton t, fun u old v new eq =>
      fresh (mem_singleton.mp new ▸ eq ▸ old)⟩
  · intro u
    by_cases here : u = t
    · simp [System.called, here]
    · simp [System.called, here, queued.outside u]
  · intro u inQueue
    by_cases here : u = t
    · simp [System.called, here]
    · have old : u ∈ s.writers := by simpa [System.called, here] using inQueue
      simpa [System.called, here] using queued.pending u old
  · intro u leads
    by_cases here : u = t
    · simp [System.called, here, Pc.Leads] at leads
    · simp only [System.called, update_of_ne here] at leads
      simp [System.called, queued.leader u leads]
  · intro g isGroup u mem
    have here : u ≠ t := fun eq => fresh (eq ▸ queued.mem_order_of_group isGroup mem)
    simpa [System.called, here] using queued.settled g isGroup u mem

theorem Queued.returns (waits : s.pc t = .waiting) (isDone : (s.writer t).done = true) :
    Queued (s.goto t (.returned (s.writer t).status)) := by
  have left : t ∉ s.writers := fun inQueue => by simp [(queued.pending t inQueue).1] at isDone
  constructor
  · exact queued.order
  · exact queued.nodup
  · intro u
    by_cases here : u = t
    · subst here
      have known : u ∈ s.order := by
        by_contra unknown
        simp [(queued.outside u).mpr unknown] at waits
      simp [System.goto, known]
    · simpa [System.goto, here] using queued.outside u
  · intro u inQueue
    have here : u ≠ t := fun eq => left (eq ▸ inQueue)
    simpa [System.goto, here] using queued.pending u inQueue
  · intro u leads
    by_cases here : u = t
    · simp [System.goto, here, Pc.Leads] at leads
    · simp only [System.goto, update_of_ne here] at leads
      exact queued.leader u leads
  · intro g isGroup u mem
    by_cases here : u = t
    · subst here
      left
      cases queued.settled g isGroup u mem with
      | inl returned => simp [waits] at returned
      | inr served => simp [System.goto, served.2.2]
    · simpa [System.goto, here] using queued.settled g isGroup u mem

theorem Queued.popped (front : s.writers.head? = some t) (pops : popWriters last s.writers = some (ms, rest))
    (status : Option Status)
    (ops : List Op) (first : Nat) (synced : Bool) :
    Queued (s.popped t ms rest status ops first synced) := by
  obtain ⟨split, _⟩ := popWriters_eq pops
  have nodup := queued.writers_nodup
  rw [split] at nodup
  have apart : ∀ u ∈ ms, u ∉ rest := fun u left right => (nodup_append.mp nodup).2.2 u left u right rfl
  have inQueue : ∀ u ∈ ms, u ∈ s.writers := fun u mem => split ▸ mem_append_left _ mem
  have isMember : t ∈ ms := by
    cases ms with
    | nil => exact absurd (popWriters_eq pops).2 (by simp)
    | cons u ms =>
      rw [split] at front
      simp only [cons_append, head?_cons, Option.some.injEq] at front
      simp [front]
  constructor
  · change s.order = (s.groups ++ [_]).flatMap _ ++ rest
    rw [queued.order, split, flatMap_append, flatMap_singleton, append_assoc]
  · exact queued.nodup
  · intro u
    by_cases here : u = t
    · subst here
      simp [System.popped, queued.mem_order (inQueue u isMember)]
    · simpa [System.popped, here] using queued.outside u
  · intro u inR
    have notMember : u ∉ ms := fun mem => apart u mem inR
    have here : u ≠ t := fun eq => notMember (eq ▸ isMember)
    have stillWaits : u ∈ s.writers := split ▸ mem_append_right _ inR
    simpa [System.popped, here, notMember] using queued.pending u stillWaits
  · intro u leads
    by_cases here : u = t
    · simp [System.popped, here, Pc.Leads] at leads
    simp only [System.popped, update_of_ne here] at leads
    have eq := (queued.leader u leads).symm.trans front
    exact absurd (Option.some.inj eq) here
  · intro g isGroup u mem
    cases mem_append.mp isGroup with
    | inl old =>
      have notMember : u ∉ ms := fun isMember => queued.not_member (inQueue u isMember) old mem
      have here : u ≠ t := fun eq => notMember (eq ▸ isMember)
      simpa [System.popped, here, notMember] using queued.settled g old u mem
    | inr new =>
      rw [mem_singleton.mp new] at mem ⊢
      by_cases here : u = t
      · left
        simp [System.popped, here]
      right
      have behind : s.writers.head? ≠ some u := by
        rw [front]
        exact fun eq => here (Option.some.inj eq).symm
      have waits := queued.waiting (inQueue u mem) behind
      simp [System.popped, here, waits, show u ∈ ms from mem]

end Queue

variable {p : Params} {s s' : System} {ev : Event}

theorem Queued.effect (queued : Queued s) (effect : Effect p s ev s') : Queued s' := by
  have front : ∀ {t : Nat} {pc : Pc}, s.pc t = pc → pc.Leads → s.writers.head? = some t :=
    fun here leads => queued.leader _ (here ▸ leads)
  cases effect with
  | call out => exact queued.call out _ _
  | idle => exact queued
  | returns waits isDone => exact queued.returns waits isDone
  | leads waits pending atFront => exact queued.goto atFront trivial
  | delays here | syncFails here | inserts here | inserted here => exact queued.goto (front here trivial) trivial
  | switches here =>
    exact (@Queued.goto s queued _ (front here trivial) (.makingRoom _ _) trivial).congr rfl rfl rfl rfl rfl
  | alone here _ _ pops => exact queued.popped (front here trivial) pops _ _ _ _
  | builds here | adds here =>
    exact (@Queued.goto s queued _ (front here trivial) (.applying _) trivial).congr rfl rfl rfl rfl rfl
  | finishes here _ _ pops =>
    exact (queued.applied _ _ _).popped (front here trivial) pops _ _ _ _
  | background | backgroundError => exact queued.congr rfl rfl rfl rfl rfl

/-! ## The group being applied -/

end System

def Work.added (work : Work) : List Op :=
  match work.stage with
  | .unlocked => []
  | .inserting _ _ rest => work.updates.take (work.updates.length - rest.length)
  | .finished status _ => if status.isNone then work.updates else []

def Group.adds (g : Group) : List Add := addAll g.table g.first g.ops

namespace System

def earlierAdds (s : System) : List Add := s.groups.flatMap Group.adds

def StageOk (s : System) (work : Work) : Prop :=
  match work.stage with
  | .unlocked => True
  | .inserting table sequence rest =>
    table = s.db.logfileNumber ∧ ∃ added, work.updates = added ++ rest ∧ sequence = work.sequence + added.length
  | .finished status syncError => status = none ↔ syncError = false

structure Doing (s : System) (work : Work) : Prop where
  group : ∃ members rest, popWriters work.lastWriter s.writers = some (members, rest) ∧
    work.updates = members.flatMap fun t => (s.writer t).ops
  sequence : work.sequence = s.db.lastSequence + 1
  lastSequence : work.lastSequence = s.db.lastSequence + work.updates.length
  tmp : s.tmpBatch = if work.isTmp then work.updates else []
  stage : StageOk s work
  adds : s.adds = s.earlierAdds ++ addAll s.db.logfileNumber work.sequence work.added

structure Working (s : System) : Prop where
  doing : ∀ t work, s.pc t = .applying work → Doing s work
  tmp : (∀ t work, s.pc t ≠ .applying work) → s.tmpBatch = []
  adds : (∀ t work, s.pc t ≠ .applying work) → s.adds = s.earlierAdds
  ops : ∀ g ∈ s.groups, g.ops = if g.status.isNone then g.members.flatMap fun t => (s.writer t).ops else []

variable {status : Option Status}

section Apply

variable {s : System}

theorem Queued.leader_unique (queued : Queued s) {u : Nat} (leads : (s.pc t).Leads) (leads' : (s.pc u).Leads) : u = t :=
  Option.some.inj ((queued.leader u leads').symm.trans (queued.leader t leads))

variable {allowDelay force : Bool}

theorem Queued.none_applying (queued : Queued s)
    (here : s.pc t = .makingRoom force allowDelay) : ∀ u work, s.pc u ≠ .applying work := by
  intro u work applying
  have eq := queued.leader_unique (t := t) (u := u) (by rw [here]; trivial) (by rw [applying]; trivial)
  rw [eq, here] at applying
  cases applying

variable {work : Work}

theorem Queued.only_applying (queued : Queued s) {u : Nat} {work' : Work} (here : s.pc t = .applying work)
    (there : s.pc u = .applying work') : u = t :=
  queued.leader_unique (by rw [here]; trivial) (by rw [there]; trivial)

theorem numbered_append (seq : Nat) (ops later : List Op) :
    numbered seq (ops ++ later) = numbered seq ops ++ numbered (seq + ops.length) later := by
  induction ops generalizing seq with
  | nil => rfl
  | cons op ops ih =>
    have shift : seq + (op :: ops).length = seq + 1 + ops.length := by
      simp only [length_cons]
      omega
    rw [shift]
    exact congrArg (_ :: ·) (ih (seq + 1))

theorem addAll_append (table seq : Nat) (ops later : List Op) :
    addAll table seq (ops ++ later) = addAll table seq ops ++ addAll table (seq + ops.length) later := by
  rw [addAll, numbered_append, map_append, addAll, addAll]

theorem Doing.transfer (doing : Doing s work)
    (writers : ∃ later, s'.writers = s.writers ++ later) (ops : ∀ t ∈ s.writers, (s'.writer t).ops = (s.writer t).ops)
    (lastSequence : s'.db.lastSequence = s.db.lastSequence) (logfileNumber : s'.db.logfileNumber = s.db.logfileNumber)
    (tmpBatch : s'.tmpBatch = s.tmpBatch) (groups : s'.groups = s.groups) (adds : s'.adds = s.adds) :
    Doing s' work := by
  obtain ⟨ms, rest, pops, isGroup⟩ := doing.group
  obtain ⟨later, isLonger⟩ := writers
  constructor
  · refine ⟨ms, rest ++ later, isLonger ▸ popWriters_append later pops, ?_⟩
    rw [isGroup]
    refine flatMap_congr fun t mem => ?_
    exact (ops t ((popWriters_eq pops).1 ▸ mem_append_left _ mem)).symm
  · rw [lastSequence]
    exact doing.sequence
  · rw [lastSequence]
    exact doing.lastSequence
  · rw [tmpBatch]
    exact doing.tmp
  · unfold StageOk
    rw [logfileNumber]
    exact doing.stage
  · rw [adds, earlierAdds, groups, logfileNumber]
    exact doing.adds

variable {synced : Bool}

theorem Doing.atStage (doing : Doing s work) {stage : Stage} (ok : StageOk s { work with stage := stage })
    (added : ({ work with stage := stage } : Work).added = work.added) {pc : Pc} :
    Doing (s.goto t pc) { work with synced := synced, stage := stage } where
  group := doing.group
  sequence := doing.sequence
  lastSequence := doing.lastSequence
  tmp := doing.tmp
  stage := ok
  adds := by
    have sameAdded : ({ work with synced := synced, stage := stage } : Work).added = work.added := added
    rw [sameAdded]
    exact doing.adds

theorem Working.congr (working : Working s) (writers : s'.writers = s.writers)
    (writer : s'.writer = s.writer) (pc : s'.pc = s.pc) (lastSequence : s'.db.lastSequence = s.db.lastSequence)
    (logfileNumber : s'.db.logfileNumber = s.db.logfileNumber) (tmpBatch : s'.tmpBatch = s.tmpBatch)
    (groups : s'.groups = s.groups) (adds : s'.adds = s.adds) : Working s' := by
  constructor
  · rw [pc]
    intro t work here
    exact (working.doing t work here).transfer ⟨[], by rw [writers, append_nil]⟩ (fun _ _ => by rw [writer])
      lastSequence logfileNumber tmpBatch groups adds
  · rw [pc, tmpBatch]
    exact working.tmp
  · rw [pc, adds, earlierAdds, groups]
    exact working.adds
  · rw [groups, writer]
    exact working.ops

theorem Working.goto (working : Working s) (pre : ∀ work, s.pc t ≠ .applying work) {pc : Pc}
    (after : ∀ work, pc ≠ .applying work) : Working (s.goto t pc) := by
  have eq : ∀ u work, (s.goto t pc).pc u = .applying work ↔ s.pc u = .applying work := by
    intro u work
    by_cases here : u = t
    · subst here
      simp [System.goto, pre work, after work]
    · simp [System.goto, here]
  constructor
  · intro u work applying
    exact (working.doing u work ((eq u work).mp applying)).transfer ⟨[], by simp [System.goto]⟩ (fun _ _ => rfl)
      rfl rfl rfl rfl rfl
  · intro none
    exact working.tmp fun u work applying => none u work ((eq u work).mpr applying)
  · intro none
    exact working.adds fun u work applying => none u work ((eq u work).mpr applying)
  · exact working.ops

theorem Working.at_work (queued' : Queued s') (here : s'.pc t = .applying work) (doing : Doing s' work)
    (ops : ∀ g ∈ s'.groups, g.ops = if g.status.isNone then g.members.flatMap fun t => (s'.writer t).ops else []) :
    Working s' := by
  constructor
  · intro u other there
    have eq := queued'.only_applying here there
    rw [eq, here] at there
    cases there
    exact doing
  · exact fun none => absurd here (none t work)
  · exact fun none => absurd here (none t work)
  · exact ops

theorem Queued.popped_idle (queued : Queued s) (front : s.writers.head? = some t) {ops : List Op}
    {first : Nat} (u : Nat) (work : Work) :
    (s.popped t ms rest status ops first synced).pc u ≠ .applying work := by
  intro applying
  by_cases here : u = t
  · simp [System.popped, here] at applying
  simp only [System.popped, update_of_ne here] at applying
  have eq := (queued.leader u (by rw [applying]; trivial)).symm.trans front
  exact here (Option.some.inj eq)

/-- A group leaves; from then on nobody is at work. -/
theorem Working.popped (queued : Queued s)
    (earlier : ∀ g ∈ s.groups, g.ops = if g.status.isNone then g.members.flatMap fun t => (s.writer t).ops else [])
    (front : s.writers.head? = some t) (pops : popWriters last s.writers = some (ms, rest))
    {ops : List Op} {first : Nat} (tmpBatch : s.tmpBatch = [])
    (adds : s.adds = s.earlierAdds ++ addAll s.db.logfileNumber first ops)
    (isOps : ops = if status.isNone then ms.flatMap fun t => (s.writer t).ops else []) :
    Working (s.popped t ms rest status ops first synced) := by
  have queued' := queued.popped front pops status ops first synced
  have sameOps : ∀ u, ((s.popped t ms rest status ops first synced).writer u).ops = (s.writer u).ops := by
    intro u
    simp only [System.popped]
    split <;> rfl
  constructor
  · exact fun u work applying => absurd applying (queued.popped_idle front u work)
  · exact fun _ => tmpBatch
  · intro _
    change s.adds = (s.groups ++ [_]).flatMap Group.adds
    rw [flatMap_append, flatMap_singleton, adds]
    rfl
  · simp only [sameOps]
    exact SortedList.forall_mem_concat earlier isOps

theorem Working.behind (working : Working s) {u : Nat} {batch : Option WriteBatch} {sync : Bool}
    (applying : (s.called t batch sync).pc u = .applying work) :
    u ≠ t ∧ s.pc u = .applying work ∧ ∃ ms rest, popWriters work.lastWriter s.writers = some (ms, rest) ∧
      popWriters work.lastWriter (s.called t batch sync).writers = some (ms, rest ++ [t]) := by
  have there : u ≠ t := by
    intro eq
    simp [System.called, eq] at applying
  simp only [System.called, update_of_ne there] at applying
  obtain ⟨ms, rest, pops, _⟩ := (working.doing u work applying).group
  exact ⟨there, applying, ms, rest, pops, popWriters_append [t] pops⟩

section

variable (working : Working s) (queued : Queued s)

include working queued

theorem Working.call (out : s.pc t = .outside) (batch : Option WriteBatch) (sync : Bool) :
    Working (s.called t batch sync) := by
  have fresh : t ∉ s.order := (queued.outside t).mp out
  have pre : ∀ work, s.pc t ≠ .applying work := by simp [out]
  have moved : Working (s.goto t .waiting) := working.goto pre (by simp)
  constructor
  · intro u work applying
    refine (moved.doing u work applying).transfer ⟨[t], rfl⟩ (fun v inQueue => ?_) rfl rfl rfl rfl rfl
    have here : v ≠ t := fun eq => fresh (eq ▸ queued.mem_order inQueue)
    exact congrArg Writer.ops (update_of_ne here _ _)
  · exact moved.tmp
  · exact moved.adds
  · intro g isGroup
    rw [working.ops g isGroup]
    congr 1
    refine flatMap_congr fun u mem => ?_
    have here : u ≠ t := fun eq => fresh (eq ▸ queued.mem_order_of_group isGroup mem)
    exact (congrArg Writer.ops (update_of_ne here _ _)).symm

variable (here : s.pc t = .makingRoom force allowDelay)

include here

theorem Working.switches (db : Db) : Working { s.goto t (.makingRoom false allowDelay) with db := db } := by
  have front := queued.leader t (by rw [here]; trivial)
  have moved : Working (s.goto t (.makingRoom false allowDelay)) := working.goto (by simp [here]) (by simp)
  have queued' : Queued (s.goto t (.makingRoom false allowDelay)) := queued.goto front trivial
  have none := queued'.none_applying (update_self _ _ _)
  exact ⟨fun u work there => absurd there (none u work), moved.tmp, moved.adds, moved.ops⟩

theorem Working.alone
    (nothing : status.isSome ∨ (s.writer t).batch = none) (pops : popWriters t s.writers = some (ms, rest)) :
    Working (s.popped t ms rest status [] (s.db.lastSequence + 1) false) := by
  have front := queued.leader t (by rw [here]; trivial)
  have none := queued.none_applying here
  refine Working.popped queued working.ops front pops (working.tmp none) ?_ ?_
  · rw [working.adds none]
    exact (append_nil _).symm
  cases nothing with
  | inl failed => rw [if_neg (by simpa [Option.isSome_iff_ne_none] using failed)]
  | inr noBatch =>
    rw [popWriters_front front pops]
    simp [Writer.ops, noBatch]

theorem Working.builds {group : BatchGroup} (built : buildBatchGroup s.writer s.tmpBatch s.writers = some group) :
    Working { s.goto t (.applying
        { updates := group.result
          isTmp := group.isTmp
          sequence := s.db.lastSequence + 1
          lastWriter := group.lastWriter
          lastSequence := s.db.lastSequence + group.result.length
          synced := false
          stage := .unlocked }) with
      tmpBatch := if group.isTmp then group.result else s.tmpBatch } := by
  have none := queued.none_applying here
  obtain ⟨isGroup, _⟩ := buildBatchGroup_spec s.writer queued.writers_nodup built
  have front := queued.leader t (by rw [here]; trivial)
  refine Working.at_work ((@Queued.goto s queued t front (.applying _) trivial).congr rfl rfl rfl rfl rfl)
    (update_self _ _ _) ⟨isGroup, rfl, rfl, ?_, trivial, ?_⟩ working.ops
  · change (if group.isTmp then group.result else s.tmpBatch) = _
    rw [working.tmp none]
  change s.adds = s.earlierAdds ++ []
  rw [append_nil]
  exact working.adds none

end

theorem Doing.inserting (doing : Doing s work) {table seq : Nat} {op : Op} {rest : List Op}
    (stage : work.stage = .inserting table seq (op :: rest)) :
    ∃ added, work.added = added ∧ seq = work.sequence + added.length ∧ table = s.db.logfileNumber ∧
      ({ work with stage := .inserting table (seq + 1) rest } : Work).added = added ++ [op] ∧
      work.updates = added ++ op :: rest := by
  have ok := doing.stage
  unfold StageOk at ok
  rw [stage] at ok
  obtain ⟨isTable, added, split, isSequence⟩ := ok
  refine ⟨added, by simp [Work.added, stage, split], isSequence, isTable, ?_, split⟩
  have longer : work.updates = (added ++ [op]) ++ rest := by simp [split]
  simp only [Work.added]
  rw [longer, length_append, Nat.add_sub_cancel, take_left]

variable (working : Working s) (queued : Queued s) (here : s.pc t = .applying work)

include working queued here

theorem Working.adds_one {table seq : Nat} {op : Op} {rest : List Op}
    (stage : work.stage = .inserting table seq (op :: rest)) :
    Working { s.goto t (.applying { work with stage := .inserting table (seq + 1) rest }) with
      db := addTo s.db table (op.entry seq)
      adds := s.adds ++ [⟨table, seq, op⟩] } := by
  have doing := working.doing t work here
  have front := queued.leader t (by rw [here]; trivial)
  have sameDb : (addTo s.db table (op.entry seq)).lastSequence = s.db.lastSequence ∧
      (addTo s.db table (op.entry seq)).logfileNumber = s.db.logfileNumber := by
    simp only [addTo]
    split <;> exact ⟨rfl, rfl⟩
  obtain ⟨added, pre, isSequence, isTable, after, split⟩ := doing.inserting stage
  refine Working.at_work ((@Queued.goto s queued t front (.applying _) trivial).congr rfl rfl rfl rfl rfl)
    (update_self _ _ _) ⟨doing.group, ?_, ?_, doing.tmp, ⟨?_, added ++ [op], ?_, ?_⟩, ?_⟩ working.ops
  · exact doing.sequence.trans (by rw [← sameDb.1])
  · exact doing.lastSequence.trans (by rw [← sameDb.1])
  · exact isTable.trans sameDb.2.symm
  · simp [split]
  · rw [isSequence, length_append, length_singleton, Nat.add_assoc]
  rw [after, addAll_append, ← append_assoc]
  change s.adds ++ _ = s.earlierAdds ++ addAll (addTo s.db table (op.entry seq)).logfileNumber work.sequence added
    ++ addAll (addTo s.db table (op.entry seq)).logfileNumber (work.sequence + added.length) [op]
  rw [sameDb.2, ← pre, ← doing.adds, pre, ← isSequence, isTable]
  rfl

theorem Working.finishes {bgError : Option Status} {syncError : Bool}
    (stage : work.stage = .finished status syncError) (pops : popWriters work.lastWriter s.writers = some (ms, rest)) :
    Working ((s.applied work status bgError).popped t ms rest status
      (if status.isNone then work.updates else []) (s.db.lastSequence + 1) work.synced) := by
  have doing := working.doing t work here
  have front := queued.leader t (by rw [here]; trivial)
  have added : work.added = if status.isNone then work.updates else [] := by
    simp [Work.added, stage]
  refine Working.popped (queued.applied _ _ _) working.ops front pops ?_ ?_ ?_
  · change (if work.isTmp then [] else s.tmpBatch) = []
    cases isTmp : work.isTmp with
    | true => rfl
    | false => simpa [isTmp] using doing.tmp
  · change s.adds = s.earlierAdds ++ addAll s.db.logfileNumber (s.db.lastSequence + 1) _
    rw [← doing.sequence, ← added]
    exact doing.adds
  · obtain ⟨ms', rest', pops', isGroup⟩ := doing.group
    rw [pops] at pops'
    cases pops'
    rw [isGroup]
    rfl

end Apply

theorem Working.effect (working : Working s) (queued : Queued s) (effect : Effect p s ev s') : Working s' := by
  have stays : ∀ {t : Nat} {work : Work} {synced : Bool} {stage : Stage}, s.pc t = .applying work →
      StageOk s { work with stage := stage } → ({ work with stage := stage } : Work).added = work.added →
      Working (s.goto t (.applying { work with synced := synced, stage := stage })) := by
    intro t work synced stage here ok added
    have front := queued.leader t (by rw [here]; trivial)
    exact Working.at_work (queued.goto front trivial) (update_self _ _ _)
      ((working.doing t work here).atStage ok added) working.ops
  cases effect with
  | call out => exact working.call queued out _ _
  | idle => exact working
  | returns waits | leads waits => exact working.goto (by simp [waits]) (by simp)
  | delays here => exact working.goto (by simp [here]) (by simp)
  | switches here => exact working.switches queued here _
  | alone here nothing _ pops => exact working.alone queued here nothing pops
  | builds here _ _ built => exact working.builds queued here built
  | syncFails here stage => exact stays here (by simp [StageOk]) (by simp [Work.added, stage])
  | inserts here stage =>
    refine stays here ⟨rfl, [], rfl, rfl⟩ (by simp [Work.added, stage])
  | adds here stage => exact working.adds_one queued here stage
  | inserted here stage =>
    exact stays here (by simp [StageOk]) (by simp [Work.added, stage])
  | finishes here stage _ pops => exact working.finishes queued here stage pops
  | background isBackground run =>
    have apart := (Db.step_apart isBackground run).1
    exact working.congr rfl rfl rfl apart.lastSequence apart.logfileNumber rfl rfl rfl
  | backgroundError => exact working.congr rfl rfl rfl rfl rfl rfl rfl rfl

/-! ## Sequence numbers -/

def Consecutive : Nat → List Group → Nat → Prop
  | base, [], last => last = base
  | base, g :: rest, last => g.first = base + 1 ∧ Consecutive (base + g.ops.length) rest last

variable {groups : List Group} {base : Nat}

theorem Consecutive.append (nums : Consecutive base groups last)
    (next : g.first = last + 1) : Consecutive base (groups ++ [g]) (last + g.ops.length) := by
  induction groups generalizing base with
  | nil =>
    cases nums
    exact ⟨next, rfl⟩
  | cons first rest ih => exact ⟨nums.1, ih nums.2⟩

theorem Consecutive.last_eq (nums : Consecutive base groups last) : last = base + (groups.flatMap (·.ops)).length := by
  induction groups generalizing base with
  | nil => exact nums
  | cons first rest ih =>
    rw [ih nums.2, flatMap_cons, length_append, Nat.add_assoc]

theorem Consecutive.first_eq {pre after : List Group} (nums : Consecutive base (pre ++ g :: after) last) :
    g.first = base + (pre.flatMap (·.ops)).length + 1 := by
  induction pre generalizing base with
  | nil => exact nums.1
  | cons first rest ih =>
    rw [ih nums.2, flatMap_cons, length_append, Nat.add_assoc base]

theorem addAll_numbered (table seq : Nat) (ops : List Op) :
    (addAll table seq ops).map (fun a => (a.sequence, a.op)) = numbered seq ops := by
  simp [addAll, comp_def]

theorem Consecutive.adds_numbered (nums : Consecutive base groups last) :
    (groups.flatMap Group.adds).map (fun a => (a.sequence, a.op)) = numbered (base + 1) (groups.flatMap (·.ops)) := by
  induction groups generalizing base with
  | nil => rfl
  | cons g rest ih =>
    rw [flatMap_cons, flatMap_cons, map_append, numbered_append, ih nums.2, Group.adds,
      addAll_numbered, nums.1, Nat.add_right_comm]

/-- Unless there was an error, the last sequence number is that of the last operation. -/
def Numbered (base : Nat) (s : System) : Prop :=
  s.bgError = none → Consecutive base s.groups s.db.lastSequence

theorem Numbered.effect (nums : Numbered base s) (working : Working s) (effect : Effect p s ev s') :
    Numbered base s' := by
  cases effect with
  | call | idle | returns | leads | delays | builds | syncFails | inserts | inserted => exact nums
  | switches _ free switched =>
    intro noError
    have eq := nums noError
    simp only [Db.switchMemTable, free] at switched
    cases switched
    exact eq
  | alone => exact fun noError => (nums noError).append rfl
  | adds here stage =>
    intro noError
    have eq := nums noError
    change Consecutive base s.groups (addTo s.db _ _).lastSequence
    simp only [addTo]
    split <;> exact eq
  | finishes here stage errors pops =>
    rename_i work status syncError bgError _ _
    intro noError
    obtain ⟨earlier, failed⟩ := errors noError
    have doing := working.doing _ _ here
    have ok := doing.stage
    unfold StageOk at ok
    rw [stage] at ok
    have isNone : status = none := by
      cases syncError with
      | false => exact ok.mpr rfl
      | true => exact failed rfl
    subst isNone
    change Consecutive base (s.groups ++ [_]) work.lastSequence
    rw [doing.lastSequence]
    exact (nums earlier).append rfl
  | background isBackground run =>
    intro noError
    change Consecutive base s.groups _
    rw [(Db.step_apart isBackground run).1.lastSequence]
    exact nums noError
  | backgroundError =>
    intro noError
    simp [recordBackgroundError] at noError

/-! ## Runs -/

structure Invariant (base : Nat) (s : System) : Prop where
  queued : Queued s
  working : Working s
  numbers : Numbered base s

theorem start_invariant (db : Db) : Invariant db.lastSequence (start db) where
  queued := by constructor <;> simp [start, Pc.Leads]
  working := by constructor <;> simp [start, earlierAdds]
  numbers := fun _ => rfl

theorem Invariant.step {writeBufferSize base : Nat}
    (inv : Invariant base s) (run : s.step p writeBufferSize ev = .ok s') : Invariant base s' := by
  have effect := step_effect run
  exact ⟨inv.queued.effect effect, inv.working.effect inv.queued effect, inv.numbers.effect inv.working effect⟩

variable {s : System}

theorem invariant_of_reachable {writeBufferSize : Nat} {db : Db}
    (run : Reachable p writeBufferSize db s) : Invariant db.lastSequence s :=
  run.invariant (Invariant db.lastSequence) (start_invariant db) fun inv _ taken => inv.step taken

/-! ## Memtables -/

def memtable (s : System) (table : Nat) : List Record := (s.adds.filter (·.table = table)).map Add.entry

/-- What a memtable holds in a run from `db`, whose memtable may hold entries already. -/
def contents (s : System) (db : Db) (table : Nat) : List Record :=
  (if table = db.logfileNumber then db.mem else []) ++ s.memtable table

/-- A flush of the run wrote the entries into a table, with the values that `BuildTable` stores. -/
def Flushed (p : Params) (writeBufferSize : Nat) (db : Db) (s : System) (entries : List Record) : Prop :=
  ∃ s₁ s₂ heap beyond rh imm node, Reachable p writeBufferSize db s₁ ∧
    s₁.step p writeBufferSize (.background (.compactMemTable heap beyond rh)) = .ok s₂ ∧
    Transition.Reaches (Transition.Steps (step p writeBufferSize)) (fun _ _ => True) s₂ s ∧ imm ~ entries ∧
    s₂.db.tables s₁.db.nextFileNumber = imm.mapIdx fun q r => (r.1, Merkle.storedValue node beyond r.2 q)

/-- Where the insertions went. -/
structure Placed (p : Params) (writeBufferSize : Nat) (db : Db) (s : System) : Prop where
  logs : db.logfileNumber ≤ s.db.logfileNumber ∧ s.db.logfileNumber < s.db.nextFileNumber
  below : ∀ a ∈ s.adds, a.table ≤ s.db.logfileNumber
  mem : s.db.mem ~ s.contents db s.db.logfileNumber
  imm : ∀ imm, s.db.imm = some imm →
    db.imm = some imm ∨ ∃ table < s.db.logfileNumber, imm ~ s.contents db table
  older : ∀ a ∈ s.adds, a.table < s.db.logfileNumber →
    (∃ imm, s.db.imm = some imm ∧ imm ~ s.contents db a.table) ∨
      Flushed p writeBufferSize db s (s.contents db a.table)

section Placed

variable {writeBufferSize : Nat} {db : Db}

theorem Flushed.step {entries : List Record} (flushed : Flushed p writeBufferSize db s entries)
    (run : s.step p writeBufferSize ev = .ok s') : Flushed p writeBufferSize db s' entries := by
  obtain ⟨s₁, s₂, heap, beyond, rh, imm, node, reached, flush, after, written⟩ := flushed
  exact ⟨s₁, s₂, heap, beyond, rh, imm, node, reached, flush, after.tail trivial run, written⟩

/-- A flush writes the other memtable. -/
theorem Flushed.of_step {heap : Nat → Digest} {beyond : Nat → Nat → UInt8} {rh : Digest}
    {imm entries : List Record} (reached : Reachable p writeBufferSize db s)
    (run : s.step p writeBufferSize (.background (.compactMemTable heap beyond rh)) = .ok s')
    (isImm : s.db.imm = some imm) (same : imm ~ entries) : Flushed p writeBufferSize db s' entries := by
  have flush : s.db.compactMemTable p heap beyond rh = .ok s'.db := by
    simp only [System.step, Step.isBackground, if_true] at run
    split at run
    · cases run
    case h_2 after runs =>
      cases run
      exact runs
  obtain ⟨imm', records, node, isImm', _, values, commits⟩ := Db.compactMemTable_commits flush
  obtain rfl := Option.some.inj (isImm.symm.trans isImm')
  refine ⟨s, s', heap, beyond, rh, imm, node, reached, run, .refl, same, ?_⟩
  rw [(Db.commitFlush_ok commits).2, update_self, values]

theorem contents_congr (adds : s'.adds = s.adds) : s'.contents db = s.contents db := by
  funext table
  rw [contents, contents, memtable, memtable, adds]

theorem Placed.congr (placed : Placed p writeBufferSize db s) (run : s.step p writeBufferSize ev = .ok s')
    (adds : s'.adds = s.adds) (logfileNumber : s'.db.logfileNumber = s.db.logfileNumber)
    (mem : s'.db.mem = s.db.mem) (next : s.db.nextFileNumber ≤ s'.db.nextFileNumber)
    (imm : s'.db.imm = s.db.imm ∨ s'.db.imm = none ∧
      ∀ imm entries, s.db.imm = some imm → imm ~ entries → Flushed p writeBufferSize db s' entries) :
    Placed p writeBufferSize db s' := by
  have same : s'.contents db = s.contents db := contents_congr adds
  refine ⟨?_, ?_, ?_, ?_, ?_⟩
  · rw [logfileNumber]
    exact ⟨placed.logs.1, placed.logs.2.trans_le next⟩
  · rw [adds, logfileNumber]
    exact placed.below
  · rw [mem, logfileNumber, same]
    exact placed.mem
  · intro held isImm
    rw [logfileNumber, same]
    cases imm with
    | inl eq => exact placed.imm held (eq ▸ isImm)
    | inr flushed => exact absurd isImm (by simp [flushed.1])
  intro a isAdd isOld
  rw [adds] at isAdd
  rw [logfileNumber] at isOld
  rw [same]
  obtain ⟨held, isImm, isTable⟩ | flushed := placed.older a isAdd isOld
  · cases imm with
    | inl eq => exact .inl ⟨held, eq.trans isImm, isTable⟩
    | inr flushes => exact .inr (flushes.2 held _ isImm isTable)
  · exact .inr (flushed.step run)

theorem Placed.switches (placed : Placed p writeBufferSize db s) (run : s.step p writeBufferSize ev = .ok s')
    (free : s.db.imm = none) (adds : s'.adds = s.adds)
    (switched : s'.db = { s.db with
      imm := some s.db.mem
      mem := []
      logfileNumber := s.db.nextFileNumber
      nextFileNumber := s.db.nextFileNumber + 1 }) : Placed p writeBufferSize db s' := by
  have same : s'.contents db = s.contents db := contents_congr adds
  have ⟨first, fresh⟩ := placed.logs
  refine ⟨?_, ?_, ?_, ?_, ?_⟩
  · rw [switched]
    exact ⟨first.trans fresh.le, Nat.lt_succ_self _⟩
  · rw [adds, switched]
    exact fun a isAdd => (placed.below a isAdd).trans fresh.le
  · have none : s.memtable s.db.nextFileNumber = [] := by
      rw [memtable, map_eq_nil_iff, filter_eq_nil_iff]
      intro a isAdd
      have := placed.below a isAdd
      simp only [decide_eq_true_eq]
      omega
    rw [switched, same, contents, none, if_neg (first.trans_lt fresh).ne']
    exact .refl _
  · intro imm isImm
    rw [switched] at isImm ⊢
    rw [same, ← Option.some.inj isImm]
    exact .inr ⟨_, fresh, placed.mem⟩
  intro a isAdd _
  rw [adds] at isAdd
  rw [same, switched]
  cases (placed.below a isAdd).lt_or_eq with
  | inl isOld =>
    obtain ⟨_, isImm, _⟩ | flushed := placed.older a isAdd isOld
    · exact absurd isImm (by simp [free])
    · exact .inr (flushed.step run)
  | inr inUse => exact .inl ⟨_, rfl, inUse ▸ placed.mem⟩

theorem Placed.adds_one (placed : Placed p writeBufferSize db s) (run : s.step p writeBufferSize ev = .ok s')
    {a : Add} (adds : s'.adds = s.adds ++ [a]) (inUse : a.table = s.db.logfileNumber)
    (added : s'.db = { s.db with mem := insertEntry a.entry s.db.mem }) : Placed p writeBufferSize db s' := by
  have new : s'.contents db a.table = s.contents db a.table ++ [a.entry] := by
    simp [contents, memtable, adds, append_assoc]
  have same : ∀ table, table ≠ a.table → s'.contents db table = s.contents db table := by
    intro table other
    simp [contents, memtable, adds, Ne.symm other]
  have logfileNumber : s'.db.logfileNumber = s.db.logfileNumber := by rw [added]
  refine ⟨by rw [added]; exact placed.logs, ?_, ?_, ?_, ?_⟩
  · rw [adds, logfileNumber]
    exact SortedList.forall_mem_concat placed.below inUse.le
  · rw [logfileNumber, ← inUse, new, added]
    refine (insertEntry_perm _ _).trans (((inUse ▸ placed.mem).cons _).trans ?_)
    exact (perm_append_singleton _ _).symm
  · intro imm isImm
    rw [logfileNumber]
    have old : s.db.imm = some imm := by rw [← isImm, added]
    obtain fromStart | ⟨table, isOld, isTable⟩ := placed.imm imm old
    · exact .inl fromStart
    · exact .inr ⟨table, isOld, by rwa [same table (inUse ▸ isOld.ne)]⟩
  intro b isAdd isOld
  rw [logfileNumber] at isOld
  rw [adds] at isAdd
  have other : b.table ≠ a.table := inUse ▸ isOld.ne
  rw [same _ other]
  cases mem_append.mp isAdd with
  | inl known =>
    obtain ⟨imm, isImm, isTable⟩ | flushed := placed.older b known isOld
    · exact .inl ⟨imm, by rw [added]; exact isImm, isTable⟩
    · exact .inr (flushed.step run)
  | inr isNew => exact absurd (mem_singleton.mp isNew ▸ rfl) other

theorem Placed.step (placed : Placed p writeBufferSize db s) (working : Working s)
    (reached : Reachable p writeBufferSize db s) (run : s.step p writeBufferSize ev = .ok s') :
    Placed p writeBufferSize db s' := by
  cases step_effect run with
  | call | idle | returns | leads | delays | alone | builds | syncFails | inserts | inserted | finishes
  | backgroundError => exact placed.congr run rfl rfl rfl le_rfl (.inl rfl)
  | switches here free switched =>
    obtain ⟨-, rfl⟩ := Db.switchMemTable_ok switched
    exact placed.switches run free rfl rfl
  | adds here atStage =>
    obtain ⟨_, _, _, inUse, _, _⟩ := (working.doing _ _ here).inserting atStage
    refine placed.adds_one run rfl inUse ?_
    rw [addTo, if_pos inUse]
    rfl
  | background isBackground taken =>
    obtain ⟨apart, sameImm⟩ := Db.step_apart isBackground taken
    refine placed.congr run rfl apart.logfileNumber apart.mem apart.next ?_
    obtain same | ⟨heap, beyond, rh, rfl⟩ := sameImm
    · exact .inl same
    obtain ⟨_, _, _, _, _, _, commits⟩ := Db.compactMemTable_commits taken
    exact .inr ⟨(Db.commitFlush_ok commits).1, fun imm entries isImm same => .of_step reached run isImm same⟩

theorem placed_of_reachable (logs : db.logfileNumber < db.nextFileNumber) (run : Reachable p writeBufferSize db s) :
    Placed p writeBufferSize db s := by
  suffices both : Reachable p writeBufferSize db s ∧ Placed p writeBufferSize db s from both.2
  refine run.invariant (fun s => Reachable p writeBufferSize db s ∧ Placed p writeBufferSize db s) ⟨.refl, ?_⟩ ?_
  · refine ⟨⟨le_rfl, logs⟩, ?_, ?_, fun imm isImm => .inl isImm, ?_⟩
    · simp [start]
    · simp [start, contents, memtable]
    · simp [start]
  · rintro before after ev ⟨reached, placed⟩ _ taken
    have working := (invariant_of_reachable reached).working
    exact ⟨reached.tail trivial taken, placed.step working reached taken⟩

end Placed

/-! ## What was applied -/

def ops (s : System) (t : Nat) : List Op := (s.writer t).ops

def groupCalls (s : System) (g : Group) : List Nat :=
  if g.status.isNone then g.members.filter fun t => (s.writer t).batch.isSome else []

def appliedCalls (s : System) : List Nat := s.groups.flatMap s.groupCalls

section Applied

variable {s : System}

theorem Working.groupCalls_ops (working : Working s) (isGroup : g ∈ s.groups) :
    (s.groupCalls g).flatMap s.ops = g.ops := by
  rw [working.ops g isGroup, groupCalls]
  split
  · induction g.members with
    | nil => rfl
    | cons t ms ih =>
      rw [flatMap_cons, ← ih]
      cases isBatch : (s.writer t).batch with
      | none => simp [isBatch, Writer.ops]
      | some batch => simp [isBatch, System.ops]
  · rfl

theorem Working.appliedCalls_ops (working : Working s) (known : ∀ g ∈ groups, g ∈ s.groups) :
    (groups.flatMap s.groupCalls).flatMap s.ops = groups.flatMap (·.ops) := by
  rw [flatMap_assoc]
  exact flatMap_congr fun g isGroup => working.groupCalls_ops (known g isGroup)

theorem Queued.appliedCalls_sublist (queued : Queued s) : s.appliedCalls.Sublist s.order := by
  rw [queued.order]
  refine List.Sublist.trans ?_ (sublist_append_left _ _)
  rw [appliedCalls]
  induction s.groups with
  | nil => exact List.Sublist.refl _
  | cons g groups ih =>
    rw [flatMap_cons, flatMap_cons]
    refine List.Sublist.append ?_ ih
    rw [groupCalls]
    split
    · exact filter_sublist
    · exact nil_sublist _

end Applied

theorem Invariant.block (inv : Invariant base s) (noError : s.bgError = none)
    {pre after : List Nat} (split : s.appliedCalls = pre ++ t :: after) :
    ∃ table, addAll table (base + (pre.flatMap s.ops).length + 1) (s.ops t) <:+: s.earlierAdds := by
  obtain ⟨groups, g, later, front, back, isGroups, isCalls, isBefore⟩ := SortedList.flatMap_split split
  have isGroup : g ∈ s.groups := by simp [isGroups]
  have first := (isGroups ▸ inv.numbers noError : Consecutive base (groups ++ g :: later) _).first_eq
  have ops := inv.working.groupCalls_ops isGroup
  rw [isCalls, flatMap_append, flatMap_cons] at ops
  have earlier := inv.working.appliedCalls_ops fun g' mem => isGroups ▸ mem_append_left (g :: later) mem
  have adds : g.adds = addAll g.table g.first (front.flatMap s.ops) ++
      (addAll g.table (g.first + (front.flatMap s.ops).length) (s.ops t) ++
        addAll g.table (g.first + (front.flatMap s.ops).length + (s.ops t).length) (back.flatMap s.ops)) := by
    rw [Group.adds, ← ops, addAll_append, addAll_append]
  have isFirst : base + (pre.flatMap s.ops).length + 1 = g.first + (front.flatMap s.ops).length := by
    rw [isBefore, flatMap_append, earlier, length_append, first]
    omega
  refine ⟨g.table, groups.flatMap Group.adds ++ addAll g.table g.first (front.flatMap s.ops),
    addAll g.table (g.first + (front.flatMap s.ops).length + (s.ops t).length) (back.flatMap s.ops) ++
      later.flatMap Group.adds, ?_⟩
  rw [earlierAdds, isGroups, flatMap_append, flatMap_cons, adds, isFirst]
  simp only [append_assoc]

/-- What has been inserted beyond the applied calls belongs to the group being applied. -/
theorem Invariant.adds_eq (inv : Invariant base s) : ∃ running, s.adds = s.earlierAdds ++ running ∧
      (running = [] ∨ ∃ t work, s.pc t = .applying work ∧
        running = addAll s.db.logfileNumber (s.db.lastSequence + 1) work.added ∧ work.added <+: work.updates) := by
  by_cases idle : ∀ t work, s.pc t ≠ .applying work
  · exact ⟨[], by rw [inv.working.adds idle, append_nil], .inl rfl⟩
  simp only [not_forall, not_not] at idle
  obtain ⟨t, work, here⟩ := idle
  have doing := inv.working.doing t work here
  refine ⟨_, doing.adds, .inr ⟨t, work, here, by rw [doing.sequence], ?_⟩⟩
  simp only [Work.added]
  split
  · exact nil_prefix
  · exact take_prefix _ _
  split
  · exact prefix_rfl
  · exact nil_prefix

theorem Invariant.returned_group (inv : Invariant base s)
    (returned : s.pc t = .returned status) : ∃ g ∈ s.groups, t ∈ g.members ∧ g.status = status := by
  have known : t ∈ s.order := by
    by_contra unknown
    rw [(inv.queued.outside t).mpr unknown] at returned
    cases returned
  rw [inv.queued.order] at known
  cases mem_append.mp known with
  | inl left =>
    obtain ⟨g, isGroup, mem⟩ := mem_flatMap.mp left
    refine ⟨g, isGroup, mem, ?_⟩
    cases inv.queued.settled g isGroup t mem with
    | inl eq => exact Pc.returned.inj (eq.symm.trans returned)
    | inr waits => exact absurd (waits.1.symm.trans returned) (by simp)
  | inr waits => exact absurd returned ((inv.queued.pending t waits).2 status)

/-- As long as there is no background error, whatever the interleaving:
the batches of the calls that returned OK are applied, each call once and in queue order; the
operations of a batch stand in a row in one memtable, with the sequence numbers that follow those
of the batches before it; nothing else is inserted but a part of the group being applied; the last
sequence number counts the operations applied; a call returns the status of its group; the
temporary batch is empty while no group is applied; and an insertion puts its entry once into the
memtable it names, which is the one in use, the other one, or one that was written into a table. -/
theorem batches_applied_once (p : Params) (writeBufferSize : Nat) (db : Db) (s : System)
    (run : Reachable p writeBufferSize db s) (noError : s.bgError = none) :
    s.appliedCalls.Sublist s.order ∧ s.order.Nodup ∧
    (∀ t batch, s.pc t = .returned none → (s.writer t).batch = some batch → t ∈ s.appliedCalls) ∧
    (∀ before t after, s.appliedCalls = before ++ t :: after → ∃ table,
      addAll table (db.lastSequence + (before.flatMap s.ops).length + 1) (s.ops t) <:+: s.adds) ∧
    (∃ running, s.adds.map (fun a => (a.sequence, a.op)) =
        numbered (db.lastSequence + 1) (s.appliedCalls.flatMap s.ops ++ running) ∧
      (running = [] ∨ ∃ t work, s.pc t = .applying work ∧ running <+: work.updates)) ∧
    s.db.lastSequence = db.lastSequence + (s.appliedCalls.flatMap s.ops).length ∧
    (∀ t status, s.pc t = .returned status → ∃ g ∈ s.groups, t ∈ g.members ∧ g.status = status) ∧
    ((∀ t work, s.pc t ≠ .applying work) → s.tmpBatch = []) ∧
    (db.logfileNumber < db.nextFileNumber → Placed p writeBufferSize db s) := by
  have inv := invariant_of_reachable run
  have allOps : s.appliedCalls.flatMap s.ops = s.groups.flatMap (·.ops) :=
    inv.working.appliedCalls_ops fun _ member => member
  have last := (inv.numbers noError).last_eq
  obtain ⟨running, isAdds, isRunning⟩ := inv.adds_eq
  refine ⟨inv.queued.appliedCalls_sublist, inv.queued.nodup, ?_, ?_, ?_, ?_,
    fun t status returned => inv.returned_group returned, inv.working.tmp, fun logs => placed_of_reachable logs run⟩
  · intro t batch returned isBatch
    obtain ⟨g, isGroup, member, isStatus⟩ := inv.returned_group returned
    refine mem_flatMap.mpr ⟨g, isGroup, ?_⟩
    rw [groupCalls, isStatus]
    exact mem_filter.mpr ⟨member, by simp [isBatch]⟩
  · intro before t after split
    obtain ⟨table, block⟩ := inv.block noError split
    exact ⟨table, isAdds ▸ block.trans (prefix_append _ _).isInfix⟩
  · cases isRunning with
    | inl none =>
      refine ⟨[], ?_, .inl rfl⟩
      rw [isAdds, none, append_nil, append_nil, allOps]
      exact (inv.numbers noError).adds_numbered
    | inr applying =>
      obtain ⟨t, work, here, rfl, isPrefix⟩ := applying
      refine ⟨work.added, ?_, .inr ⟨t, work, here, isPrefix⟩⟩
      rw [isAdds, map_append, addAll_numbered, allOps, numbered_append, last, earlierAdds,
        (inv.numbers noError).adds_numbered, Nat.add_right_comm]
  · rw [allOps]
    exact last

def leaderEvents (t operations : Nat) : List Event :=
  [.check t, .makeRoom t 0 none, .syncLog t none] ++ replicate (operations + 1) (.add t) ++ [.finish t]

def oneOp (op : Op) : WriteBatch := ⟨[op], by simp⟩

/-- A leader takes a `NULL` batch and another batch into its group; a fourth call comes while it is
applied and leads the next group. -/
def twoGroups : List Event :=
  [.call 0 (some (oneOp (.put [97] [1]))) false, .call 1 none false, .call 2 (some (oneOp (.delete [97]))) true,
    .check 0, .makeRoom 0 0 none, .syncLog 0 none, .add 0, .call 3 (some (oneOp (.put [99] [3]))) false, .check 3,
    .add 0, .add 0, .finish 0, .check 2] ++ leaderEvents 3 1

theorem batches_applied_once_twoGroups : ∃ s,
    Transition.run (step Db.sampleParams 4194304) (fun _ _ => True) (start Db.init) twoGroups = some s ∧
      s.bgError = none ∧ s.pc 2 = .returned none ∧ s.appliedCalls = [0, 2, 3] ∧
      (∃ table, addAll table 2 [.delete [97]] <:+: s.adds) ∧ s.db.lastSequence = 3 ∧ 2 ∈ s.appliedCalls ∧
      s.db.mem ~ [Op.entry (.put [97] [1]) 1, Op.entry (.delete [97]) 2, Op.entry (.put [99] [3]) 3] := by
  refine Transition.exists_of_eval (by decide +kernel) (Q := fun s => s.bgError = none ∧ s.pc 2 = .returned none ∧
    s.appliedCalls = [0, 2, 3] ∧ s.writer 2 = ⟨some (oneOp (.delete [97])), false, true, none⟩ ∧
    s.ops 0 = [.put [97] [1]] ∧ s.ops 3 = [.put [99] [3]] ∧ s.contents Db.init s.db.logfileNumber =
      [Op.entry (.put [97] [1]) 1, Op.entry (.delete [97]) 2, Op.entry (.put [99] [3]) 3]) ?_
  rintro s runs ⟨noError, returned, applied, writer2, ops0, ops3, isContents⟩
  have ops2 : s.ops 2 = [.delete [97]] := by rw [ops, writer2]; rfl
  have reached := Transition.reaches_of_run .refl runs
  obtain ⟨_, _, inApplied, blocks, _, last, _, _, placed⟩ :=
    batches_applied_once Db.sampleParams 4194304 Db.init s reached noError
  obtain ⟨table, block⟩ := blocks [0] 2 [3] applied
  refine ⟨noError, returned, applied, ⟨table, ?_⟩, ?_, inApplied 2 _ returned (by rw [writer2]),
    isContents ▸ (placed (by decide)).mem⟩
  · simpa [ops0, ops2, Db.init] using block
  · simpa [applied, ops0, ops2, ops3, Db.init] using last

end System

end Elsm
