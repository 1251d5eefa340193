import Elsm.Db.Invariant

/-!
# Compactions keep the database invariant

Choosing a compaction, one iteration of its loop, and the two ways it ends: a trivial move
and the installation of its outputs.  Both ends are a `Compacted` step, which is all that
later arguments need to know about them.
-/

namespace Elsm

open List
open Merkle (Digest Mac Record)

variable {c : Compaction Bytes} {db : Db} {cs : CompactionState Bytes} {p : Params} {db' : Db} {e : Record}

namespace Db

/-! ## Choosing -/

structure Picked (db : Db) (c : Compaction Bytes) : Prop where
  chosen : c.Chosen
  levelBound : c.level + 1 < kNumLevels
  current : c.inputVersion = db.current
  ptrs : c.levelPtrs = fun _ => 0
  edit : ∃ key, c.edit = VersionEdit.empty.setCompactPointer c.level key

theorem Inv.picked_of_first (inv : Inv db) {l : Nat} {inputs0 : List (FileMetaData Bytes)} (bound : l + 1 < kNumLevels)
    (first : FirstInputs db.current l inputs0)
    (setup : setupOtherInputs p.options db.current l inputs0 = some c) : Picked db c := by
  obtain ⟨chosen, rfl, isCurrent, ptrs, edit⟩ := setupOtherInputs_spec inv.stored.sorted first setup
  exact ⟨chosen, bound, isCurrent, ptrs, edit⟩

variable {trigger : Trigger}

theorem pickCompaction_initial
    (seek : ∀ f l, db.current.fileToCompact = some (f, l) → f ∈ db.current.files l ∧ l + 1 < kNumLevels)
    (picks : db.pickCompaction p trigger = some c) : ∃ l fromPick inputs0, l + 1 < kNumLevels ∧
      InitialInputs p.options db.current l fromPick inputs0 ∧
        setupOtherInputs p.options db.current l inputs0 = some c := by
  cases trigger with
  | size l =>
    simp only [pickCompaction] at picks
    split at picks
    case isTrue bound =>
      obtain ⟨f, isPicked, setup⟩ := Option.bind_eq_some_iff.mp picks
      exact ⟨l, _, _, bound, .size isPicked, setup⟩
    case isFalse => cases picks
  | seek =>
    obtain ⟨⟨f, l⟩, isSeek, setup⟩ := Option.bind_eq_some_iff.mp picks
    exact ⟨l, _, _, (seek f l isSeek).2, .seek isSeek, setup⟩
  | manual l begin_ end_ =>
    simp only [pickCompaction] at picks
    split at picks
    case isTrue bound =>
      simp only [compactRange] at picks
      split at picks
      · cases picks
      case isFalse ne => exact ⟨l, _, _, bound, .range ne, picks⟩
    case isFalse => cases picks

theorem Inv.picked (inv : Inv db) (picks : db.pickCompaction p trigger = some c) : Picked db c := by
  obtain ⟨l, _, _, bound, initial, setup⟩ := pickCompaction_initial inv.seek picks
  exact inv.picked_of_first bound (initial.first inv.stored.sorted fun f isSeek => (inv.seek f l isSeek).1) setup

theorem Inv.underway (inv : Inv db) (picked : Picked db c) : Underway db c where
  chosen := picked.chosen
  levelBound := picked.levelBound
  stored := picked.current ▸ inv.stored
  live _ _ member := picked.current ▸ member
  arrived _ _ member outside := absurd (picked.current ▸ member) outside
  edit := picked.edit

theorem smallestSnapshot_le (inv : Inv db) :
    db.smallestSnapshot ≤ db.lastSequence ∧ ∀ s ∈ db.snapshots, db.smallestSnapshot ≤ s := by
  have ord := inv.snapshotsOrdered
  have old := inv.snapshotsOld
  cases snapshots : db.snapshots with
  | nil => simp [smallestSnapshot, snapshots]
  | cons oldest rest =>
    rw [snapshots] at ord old
    simp only [smallestSnapshot, snapshots, head?_cons, Option.getD_some]
    exact ⟨old oldest (by simp), forall_mem_cons.mpr ⟨le_rfl, fun s => rel_of_pairwise_cons ord⟩⟩

theorem Inv.compactPointer (inv : Inv db) (pointers : Nat → Option (InternalKey Bytes)) :
    Inv { db with compactPointer := pointers } :=
  { inv with
    running := fun cs isRunning => (inv.running cs isRunning).transfer rfl rfl le_rfl le_rfl
      fun _ mem => .inl mem }

theorem Picked.compactPointer (picked : Picked db c)
    (pointers : Nat → Option (InternalKey Bytes)) : Picked { db with compactPointer := pointers } c :=
  ⟨picked.chosen, picked.levelBound, picked.current, picked.ptrs, picked.edit⟩

theorem Inv.startWork (inv : Inv db) (picked : Picked db c) : Inv (db.startWork c) :=
  { inv with
    running := fun cs isRunning => by
      simp only [Db.startWork, Option.some.injEq] at isRunning
      subst isRunning
      have underway := inv.underway picked
      exact
        { chosen := underway.chosen
          levelBound := underway.levelBound
          stored := underway.stored
          live := underway.live
          arrived := fun l f mem out => absurd (picked.current ▸ mem) out
          edit := underway.edit
          work := ⟨[], rfl, WorkInvariant.init c _ _ picked.ptrs⟩
          numbers := List.Pairwise.nil
          fresh := by simp [CompactionState.allOutputs]
          snapshot := smallestSnapshot_le inv } }

/-! ## One iteration -/

theorem inputEntries_same {d : Compaction Bytes} (eq : c.SameInputs d) (ts : Nat → List Record) :
    inputEntries ts d = inputEntries ts c := by
  rw [inputEntries, inputEntries, eq.inputs0, eq.inputs1]

theorem Underway.same {d : Compaction Bytes} (underway : Underway db c) (eq : c.SameInputs d) : Underway db d where
  chosen := eq.chosen underway.chosen
  levelBound := eq.level ▸ underway.levelBound
  stored := eq.inputVersion ▸ underway.stored
  live := eq.inputVersion ▸ underway.live
  arrived l f member outside := by
    rw [eq.inputVersion] at outside
    obtain ⟨newer, clear⟩ := underway.arrived l f member outside
    exact ⟨by rw [eq.inputVersion]; exact newer, by rw [eq.inputVersion]; exact clear⟩
  edit := by rw [eq.edit, eq.level]; exact underway.edit

theorem Running.input_valid (running : Running db cs) (mem : e ∈ cs.input) : e.1.Valid := by
  obtain ⟨read, whole, _⟩ := running.work
  have inWhole : e ∈ inputEntries db.tables cs.compaction := by
    rw [← whole]
    exact mem_append_right _ mem
  obtain ⟨f, isInput, inT⟩ := mem_inputEntries.mp inWhole
  obtain ⟨l, inFiles⟩ := inputs_mem running.chosen isInput
  exact (running.stored.table l f inFiles).valid e inT

theorem Inv.iterate (inv : Inv db) (run : db.compactionIteration p = .ok db') :
    Inv db' := by
  obtain ⟨cs, ent, rest, isRunning, atEntry, rfl⟩ := compactionIteration_ok run
  have running := inv.running cs isRunning
  obtain ⟨ikey, parsed⟩ := (Running.input_valid running (e := ent) (by simp [atEntry])).parses
  obtain ⟨read, whole, work⟩ := running.work
  have sorted := inputEntries_sorted running.chosen running.stored
  rw [← whole] at sorted
  have stepped := work.step p.options p.size db.nextFileNumber atEntry sorted parsed
    running.stored.sorted (running.snapshot.1.trans_lt inv.reserved)
  have nums := CompactionState.compactEntry_fresh p.options p.size ent inv.numbers running.numbers running.fresh
  generalize cs.compactEntry p.options p.size db.nextFileNumber ent = next at stepped nums
  obtain ⟨eq, snap, work'⟩ := stepped
  obtain ⟨grows, dist, fresh⟩ := nums
  exact
    { inv with
      numbers := fun l f mem => (inv.numbers l f mem).trans_le grows
      logs := ⟨inv.logs.1, inv.logs.2.trans_le grows⟩
      running := fun cs' isCs => by
        simp only [Option.some.injEq] at isCs
        subst isCs
        have underway := Underway.same running.toUnderway eq
        exact
          { chosen := underway.chosen
            levelBound := underway.levelBound
            stored := underway.stored
            live := underway.live
            arrived := fun l f mem outside =>
              ⟨(underway.arrived l f mem outside).newer, (underway.arrived l f mem outside).clear⟩
            edit := underway.edit
            work := ⟨read ++ [ent], by
              rw [inputEntries_same eq, ← whole, atEntry]
              simp, work'⟩
            numbers := dist
            fresh := fresh
            snapshot := by
              simp only [snap]
              exact running.snapshot } }

theorem iterated (run : db.compactionIteration p = .ok db') :
    ∃ cs cs' next ent, db.compaction = some cs ∧ db' = { db with nextFileNumber := next, compaction := some cs' } ∧
      cs.compaction.SameInputs cs'.compaction ∧ cs'.smallestSnapshot = cs.smallestSnapshot ∧
      cs.input = ent :: cs'.input := by
  obtain ⟨cs, ent, rest, isRunning, atEntry, rfl⟩ := compactionIteration_ok run
  obtain ⟨alike, -⟩ := CompactionState.compactEntry_kept p.options p.size db.nextFileNumber (.refl cs) ent
  obtain ⟨_, _, _, moved, -⟩ := cs.dropEntry_moves ent.1
  rw [moved] at alike
  exact ⟨cs, _, _, ent, isRunning, rfl, cs.compactEntry_same _ _ _ ent, alike.snapshot.symm, atEntry⟩

end Db

/-! ## The end of a compaction -/

def Output.file (out : Output Bytes) (rh : Nat → Digest) : FileMetaData Bytes :=
  ⟨out.number, out.fileSize, out.smallest, out.largest, rh out.number⟩

def Compaction.IsInput (c : Compaction Bytes) (l : Nat) (f : FileMetaData Bytes) : Prop :=
  (l = c.level ∧ f ∈ c.inputs0) ∨ (l = c.level + 1 ∧ f ∈ c.inputs1)

/-- The end of a compaction: the inputs are replaced by `new` files at the next level, whose tables
hold entries of the inputs, and every entry of the inputs that is not in one of them was
dropped for a reason that no reader at or above `snapshot` can notice. -/
structure Compacted (db db' : Db) (c : Compaction Bytes) (new : FileMetaData Bytes → Prop) (snapshot : Nat) : Prop where
  underway : Underway db c
  mem : db'.mem = db.mem
  imm : db'.imm = db.imm
  lastSequence : db'.lastSequence = db.lastSequence
  snapshots : db'.snapshots = db.snapshots
  history : db'.history = db.history
  nextFileNumber : db'.nextFileNumber = db.nextFileNumber
  logfileNumber : db'.logfileNumber = db.logfileNumber
  idle : db'.compaction = none
  logs : db'.logNumber = db.logNumber
  stored : Stored db'.current db'.tables
  seek : db'.current.fileToCompact = none
  files : ∀ l f, f ∈ db'.current.files l ↔ (f ∈ db.current.files l ∧ ¬ c.IsInput l f) ∨ (l = c.level + 1 ∧ new f)
  tables : ∀ l, ∀ f ∈ db.current.files l, ¬ c.IsInput l f → db'.tables f.number = db.tables f.number
  contents : ∀ f, new f → ∀ e ∈ db'.tables f.number, e ∈ Db.inputEntries db.tables c
  numbers : ∀ f, new f → f.number < db.nextFileNumber
  snapshot_le : snapshot ≤ db.lastSequence ∧ ∀ s ∈ db.snapshots, snapshot ≤ s
  accounted : ∀ e ∈ Db.inputEntries db.tables c, (∃ f, new f ∧ e ∈ db'.tables f.number) ∨
    (∃ newer ∈ Db.inputEntries db.tables c, newer.1.userKey = e.1.userKey ∧ newer.1 < e.1 ∧
      newer.1.sequence ≤ snapshot) ∨
    (e.1.typeCode = ValueType.deletion.code ∧ e.1.sequence ≤ snapshot ∧ c.BaseLevel e.1.userKey ∧
      ∀ f, new f → ∀ older ∈ db'.tables f.number, older.1.userKey = e.1.userKey → ¬ e.1 < older.1)

namespace Db

theorem Underway.entry_live (underway : Underway db c) (mem : e ∈ inputEntries db.tables c) :
    ∃ l f, c.IsInput l f ∧ f ∈ db.current.files l ∧ e ∈ db.tables f.number := by
  obtain ⟨f, isInput, inT⟩ := mem_inputEntries.mp mem
  cases isInput with
  | inl first =>
    exact ⟨_, f, .inl ⟨rfl, first⟩, underway.live _ f (underway.chosen.sublist0.subset first), inT⟩
  | inr snd =>
    exact ⟨_, f, .inr ⟨rfl, snd⟩, underway.live _ f (underway.chosen.sublist1.subset snd), inT⟩

variable {new : FileMetaData Bytes → Prop}

theorem Inv.compacted (inv : Inv db) {snap : Nat} (comp : Compacted db db' c new snap) : Inv db' := by
  have ofInput : ∀ P : Record → Prop, (∀ l, ∀ f ∈ db.current.files l, ∀ e ∈ db.tables f.number, P e) →
      ∀ l, ∀ f ∈ db'.current.files l, ∀ e ∈ db'.tables f.number, P e := by
    intro P old l f member e inT
    obtain ⟨isOld, notInput⟩ | ⟨_, isNew⟩ := (comp.files l f).mp member
    · rw [comp.tables l f isOld notInput] at inT
      exact old l f isOld e inT
    · obtain ⟨l', g, _, isLive, inG⟩ := Underway.entry_live comp.underway (comp.contents f isNew e inT)
      exact old l' g isLive e inG
  refine ⟨comp.stored, ?_, by rw [comp.lastSequence]; exact inv.reserved,
    by rw [comp.mem, comp.lastSequence]; exact inv.memOk,
    by rw [comp.imm, comp.lastSequence]; exact inv.immOk, ?_, ?_, ?_,
    by rw [comp.snapshots]; exact inv.snapshotsOrdered,
    by rw [comp.snapshots, comp.lastSequence]; exact inv.snapshotsOld, by simp [comp.seek], ?_,
    by simp [comp.idle]⟩
  · intro l f member
    rw [comp.nextFileNumber]
    obtain ⟨isOld, _⟩ | ⟨_, isNew⟩ := (comp.files l f).mp member
    · exact inv.numbers l f isOld
    · exact comp.numbers f isNew
  · rw [comp.lastSequence]
    exact ofInput _ inv.tablesOld
  · intro m inMem
    rw [comp.mem] at inMem
    rw [comp.imm]
    exact ⟨(inv.memNewer m inMem).1, ofInput _ (inv.memNewer m inMem).2⟩
  · intro i inImm
    rw [comp.imm] at inImm
    exact ofInput _ (inv.immNewer i inImm)
  · rw [comp.logs, comp.logfileNumber, comp.nextFileNumber]
    exact inv.logs

/-! ### Trivial moves -/

def movedFile (f : FileMetaData Bytes) (rh : Digest) : FileMetaData Bytes := { f with rh := rh }

section

variable (edit : ∃ key, c.edit = VersionEdit.empty.setCompactPointer c.level key)

include edit

theorem moveEdit_parts (f : FileMetaData Bytes) (rh : Digest) :
    (moveEdit c f rh).deletedFiles = [(c.level, f.number)] ∧
      (moveEdit c f rh).newFiles = [(c.level + 1, movedFile f rh)] ∧ (moveEdit c f rh).logNumber = none := by
  obtain ⟨key, isEdit⟩ := edit
  simp [moveEdit, isEdit, VersionEdit.deleteFile, VersionEdit.addFile, VersionEdit.setCompactPointer,
    VersionEdit.empty, movedFile]

variable {f : FileMetaData Bytes} {rh : Digest}

theorem moveEdit_deletes {l n : Nat} : (moveEdit c f rh).Deletes l n ↔ l = c.level ∧ n = f.number := by
  obtain ⟨deleted, new, _⟩ := moveEdit_parts edit f rh
  simp only [VersionEdit.Deletes, deleted, new, mem_singleton, Prod.mk.injEq]
  constructor
  · exact fun both => both.1
  · rintro ⟨isLevel, isNumber⟩
    exact ⟨⟨isLevel, isNumber⟩, fun g isNew => absurd isNew.1 (by omega)⟩

end

theorem Inv.move_editOk (inv : Inv db) (underway : Underway db c) (isFile : f ∈ db.current.files c.level)
    (rh : Digest) :
    EditOk db.current db.tables db.tables (moveEdit c f rh) := by
  obtain ⟨deleted, new, _⟩ := moveEdit_parts underway.edit f rh
  have isNew : ∀ l g, (l, g) ∈ (moveEdit c f rh).newFiles → l = c.level + 1 ∧ g = movedFile f rh := by
    simp [new]
  have deletes : ∀ l, ∀ g ∈ db.current.files l, g.number = f.number → (moveEdit c f rh).Deletes l g.number := by
    intro l g mem eq
    exact (moveEdit_deletes underway.edit).mpr ⟨(inv.stored.unique l g _ f mem isFile eq).1, eq⟩
  refine ⟨by rw [new]; exact pairwise_singleton _ _, fun _ _ _ _ => rfl, ?_, ?_, ?_, ?_, ?_, ?_⟩
  · intro l g added
    obtain ⟨rfl, rfl⟩ := isNew l g added
    obtain ⟨⟨sorted, first, last⟩, valid⟩ := inv.stored.table c.level f isFile
    exact ⟨underway.levelBound, ⟨sorted, first, last⟩, valid⟩
  · intro l g added b mem eq
    obtain ⟨rfl, rfl⟩ := isNew l g added
    have levels := (inv.stored.unique _ f _ b isFile mem eq).1
    omega
  · intro l g added l' b mem eq
    obtain ⟨rfl, rfl⟩ := isNew l g added
    exact deletes l' b mem eq
  · intro l g l' g' added added' _
    obtain ⟨rfl, rfl⟩ := isNew l g added
    obtain ⟨rfl, rfl⟩ := isNew l' g' added'
    exact ⟨rfl, rfl⟩
  · intro l g l' g' added added' e inG e' inG' eq
    obtain ⟨rfl, rfl⟩ := isNew l g added
    obtain ⟨rfl, rfl⟩ := isNew l' g' added'
    exact inv.stored.once _ f _ f isFile isFile e inG e' inG' eq
  · intro l g l' b added mem kept e inG e' inB eq
    obtain ⟨rfl, rfl⟩ := isNew l g added
    have eqNum := (inv.stored.once _ f _ b isFile mem e inG e' inB eq).1
    exact kept (deletes l' b mem eqNum.symm)

theorem Inv.move_compacted (inv : Inv db)
    (picked : Picked db c) (idle : db.compaction = none) (trivial : c.isTrivialMove p.options = true)
    {rest : List (FileMetaData Bytes)} (inputs : c.inputs0 = f :: rest)
    (run : db.logAndApply (moveEdit c f rh) = .ok db') :
    Compacted db db' c (fun g => g = movedFile f rh) db.smallestSnapshot := by
  have underway := inv.underway picked
  obtain ⟨one, none, _⟩ : c.inputs0.length = 1 ∧ c.inputs1.length = 0 ∧ _ := by
    simpa [Compaction.isTrivialMove] using trivial
  have alone : c.inputs0 = [f] := by
    rw [inputs] at one ⊢
    simpa using one
  have noSecond : c.inputs1 = [] := length_eq_zero_iff.mp none
  have isFile : f ∈ db.current.files c.level := underway.live _ f (picked.chosen.sublist0.subset (by simp [alone]))
  have editOk := inv.move_editOk underway isFile rh
  obtain ⟨v, saved, rfl⟩ := logAndApply_ok run
  obtain ⟨deleted, new, noLog⟩ := moveEdit_parts underway.edit f rh
  have isInput : ∀ l, ∀ g ∈ db.current.files l, ((moveEdit c f rh).Deletes l g.number ↔ c.IsInput l g) := by
    intro l g mem
    rw [moveEdit_deletes underway.edit]
    simp only [Compaction.IsInput, alone, noSecond, mem_singleton, not_mem_nil, and_false, or_false]
    constructor
    · intro ⟨isLevel, eqNum⟩
      exact ⟨isLevel, (inv.stored.unique l g _ f mem isFile eqNum).2⟩
    · intro ⟨isLevel, eq⟩
      exact ⟨isLevel, eq ▸ rfl⟩
  have inputs : ∀ e, e ∈ inputEntries db.tables c ↔ e ∈ db.tables f.number := by
    intro e
    rw [mem_inputEntries]
    simp [alone, noSecond]
  refine ⟨underway, rfl, rfl, rfl, rfl, rfl, rfl, rfl, idle, by simp [noLog],
    inv.stored.applyEdit editOk saved, (saveTo_some saved).1, ?_, fun _ _ _ _ => rfl, ?_, ?_,
    smallestSnapshot_le inv, ?_⟩
  · intro l g
    rw [inv.stored.mem_iff editOk saved, new]
    simp only [mem_singleton, Prod.mk.injEq]
    exact or_congr_left (and_congr_right fun mem => not_congr (isInput l g mem))
  · intro g isMoved e inT
    subst isMoved
    exact (inputs e).mpr inT
  · intro g isMoved
    subst isMoved
    exact inv.numbers _ f isFile
  · intro e mem
    exact .inl ⟨_, rfl, (inputs e).mp mem⟩

/-! ### Installing outputs -/

theorem foldl_deleteFile (edit : VersionEdit Bytes) (l : Nat) (files : List (FileMetaData Bytes)) :
    files.foldl (fun edit f => edit.deleteFile l f.number) edit =
      { edit with deletedFiles := edit.deletedFiles ++ files.map fun f => (l, f.number) } := by
  induction files generalizing edit with
  | nil => simp
  | cons f rest ih =>
    rw [foldl_cons, ih]
    simp [VersionEdit.deleteFile]

theorem foldl_addFile (edit : VersionEdit Bytes) (l : Nat) (rh : Nat → Digest) (outs : List (Output Bytes)) :
    outs.foldl (fun edit out =>
      edit.addFile l out.number out.fileSize out.smallest out.largest (rh out.number)) edit =
      { edit with newFiles := edit.newFiles ++ outs.map fun out => (l, out.file rh) } := by
  induction outs generalizing edit with
  | nil => simp
  | cons out rest ih =>
    rw [foldl_cons, ih]
    simp [VersionEdit.addFile, Output.file]

theorem resultsEdit_parts
    (edit : ∃ key, cs.compaction.edit = VersionEdit.empty.setCompactPointer cs.compaction.level key)
    (rh : Nat → Digest) :
    (resultsEdit cs rh).deletedFiles = (cs.compaction.inputs0.map fun f => (cs.compaction.level, f.number)) ++
          cs.compaction.inputs1.map (fun f => (cs.compaction.level + 1, f.number)) ∧
      (resultsEdit cs rh).newFiles = cs.outputs.map (fun out => (cs.compaction.level + 1, out.file rh)) ∧
      (resultsEdit cs rh).logNumber = none := by
  obtain ⟨key, isEdit⟩ := edit
  simp [resultsEdit, Compaction.addInputDeletions, isEdit, foldl_addFile, foldl_deleteFile,
    VersionEdit.setCompactPointer, VersionEdit.empty]

theorem withOutputs_of_ne {ts : Nat → List Record} {outs : List (Output Bytes)} {n : Nat}
    (apart : ∀ out ∈ outs, out.number ≠ n) : withOutputs ts outs n = ts n := by
  induction outs generalizing ts with
  | nil => rfl
  | cons out rest ih =>
    rw [withOutputs, foldl_cons]
    have here : n ≠ out.number := (apart out (by simp)).symm
    refine (ih fun out inR => apart out (by simp [inR])).trans ?_
    exact Function.update_of_ne here _ _

variable {out : Output Bytes}

theorem withOutputs_of_mem {ts : Nat → List Record} {outs : List (Output Bytes)}
    (dist : (outs.map (·.number)).Pairwise (· ≠ ·)) (mem : out ∈ outs) :
    withOutputs ts outs out.number = out.contents := by
  induction outs generalizing ts with
  | nil => simp at mem
  | cons first rest ih =>
    have ⟨headApart, restDistinct⟩ := pairwise_cons.mp dist
    rw [withOutputs, foldl_cons]
    cases mem_cons.mp mem with
    | inl isFirst =>
      subst isFirst
      refine (withOutputs_of_ne fun other inR => ?_).trans (Function.update_self _ _ _)
      exact (headApart other.number (mem_map_of_mem inR)).symm
    | inr inR => exact ih restDistinct inR

/-- The outputs of a finished loop: new tables in key order, made of entries of the inputs. -/
structure OutputsOk (db : Db) (cs : CompactionState Bytes) : Prop where
  underway : Underway db cs.compaction
  numbers : (cs.outputs.map (·.number)).Pairwise (· ≠ ·)
  fresh : ∀ out ∈ cs.outputs, out.number < db.nextFileNumber ∧ ∀ l, ∀ f ∈ db.current.files l, f.number ≠ out.number
  bounds : ∀ out ∈ cs.outputs, out.HasBounds
  sublist : (cs.outputs.map (·.contents)).flatten.Sublist (inputEntries db.tables cs.compaction)
  accounted : ∀ e ∈ inputEntries db.tables cs.compaction, (∃ out ∈ cs.outputs, e ∈ out.contents) ∨
    cs.MayDrop (inputEntries db.tables cs.compaction) e
  hidden : ∀ out ∈ cs.outputs, ∀ e ∈ out.contents, ∀ newer ∈ inputEntries db.tables cs.compaction,
    newer.1.userKey = e.1.userKey → newer.1 < e.1 → cs.smallestSnapshot < newer.1.sequence

theorem Running.outputsOk (running : Running db cs) (done : cs.input = []) (size : TableSize Bytes) :
    OutputsOk db (cs.finishCompactionOutputFile size) := by
  obtain ⟨read, whole, work⟩ := running.work
  rw [done, append_nil] at whole
  subst whole
  obtain ⟨sameCompaction, sameSnapshot, _⟩ := cs.finish_others size
  have closed := cs.finish_builder size
  have wr := cs.finish_written size
  have bounds := CompactionState.finish_bounds size work.bounds
  have nums := cs.finish_numbers size
  generalize cs.finishCompactionOutputFile size = final at *
  have all : final.allOutputs = final.outputs := by simp [CompactionState.allOutputs, closed]
  have isWritten : final.written = (final.outputs.map (·.contents)).flatten := by
    simp [CompactionState.written, closed]
  rw [all] at bounds nums
  rw [isWritten] at wr
  refine ⟨sameCompaction ▸ running.toUnderway, nums ▸ running.numbers, ?_, bounds, ?_, ?_, ?_⟩
  · intro out mem
    have n : out.number ∈ cs.allOutputs.map (·.number) := nums ▸ mem_map_of_mem mem
    obtain ⟨old, isOutput, eq⟩ := mem_map.mp n
    exact eq ▸ running.fresh old isOutput
  · rw [wr, sameCompaction]
    exact work.sublist
  · rw [sameCompaction]
    intro e mem
    cases work.accounted e mem with
    | inl inWritten =>
      rw [← wr] at inWritten
      obtain ⟨contents, isContents, inContents⟩ := mem_flatten.mp inWritten
      obtain ⟨out, isOutput, rfl⟩ := mem_map.mp isContents
      exact .inl ⟨out, isOutput, inContents⟩
    | inr mayDrop =>
      refine .inr ?_
      simpa only [CompactionState.MayDrop, sameCompaction, sameSnapshot] using mayDrop
  · rw [sameCompaction, sameSnapshot]
    intro out isOutput e inContents
    refine work.hidden e ?_
    rw [← wr]
    exact mem_flatten.mpr ⟨out.contents, mem_map_of_mem isOutput, inContents⟩

namespace OutputsOk

variable {db : Db} {cs : CompactionState Bytes} (ok : OutputsOk db cs)

include ok

theorem contents_mem (isOutput : out ∈ cs.outputs) (mem : e ∈ out.contents) :
    e ∈ inputEntries db.tables cs.compaction :=
  ok.sublist.subset (mem_flatten.mpr ⟨out.contents, mem_map_of_mem isOutput, mem⟩)

theorem sorted : (∀ out ∈ cs.outputs, out.contents.Pairwise fun a b => a.1 < b.1) ∧
      cs.outputs.Pairwise fun o o' => ∀ e ∈ o.contents, ∀ e' ∈ o'.contents, e.1 < e'.1 := by
  have whole := (inputEntries_sorted ok.underway.chosen ok.underway.stored).sublist ok.sublist
  rw [pairwise_flatten, pairwise_map] at whole
  exact ⟨fun out mem => whole.1 _ (mem_map_of_mem mem), whole.2⟩

theorem key_once {o o' : Output Bytes} (left : o ∈ cs.outputs) (right : o' ∈ cs.outputs)
    {e' : Record} (inO : e ∈ o.contents) (inO' : e' ∈ o'.contents) (eq : e.1 = e'.1) : o = o' := by
  obtain equal | pre | after := SortedList.rel_or_rel ok.sorted.2 left right
  · exact equal
  · exact absurd eq (pre e inO e' inO').ne
  · exact absurd eq (after e' inO' e inO).ne'

theorem table (isOutput : out ∈ cs.outputs) (rh : Nat → Digest) : TableOk (out.file rh) out.contents where
  sorted := ok.sorted.1 out isOutput
  first := (ok.bounds out isOutput).1
  last := (ok.bounds out isOutput).2
  valid e member := by
    obtain ⟨f, isInput, inT⟩ := mem_inputEntries.mp (ok.contents_mem isOutput member)
    obtain ⟨l, isFile⟩ := inputs_mem ok.underway.chosen isInput
    exact (ok.underway.stored.table l f isFile).valid e inT

end OutputsOk

theorem Inv.resultsEdit_deletes (inv : Inv db) (ok : OutputsOk db cs)
    (rh : Nat → Digest) {l : Nat} (isFile : f ∈ db.current.files l) :
    (resultsEdit cs rh).Deletes l f.number ↔ cs.compaction.IsInput l f := by
  obtain ⟨deleted, new, _⟩ := resultsEdit_parts ok.underway.edit rh
  have live0 := fun g isInput => ok.underway.live _ g (ok.underway.chosen.sublist0.subset isInput)
  have live1 := fun g isInput => ok.underway.live _ g (ok.underway.chosen.sublist1.subset isInput)
  simp only [VersionEdit.Deletes, deleted, new, mem_append, mem_map, Prod.mk.injEq]
  constructor
  · rintro ⟨⟨g, isInput, isLevel, eqNum⟩ | ⟨g, isInput, isLevel, eqNum⟩, _⟩
    · have eq := (inv.stored.unique _ g l f (live0 g isInput) isFile eqNum).2
      exact .inl ⟨isLevel.symm, eq ▸ isInput⟩
    · have eq := (inv.stored.unique _ g l f (live1 g isInput) isFile eqNum).2
      exact .inr ⟨isLevel.symm, eq ▸ isInput⟩
  · intro isInput
    refine ⟨?_, ?_⟩
    · obtain ⟨isLevel, first⟩ | ⟨isLevel, snd⟩ := isInput
      · exact .inl ⟨f, first, isLevel.symm, rfl⟩
      · exact .inr ⟨f, snd, isLevel.symm, rfl⟩
    · rintro g ⟨out, isOutput, _, rfl⟩ eq
      exact (ok.fresh out isOutput).2 l f isFile eq.symm

theorem Inv.results_editOk (inv : Inv db) (ok : OutputsOk db cs) (rh : Nat → Digest) :
    EditOk db.current db.tables (withOutputs db.tables cs.outputs) (resultsEdit cs rh) := by
  obtain ⟨_, new, _⟩ := resultsEdit_parts ok.underway.edit rh
  have isNew : ∀ l g, (l, g) ∈ (resultsEdit cs rh).newFiles →
      l = cs.compaction.level + 1 ∧ ∃ out ∈ cs.outputs, g = out.file rh := by
    intro l g added
    rw [new] at added
    obtain ⟨out, isOutput, eq⟩ := mem_map.mp added
    cases eq
    exact ⟨rfl, out, isOutput, rfl⟩
  have newTable : ∀ out ∈ cs.outputs, withOutputs db.tables cs.outputs (out.file rh).number = out.contents :=
    fun out isOutput => withOutputs_of_mem ok.numbers isOutput
  have fresh : ∀ out ∈ cs.outputs, ∀ l, ∀ g ∈ db.current.files l, g.number ≠ (out.file rh).number :=
    fun out isOutput => (ok.fresh out isOutput).2
  refine ⟨?_, ?_, ?_, ?_, ?_, ?_, ?_, ?_⟩
  · rw [new]
    refine pairwise_map.mpr ((pairwise_map.mp ok.numbers).imp ?_)
    intro o o' apart _
    exact apart
  · intro l f isFile _
    exact withOutputs_of_ne fun out isOutput => ((ok.fresh out isOutput).2 l f isFile).symm
  · intro l g added
    obtain ⟨rfl, out, isOutput, rfl⟩ := isNew l g added
    rw [newTable out isOutput]
    exact ⟨ok.underway.levelBound, ok.table isOutput rh⟩
  · intro l g added b isFile
    obtain ⟨_, out, isOutput, rfl⟩ := isNew l g added
    exact (fresh out isOutput l b isFile).symm
  · intro l g added l' b isFile eq
    obtain ⟨_, out, isOutput, rfl⟩ := isNew l g added
    exact absurd eq (fresh out isOutput l' b isFile)
  · intro l g l' g' added added' eq
    obtain ⟨isLevel, out, isOutput, rfl⟩ := isNew l g added
    obtain ⟨isLevel', out', isOutput', rfl⟩ := isNew l' g' added'
    have dist := pairwise_map.mp ok.numbers
    obtain equal | apart | apart := SortedList.rel_or_rel dist isOutput isOutput'
    · exact ⟨isLevel.trans isLevel'.symm, by rw [equal]⟩
    · exact absurd eq apart
    · exact absurd eq.symm apart
  · intro l g l' g' added added' e inG e' inG' eq
    obtain ⟨_, out, isOutput, rfl⟩ := isNew l g added
    obtain ⟨_, out', isOutput', rfl⟩ := isNew l' g' added'
    rw [newTable out isOutput] at inG
    rw [newTable out' isOutput'] at inG'
    obtain ⟨i, f, _, isFile, inF⟩ := Underway.entry_live ok.underway (ok.contents_mem isOutput inG)
    obtain ⟨i', f', _, isFile', inF'⟩ := Underway.entry_live ok.underway (ok.contents_mem isOutput' inG')
    have eqKey := (inv.stored.once i f i' f' isFile isFile' e inF e' inF' eq).2
    exact ⟨by rw [ok.key_once isOutput isOutput' inG inG' eqKey], eqKey⟩
  · intro l g l' b added isFile kept e inG e' inB eq
    obtain ⟨_, out, isOutput, rfl⟩ := isNew l g added
    rw [newTable out isOutput] at inG
    obtain ⟨i, f, isInput, isInputFile, inF⟩ := Underway.entry_live ok.underway (ok.contents_mem isOutput inG)
    have eqNum := (inv.stored.once i f l' b isInputFile isFile e inF e' inB eq).1
    obtain ⟨rfl, rfl⟩ := inv.stored.unique i f l' b isInputFile isFile eqNum
    exact kept ((inv.resultsEdit_deletes ok rh isFile).mpr isInput)

theorem installCompaction_ok {rh : Nat → Digest} (run : db.installCompaction p rh = .ok db') :
    ∃ cs v, db.compaction = some cs ∧ cs.input = [] ∧
      db.current.applyEdit (resultsEdit (cs.finishCompactionOutputFile p.size) rh) = some v ∧
      db' = { db with
        tables := withOutputs db.tables (cs.finishCompactionOutputFile p.size).outputs
        current := v
        compactPointer := applyCompactPointers (resultsEdit (cs.finishCompactionOutputFile p.size) rh) db.compactPointer
        manifest := db.manifest ++ [db.completeEdit (resultsEdit (cs.finishCompactionOutputFile p.size) rh)]
        logNumber := (resultsEdit (cs.finishCompactionOutputFile p.size) rh).logNumber.getD db.logNumber
        prevLogNumber := (resultsEdit (cs.finishCompactionOutputFile p.size) rh).prevLogNumber.getD db.prevLogNumber
        compaction := none } := by
  simp only [installCompaction] at run
  split at run
  · cases run
  case h_2 cs isRunning =>
    split at run
    · cases run
    case h_2 done =>
      split at run
      · cases run
      case h_2 applied =>
        cases run
        obtain ⟨v, saved, rfl⟩ := logAndApply_ok applied
        exact ⟨cs, v, isRunning, done, saved, rfl⟩

theorem Inv.install_compacted (inv : Inv db)
    (isRunning : db.compaction = some cs) {rh : Nat → Digest} (run : db.installCompaction p rh = .ok db') :
    cs.input = [] ∧ Compacted db db' (cs.finishCompactionOutputFile p.size).compaction
        (fun g => ∃ out ∈ (cs.finishCompactionOutputFile p.size).outputs, g = out.file rh)
        cs.smallestSnapshot := by
  obtain ⟨_, v, isCs, done, saved, rfl⟩ := installCompaction_ok run
  obtain rfl := Option.some.inj (isRunning.symm.trans isCs)
  have running := inv.running cs isRunning
  have ok := Running.outputsOk running done p.size
  have sameSnapshot := (cs.finish_others p.size).2.1
  refine ⟨done, ?_⟩
  generalize cs.finishCompactionOutputFile p.size = final at *
  have editOk := inv.results_editOk ok rh
  obtain ⟨_, new, noLog⟩ := resultsEdit_parts ok.underway.edit rh
  refine ⟨ok.underway, rfl, rfl, rfl, rfl, rfl, rfl, rfl, rfl, by simp [noLog],
    inv.stored.applyEdit editOk saved, (saveTo_some saved).1, ?_, ?_, ?_, ?_, running.snapshot, ?_⟩
  · intro l f
    have isNew : (l, f) ∈ (resultsEdit final rh).newFiles ↔
        l = final.compaction.level + 1 ∧ ∃ out ∈ final.outputs, f = out.file rh := by
      rw [new]
      simp only [mem_map, Prod.mk.injEq]
      constructor
      · rintro ⟨out, isOutput, rfl, rfl⟩
        exact ⟨rfl, out, isOutput, rfl⟩
      · rintro ⟨rfl, out, isOutput, rfl⟩
        exact ⟨out, isOutput, rfl, rfl⟩
    rw [inv.stored.mem_iff editOk saved, isNew]
    exact or_congr_left (and_congr_right fun isFile => not_congr (inv.resultsEdit_deletes ok rh isFile))
  · intro l f isFile notInput
    exact editOk.kept l f isFile fun deletes => notInput ((inv.resultsEdit_deletes ok rh isFile).mp deletes)
  · rintro f ⟨out, isOutput, rfl⟩ e inT
    have contents : withOutputs db.tables final.outputs out.number = out.contents :=
      withOutputs_of_mem ok.numbers isOutput
    change e ∈ withOutputs db.tables final.outputs out.number at inT
    rw [contents] at inT
    exact ok.contents_mem isOutput inT
  · rintro f ⟨out, isOutput, rfl⟩
    exact (ok.fresh out isOutput).1
  · intro e mem
    cases ok.accounted e mem with
    | inl wr =>
      obtain ⟨out, isOutput, inContents⟩ := wr
      refine .inl ⟨out.file rh, ⟨out, isOutput, rfl⟩, ?_⟩
      change e ∈ withOutputs db.tables final.outputs out.number
      rw [withOutputs_of_mem ok.numbers isOutput]
      exact inContents
    | inr mayDrop =>
      rw [CompactionState.MayDrop, sameSnapshot] at mayDrop
      obtain hides | ⟨deletion, old, base⟩ := mayDrop
      · exact .inr (.inl hides)
      refine .inr (.inr ⟨deletion, old, base, ?_⟩)
      rintro f ⟨out, isOutput, rfl⟩ older inT sameUser lt
      change older ∈ withOutputs db.tables final.outputs out.number at inT
      rw [withOutputs_of_mem ok.numbers isOutput] at inT
      have vis := ok.hidden out isOutput older inT e mem sameUser.symm lt
      rw [sameSnapshot] at vis
      omega

/-! ## Every step -/

theorem backgroundCompaction_ok (run : db.backgroundCompaction p trigger rh = .ok db') :
    db.compaction = none ∧ db.imm = none ∧ ∃ c, db.pickCompaction p trigger = some c ∧
      ((∃ f rest, trigger.isManual = false ∧ c.isTrivialMove p.options = true ∧ c.inputs0 = f :: rest ∧
        { db with compactPointer := applyCompactPointers c.edit db.compactPointer }.logAndApply
          (moveEdit c f rh) = .ok db') ∨
      db' = { db with compactPointer := applyCompactPointers c.edit db.compactPointer }.startWork c) := by
  simp only [backgroundCompaction] at run
  split at run
  · cases run
  case isFalse free =>
    simp only [Option.isSome_iff_ne_none, ne_eq, not_or, Decidable.not_not] at free
    refine ⟨free.1, free.2, ?_⟩
    split at run
    · cases run
    case h_2 c picks =>
      refine ⟨c, picks, ?_⟩
      split at run
      case h_1 f rest isMove inputs =>
        simp only [Bool.and_eq_true, Bool.not_eq_true'] at isMove
        exact .inl ⟨f, rest, isMove.1, isMove.2, inputs, run⟩
      case h_2 =>
        cases run
        exact .inr rfl

theorem Compacted.forgetPointer {pointers : Nat → Option (InternalKey Bytes)} {snap : Nat}
    (comp : Compacted { db with compactPointer := pointers } db' c new snap) :
    Compacted db db' c new snap := by
  obtain ⟨chosen, levelBound, stored, live, arrived, edit⟩ := comp.underway
  exact
    { comp with
      underway := ⟨chosen, levelBound, stored, live,
        fun l f isFile isNew => ⟨(arrived l f isFile isNew).newer, (arrived l f isFile isNew).clear⟩, edit⟩ }

inductive Effect (p : Params) (db : Db) : Step → Db → Prop
  | write {ops : List Op} : Effect p db (.write ops) (db.write ops)
  | switchMemTable (free : db.imm = none) : Effect p db .switchMemTable
      { db with
        imm := some db.mem
        mem := []
        logfileNumber := db.nextFileNumber
        nextFileNumber := db.nextFileNumber + 1 }
  | compactMemTable {heap : Nat → Digest} {beyond : Nat → Nat → UInt8} {rh : Digest} {db' : Db}
    {imm records : List Record} {node : Nat → Digest} (flushed : Flushed p db db' imm records)
    (values : records = imm.mapIdx fun q r => (r.1, Merkle.storedValue node beyond r.2 q)) :
    Effect p db (.compactMemTable heap beyond rh) db'
  | getSnapshot : Effect p db .getSnapshot { db with snapshots := db.snapshots ++ [db.lastSequence] }
  | releaseSnapshot {number : Nat} :
    Effect p db (.releaseSnapshot number) { db with snapshots := db.snapshots.erase number }
  | chargeSeek {key : InternalKey Bytes} {f : FileMetaData Bytes} {level : Nat} (member : f ∈ db.current.files level)
    (bound : level + 1 < kNumLevels) :
    Effect p db (.chargeSeek key)
      { db with current := { db.current with
        fileToCompact := some (db.current.fileToCompact.getD (f, level)) } }
  | moved {trigger : Trigger} {rh : Digest} {db' : Db} {c : Compaction Bytes} {f : FileMetaData Bytes}
    (picks : db.pickCompaction p trigger = some c) (isInput : f ∈ c.inputs0)
    (compacted : Compacted db db' c (fun g => g = movedFile f rh) db.smallestSnapshot) :
    Effect p db (.backgroundCompaction trigger rh) db'
  | started {trigger : Trigger} {rh : Digest} {c : Compaction Bytes} (idle : db.compaction = none)
    (picks : db.pickCompaction p trigger = some c) (picked : Picked db c) :
    Effect p db (.backgroundCompaction trigger rh)
      ({ db with compactPointer := applyCompactPointers c.edit db.compactPointer }.startWork c)
  | compactionIteration {cs cs' : CompactionState Bytes} {next : Nat} {entry : Record}
    (isRunning : db.compaction = some cs) (same : cs.compaction.SameInputs cs'.compaction)
    (snapshot : cs'.smallestSnapshot = cs.smallestSnapshot) (atEntry : cs.input = entry :: cs'.input) :
    Effect p db .compactionIteration { db with nextFileNumber := next, compaction := some cs' }
  | installCompaction {rh : Nat → Digest} {db' : Db} {cs : CompactionState Bytes} (isRunning : db.compaction = some cs)
    (compacted : Compacted db db' cs.compaction
      (fun g => ∃ out ∈ (cs.finishCompactionOutputFile p.size).outputs, g = out.file rh) cs.smallestSnapshot) :
    Effect p db (.installCompaction rh) db'

theorem Inv.effect {p : Params} {db db' : Db} (inv : Inv db) {lbl : Step}
    (run : step p db lbl = .ok db') : Effect p db lbl db' := by
  cases lbl with
  | write ops =>
    cases run
    exact .write
  | switchMemTable =>
    obtain ⟨free, rfl⟩ := switchMemTable_ok run
    exact .switchMemTable free
  | compactMemTable heap beyond rh =>
    obtain ⟨imm, records, node, flushed, values⟩ := inv.compactMemTable_flushed run
    exact .compactMemTable flushed values
  | getSnapshot =>
    cases run
    exact .getSnapshot
  | releaseSnapshot n =>
    cases run
    exact .releaseSnapshot
  | chargeSeek key =>
    obtain ⟨f, l, member, bound, rfl⟩ := chargeSeek_ok run
    exact .chargeSeek member bound
  | backgroundCompaction trigger rh =>
    obtain ⟨idle, _, c, picks, ends⟩ := backgroundCompaction_ok run
    have picked := inv.picked picks
    obtain ⟨f, rest, _, isMove, inputs, applied⟩ | started := ends
    · have pointed := inv.compactPointer (applyCompactPointers c.edit db.compactPointer)
      have comp := pointed.move_compacted (picked.compactPointer _) idle isMove inputs applied
      exact .moved picks (inputs ▸ mem_cons_self) (Compacted.forgetPointer comp)
    · rw [started]
      exact .started idle picks picked
  | compactionIteration =>
    obtain ⟨cs, cs', next, e, isRunning, rfl, eq, snap, atEntry⟩ := iterated run
    exact .compactionIteration isRunning eq snap atEntry
  | installCompaction rh =>
    cases isRunning : db.compaction with
    | none => simp [Db.step, Db.installCompaction, isRunning] at run
    | some cs =>
      have comp := (inv.install_compacted isRunning run).2
      rw [(cs.finish_others p.size).1] at comp
      exact .installCompaction isRunning comp

/-- The invariant is kept by every step that leaves the largest sequence number unused. -/
theorem Inv.step (inv : Inv db) {lbl : Step} (room : db.HasRoom lbl) (run : step p db lbl = .ok db') : Inv db' := by
  cases inv.effect run with
  | write => exact inv.write room
  | switchMemTable => exact inv.switchMemTable run
  | compactMemTable flushed => exact inv.flushed flushed
  | getSnapshot =>
    refine inv.snapshots ?_ ?_
    · exact SortedList.pairwise_concat inv.snapshotsOrdered inv.snapshotsOld
    · intro s mem
      simpa using mem
  | releaseSnapshot =>
    exact inv.snapshots (inv.snapshotsOrdered.sublist erase_sublist) fun s mem => .inl (mem_of_mem_erase mem)
  | chargeSeek mem bound => exact inv.chargeSeek mem bound
  | moved _ _ comp | installCompaction _ comp => exact inv.compacted comp
  | started _ _ picked => exact (inv.compactPointer _).startWork (picked.compactPointer _)
  | compactionIteration => exact inv.iterate run

theorem inv_of_reachable {ok : Db → Step → Prop}
    (room : ∀ db lbl, ok db lbl → db.HasRoom lbl) (reachable : Reachable p ok db) :
    Inv db :=
  reachable.invariant Inv init_inv fun inv adm run => inv.step (room _ _ adm) run

end Db

end Elsm
