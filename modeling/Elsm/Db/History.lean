import Elsm.Db.Get

/-!
# The operations behind the entries

The history lists the operations applied.  Every entry a reader may find comes from one of
them, and for every sequence number at which somebody may still read, the newest operation of
a key is either found or it is a deletion with nothing left below it to hide.
-/

namespace Elsm

open List
open Merkle (Digest Record zeroDigest)

/-- The newest operation of its key that a reader at `s` may see. -/
structure IsNewest (history : List (Nat × Op)) (s : Nat) (h : Nat × Op) : Prop where
  mem : h ∈ history
  seen : h.1 ≤ s
  newest : ∀ h' ∈ history, h'.2.key = h.2.key → h'.1 ≤ s → h'.1 ≤ h.1

def newestOp (history : List (Nat × Op)) (key : Bytes) (s : Nat) : Option (Nat × Op) :=
  (history.filter fun h => h.2.key = key ∧ h.1 ≤ s).getLast?

variable {h : Nat × Op} {s : Nat}

theorem newestOp_eq_some {history : List (Nat × Op)} (ord : history.Pairwise (·.1 < ·.1)) {key : Bytes}
    (isLast : newestOp history key s = some h) :
    IsNewest history s h ∧ h.2.key = key := by
  obtain ⟨front, split⟩ := getLast?_eq_some_iff.mp isLast
  have mem : h ∈ history.filter fun h => h.2.key = key ∧ h.1 ≤ s := by
    rw [split]
    exact mem_append_right _ (mem_singleton_self h)
  obtain ⟨inH, seen⟩ := mem_filter.mp mem
  rw [decide_eq_true_eq] at seen
  refine ⟨⟨inH, seen.2, fun h' inH' eqKey seen' => ?_⟩, seen.1⟩
  have mem' : h' ∈ front ++ [h] := by
    rw [← split, mem_filter, decide_eq_true_eq]
    exact ⟨inH', eqKey.trans seen.1, seen'⟩
  cases mem_append.mp mem' with
  | inl inFront =>
    have sorted := ord.filter fun h => decide (h.2.key = key ∧ h.1 ≤ s)
    rw [split] at sorted
    exact ((pairwise_append.mp sorted).2.2 h' inFront h (by simp)).le
  | inr isH => exact (congrArg Prod.fst (mem_singleton.mp isH)).le

theorem newestOp_eq_none {history : List (Nat × Op)} {key : Bytes}
    (none : newestOp history key s = none) : ∀ h ∈ history, h.2.key = key → ¬ h.1 ≤ s := by
  intro h inH eqKey seen
  have empty := filter_eq_nil_iff.mp (getLast?_eq_none_iff.mp none)
  exact empty h inH (decide_eq_true ⟨eqKey, seen⟩)

/-- What an operation applied with its number leaves in a table: its key, and its value as
`BuildTable` writes it. -/
structure StoredEntry (h : Nat × Op) (e : Record) : Prop where
  key : e.1 = (h.2.entry h.1).1
  value : ∃ node beyond position, e.2 = Merkle.storedValue node beyond (h.2.entry h.1).2 position

/-- No input of the second level ends with the user key a file left behind begins with. -/
def Compaction.SplitsNoNextKey (c : Compaction Bytes) : Prop :=
  ∀ f ∈ c.inputs1, ∀ g ∈ c.inputVersion.files (c.level + 1), g ∉ c.inputs1 → f.largest.userKey ≠ g.smallest.userKey

variable {c : Compaction Bytes}

theorem Compaction.SameInputs.splitsNoNextKey {d : Compaction Bytes} (eq : c.SameInputs d)
    (closed : c.SplitsNoNextKey) : d.SplitsNoNextKey := by
  simpa only [Compaction.SplitsNoNextKey, eq.level, eq.inputs1, eq.inputVersion] using closed

namespace Db

/-! ## Every entry has its operation -/

structure Logged (db : Db) : Prop where
  ordered : db.history.Pairwise (·.1 < ·.1)
  old : ∀ h ∈ db.history, h.1 ≤ db.lastSequence
  memory : ∀ e, e ∈ db.mem ∨ e ∈ db.imm.getD [] → ∃ h ∈ db.history, e = h.2.entry h.1
  tables : ∀ l, ∀ f ∈ db.current.files l, ∀ e ∈ db.tables f.number, ∃ h ∈ db.history, StoredEntry h e

theorem init_logged : Logged init := by
  refine ⟨List.Pairwise.nil, ?_, ?_, ?_⟩ <;> simp [init, Version.empty]

theorem numbered_ordered (seq : Nat) (ops : List Op) : (numbered seq ops).Pairwise (·.1 < ·.1) := by
  induction ops generalizing seq with
  | nil => exact List.Pairwise.nil
  | cons op rest ih =>
    refine pairwise_cons.mpr ⟨fun h mem => ?_, ih (seq + 1)⟩
    exact (@mem_numbered _ _ _ h.2 mem).1

variable {db db' : Db}

theorem Logged.write (logged : Logged db) (ops : List Op) : Logged (db.write ops) where
  ordered := by
    refine pairwise_append.mpr ⟨logged.ordered, numbered_ordered _ _, fun h old h' new => ?_⟩
    exact (logged.old h old).trans_lt (@mem_numbered _ _ _ h'.2 new).1
  old h member := by
    change h.1 ≤ db.lastSequence + ops.length
    cases mem_append.mp member with
    | inl old => exact (logged.old h old).trans (Nat.le_add_right _ _)
    | inr new =>
      have bounds := @mem_numbered _ _ _ h.2 new
      omega
  memory e member := by
    cases member with
    | inl inMem =>
      obtain old | ⟨q, op, isNew, rfl⟩ := mem_insertInto.mp inMem
      · obtain ⟨h, inH, isEntry⟩ := logged.memory e (.inl old)
        exact ⟨h, mem_append_left _ inH, isEntry⟩
      · exact ⟨(q, op), mem_append_right _ isNew, rfl⟩
    | inr inImm =>
      obtain ⟨h, inH, isEntry⟩ := logged.memory e (.inr inImm)
      exact ⟨h, mem_append_left _ inH, isEntry⟩
  tables l f isFile e inTable := by
    obtain ⟨h, inH, isStored⟩ := logged.tables l f isFile e inTable
    exact ⟨h, mem_append_left _ inH, isStored⟩

variable {p : Params}

theorem Logged.flushed (inv : Inv db) (logged : Logged db)
    {imm records : List Record} {node : Nat → Digest} {beyond : Nat → Nat → UInt8}
    (flushed : Flushed p db db' imm records)
    (values : records = imm.mapIdx fun q r => (r.1, Merkle.storedValue node beyond r.2 q)) : Logged db' := by
  obtain ⟨_, _, _, eq⟩ := flushed.others
  have sameHistory : db'.history = db.history := by rw [eq]
  refine ⟨sameHistory ▸ logged.ordered, ?_, ?_, ?_⟩
  · rw [eq]
    exact logged.old
  · intro e mem
    rw [sameHistory]
    rw [eq] at mem
    cases mem with
    | inl inMem => exact logged.memory e (.inl inMem)
    | inr none => simp at none
  · intro l f isFile e inT
    rw [sameHistory]
    cases flushed.cases l f isFile with
    | inl old =>
      rw [flushed.table_old (inv.numbers l f old)] at inT
      exact logged.tables l f old e inT
    | inr new =>
      rw [flushed.table_new new, values] at inT
      obtain ⟨i, bound, rfl⟩ := mem_mapIdx.mp inT
      have inImm : imm[i] ∈ db.imm.getD [] := by
        rw [flushed.isImm]
        exact getElem_mem bound
      obtain ⟨h, inH, isEntry⟩ := logged.memory _ (.inr inImm)
      exact ⟨h, inH, by rw [isEntry], node, beyond, i, by rw [isEntry]⟩

variable {new : FileMetaData Bytes → Prop} {snap : Nat}

theorem Logged.compacted (logged : Logged db) (comp : Compacted db db' c new snap) : Logged db' := by
  refine ⟨comp.history ▸ logged.ordered, ?_, ?_, ?_⟩
  · rw [comp.history, comp.lastSequence]
    exact logged.old
  · rw [comp.history, comp.mem, comp.imm]
    exact logged.memory
  intro l f isFile e inT
  rw [comp.history]
  obtain ⟨old, kept⟩ | ⟨_, isNew⟩ := (comp.files l f).mp isFile
  · rw [comp.tables l f old kept] at inT
    exact logged.tables l f old e inT
  · obtain ⟨l', g, _, isLive, inG⟩ := Underway.entry_live comp.underway (comp.contents f isNew e inT)
    exact logged.tables l' g isLive e inG

theorem Logged.step (inv : Inv db) (logged : Logged db) {lbl : Step}
    (run : Db.step p db lbl = .ok db') : Logged db' := by
  cases inv.effect run with
  | write => exact logged.write _
  | switchMemTable =>
    refine ⟨logged.ordered, logged.old, fun e mem => ?_, logged.tables⟩
    cases mem with
    | inl none => simp at none
    | inr inMem => exact logged.memory e (.inl inMem)
  | compactMemTable flushed values => exact logged.flushed inv flushed values
  | getSnapshot | releaseSnapshot | chargeSeek | started | compactionIteration =>
    exact ⟨logged.ordered, logged.old, logged.memory, logged.tables⟩
  | moved _ _ comp | installCompaction _ comp => exact logged.compacted comp

/-! ## Every operation has its entry -/

/-- Somebody may read at `s`, now or later. -/
def Readable (db : Db) (s : Nat) : Prop := s ∈ db.snapshots ∨ db.lastSequence ≤ s

def Accounts (db : Db) (s : Nat) (h : Nat × Op) : Prop :=
  (∃ e, db.Held e ∧ e.1 = (h.2.entry h.1).1) ∨
    ((∃ key, h.2 = .delete key) ∧ ∀ e, db.Held e → e.1.userKey = h.2.key → s < e.1.sequence)

def Complete (db : Db) : Prop :=
  ∀ s, db.Readable s → ∀ h, IsNewest db.history s h → db.Accounts s h

theorem Accounts.transfer (accounts : db.Accounts s h) (kept : ∀ e, db.Held e → ∃ e', db'.Held e' ∧ e'.1 = e.1)
    (known : ∀ e', db'.Held e' → ∃ e, db.Held e ∧ e.1 = e'.1) : db'.Accounts s h := by
  cases accounts with
  | inl found =>
    obtain ⟨e, held, isEntry⟩ := found
    obtain ⟨e', held', eq⟩ := kept e held
    exact .inl ⟨e', held', eq.trans isEntry⟩
  | inr hidden =>
    refine .inr ⟨hidden.1, fun e' held' eqKey => ?_⟩
    obtain ⟨e, held, eq⟩ := known e' held'
    exact eq ▸ hidden.2 e held (eq ▸ eqKey)

section

variable (complete : Complete db) (history : db'.history = db.history) (readable : ∀ s, db'.Readable s → db.Readable s)

include complete history readable

theorem Complete.transfer (kept : ∀ e, db.Held e → ∃ e', db'.Held e' ∧ e'.1 = e.1)
    (known : ∀ e', db'.Held e' → ∃ e, db.Held e ∧ e.1 = e'.1) : Complete db' := by
  intro s isReadable h newest
  exact (complete s (readable s isReadable) h (history ▸ newest)).transfer kept known

theorem Complete.congr (held : ∀ e, db'.Held e ↔ db.Held e) : Complete db' :=
  complete.transfer history readable (fun e isHeld => ⟨e, (held e).mpr isHeld, rfl⟩)
    fun e isHeld => ⟨e, (held e).mp isHeld, rfl⟩

end

theorem Complete.write (logged : Logged db) (complete : Complete db) (ops : List Op) : Complete (db.write ops) := by
  intro s readable h newest
  cases mem_append.mp newest.mem with
  | inr isNew =>
    exact .inl ⟨h.2.entry h.1, .inl (mem_insertInto.mpr (.inr ⟨h.1, h.2, isNew, rfl⟩)), rfl⟩
  | inl isOld =>
    have pre : db.Readable s := by
      cases readable with
      | inl isSnapshot => exact .inl isSnapshot
      | inr above => exact .inr ((Nat.le_add_right _ _).trans above)
    have newest' : IsNewest db.history s h :=
      ⟨isOld, newest.seen, fun h' old => newest.newest h' (mem_append_left _ old)⟩
    have heldNew : ∀ e, db.Held e → (db.write ops).Held e := by
      intro e held
      obtain inMem | elsewhere := held
      · exact .inl (mem_insertInto.mpr (.inl inMem))
      · exact .inr elsewhere
    cases complete s pre h newest' with
    | inl found =>
      obtain ⟨e, held, isEntry⟩ := found
      exact .inl ⟨e, heldNew e held, isEntry⟩
    | inr hidden =>
      refine .inr ⟨hidden.1, fun e held eqKey => ?_⟩
      obtain inMem | elsewhere := held
      · obtain old | ⟨q, op, isNew, rfl⟩ := mem_insertInto.mp inMem
        · exact hidden.2 e (.inl old) eqKey
        rw [Op.entry_userKey] at eqKey
        rw [Op.entry_sequence]
        by_contra seen
        have later := newest.newest (q, op) (mem_append_right _ isNew) eqKey (not_lt.mp seen)
        have old := logged.old h isOld
        have new := (mem_numbered isNew).1
        change q ≤ h.1 at later
        omega
      · exact hidden.2 e (.inr elsewhere) eqKey

theorem Complete.flushed (inv : Inv db) (complete : Complete db)
    {imm records : List Record} (flushed : Flushed p db db' imm records) : Complete db' := by
  obtain ⟨_, _, _, eq⟩ := flushed.others
  have sameMem : db'.mem = db.mem := by rw [eq]
  have noImm : db'.imm.getD [] = [] := by rw [eq]; rfl
  refine complete.transfer (by rw [eq]) (by rw [eq]; exact fun s readable => readable) ?_ ?_
  · intro e held
    obtain inMem | inImm | ⟨l, f, isFile, inT⟩ := held
    · exact ⟨e, .inl (sameMem ▸ inMem), rfl⟩
    · rw [flushed.isImm, Option.getD_some] at inImm
      have inKeys : e.1 ∈ records.map Prod.fst := flushed.keys ▸ mem_map_of_mem inImm
      obtain ⟨r, inRecords, eqKey⟩ := mem_map.mp inKeys
      obtain ⟨l, f, isFile, new⟩ := flushed.added (ne_nil_of_mem inRecords)
      exact ⟨r, .inr (.inr ⟨l, f, isFile, flushed.table_new new ▸ inRecords⟩), eqKey⟩
    · refine ⟨e, .inr (.inr ⟨l, f, flushed.kept l f isFile, ?_⟩), rfl⟩
      rw [flushed.table_old (inv.numbers l f isFile)]
      exact inT
  · intro e held
    obtain inMem | inImm | ⟨l, f, isFile, inT⟩ := held
    · exact ⟨e, .inl (sameMem ▸ inMem), rfl⟩
    · simp [noImm] at inImm
    cases flushed.cases l f isFile with
    | inl old =>
      rw [flushed.table_old (inv.numbers l f old)] at inT
      exact ⟨e, .inr (.inr ⟨l, f, old, inT⟩), rfl⟩
    | inr new =>
      obtain ⟨i, inImm, eqKey⟩ := flushed.key_mem new inT
      exact ⟨i, .inr (.inl inImm), eqKey⟩

/-! ### Compactions -/

variable {e : Record}

/-- Where no deeper level has the key, what a compaction leaves behind is newer than what it
takes. -/
theorem Recency.kept_newer (inv : Inv db) (recency : Recency db)
    (underway : Underway db c) (closed : c.SplitsNoKey) (closedNext : c.SplitsNoNextKey) {e' : Record}
    (isInput : e ∈ inputEntries db.tables c) (base : c.BaseLevel e.1.userKey) {j : Nat}
    {g : FileMetaData Bytes} (isG : g ∈ db.current.files j) (kept : ¬ c.IsInput j g)
    (inG : e' ∈ db.tables g.number) (eqKey : e'.1.userKey = e.1.userKey) :
    e.1.sequence < e'.1.sequence := by
  obtain ⟨l, f, inputF, liveF, inF⟩ := Underway.entry_live underway isInput
  have isF : f ∈ c.inputVersion.files l := by
    obtain ⟨rfl, first⟩ | ⟨rfl, snd⟩ := inputF
    · exact underway.chosen.sublist0.subset first
    · exact underway.chosen.sublist1.subset snd
  by_cases old : g ∈ c.inputVersion.files j
  · have rangeF := (inv.stored.table l f liveF).userKey_range inF
    have rangeG := (inv.stored.table j g isG).userKey_range inG
    rw [eqKey] at rangeG
    by_cases above : j < l
    · exact recency.recent.levels j l above g isG f liveF e' inG e inF eqKey
    by_cases deeper : c.level + 2 ≤ j
    · exact absurd rangeG (base j deeper (inv.stored.level_lt isG) g old)
    obtain ⟨rfl, first⟩ | ⟨rfl, snd⟩ := inputF
    · by_cases isLevel : j = c.level
      · subst isLevel
        exact left_newer inv underway closed first isG (fun also => kept (.inl ⟨rfl, also⟩)) e' inG e inF eqKey
      have isNext : j = c.level + 1 := by omega
      subst isNext
      have left : g ∉ c.inputs1 := fun also => kept (.inr ⟨rfl, also⟩)
      cases underway.chosen.outside g old left with
      | inl pre => exact absurd (rangeF.1.trans rangeG.2) (not_le.mpr (pre.1 f first))
      | inr after => exact absurd (rangeG.1.trans rangeF.2) (not_le.mpr (after.1 f first))
    · have isNext : j = c.level + 1 := by omega
      subst isNext
      have left : g ∉ c.inputs1 := fun also => kept (.inr ⟨rfl, also⟩)
      obtain eq | pre | after := SortedList.rel_or_rel (inv.stored.disjoint _ (Nat.succ_pos _)) isG liveF
      · exact absurd (eq ▸ snd) left
      · exact inv.stored.newerTable_of_lt isG liveF pre e' inG e inF eqKey
      have differ := closedNext f snd g old left
      have apart : f.largest.userKey < g.smallest.userKey :=
        lt_of_le_of_ne (InternalKey.userKey_le_of_le after.le) differ
      exact absurd (rangeG.1.trans rangeF.2) (not_le.mpr apart)
  · exact (underway.arrived j g isG old).newer l f isF e' inG e inF

theorem held_compacted (comp : Compacted db db' c new snap) (held : db'.Held e) : db.Held e := by
  obtain inMem | inImm | ⟨l, f, isFile, inT⟩ := held
  · exact .inl (comp.mem ▸ inMem)
  · exact .inr (.inl (comp.imm ▸ inImm))
  obtain ⟨old, kept⟩ | ⟨_, isNew⟩ := (comp.files l f).mp isFile
  · exact .inr (.inr ⟨l, f, old, comp.tables l f old kept ▸ inT⟩)
  · obtain ⟨l', g, _, isLive, inG⟩ := Underway.entry_live comp.underway (comp.contents f isNew e inT)
    exact .inr (.inr ⟨l', g, isLive, inG⟩)

/-- An entry is still held unless it was an input. -/
theorem compacted_held (comp : Compacted db db' c new snap) (held : db.Held e) :
    db'.Held e ∨ e ∈ inputEntries db.tables c := by
  obtain inMem | inImm | ⟨l, f, isFile, inT⟩ := held
  · exact .inl (.inl (comp.mem ▸ inMem))
  · exact .inl (.inr (.inl (comp.imm ▸ inImm)))
  by_cases isInput : c.IsInput l f
  · refine .inr (mem_inputEntries.mpr ⟨f, ?_, inT⟩)
    exact isInput.imp And.right And.right
  refine .inl (.inr (.inr ⟨l, f, (comp.files l f).mpr (.inl ⟨isFile, isInput⟩), ?_⟩))
  rw [comp.tables l f isFile isInput]
  exact inT

theorem Logged.unique (logged : Logged db) {h' : Nat × Op} (left : h ∈ db.history)
    (right : h' ∈ db.history) (eq : h.1 = h'.1) : h = h' := by
  obtain equal | lt | lt := SortedList.rel_or_rel logged.ordered left right
  · exact equal
  · exact absurd eq lt.ne
  · exact absurd eq lt.ne'

theorem Logged.held (logged : Logged db) (held : db.Held e) : ∃ h ∈ db.history, e.1 = (h.2.entry h.1).1 := by
  have ofMemory : e ∈ db.mem ∨ e ∈ db.imm.getD [] → ∃ h ∈ db.history, e.1 = (h.2.entry h.1).1 := by
    intro member
    obtain ⟨h, inH, isEntry⟩ := logged.memory e member
    exact ⟨h, inH, congrArg Prod.fst isEntry⟩
  obtain inMem | inImm | ⟨l, f, isFile, inT⟩ := held
  · exact ofMemory (.inl inMem)
  · exact ofMemory (.inr inImm)
  · obtain ⟨h, inH, isStored⟩ := logged.tables l f isFile e inT
    exact ⟨h, inH, isStored.key⟩

theorem Logged.held_once (logged : Logged db) {e' : Record} (held : db.Held e) (held' : db.Held e')
    (same : e.1.sequence = e'.1.sequence) : e.1 = e'.1 := by
  obtain ⟨h, inH, isEntry⟩ := logged.held held
  obtain ⟨h', inH', isEntry'⟩ := logged.held held'
  rw [isEntry, isEntry', Op.entry_sequence, Op.entry_sequence] at same
  rw [isEntry, isEntry', logged.unique inH inH' same]

theorem logged_of_reachable {ok : Db → Step → Prop} (room : ∀ db lbl, ok db lbl → db.HasRoom lbl)
    (run : Reachable p ok db) : Logged db :=
  (run.invariant (fun db => Inv db ∧ Logged db) ⟨init_inv, init_logged⟩ fun both adm taken =>
    ⟨both.1.step (room _ _ adm) taken, both.2.step both.1 taken⟩).2

/-- What the memtables and the tables hold was written, with this key and value, and no sequence number was given
twice. -/
theorem entries_from_operations (p : Params) (db : Db) (run : Reachable p HasRoom db) :
    (∀ e, e ∈ db.mem ∨ e ∈ db.imm.getD [] → ∃ h ∈ db.history, e = h.2.entry h.1) ∧
    (∀ l, ∀ f ∈ db.current.files l, ∀ e ∈ db.tables f.number, ∃ h ∈ db.history, StoredEntry h e) ∧
    ∀ e e', db.Held e → db.Held e' → e.1.sequence = e'.1.sequence → e.1 = e'.1 := by
  have logged := logged_of_reachable (fun _ _ room => room) run
  exact ⟨logged.memory, logged.tables, fun _ _ => logged.held_once⟩

theorem entries_from_operations_nestedFlush : ∃ db,
    compute sampleParams HasRoom init
      (nestedFlush [100] ++ [.write [.put [97] [7]], .switchMemTable, .write [.delete [99]]]) = some db ∧
      (∃ e ∈ db.mem, ∃ h ∈ db.history, e = h.2.entry h.1) ∧
      (∃ f ∈ db.current.files 2, ∃ e ∈ db.tables f.number, ∃ h ∈ db.history, StoredEntry h e) ∧
      ∃ e ∈ db.mem, ∃ e' ∈ db.imm.getD [], e.1.sequence ≠ e'.1.sequence := by
  refine Transition.exists_of_eval (by decide +kernel) (Q := fun db =>
    (∃ e ∈ db.mem, ∃ e' ∈ db.imm.getD [], e.1 ≠ e'.1) ∧ ∃ f ∈ db.current.files 2, db.tables f.number ≠ []) ?_
  rintro db run ⟨⟨e, inMem, e', inImm, differ⟩, f, isLive, filled⟩
  have reached := reachable_of_compute rfl hasRoom_zeroed .refl run
  obtain ⟨memory, tables, once⟩ := entries_from_operations sampleParams db reached
  obtain ⟨stored, inTable⟩ := exists_mem_of_ne_nil _ filled
  exact ⟨⟨e, inMem, memory e (.inl inMem)⟩, ⟨f, isLive, stored, inTable, tables 2 f isLive stored inTable⟩,
    e, inMem, e', inImm, fun same => differ (once e e' (.inl inMem) (.inr (.inl inImm)) same)⟩

/-- What a reader at `s` finds of a key is not newer than the newest operation, and it is that
operation's entry unless it is older. -/
theorem Logged.visible_cases (logged : Logged db)
    (newest : IsNewest db.history s h) (held : db.Held e) (seen : Visible h.2.key s e) :
    e.1 = (h.2.entry h.1).1 ∨ e.1.sequence < h.1 := by
  obtain ⟨h', inH, isEntry⟩ := logged.held held
  have seq : e.1.sequence = h'.1 := by rw [isEntry, Op.entry_sequence]
  have k : e.1.userKey = h'.2.key := by rw [isEntry, Op.entry_userKey]
  have atMost := newest.newest h' inH (k.symm.trans seen.1) (seq ▸ seen.2)
  rw [seq]
  cases Nat.lt_or_eq_of_le atMost with
  | inl older => exact .inr older
  | inr eq => exact .inl (logged.unique inH newest.mem eq ▸ isEntry)

/-- What is newer than a held entry and stands in the way of it cannot be older. -/
theorem Logged.not_hidden (logged : Logged db)
    (newest : IsNewest db.history s h) {newer : Record} (isEntry : e.1 = (h.2.entry h.1).1)
    (held : db.Held newer) (eqKey : newer.1.userKey = e.1.userKey) (seen : newer.1.sequence ≤ s) :
    ¬ newer.1 < e.1 := by
  intro lt
  have isKey : newer.1.userKey = h.2.key := by rw [eqKey, isEntry, Op.entry_userKey]
  have seq : e.1.sequence = h.1 := by rw [isEntry, Op.entry_sequence]
  cases logged.visible_cases newest held ⟨isKey, seen⟩ with
  | inl eq => exact absurd lt (isEntry.trans eq.symm ▸ lt_irrefl _)
  | inr older =>
    have notOlder : e.1.sequence ≤ newer.1.sequence := Nat.div_le_div_right (InternalKey.tag_lt_of_lt eqKey lt).le
    omega

theorem Complete.compacted (inv : Inv db) (recency : Recency db) (logged : Logged db)
    (complete : Complete db) (comp : Compacted db db' c new snap) (closed : c.SplitsNoKey)
    (closedNext : c.SplitsNoNextKey) : Complete db' := by
  intro s readable h newest
  rw [Readable, comp.snapshots, comp.lastSequence] at readable
  rw [comp.history] at newest
  have above : snap ≤ s := by
    cases readable with
    | inl isSnapshot => exact comp.snapshot_le.2 s isSnapshot
    | inr last => exact comp.snapshot_le.1.trans last
  cases complete s readable h newest with
  | inr hidden =>
    exact .inr ⟨hidden.1, fun e held => hidden.2 e (held_compacted comp held)⟩
  | inl found =>
    obtain ⟨e, held, isEntry⟩ := found
    cases compacted_held comp held with
    | inl held' => exact .inl ⟨e, held', isEntry⟩
    | inr isInput =>
      obtain ⟨l, f, inputF, liveF, inF⟩ := Underway.entry_live comp.underway isInput
      obtain ⟨g, isNew, inG⟩ | ⟨newer, alsoInput, eqKey, lt, seen⟩ | ⟨isDeletion, seen, base, noneOlder⟩ :=
        comp.accounted e isInput
      · exact .inl ⟨e, .inr (.inr ⟨_, g, (comp.files _ g).mpr (.inr ⟨rfl, isNew⟩), inG⟩), isEntry⟩
      · obtain ⟨l', g, _, liveG, inG⟩ := Underway.entry_live comp.underway alsoInput
        exact absurd lt (logged.not_hidden newest isEntry (.inr (.inr ⟨l', g, liveG, inG⟩)) eqKey (seen.trans above))
      have seq : e.1.sequence = h.1 := by rw [isEntry, Op.entry_sequence]
      have k : e.1.userKey = h.2.key := by rw [isEntry, Op.entry_userKey]
      by_cases still : ∃ e', db'.Held e' ∧ e'.1 = (h.2.entry h.1).1
      · exact .inl still
      refine .inr ⟨?_, fun e' held' eqKey => ?_⟩
      · cases isOp : h.2 with
        | delete key => exact ⟨key, rfl⟩
        | put key val =>
          rw [isEntry, isOp, Op.entry, InternalKey.make_typeCode] at isDeletion
          cases isDeletion
      · by_contra notLater
        have older : e'.1.sequence < e.1.sequence := by
          rw [seq]
          cases logged.visible_cases newest (held_compacted comp held') ⟨eqKey, not_lt.mp notLater⟩ with
          | inl eq => exact absurd ⟨e', held', eq⟩ still
          | inr older => exact older
        obtain inMem | inImm | ⟨j, g, isG, inG⟩ := held'
        · exact absurd ((inv.memNewer e' (comp.mem ▸ inMem)).2 l f liveF e inF) older.not_gt
        · exact absurd (inv.immNewer e' (comp.imm ▸ inImm) l f liveF e inF) older.not_gt
        obtain ⟨oldG, kept⟩ | ⟨_, isNew⟩ := (comp.files j g).mp isG
        · rw [comp.tables j g oldG kept] at inG
          exact absurd (recency.kept_newer inv comp.underway closed closedNext isInput base oldG
            kept inG (eqKey.trans k.symm)) older.not_gt
        have tags : e'.1.tag < e.1.tag := Nat.lt_of_div_lt_div older
        exact noneOlder g isNew e' inG (eqKey.trans k.symm)
          (InternalKey.lt_iff.mpr (.inr ⟨k.trans eqKey.symm, tags⟩))

/-! ## What a read returns -/

/-- A background compaction leaves no part of a key behind at either of its levels. -/
def WholePicks (p : Params) (db : Db) : Step → Prop
  | .backgroundCompaction trigger _ => ∀ c ∈ db.pickCompaction p trigger, c.SplitsNoKey ∧ c.SplitsNoNextKey
  | _ => True

theorem WholePicks.closed {lbl : Step} (whole : WholePicks p db lbl) : ClosedPicks p db lbl := by
  cases lbl with
  | backgroundCompaction trigger rh => exact fun c isPick => (whole c isPick).1
  | _ => trivial

structure Answerable (db : Db) : Prop where
  inv : Inv db
  recency : Recency db
  logged : Logged db
  complete : Complete db
  whole : ∀ cs ∈ db.compaction, cs.compaction.SplitsNoNextKey

theorem init_answerable : Answerable init where
  inv := init_inv
  recency := by
    refine ⟨⟨?_, ?_⟩, ?_⟩ <;> simp [init, Version.empty]
  logged := init_logged
  complete s _ h newest := by
    have none := newest.mem
    simp [init] at none
  whole := by simp [init]

theorem Answerable.step {p : Params} {db db' : Db} (ready : Answerable db) {lbl : Step}
    (room : db.HasRoom lbl) (picks : WholePicks p db lbl) (run : Db.step p db lbl = .ok db') :
    Answerable db' := by
  have inv' := ready.inv.step room run
  have recency' := ready.recency.step ready.inv picks.closed run
  have logged' := ready.logged.step ready.inv run
  have complete := ready.complete
  suffices rest : Complete db' ∧ ∀ cs ∈ db'.compaction, cs.compaction.SplitsNoNextKey from
    ⟨inv', recency', logged', rest.1, rest.2⟩
  cases ready.inv.effect run with
  | write => exact ⟨complete.write ready.logged _, ready.whole⟩
  | switchMemTable free =>
    refine ⟨complete.congr rfl (fun _ readable => readable) fun e => ?_, ready.whole⟩
    simp [Held, free]
  | compactMemTable flushed =>
    obtain ⟨_, _, _, eq⟩ := flushed.others
    exact ⟨complete.flushed ready.inv flushed, by rw [eq]; exact ready.whole⟩
  | getSnapshot =>
    refine ⟨complete.congr rfl (fun s readable => ?_) fun _ => Iff.rfl, ready.whole⟩
    cases readable with
    | inl isSnapshot =>
      cases mem_append.mp isSnapshot with
      | inl old => exact .inl old
      | inr isLast => exact .inr (mem_singleton.mp isLast).ge
    | inr last => exact .inr last
  | releaseSnapshot =>
    refine ⟨complete.congr rfl (fun s readable => ?_) fun _ => Iff.rfl, ready.whole⟩
    exact readable.imp mem_of_mem_erase id
  | chargeSeek => exact ⟨complete.congr rfl (fun _ readable => readable) fun _ => Iff.rfl, ready.whole⟩
  | moved isPick _ comp =>
    have whole := picks _ isPick
    exact ⟨complete.compacted ready.inv ready.recency ready.logged comp whole.1 whole.2, by simp [comp.idle]⟩
  | started _ isPick _ =>
    refine ⟨complete.congr rfl (fun _ readable => readable) fun _ => Iff.rfl, fun cs isRunning => ?_⟩
    simp only [startWork, Option.mem_def, Option.some.injEq] at isRunning
    exact isRunning ▸ (picks _ isPick).2
  | compactionIteration isRunning eq =>
    refine ⟨complete.congr rfl (fun _ readable => readable) fun _ => Iff.rfl, fun cs isCs => ?_⟩
    simp only [Option.mem_def, Option.some.injEq] at isCs
    exact isCs ▸ eq.splitsNoNextKey (ready.whole _ isRunning)
  | installCompaction isRunning comp =>
    exact ⟨complete.compacted ready.inv ready.recency ready.logged comp
      (ready.recency.closed _ isRunning) (ready.whole _ isRunning), by simp [comp.idle]⟩

theorem answerable_of_reachable
    (run : Reachable p (fun db lbl => db.HasRoom lbl ∧ WholePicks p db lbl) db) : Answerable db :=
  run.invariant Answerable init_answerable fun ready adm taken =>
    ready.step adm.1 adm.2 taken

def expected (db : Db) (key : Bytes) (s : Nat) : GetResult :=
  match newestOp db.history key s with
  | some (_, .put _ value) => .ok value
  | _ => .notFound

/-- The newest operation of the key is not a `Put` that left the memtables. -/
def Unflushed (db : Db) (key : Bytes) (s : Nat) : Prop :=
  match newestOp db.history key s with
  | some (q, .put k value) =>
    (Op.put k value).entry q ∈ db.mem ∨ (Op.put k value).entry q ∈ db.imm.getD []
  | _ => True

instance (db : Db) (key : Bytes) (s : Nat) : Decidable (db.Unflushed key s) := by
  unfold Unflushed
  split <;> infer_instance

theorem Answerable.reads_newest (ready : Answerable db) (readable : db.Readable s) (newest : IsNewest db.history s h)
    {ent : Option Record}
    (reads : db.Reads h.2.key s ent) :
    (∃ e, ent = some e ∧ db.Held e ∧ e.1 = (h.2.entry h.1).1) ∨ (ent = none ∧ ∃ key, h.2 = .delete key) := by
  cases ready.complete s readable h newest with
  | inl found =>
    obtain ⟨e, held, isEntry⟩ := found
    have seen : Visible h.2.key s e := by
      rw [Visible, isEntry, Op.entry_userKey, Op.entry_sequence]
      exact ⟨rfl, newest.seen⟩
    cases ent with
    | none => exact absurd seen (reads e held)
    | some e' =>
      refine .inl ⟨e', rfl, reads.1, ?_⟩
      have notOlder := reads.2.2 e held seen
      rw [isEntry, Op.entry_sequence] at notOlder
      cases ready.logged.visible_cases newest reads.1 reads.2.1 with
      | inl eq => exact eq
      | inr older => omega
  | inr hidden =>
    cases ent with
    | none => exact .inr ⟨rfl, hidden.1⟩
    | some e' =>
      have later := hidden.2 e' reads.1 reads.2.1.1
      have seen := reads.2.1.2
      omega

/-- Values come out as they went in while they are in memory; a table returns them as
`BuildTable` wrote them. -/
theorem Answerable.found_put (ready : Answerable db) {q : Nat} {key val : Bytes}
    (inH : (q, Op.put key val) ∈ db.history) (held : db.Held e) (isEntry : e.1 = ((Op.put key val).entry q).1) :
    e = (Op.put key val).entry q ∧ (e ∈ db.mem ∨ e ∈ db.imm.getD []) ∨
      (∃ node beyond position, e.2 = Merkle.storedValue node beyond val position) ∧
        ∀ e', e' ∈ db.mem ∨ e' ∈ db.imm.getD [] → e'.1.sequence ≠ q := by
  have seq : e.1.sequence = q := by rw [isEntry, Op.entry_sequence]
  have sameOp : ∀ h ∈ db.history, e.1 = (h.2.entry h.1).1 → h = (q, .put key val) := by
    intro h inH' isEntry'
    rw [isEntry', Op.entry_sequence] at seq
    exact ready.logged.unique inH' inH seq
  have ofMemory : ∀ member : e ∈ db.mem ∨ e ∈ db.imm.getD [],
      e = (Op.put key val).entry q ∧ (e ∈ db.mem ∨ e ∈ db.imm.getD []) := by
    intro member
    obtain ⟨h, inH', isOp⟩ := ready.logged.memory e member
    rw [sameOp h inH' (congrArg Prod.fst isOp)] at isOp
    exact ⟨isOp, member⟩
  obtain inMem | inImm | ⟨l, f, isFile, inT⟩ := held
  · exact .inl (ofMemory (.inl inMem))
  · exact .inl (ofMemory (.inr inImm))
  obtain ⟨h, inH', stored⟩ := ready.logged.tables l f isFile e inT
  have isOp := sameOp h inH' stored.key
  have isStored := stored.value
  rw [isOp] at isStored
  refine .inr ⟨isStored, fun e' member => ?_⟩
  rw [← seq]
  cases member with
  | inl inMem => exact ((ready.inv.memNewer e' inMem).2 l f isFile e inT).ne'
  | inr inImm => exact (ready.inv.immNewer e' inImm l f isFile e inT).ne'

/-- Reads at the last sequence number or at a live snapshot.  As long as the newest operation is a
deletion, absent, or still in a memtable, `Get` returns what it says; a `Put` that was
flushed comes back with the padding and the proof it was stored with. -/
theorem get_newest_put (p : Params) (db : Db)
    (run : Reachable p (fun db label => db.HasRoom label ∧ WholePicks p db label) db) (key : Bytes)
    (snapshot : Option Nat) (live : ∀ s ∈ snapshot, s ∈ db.snapshots) :
    (db.Unflushed key (snapshot.getD db.lastSequence) →
      db.get key snapshot = db.expected key (snapshot.getD db.lastSequence)) ∧
    (¬ db.Unflushed key (snapshot.getD db.lastSequence) → ∃ q value node beyond position,
        newestOp db.history key (snapshot.getD db.lastSequence) = some (q, .put key value) ∧
        db.get key snapshot = .ok (Merkle.storedValue node beyond value position) ∧
        (Merkle.storedValue node beyond value position).length = 352) := by
  have ready := answerable_of_reachable run
  obtain ⟨entry, reads, result⟩ := ready.inv.get_reads ready.recency.recent key snapshot
  have readable : db.Readable (snapshot.getD db.lastSequence) := by
    cases snapshot with
    | none => exact .inr le_rfl
    | some s => exact .inl (live s rfl)
  rw [result]
  generalize snapshot.getD db.lastSequence = s at reads readable
  cases isNewest : newestOp db.history key s with
  | none =>
    simp only [Unflushed, expected, isNewest, true_implies, not_true, false_implies, and_true]
    cases entry with
    | none => rfl
    | some e =>
      obtain ⟨h, inHistory, isEntry⟩ := ready.logged.held reads.1
      have seen := reads.2.1
      rw [Visible, isEntry, Op.entry_userKey, Op.entry_sequence] at seen
      exact absurd seen.2 (newestOp_eq_none isNewest h inHistory seen.1)
  | some h =>
    obtain ⟨newest, rfl⟩ := newestOp_eq_some ready.logged.ordered isNewest
    obtain ⟨q, op⟩ := h
    cases ready.reads_newest readable newest reads with
    | inr hidden =>
      obtain ⟨rfl, key, isDelete⟩ := hidden
      simp only at isDelete
      subst isDelete
      simp [Unflushed, expected, isNewest]
    | inl found =>
      obtain ⟨e, rfl, held, isEntry⟩ := found
      cases op with
      | delete key =>
        have isDeletion : e.1.typeCode = ValueType.deletion.code := by
          rw [isEntry, Op.entry, InternalKey.make_typeCode]
        simp [Unflushed, expected, isNewest, recordFound, isDeletion, ValueType.code, Found.result]
      | put key value =>
        have isValue : e.1.typeCode = ValueType.value.code := by
          rw [isEntry, Op.entry, InternalKey.make_typeCode]
        simp only [Unflushed, expected, isNewest, recordFound, isValue, if_true, Found.result,
          Option.map_some, Option.getD_some]
        cases ready.found_put newest.mem held isEntry with
        | inl inMemory =>
          obtain ⟨isOp, member⟩ := inMemory
          rw [← isOp]
          refine ⟨fun _ => by rw [isOp]; rfl, fun flushed => absurd member flushed⟩
        | inr inTable =>
          obtain ⟨⟨node, beyond, position, isStored⟩, elsewhere⟩ := inTable
          refine ⟨fun member => absurd (Op.entry_sequence _ _) (elsewhere _ member), fun _ => ?_⟩
          exact ⟨q, value, node, beyond, position, rfl, by rw [isStored],
            Merkle.storedValue_length _ _ _ _⟩

instance (c : Compaction Bytes) : Decidable c.SplitsNoKey := by
  unfold Compaction.SplitsNoKey
  infer_instance

instance (c : Compaction Bytes) : Decidable c.SplitsNoNextKey := by
  unfold Compaction.SplitsNoNextKey
  infer_instance

instance (p : Params) (db : Db) (label : Step) : Decidable (WholePicks p db label) := by
  induction label using Step.casesOn <;> simp only [WholePicks] <;> infer_instance

theorem wholePicks_zeroed (db : Db) (lbl : Step) (both : db.HasRoom lbl ∧ WholePicks p db lbl) :
    db.HasRoom lbl.zeroed ∧ WholePicks p db lbl.zeroed :=
  ⟨hasRoom_zeroed db lbl both.1, by cases lbl <;> exact both.2⟩

/-- One key is written again and one deleted after both went through a flush and a compaction. -/
theorem get_newest_put_rewritten : ∃ db,
    compute sampleParams (fun db label => db.HasRoom label ∧ WholePicks sampleParams db label) init
      (nestedFlush [100] ++ [.installCompaction fun _ => zeroDigest, .getSnapshot,
        .write [.put [97] [7], .delete [99]]]) = some db ∧
      db.get [97] none = db.expected [97] db.lastSequence ∧ db.expected [97] db.lastSequence = .ok [7] ∧
      db.get [99] none = db.expected [99] db.lastSequence ∧ db.expected [99] db.lastSequence = .notFound ∧
      db.get [98] (some 5) = db.expected [98] 5 := by
  refine Transition.exists_of_eval (by decide +kernel) (Q := fun db => db.Unflushed [97] db.lastSequence ∧
    db.Unflushed [99] db.lastSequence ∧ db.Unflushed [98] 5 ∧ db.expected [97] db.lastSequence = .ok [7] ∧
    db.expected [99] db.lastSequence = .notFound ∧ db.snapshots = [5]) ?_
  rintro db run ⟨first, second, third, value, deleted, snapshots⟩
  have reached := reachable_of_compute rfl wholePicks_zeroed .refl run
  exact ⟨(get_newest_put sampleParams db reached [97] none (by simp)).1 first, value,
    (get_newest_put sampleParams db reached [99] none (by simp)).1 second, deleted,
    (get_newest_put sampleParams db reached [98] (some 5) (by simp [snapshots])).1 third⟩

/-- A key of 8 bytes with a value of 112 is written and flushed.  A read then returns 352 bytes. -/
theorem get_after_flush : ∃ db,
    compute sampleParams (fun db label => db.HasRoom label ∧ WholePicks sampleParams db label) init
      (sampleFlush (.put (replicate 8 107) (replicate 112 118))) = some db ∧
      Reachable sampleParams (fun db label => db.HasRoom label ∧ WholePicks sampleParams db label) db ∧
      db.expected (replicate 8 107) db.lastSequence = .ok (replicate 112 118) ∧
      db.get (replicate 8 107) none = .ok (replicate 112 118 ++ replicate 240 0) := by
  refine Transition.exists_of_eval (by decide +kernel)
    (Q := fun db => db.expected (replicate 8 107) db.lastSequence = .ok (replicate 112 118) ∧
      db.get (replicate 8 107) none = .ok (replicate 112 118 ++ replicate 240 0)) ?_
  exact fun db run facts => ⟨reachable_of_compute rfl wholePicks_zeroed .refl run, facts⟩

end Db

end Elsm
