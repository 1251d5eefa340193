import Elsm.Log.Reuse

/-!
# Writing to a file that may fail

`AddRecord` stops at the first append or flush that fails, and the file is left with a part of the record.
`addRecord_fallible` compares this with a file that takes everything: the file holds a beginning of what it
would hold there.  `Holds.torn` says what a reader finds in such a file: the records from before,
and perhaps the last one.

The zeros that fill up a block are appended without a look at the status, so this holds only for files
that take them.
-/

namespace Elsm.Log

open List

variable {crc : Crc}

/-! ## Whole records and a part of one -/

def Closed (fragments : List Fragment) (records : List Bytes) : Prop :=
  ∀ others, assemble none (fragments ++ others) = records ++ assemble none others ∧
    reported none (fragments ++ others) = reported none others

theorem Closed.nil : Closed [] [] := fun _ => ⟨rfl, rfl⟩

variable {fragments : List Fragment} {records : List Bytes}

theorem Closed.add {more : List Fragment} {r : Bytes} (closed : Closed fragments records) (split : Split true r more) :
    Closed (fragments ++ more) (records ++ [r]) := by
  intro others
  rw [append_assoc, (closed _).1, (closed _).2, split.assemble_eq, split.reported_eq, append_assoc, singleton_append]
  exact ⟨rfl, rfl⟩

theorem Split.nonempty {begin : Bool} {r : Bytes} (split : Split begin r fragments) : fragments ≠ [] := by
  cases split <;> exact cons_ne_nil _ _

theorem Split.take_from {begin : Bool} {r : Bytes} (split : Split begin r fragments) (scratch : Bytes)
    {kept lost : List Fragment} (cut : fragments = kept ++ lost) :
    assemble (if begin then none else some scratch) kept =
        (if lost = [] then [(if begin then [] else scratch) ++ r] else []) ∧
      reported (if begin then none else some scratch) kept = [] := by
  induction split generalizing scratch kept with
  | full | last =>
    cases kept with
    | nil => simp [← show _ = lost from cut, assemble, reported]
    | cons fr kept =>
      obtain ⟨rfl, rest⟩ := List.cons.inj cut
      obtain ⟨rfl, isAll⟩ := append_eq_nil_iff.mp rest.symm
      rw [if_pos isAll]
      exact ⟨rfl, rfl⟩
  | more begin pl _ ih =>
    cases kept with
    | nil => simp [← show _ = lost from cut, assemble, reported]
    | cons fr kept =>
      obtain ⟨rfl, rest⟩ := List.cons.inj cut
      cases begin with
      | false => simpa [assemble, reported] using ih (scratch ++ pl) rest
      | true => exact ih pl rest

theorem Split.take {r : Bytes} (split : Split true r fragments) {kept lost : List Fragment}
    (cut : fragments = kept ++ lost) :
    assemble none kept = (if lost = [] then [r] else []) ∧ reported none kept = [] :=
  split.take_from [] cut

def Holds (crc : Crc) (w : Writer Bytes) (records : List Bytes) : Prop :=
  ∃ fragments, InPlace crc w fragments ∧ Closed fragments records

theorem Holds.new : Holds crc ⟨[], 0⟩ [] := ⟨[], ⟨.nil 0, by decide, rfl⟩, .nil⟩

variable {w : Writer Bytes}

theorem Holds.addRecord (holds : Holds crc w records) (r : Bytes) :
    Holds crc (addRecord plainFile crc r w).2 (records ++ [r]) := by
  obtain ⟨fragments, inPlace, closed⟩ := holds
  obtain ⟨more, after, split⟩ := inPlace.addRecord r
  exact ⟨_, after, closed.add split⟩

theorem Holds.read (holds : Holds crc w records) :
    ∃ fragments, Framed crc true 0 w.dest fragments ∧ assemble none fragments = records ∧
      reported none fragments = [] := by
  obtain ⟨fragments, inPlace, closed⟩ := holds
  have whole := closed []
  rw [append_nil] at whole
  exact ⟨fragments, inPlace.framed, whole.1.trans (append_nil _), whole.2⟩

/-- A file that ends somewhere in its last record. -/
theorem Holds.torn (holds : Holds crc w records) (r : Bytes) {size : Nat} (pre : w.dest.length ≤ size) :
    ∃ fragments, Framed crc false 0 ((Log.addRecord plainFile crc r w).2.dest.take size) fragments ∧
      (assemble none fragments = records ∨ assemble none fragments = records ++ [r]) ∧
      reported none fragments = [] := by
  obtain ⟨fragments, inPlace, closed⟩ := holds
  obtain ⟨w', writes, wrote, split⟩ := @addRecord_placed crc w inPlace.inBlock inPlace.offset r
  obtain ⟨bytes, appended⟩ := wrote.appended
  have framed := appended.framed.take_inside (size - w.dest.length) rfl wrote.consecutive inPlace.offset inPlace.inBlock
  rw [Nat.add_sub_cancel' pre] at framed
  have cut := congrArg (map (·.2)) (SortedList.filter_append_filter_not (inside_mono size wrote.consecutive.pairwise))
  rw [map_append] at cut
  have o : (0 + w.dest.length) % kBlockSize = w.blockOffset % kBlockSize := by
    rw [Nat.zero_add, inPlace.offset]
  have whole := inPlace.framed.append framed (Nat.zero_le _) inPlace.inBlock o
  rw [writes, appended.dest, take_append, take_of_length_le pre]
  refine ⟨_, whole, ?_, ?_⟩
  · rw [(closed _).1, (split.take cut).1]
    split
    case isTrue => exact .inr rfl
    case isFalse => exact .inl (append_nil _)
  · rw [(closed _).2, (split.take cut).2]

/-! ## `AddRecord` on a file that may fail -/

section Fallible

variable {σ : Type*}

/-- A file for bytes up to `target`.  In a state that is `Holding` bytes all has gone well so far,
and in a `Fine` one something may have failed last. -/
structure Fallible (file : WritableFile σ) (target : Bytes) (Holding : Bytes → σ → Prop) (Fine : σ → Prop) : Prop where
  fine : ∀ {bytes s}, Holding bytes s → Fine s
  append : ∀ {bytes data s}, Holding bytes s → bytes ++ data <+: target → Fine (file.append data s).2 ∧
    ((file.append data s).1 = true → Holding (bytes ++ data) (file.append data s).2)
  fill : ∀ {bytes s count}, Holding bytes s → 0 < count → count < kHeaderSize →
    bytes ++ replicate count 0 <+: target →
    Holding (bytes ++ replicate count 0) (file.append (replicate count 0) s).2
  flush : ∀ {bytes s}, Holding bytes s → Fine (file.flush s).2 ∧
    ((file.flush s).1 = true → Holding bytes (file.flush s).2)

theorem switchBlock_extends (w : Writer Bytes) : w.dest <+: (switchBlock plainFile w).dest := by
  simp only [switchBlock]
  split
  · split
    · exact prefix_append _ _
    · exact prefix_rfl
  · exact prefix_rfl

theorem emit_plain (t : RecordType) (pl : Bytes) (w : Writer Bytes) : emitPhysicalRecord plainFile crc t pl w =
      (true, ⟨w.dest ++ header crc t pl ++ pl, w.blockOffset + kHeaderSize + pl.length⟩) := rfl

theorem addRecordLoop_extends (rounds : Nat) (begin : Bool) (left : Bytes) (w : Writer Bytes) :
    w.dest <+: (addRecordLoop plainFile crc rounds begin left w).2.dest := by
  induction rounds generalizing begin left w with
  | zero => exact prefix_rfl
  | succ rounds ih =>
    simp only [addRecordLoop, emit_plain]
    generalize isNext : switchBlock plainFile w = next
    have here : w.dest <+: next.dest := isNext ▸ switchBlock_extends w
    have emitted : ∀ more : Bytes, w.dest <+: next.dest ++ more := fun more => here.trans (prefix_append _ _)
    split
    · refine List.IsPrefix.trans ?_ (ih false _ _)
      simp only [append_assoc]
      exact emitted _
    · simp only [append_assoc]
      exact emitted _

theorem addRecord_extends (r : Bytes) (w : Writer Bytes) : w.dest <+: (addRecord plainFile crc r w).2.dest :=
  addRecordLoop_extends _ _ _ _

variable {file : WritableFile σ} {target : Bytes} {Holding : Bytes → σ → Prop} {Fine : σ → Prop}

/-- The writer stands where the one on the file that takes everything stands. -/
structure Beside (Holding : Bytes → σ → Prop) (w : Writer σ) (plain : Writer Bytes) : Prop where
  holding : Holding plain.dest w.dest
  offset : w.blockOffset = plain.blockOffset

section

variable (fallible : Fallible file target Holding Fine)

include fallible

section

variable {w : Writer σ} {plain : Writer Bytes} (beside : Beside Holding w plain)

include beside

theorem Beside.switchBlock (within : (switchBlock plainFile plain).dest <+: target) :
    Beside Holding (switchBlock file w) (switchBlock plainFile plain) := by
  obtain ⟨holding, o⟩ := beside
  simp only [Log.switchBlock, o] at within ⊢
  by_cases few : kBlockSize - plain.blockOffset < kHeaderSize
  · simp only [if_pos few] at within ⊢
    refine ⟨?_, rfl⟩
    by_cases some : 0 < kBlockSize - plain.blockOffset
    · simp only [if_pos some] at within ⊢
      exact fallible.fill holding some few within
    · simp only [if_neg some]
      exact holding
  · simp only [if_neg few]
    exact ⟨holding, o⟩

theorem Beside.emit (t : RecordType) (pl : Bytes)
    (within : (emitPhysicalRecord plainFile crc t pl plain).2.dest <+: target) :
    Fine (emitPhysicalRecord file crc t pl w).2.dest ∧ ((emitPhysicalRecord file crc t pl w).1 = true →
        Beside Holding (emitPhysicalRecord file crc t pl w).2 (emitPhysicalRecord plainFile crc t pl plain).2) := by
  obtain ⟨holding, o⟩ := beside
  rw [emit_plain] at within ⊢
  have first := fallible.append holding ((prefix_append _ pl).trans within)
  simp only [emitPhysicalRecord, o]
  cases header : (file.append (header crc t pl) w.dest).1 with
  | false => simpa [header] using first.1
  | true =>
    have snd := fallible.append (first.2 header) within
    simp only [if_true]
    cases body : (file.append pl (file.append (Log.header crc t pl) w.dest).2).1 with
    | false => simpa [body] using snd.1
    | true =>
      have third := fallible.flush (snd.2 body)
      simp only [if_true]
      exact ⟨third.1, fun succeeds => ⟨third.2 succeeds, rfl⟩⟩

end

theorem addRecordLoop_fallible (rounds : Nat) (begin : Bool)
    (left : Bytes) {w : Writer σ} {plain : Writer Bytes} (beside : Beside Holding w plain)
    (within : (addRecordLoop plainFile crc rounds begin left plain).2.dest <+: target) :
    Fine (addRecordLoop file crc rounds begin left w).2.dest ∧ ((addRecordLoop file crc rounds begin left w).1 = true →
        Beside Holding (addRecordLoop file crc rounds begin left w).2
          (addRecordLoop plainFile crc rounds begin left plain).2) := by
  induction rounds generalizing begin left w plain with
  | zero => exact ⟨fallible.fine beside.holding, fun _ => beside⟩
  | succ rounds ih =>
    simp only [addRecordLoop] at within ⊢
    generalize isNext : switchBlock plainFile plain = nextPlain at within ⊢
    generalize isAvail : kBlockSize - nextPlain.blockOffset - kHeaderSize = size at within ⊢
    generalize isPlain : emitPhysicalRecord plainFile crc (fragmentType begin (left.length ≤ size)) (left.take size)
      nextPlain = plainWritten at within ⊢
    have run : plainWritten.1 = true := isPlain ▸ rfl
    simp only [run, true_and] at within ⊢
    have emitted : plainWritten.2.dest <+: target := by
      split at within
      · exact (addRecordLoop_extends _ _ _ _).trans within
      · exact within
    have switched : nextPlain.dest <+: target := by
      rw [← isPlain, emit_plain, append_assoc] at emitted
      exact (prefix_append _ _).trans emitted
    have next := beside.switchBlock fallible (isNext.symm ▸ switched)
    rw [isNext] at next
    have avail : kBlockSize - (Log.switchBlock file w).blockOffset - kHeaderSize = size := by
      rw [next.offset, isAvail]
    have here := @Beside.emit crc _ _ _ _ _ fallible _ _ next (fragmentType begin (left.length ≤ size)) (left.take size)
      (isPlain.symm ▸ emitted)
    rw [isPlain] at here
    simp only [avail]
    cases succeeds : (emitPhysicalRecord file crc (fragmentType begin (left.length ≤ size)) (left.take size)
      (Log.switchBlock file w)).1 with
    | false => simpa [succeeds] using here.1
    | true =>
      simp only [true_and]
      by_cases more : left.drop size ≠ []
      · simp only [if_pos more] at within ⊢
        exact ih false _ (here.2 succeeds) within
      · simp only [if_neg more]
        exact here

/-- A record on a file that may fail, and on one that does not. -/
theorem addRecord_fallible (r : Bytes) {w : Writer σ} {plain : Writer Bytes} (beside : Beside Holding w plain)
    (within : (addRecord plainFile crc r plain).2.dest <+: target) :
    Fine (addRecord file crc r w).2.dest ∧ ((addRecord file crc r w).1 = true →
        Beside Holding (addRecord file crc r w).2 (addRecord plainFile crc r plain).2) :=
  addRecordLoop_fallible fallible _ _ _ beside within

end

theorem addRecord_succeeds {Good : σ → Prop}
    (append : ∀ data s, Good s → (file.append data s).1 = true ∧ Good (file.append data s).2)
    (flush : ∀ s, Good s → (file.flush s).1 = true ∧ Good (file.flush s).2) (r : Bytes) {w : Writer σ}
    (good : Good w.dest) :
    (addRecord file crc r w).1 = true ∧ Good (addRecord file crc r w).2.dest := by
  have switches : ∀ w : Writer σ, Good w.dest → Good (switchBlock file w).dest := by
    intro w good
    rw [switchBlock]
    split
    · simp only
      split
      · exact (append _ _ good).2
      · exact good
    · exact good
  have emits : ∀ t pl (w : Writer σ), Good w.dest → (emitPhysicalRecord file crc t pl w).1 = true ∧
      Good (emitPhysicalRecord file crc t pl w).2.dest := by
    intro t pl w good
    have first := append (header crc t pl) _ good
    have snd := append pl _ first.2
    simp only [emitPhysicalRecord, first.1, snd.1, if_true]
    exact flush _ snd.2
  have loop : ∀ rounds begin left (w : Writer σ), Good w.dest → (addRecordLoop file crc rounds begin left w).1 = true ∧
      Good (addRecordLoop file crc rounds begin left w).2.dest := by
    intro rounds
    induction rounds with
    | zero => exact fun _ _ _ good => ⟨rfl, good⟩
    | succ rounds ih =>
      intro begin left w good
      simp only [addRecordLoop]
      split
      · exact ih _ _ _ (emits _ _ _ (switches w good)).2
      · exact emits _ _ _ (switches w good)
  exact loop _ _ _ _ good

end Fallible

end Elsm.Log
