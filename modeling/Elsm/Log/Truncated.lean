import Elsm.Lib.SortedList
import Elsm.Log.Torn

/-!
# A log file that is cut off

The file of a list of records holds the fragments of their `layout`.  Cut anywhere, it is read back as the
records whose fragments all lie before the cut, and nothing is reported: what the cut leaves of a record at
the end of a file is no corruption.
-/

namespace Elsm.Log

open List

variable {crc : Crc}

/-! ## The file of a list of records -/

/-- The fragments of the records, one record after the other. -/
structure Written (crc : Crc) (bytes : Bytes) (l : List (Bytes × List PlacedFragment)) : Prop where
  framed : Framed crc true 0 bytes ((placedFragments l).map (·.2))
  consecutive : Consecutive 0 (placedFragments l)
  splits : ∀ entry ∈ l, Split true entry.1 (entry.2.map (·.2))

theorem placedFragments_cons (e : Bytes × List PlacedFragment) (rest : List (Bytes × List PlacedFragment)) :
    placedFragments (e :: rest) = e.2 ++ placedFragments rest := rfl

theorem addRecords_wrote {w : Writer Bytes} {fragments : List Fragment} (inPlace : InPlace crc w fragments)
    (records : List Bytes) :
    InPlace crc (addRecords crc records w) (fragments ++ (placedFragments (layout w.dest.length records)).map (·.2)) ∧
      Consecutive w.dest.length (placedFragments (layout w.dest.length records)) ∧
      ∀ e ∈ layout w.dest.length records, Split true e.1 (e.2.map (·.2)) := by
  induction records generalizing w fragments with
  | nil => exact ⟨by simpa [layout, placedFragments, addRecords] using inPlace, trivial, nofun⟩
  | cons r records ih =>
    obtain ⟨w', writes, wrote, split⟩ := addRecord_placed inPlace.inBlock inPlace.offset r
    obtain ⟨inPlace', consec, splits⟩ := ih (inPlace.wrote wrote)
    have added : addRecords crc (r :: records) w = addRecords crc records w' := by
      rw [addRecords, foldl_cons, writes]
      rfl
    rw [wrote.size] at inPlace' consec splits
    rw [added]
    refine ⟨?_, wrote.consecutive.append consec, forall_mem_cons.mpr ⟨split, splits⟩⟩
    rw [append_assoc, ← map_append] at inPlace'
    exact inPlace'

theorem addRecords_written (crc : Crc) (records : List Bytes) :
    Written crc (addRecords crc records ⟨[], 0⟩).dest (layout 0 records) := by
  obtain ⟨inPlace, consec, splits⟩ := @addRecords_wrote crc ⟨[], 0⟩ [] ⟨.nil 0, Nat.zero_le _, rfl⟩ records
  exact ⟨inPlace.framed, consec, splits⟩

theorem layout_records (size : Nat) (records : List Bytes) : (layout size records).map (·.1) = records := by
  induction records generalizing size with
  | nil => rfl
  | cons r records ih => rw [layout, map_cons, ih]

/-! ## The records that are left -/

variable {l : List (Bytes × List PlacedFragment)}

/-- The records in the fragments before a cut are those whose fragments all lie before it. -/
theorem assemble_inside (cut : Nat) {size : Nat}
    (consec : Consecutive size (placedFragments l)) (splits : ∀ e ∈ l, Split true e.1 (e.2.map (·.2))) :
    assemble none (((placedFragments l).filter (Inside cut ·)).map (·.2)) =
        (l.filter fun e => ∀ p ∈ e.2, Inside cut p).map (·.1) ∧
      reported none (((placedFragments l).filter (Inside cut ·)).map (·.2)) = [] := by
  induction l generalizing size with
  | nil => exact ⟨rfl, rfl⟩
  | cons e rest ih =>
    obtain ⟨r, placed⟩ := e
    obtain ⟨split, splits'⟩ := forall_mem_cons.mp splits
    rw [placedFragments_cons] at consec ⊢
    rw [filter_append, map_append]
    obtain ⟨inOrder, -, apart⟩ := pairwise_append.mp consec.pairwise
    by_cases complete : ∀ p ∈ placed, Inside cut p
    · have kept : placed.filter (Inside cut ·) = placed := filter_eq_self.mpr fun p mem =>
        decide_eq_true (complete p mem)
      obtain ⟨assembled, silent⟩ := ih consec.later splits'
      rw [kept, split.assemble_eq, split.reported_eq, assembled, silent, filter_cons_of_pos (by simpa using complete)]
      exact ⟨rfl, rfl⟩
    · obtain ⟨p, inPlaced, notInside⟩ : ∃ p ∈ placed, ¬Inside cut p := by simpa using complete
      have lostRest : ∀ q ∈ placedFragments rest, ¬Inside cut q := by
        intro q mem ins
        have pre := apart p inPlaced q mem
        exact notInside (pre.trans ((Nat.le_add_right ..).trans ((Nat.le_add_right ..).trans ins)))
      have noRest : (placedFragments rest).filter (Inside cut ·) = [] :=
        filter_eq_nil_iff.mpr fun q mem ins => lostRest q mem (of_decide_eq_true ins)
      have noRecord : (rest.filter fun e => ∀ q ∈ e.2, Inside cut q) = [] := by
        apply filter_eq_nil_iff.mpr
        intro e mem ins
        obtain ⟨q, inEntry⟩ := exists_mem_of_ne_nil e.2 fun isEmpty =>
          (splits' e mem).nonempty (isEmpty ▸ rfl)
        exact lostRest q (mem_flatMap.mpr ⟨e, mem, inEntry⟩) (of_decide_eq_true ins q inEntry)
      have cutOff := congrArg (map (·.2)) (SortedList.filter_append_filter_not (inside_mono cut inOrder))
      rw [map_append] at cutOff
      have someLost : (placed.filter (¬Inside cut ·)).map (·.2) ≠ [] := by
        intro isEmpty
        have none := filter_eq_nil_iff.mp (map_eq_nil_iff.mp isEmpty) p inPlaced
        exact none (decide_eq_true notInside)
      obtain ⟨assembled, silent⟩ := split.take cutOff
      rw [if_neg someLost] at assembled
      rw [noRest, map_nil, append_nil, assembled, silent, filter_cons_of_neg (by simpa using complete),
        noRecord]
      exact ⟨rfl, rfl⟩

theorem assemble_whole (splits : ∀ e ∈ l, Split true e.1 (e.2.map (·.2))) :
    assemble none ((placedFragments l).map (·.2)) = l.map (·.1) ∧
      reported none ((placedFragments l).map (·.2)) = [] := by
  induction l with
  | nil => exact ⟨rfl, rfl⟩
  | cons e rest ih =>
    obtain ⟨split, splits'⟩ := forall_mem_cons.mp splits
    obtain ⟨assembled, silent⟩ := ih splits'
    rw [placedFragments_cons, map_append, split.assemble_eq, split.reported_eq]
    exact ⟨congrArg _ assembled, silent⟩

/-- Whatever prefix of the file is left, the reader returns the records whose fragments all lie in it and then
comes to the end, without a report; the whole file gives the whole list. -/
theorem readRecord_truncated (crc : Crc) (records : List Bytes) :
    (∀ cut, ∃ last : Reader, Stream.Yields (Reader.readRecord crc true)
        (.start ((addRecords crc records ⟨[], 0⟩).dest.take cut))
        (((layout 0 records).filter fun entry => ∀ p ∈ entry.2, Inside cut p).map (·.1)) last ∧ last.reports = []) ∧
      ∃ last : Reader, Stream.Yields (Reader.readRecord crc true) (.start (addRecords crc records ⟨[], 0⟩).dest) records
        last ∧ last.reports = [] := by
  have written := addRecords_written crc records
  constructor
  · intro cut
    have framed := written.framed.take_inside cut rfl written.consecutive rfl (Nat.zero_le _)
    rw [Nat.zero_add] at framed
    obtain ⟨assembled, silent⟩ := assemble_inside cut written.consecutive written.splits
    obtain ⟨reads, reports⟩ := readAll_framed framed true
    have yields := (Reader.readAll_yields crc true ((addRecords crc records ⟨[], 0⟩).dest.take cut)).1
    rw [reads, assembled] at yields
    exact ⟨_, yields, reports.trans silent⟩
  · obtain ⟨assembled, silent⟩ := assemble_whole written.splits
    obtain ⟨reads, reports⟩ := readAll_framed written.framed true
    have yields := (Reader.readAll_yields crc true (addRecords crc records ⟨[], 0⟩).dest).1
    rw [reads, assembled, layout_records] at yields
    exact ⟨_, yields, reports.trans silent⟩

end Elsm.Log
