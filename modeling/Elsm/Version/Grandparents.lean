import Mathlib.Algebra.Order.BigOperators.Group.List
import Elsm.Version.Compacted

/-!
# Overlap with the grandparents (`Compaction::ShouldStopBefore`)

An output that overlaps many files two levels below makes its next compaction expensive.  `ShouldStopBefore` counts the
bytes of the grandparents that the keys have passed, and the loop closes the output when there are too many.  The
counter is not reset by a cut for size, and it runs while no output is open, so it may say too much for the open output,
but never too little.
-/

namespace Elsm

open List

variable {K : Type*} [LinearOrder K]

theorem skipGrandparents_eq (seen : Bool) (key : InternalKey K) (gs : List (FileMetaData K)) :
    skipGrandparents seen key gs = ((gs.takeWhile (·.largest < key)).length,
      if seen then totalFileSize (gs.takeWhile (·.largest < key)) else 0) := by
  induction gs with
  | nil => simp [skipGrandparents, totalFileSize]
  | cons g rest ih =>
    by_cases passes : g.largest < key <;> cases seen <;> simp_all [skipGrandparents, totalFileSize]

/-- The cursor stands between the grandparents it has passed and the others. -/
structure Compaction.CursorAt (c : Compaction K) (pre post : List (FileMetaData K)) : Prop where
  split : c.grandparents = pre ++ post
  index : c.grandparentIndex = pre.length

/-- The bytes of the grandparents between the keys of an output. -/
def Output.overlap (gs : List (FileMetaData K)) (out : Output K) : Nat :=
  totalFileSize (gs.filter fun g => out.smallest ≤ g.smallest ∧ g.largest < out.largest)

/-- What the counter says about the outputs, when the cursor has passed `pre`. -/
structure OverlapInv (limit : Nat) (pre post : List (FileMetaData K)) (cs : CompactionState K) : Prop where
  cursor : cs.compaction.CursorAt pre post
  counted : cs.compaction.overlappedBytes ≤ limit
  finished : ∀ out ∈ cs.outputs, out.overlap (pre ++ post) ≤ limit
  seen : cs.builder.isSome → cs.compaction.seenKey = true
  begun : ∀ out ∈ cs.builder, totalFileSize (pre.filter (out.smallest ≤ ·.smallest)) ≤ cs.compaction.overlappedBytes
  reached : ∀ out ∈ cs.builder, ∀ g ∈ post, out.largest ≤ g.largest

omit [LinearOrder K] in
theorem CompactionState.finish_compaction (size : TableSize K) (cs : CompactionState K) (c : Compaction K) :
    { cs with compaction := c }.finishCompactionOutputFile size =
      { cs.finishCompactionOutputFile size with compaction := c } := by
  obtain ⟨_, _, _, builder, _, _, _⟩ := cs
  cases builder <;> rfl

variable {c : Compaction K} {opts : Options} {limit : Nat} {key : InternalKey K} {pre post : List (FileMetaData K)}
  {cs : CompactionState K} {size : TableSize K} {ent : Entry K}

omit [LinearOrder K] in
theorem totalFileSize_append (gs hs : List (FileMetaData K)) :
    totalFileSize (gs ++ hs) = totalFileSize gs + totalFileSize hs := by
  simp [totalFileSize]

omit [LinearOrder K] in
theorem totalFileSize_le {gs hs : List (FileMetaData K)} (sub : gs.Sublist hs) : totalFileSize gs ≤ totalFileSize hs :=
  (sub.map _).sum_le_sum fun _ _ => Nat.zero_le _

section

variable (inv : OverlapInv limit pre post cs)

include inv

theorem OverlapInv.finish : OverlapInv limit pre post (cs.finishCompactionOutputFile size) := by
  rw [CompactionState.finishCompactionOutputFile]
  split
  · exact inv
  case h_2 out isOpen =>
    refine ⟨inv.cursor, inv.counted, forall_mem_append.mpr ⟨inv.finished, forall_mem_singleton.mpr ?_⟩, ?_, ?_, ?_⟩
    rotate_left
    · rintro ⟨⟩
    · rintro _ ⟨⟩
    · rintro _ ⟨⟩
    have isAhead : (post.filter fun g => out.smallest ≤ g.smallest ∧ g.largest < out.largest) = [] :=
      filter_eq_nil_iff.mpr fun g mem => by simp [inv.reached out isOpen g mem]
    have fewer : (pre.filter fun g => out.smallest ≤ g.smallest ∧ g.largest < out.largest).Sublist
        (pre.filter (out.smallest ≤ ·.smallest)) := monotone_filter_right _ fun g => by simp +contextual
    calc totalFileSize ((pre ++ post).filter fun g => out.smallest ≤ g.smallest ∧ g.largest < out.largest)
        = totalFileSize (pre.filter fun g => out.smallest ≤ g.smallest ∧ g.largest < out.largest) := by
          rw [filter_append, isAhead, append_nil]
      _ ≤ totalFileSize (pre.filter (out.smallest ≤ ·.smallest)) := totalFileSize_le fewer
      _ ≤ limit := (inv.begun out isOpen).trans inv.counted

theorem OverlapInv.dropEntry (key : InternalKey K) :
    OverlapInv limit pre post (cs.dropEntry key).2 ∧
      (cs.dropEntry key).2.compaction.seenKey = cs.compaction.seenKey := by
  obtain ⟨ptrs, user, last, moved, -⟩ := cs.dropEntry_moves key
  rw [moved]
  exact ⟨⟨⟨inv.cursor.split, inv.cursor.index⟩, inv.counted, inv.finished, inv.seen, inv.begun, inv.reached⟩, rfl⟩

theorem OverlapInv.addEntry (n : Nat) (seen : cs.compaction.seenKey = true)
    (ordered : ∀ g ∈ pre, g.smallest ≤ g.largest) (behind : ∀ g ∈ pre, g.largest < ent.1)
    (ahead : ∀ g ∈ post, ent.1 ≤ g.largest) : OverlapInv limit pre post (cs.addEntry n ent).1 := by
  rw [CompactionState.addEntry]
  split
  case h_1 out isOpen =>
    refine ⟨inv.cursor, inv.counted, inv.finished, fun _ => seen, ?_, ?_⟩
    · rintro _ ⟨⟩
      exact inv.begun out isOpen
    · rintro _ ⟨⟩
      exact ahead
  case h_2 =>
    refine ⟨inv.cursor, inv.counted, inv.finished, fun _ => seen, ?_, ?_⟩
    · rintro _ ⟨⟩
      have none : pre.filter (ent.1 ≤ ·.smallest) = [] :=
        filter_eq_nil_iff.mpr fun g mem => by simpa using (ordered g mem).trans_lt (behind g mem)
      rw [none]
      exact Nat.zero_le _
    · rintro _ ⟨⟩
      exact ahead

end

section Step

variable (isLimit : maxGrandParentOverlapBytes opts = limit) (sorted : DisjointSorted (pre ++ post))
  (ordered : ∀ g ∈ pre ++ post, g.smallest ≤ g.largest)

include isLimit sorted ordered

/-- The counter grows by the grandparents that are passed, until it is reset. -/
theorem Compaction.shouldStopBefore_passes (cursor : c.CursorAt pre post) :
    ∃ newly post', post = newly ++ post' ∧ (c.shouldStopBefore opts key).2.CursorAt (pre ++ newly) post' ∧
      (∀ g ∈ newly, g.largest < key) ∧ (∀ g ∈ post', key ≤ g.largest) ∧
      (c.shouldStopBefore opts key).2.overlappedBytes ≤ limit ∧ (c.shouldStopBefore opts key).2.seenKey = true ∧
      ((c.shouldStopBefore opts key).1 = false → c.seenKey = true →
        (c.shouldStopBefore opts key).2.overlappedBytes = c.overlappedBytes + totalFileSize newly) := by
  have left : ∀ g ∈ post.dropWhile (·.largest < key), key ≤ g.largest := by
    intro g mem
    have chain : post.Pairwise fun a b => a.largest < b.largest := by
      refine (pairwise_append.mp sorted).2.1.imp_of_mem fun _ inPost apart => apart.trans_le ?_
      exact ordered _ (mem_append_right pre inPost)
    simpa using SortedList.not_of_mem_dropWhile chain (by simpa using fun _ _ => lt_trans) mem
  have isAhead : c.grandparents.drop c.grandparentIndex = post := by rw [cursor.split, cursor.index, drop_left]
  refine ⟨post.takeWhile (·.largest < key), post.dropWhile (·.largest < key), takeWhile_append_dropWhile.symm, ?_⟩
  simp only [shouldStopBefore, isLimit, isAhead, skipGrandparents_eq]
  generalize counts : (if c.seenKey = true then _ else _) = bytes
  split
  all_goals
    refine ⟨⟨?_, ?_⟩, fun g mem => by simpa using SortedList.of_mem_takeWhile mem, left, ?_, rfl, ?_⟩
    · simpa using cursor.split
    · simp [cursor.index]
  · exact Nat.zero_le _
  · rintro ⟨⟩
  case isFalse.refine_3 within => exact Int.ofNat_le.mp (not_lt.mp within)
  · intro _ seen
    rw [← counts, if_pos seen]

theorem OverlapInv.stopBefore (inv : OverlapInv limit pre post cs) :
    ∃ newly post', post = newly ++ post' ∧ (∀ g ∈ newly, g.largest < key) ∧ (∀ g ∈ post', key ≤ g.largest) ∧
      OverlapInv limit (pre ++ newly) post' (cs.stopBefore opts size key) ∧
      (cs.stopBefore opts size key).compaction.seenKey = true := by
  obtain ⟨newly, post', rfl, cursor, passed, ahead, within, seen, grows⟩ :=
    @Compaction.shouldStopBefore_passes _ _ _ _ _ key _ _ isLimit sorted ordered inv.cursor
  refine ⟨newly, post', rfl, passed, ahead, ?_⟩
  rw [CompactionState.stopBefore]
  generalize cs.compaction.shouldStopBefore opts key = answer at cursor within seen grows
  obtain ⟨stop, moved⟩ := answer
  rw [CompactionState.closeIf]
  split
  case isTrue =>
    have closed := (@OverlapInv.finish _ _ _ _ _ _ size inv).finished
    rw [CompactionState.finish_compaction]
    refine ⟨⟨cursor, within, append_assoc pre newly post' ▸ closed, ?_, ?_, ?_⟩, seen⟩
    all_goals simp [CompactionState.finish_builder]
  case isFalse goesOn =>
    refine ⟨⟨cursor, within, by rw [append_assoc]; exact inv.finished, fun _ => seen, fun out isOpen => ?_, ?_⟩, seen⟩
    · have counts := grows (Bool.eq_false_iff.mpr goesOn) (inv.seen (Option.isSome_of_mem isOpen))
      have begun := inv.begun out isOpen
      have fewer := totalFileSize_le (filter_sublist (p := fun g => decide (out.smallest ≤ g.smallest)) (l := newly))
      rw [filter_append, totalFileSize_append]
      exact (Nat.add_le_add begun fewer).trans counts.ge
    · exact fun out isOpen g mem => inv.reached out isOpen g (mem_append_right _ mem)

theorem OverlapInv.compactEntry (inv : OverlapInv limit pre post cs) (n : Nat) (behind : ∀ g ∈ pre, g.largest < ent.1) :
    ∃ newly post', post = newly ++ post' ∧ (∀ g ∈ newly, g.largest < ent.1) ∧
      OverlapInv limit (pre ++ newly) post' (cs.compactEntry opts size n ent).1 := by
  obtain ⟨newly, post', rfl, passed, ahead, inv, seen⟩ := @OverlapInv.stopBefore _ _ _ _ ent.1 _ _ _ size isLimit sorted
    ordered inv
  refine ⟨newly, post', rfl, passed, ?_⟩
  simp only [CompactionState.compactEntry]
  generalize cs.stopBefore opts size ent.1 = cs at inv seen
  obtain ⟨dropped, same⟩ := inv.dropEntry ent.1
  generalize cs.dropEntry ent.1 = next at dropped same
  split
  · exact dropped
  · have added := dropped.addEntry n (same.trans seen)
      (fun g mem => ordered g (append_assoc pre newly _ ▸ mem_append_left _ mem))
      (forall_mem_append.mpr ⟨behind, passed⟩) ahead
    split
    · exact added.finish
    · exact added

end Step

theorem OverlapInv.compactAll {gs : List (FileMetaData K)} (isLimit : maxGrandParentOverlapBytes opts = limit)
    (sorted : DisjointSorted gs) (ordered : ∀ g ∈ gs, g.smallest ≤ g.largest) {input : List (Entry K)} (n : Nat)
    (inputSorted : input.Pairwise fun a b => a.1 ≤ b.1) (isAll : gs = pre ++ post) (inv : OverlapInv limit pre post cs)
    (behind : ∀ e ∈ input, ∀ g ∈ pre, g.largest < e.1) :
    ∃ pre post, gs = pre ++ post ∧ OverlapInv limit pre post (cs.compactAll opts size n input) := by
  induction input generalizing cs n pre post with
  | nil => exact ⟨pre, post, isAll, inv⟩
  | cons ent rest ih =>
    subst isAll
    obtain ⟨first, restSorted⟩ := pairwise_cons.mp inputSorted
    obtain ⟨newly, post', rfl, passed, next⟩ :=
      @OverlapInv.compactEntry _ _ _ _ _ _ _ size ent isLimit sorted ordered inv n
      (behind ent mem_cons_self)
    refine ih _ restSorted (append_assoc ..).symm ⟨next.1, next.2, next.3, next.4, next.5, next.6⟩ fun e mem => ?_
    refine forall_mem_append.mpr ⟨behind e (mem_cons_of_mem _ mem), fun g new => (passed g new).trans_le (first e mem)⟩

/-- When the limit does not overflow, the grandparents that lie between the smallest and the largest key of an output
have no more bytes than it. -/
theorem doCompactionWork_overlap (options : Options) (size : TableSize K) (nextFileNumber : Nat) (c : Compaction K)
    (smallestSnapshot : Nat) (input : List (Entry K)) (inputSorted : input.Pairwise fun a b => a.1 ≤ b.1)
    (isLimit : maxGrandParentOverlapBytes options = (10 * options.maxFileSize : Nat))
    (sorted : DisjointSorted c.grandparents) (ordered : ∀ g ∈ c.grandparents, g.smallest ≤ g.largest)
    (fresh : c.grandparentIndex = 0 ∧ c.overlappedBytes = 0) :
    ∀ out ∈ doCompactionWork options size nextFileNumber c smallestSnapshot input,
      out.overlap c.grandparents ≤ 10 * options.maxFileSize := by
  have start : OverlapInv (10 * options.maxFileSize) [] c.grandparents (.start c smallestSnapshot input) :=
    ⟨⟨rfl, fresh.1⟩, fresh.2.le.trans (Nat.zero_le _), nofun, nofun, nofun, nofun⟩
  obtain ⟨pre, post, isAll, inv⟩ :=
    OverlapInv.compactAll isLimit sorted ordered nextFileNumber inputSorted rfl start nofun
  rw [isAll]
  exact inv.finish.finished

/-- Keys 1 and 3 stay in one output, on both sides of the grandparent with key 2. -/
theorem doCompactionWork_overlap_two : ∃ c, compactRange ⟨2097152⟩ deepVersion 0 none none = some c ∧
    let outputs := doCompactionWork ⟨2097152⟩ flatSize 7 c 6 deepInput
    outputs.map (·.overlap c.grandparents) = [100] ∧
      ∀ out ∈ outputs, out.overlap c.grandparents ≤ 10 * 2097152 :=
  ⟨deepCompaction, rfl, by decide,
    doCompactionWork_overlap ⟨2097152⟩ flatSize 7 _ 6 _ (by decide) (by decide) (by decide) (by decide) (by decide)⟩

end Elsm
