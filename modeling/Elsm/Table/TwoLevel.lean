import Elsm.Table.Merger
import Mathlib.Data.List.Chain

/-!
# The two-level iterator (`table/two_level_iterator.cpp`)

An index iterator yields handles, and a block function makes an iterator for each.  `tracks_twoLevelIterator` says that
the whole is a cursor over the concatenation of the blocks.  A place in a block is a place in the concatenation, after
as many entries as the blocks before have; while the iterator skips empty blocks that place stays the same.
-/

namespace Elsm

open List
open Cursor (Move Iterator Tracks Position entryAt settle settleBefore)

variable {σ τ K V H : Type}

/-! ## The code -/

/-- What a `TwoLevelIterator` is made with, and a bound for the rounds of its loops. -/
structure TwoLevelSetting (σ τ K V H : Type) where
  index : Iterator σ K H
  data : Iterator τ K V
  blockFunction : H → τ
  fuel : Nat

structure TwoLevelIterator (σ τ K H : Type) where
  indexIter : IteratorWrapper σ K
  /-- `none` for `NULL` -/
  dataIter : Option (IteratorWrapper τ K)
  /-- The handle that `dataIter` was made with. -/
  dataBlockHandle : Option H

namespace TwoLevelIterator

def new (c : TwoLevelSetting σ τ K V H) (indexIter : σ) : TwoLevelIterator σ τ K H :=
  ⟨.update c.index indexIter, none, none⟩

/-- `Valid`, `key` and `value`. -/
def entry (c : TwoLevelSetting σ τ K V H) (t : TwoLevelIterator σ τ K H) : Option (K × V) := do
  let w ← t.dataIter
  let key ← w.key
  let value ← w.value c.data
  return (key, value)

/-- `data_iter_.Valid()`, where `NULL` is not valid. -/
def dataValid (t : TwoLevelIterator σ τ K H) : Bool := t.dataIter.any (·.key.isSome)

def moveIndex (c : TwoLevelSetting σ τ K V H) (m : Move K) (t : TwoLevelIterator σ τ K H) :
    Option (TwoLevelIterator σ τ K H) :=
  (t.indexIter.move c.index m).map fun indexIter => { t with indexIter }

/-- The data iterator moves, unless it is `NULL`. -/
def moveData (c : TwoLevelSetting σ τ K V H) (m : Move K) (t : TwoLevelIterator σ τ K H) :
    Option (TwoLevelIterator σ τ K H) :=
  match t.dataIter with
  | none => some t
  | some w => (w.move c.data m).map fun w => { t with dataIter := some w }

variable [DecidableEq H] (c : TwoLevelSetting σ τ K V H) (t : TwoLevelIterator σ τ K H)

def initDataBlock : TwoLevelIterator σ τ K H :=
  match t.indexIter.value c.index with
  | none => { t with dataIter := none }
  | some handle =>
    -- the iterator of the same block is kept
    if t.dataIter.isSome ∧ t.dataBlockHandle = some handle then t
    else { t with dataIter := some (.update c.data (c.blockFunction handle)), dataBlockHandle := some handle }

/-- The index moves, and the data iterator of its block is placed. -/
def placeIn (index data : Move K) (t : TwoLevelIterator σ τ K H) : Option (TwoLevelIterator σ τ K H) := do
  let t ← t.moveIndex c index
  (initDataBlock c t).moveData c data

/-- The loop of `SkipEmptyDataBlocksForward` and `SkipEmptyDataBlocksBackward`. -/
def skipLoop (c : TwoLevelSetting σ τ K V H) (index data : Move K) :
    Nat → TwoLevelIterator σ τ K H → Option (TwoLevelIterator σ τ K H)
  | 0, _ => none
  | fuel + 1, t =>
    if t.dataValid then some t
    else if t.indexIter.key.isNone then some { t with dataIter := none }
    else do
      let t ← t.placeIn c index data
      skipLoop c index data fuel t

def skipEmptyDataBlocksForward : Option (TwoLevelIterator σ τ K H) :=
  skipLoop c .next .seekToFirst c.fuel t

def skipEmptyDataBlocksBackward : Option (TwoLevelIterator σ τ K H) :=
  skipLoop c .prev .seekToLast c.fuel t

def seek (target : K) (t : TwoLevelIterator σ τ K H) : Option (TwoLevelIterator σ τ K H) := do
  let t ← t.placeIn c (.seek target) (.seek target)
  t.skipEmptyDataBlocksForward c

def seekToFirst : Option (TwoLevelIterator σ τ K H) := do
  let t ← t.placeIn c .seekToFirst .seekToFirst
  t.skipEmptyDataBlocksForward c

def seekToLast : Option (TwoLevelIterator σ τ K H) := do
  let t ← t.placeIn c .seekToLast .seekToLast
  t.skipEmptyDataBlocksBackward c

def next : Option (TwoLevelIterator σ τ K H) :=
  if t.dataValid then do
    let t ← t.moveData c .next
    t.skipEmptyDataBlocksForward c
  else none

def prev : Option (TwoLevelIterator σ τ K H) :=
  if t.dataValid then do
    let t ← t.moveData c .prev
    t.skipEmptyDataBlocksBackward c
  else none

end TwoLevelIterator

def twoLevelIterator [DecidableEq H] (c : TwoLevelSetting σ τ K V H) : Iterator (TwoLevelIterator σ τ K H) K V where
  current := TwoLevelIterator.entry c
  move
    | .seekToFirst => TwoLevelIterator.seekToFirst c
    | .seekToLast => TwoLevelIterator.seekToLast c
    | .seek target => TwoLevelIterator.seek c target
    | .next => TwoLevelIterator.next c
    | .prev => TwoLevelIterator.prev c

/-! ## The blocks -/

variable {index : List (K × H)} {blocks : H → List (K × V)}

def concatenation (index : List (K × H)) (blocks : H → List (K × V)) : List (K × V) := index.flatMap fun a => blocks a.2

/-- The entries of a block are not above the separator of the block, and above those of the blocks before it. -/
structure Layout [LinearOrder K] (index : List (K × H)) (blocks : H → List (K × V)) : Prop where
  handles : index.Pairwise fun a b => a.2 ≠ b.2
  upTo : ∀ a ∈ index, ∀ x ∈ blocks a.2, x.1 ≤ a.1
  above : index.Pairwise fun a b => ∀ x ∈ blocks b.2, a.1 < x.1

/-- Where the separators ascend it is enough to look at the separator before. -/
theorem Layout.of_adjacent [LinearOrder K] (handles : index.Pairwise fun a b => a.2 ≠ b.2)
    (ord : index.Pairwise fun a b => a.1 ≤ b.1) (upTo : ∀ a ∈ index, ∀ x ∈ blocks a.2, x.1 ≤ a.1)
    (above : index.IsChain fun a b => ∀ x ∈ blocks b.2, a.1 < x.1) : Layout index blocks := by
  refine ⟨handles, upTo, ?_⟩
  rw [pairwise_iff_getElem] at ord ⊢
  rw [isChain_iff_getElem] at above
  intro i j inI inJ pre x inX
  obtain ⟨last, rfl⟩ := Nat.exists_eq_add_of_lt pre
  have isAbove := above (i + last) (by omega) x inX
  obtain rfl | further := Nat.eq_zero_or_pos last
  · exact isAbove
  · exact (ord i (i + last) inI (by omega) (by omega)).trans_lt isAbove

def entriesBefore (index : List (K × H)) (blocks : H → List (K × V)) (i : Nat) : Nat :=
  (concatenation (index.take i) blocks).length

theorem concatenation_append (left right : List (K × H)) :
    concatenation (left ++ right) blocks = concatenation left blocks ++ concatenation right blocks :=
  flatMap_append

theorem entriesBefore_length : entriesBefore index blocks index.length = (concatenation index blocks).length := by
  rw [entriesBefore, take_length]

section

variable (i : Fin index.length)

theorem entriesBefore_succ :
    entriesBefore index blocks (i + 1) = entriesBefore index blocks i + (blocks (index.get i).2).length := by
  rw [entriesBefore, take_succ_eq_append_getElem i.2, concatenation_append, length_append]
  simp [entriesBefore, concatenation]

theorem concatenation_split : concatenation index blocks = concatenation (index.take i) blocks ++
      (blocks (index.get i).2 ++ concatenation (index.drop (i + 1)) blocks) := by
  conv_lhs => rw [← take_append_drop i index, drop_eq_getElem_cons i.2]
  rw [concatenation_append]
  rfl

theorem concatenation_getElem? (k : Fin (blocks (index.get i).2).length) :
    (concatenation index blocks)[entriesBefore index blocks i + k]? = some ((blocks (index.get i).2).get k) := by
  rw [concatenation_split i, entriesBefore, getElem?_append_right (Nat.le_add_right ..), Nat.add_sub_cancel_left,
    getElem?_append_left k.2, getElem?_eq_getElem k.2]
  rfl

theorem entriesBefore_lt (k : Fin (blocks (index.get i).2).length) :
    entriesBefore index blocks i + k < (concatenation index blocks).length := by
  by_contra outside
  have none := concatenation_getElem? i k
  rw [getElem?_eq_none (Nat.le_of_not_lt outside)] at none
  cases none

end

/-! ## The invariant -/

/-- The iterator is a cursor at the position, and the wrapper has its key. -/
structure IteratorWrapper.At [LinearOrder K] (it : Iterator σ K V) (l : List (K × V)) (w : IteratorWrapper σ K)
    (p : Position l) : Prop where
  tracks : Tracks it l w.iter p
  key : w.key = (entryAt p).map (·.1)

theorem Cursor.Tracks.update [LinearOrder K] {it : Iterator σ K V} {l : List (K × V)} {s : σ} {p : Position l}
    (tracks : Tracks it l s p) : (IteratorWrapper.update it s).At it l p :=
  ⟨tracks, by rw [IteratorWrapper.update, tracks.current]⟩

theorem IteratorWrapper.At.move [LinearOrder K] {it : Iterator σ K V} {l : List (K × V)} {w : IteratorWrapper σ K}
    {p : Position l} (at_ : w.At it l p) {m : Move K} (ok : m.Allowed p.isSome) :
    ∃ w', w.move it m = some w' ∧ w'.At it l (m.apply l p) := by
  obtain ⟨s', moved, tracks⟩ := at_.tracks.move ok
  exact ⟨.update it s', by rw [IteratorWrapper.move, moved]; rfl, tracks.update⟩

namespace TwoLevelIterator

variable [LinearOrder K] {c : TwoLevelSetting σ τ K V H} {t : TwoLevelIterator σ τ K H}

/-- The index is at an entry, and the data iterator at the position in its block. -/
structure In (c : TwoLevelSetting σ τ K V H) (index : List (K × H)) (blocks : H → List (K × V))
    (t : TwoLevelIterator σ τ K H) (i : Fin index.length) (p : Position (blocks (index.get i).2)) : Prop where
  indexAt : t.indexIter.At c.index index (some i)
  data : ∃ w, t.dataIter = some w ∧ t.dataBlockHandle = some (index.get i).2 ∧ w.At c.data (blocks (index.get i).2) p

/-- The index is at the position, and there is a data iterator just when there is an entry. -/
def Placed (c : TwoLevelSetting σ τ K V H) (index : List (K × H)) (blocks : H → List (K × V))
    (t : TwoLevelIterator σ τ K H) (land : ∀ i : Fin index.length, Position (blocks (index.get i).2)) :
    Position index → Prop
  | none => t.indexIter.At c.index index none ∧ t.dataIter = none
  | some i => In c index blocks t i (land i)

def Inv (c : TwoLevelSetting σ τ K V H) (index : List (K × H)) (blocks : H → List (K × V))
    (t : TwoLevelIterator σ τ K H) : Position (concatenation index blocks) → Prop
  | none => (∃ p, t.indexIter.At c.index index p) ∧ t.dataIter = none
  | some j => ∃ i k, In c index blocks t i (some k) ∧ j.val = entriesBefore index blocks i + k

theorem Inv.entry {p : Position (concatenation index blocks)} (inv : Inv c index blocks t p) :
    t.entry c = entryAt p := by
  cases p with
  | none => simp [TwoLevelIterator.entry, inv.2, entryAt]
  | some j =>
    obtain ⟨i, k, inB, isPlace⟩ := inv
    obtain ⟨w, isData, -, at_⟩ := inB.data
    have eq : (concatenation index blocks).get j = (blocks (index.get i).2).get k := by
      have found := concatenation_getElem? i k
      rw [← isPlace, getElem?_eq_getElem j.2] at found
      exact Option.some.inj found
    simp only [TwoLevelIterator.entry, isData, at_.key, IteratorWrapper.value, at_.tracks.current, entryAt,
      Option.map_some, eq, Option.bind_eq_bind, Option.bind_some]
    rfl

variable {i : Fin index.length} {p : Position (blocks (index.get i).2)}

theorem In.placed (inB : In c index blocks t i p) :
    Placed c index blocks t (Function.update (fun _ => none) i p) (some i) := by
  rwa [Placed, Function.update_self]

/-- An open data iterator is one of a block. -/
def DataOpen (c : TwoLevelSetting σ τ K V H) (index : List (K × H)) (blocks : H → List (K × V))
    (t : TwoLevelIterator σ τ K H) : Prop :=
  ∀ w ∈ t.dataIter, ∃ i : Fin index.length, t.dataBlockHandle = some (index.get i).2 ∧
    ∃ p, w.At c.data (blocks (index.get i).2) p

theorem In.dataOpen (inB : In c index blocks t i p) : DataOpen c index blocks t := by
  intro w isData
  obtain ⟨w', isData', isHandle, at_⟩ := inB.data
  cases isData'.symm.trans isData
  exact ⟨i, isHandle, p, at_⟩

theorem Inv.parts {p : Position (concatenation index blocks)} (inv : Inv c index blocks t p) :
    (∃ p, t.indexIter.At c.index index p) ∧ DataOpen c index blocks t := by
  cases p with
  | none =>
    refine ⟨inv.1, fun w isData => ?_⟩
    rw [inv.2] at isData
    cases isData
  | some j =>
    obtain ⟨i, k, inB, -⟩ := inv
    exact ⟨⟨_, inB.indexAt⟩, inB.dataOpen⟩

/-! ## Placing the data iterator -/

theorem In.moveData (inB : In c index blocks t i p) {m : Move K} (ok : m.Allowed p.isSome) :
    ∃ t', t.moveData c m = some t' ∧ In c index blocks t' i (m.apply _ p) := by
  obtain ⟨w, isData, isHandle, at_⟩ := inB.data
  obtain ⟨w', moved, at'⟩ := at_.move ok
  refine ⟨{ t with dataIter := some w' }, ?_, inB.indexAt, w', rfl, isHandle, at'⟩
  simp only [TwoLevelIterator.moveData, isData, moved]
  rfl

section

variable {p : Position index} (layout : Layout index blocks)
  (cursors : ∀ a ∈ index, ∃ p, Tracks c.data (blocks a.2) (c.blockFunction a.2) p)
  (at_ : t.indexIter.At c.index index p) (dataOpen : DataOpen c index blocks t)

include layout cursors at_ dataOpen

theorem initDataBlock_spec [DecidableEq H] : ∃ land, Placed c index blocks (initDataBlock c t) land p := by
  have isValue : t.indexIter.value c.index = (entryAt p).map (·.2) := by
    rw [IteratorWrapper.value, at_.tracks.current]
  rw [initDataBlock, isValue]
  cases p with
  | none => exact ⟨fun _ => none, at_, rfl⟩
  | some i =>
    simp only [entryAt, Option.map_some]
    split
    case isTrue kept =>
      obtain ⟨w, isData⟩ := Option.isSome_iff_exists.mp kept.1
      obtain ⟨j, isHandle, q, atJ⟩ := dataOpen w isData
      have sameHandle : (index.get i).2 = (index.get j).2 := Option.some.inj (kept.2.symm.trans isHandle)
      have eq : i = j := by
        have apart := pairwise_iff_get.mp layout.handles
        obtain lt | equal | gt := lt_trichotomy i j
        · exact absurd sameHandle (apart i j lt)
        · exact equal
        · exact absurd sameHandle.symm (apart j i gt)
      subst eq
      exact ⟨_, In.placed ⟨at_, w, isData, isHandle, atJ⟩⟩
    case isFalse =>
      obtain ⟨q, tracks⟩ := cursors (index.get i) (get_mem ..)
      exact ⟨_, In.placed ⟨at_, _, rfl, rfl, tracks.update⟩⟩

/-- The move goes to the same position from anywhere. -/
def Absolute (m : Move K) : Prop :=
  (∀ valid, m.Allowed valid) ∧ ∀ {V : Type} (l : List (K × V)) (p : Position l), m.apply l p = m.apply l none

theorem placeIn_spec [DecidableEq H] (toIndex toData : Move K)
    (ok : toIndex.Allowed p.isSome) (absolute : Absolute toData) :
    ∃ t', t.placeIn c toIndex toData = some t' ∧
      Placed c index blocks t' (fun i => toData.apply (blocks (index.get i).2) none) (toIndex.apply index p) := by
  obtain ⟨w, moved, atW⟩ := at_.move ok
  have isMoved : t.moveIndex c toIndex = some { t with indexIter := w } := by rw [moveIndex, moved]; rfl
  obtain ⟨land, placed⟩ := initDataBlock_spec (t := { t with indexIter := w }) layout cursors atW dataOpen
  simp only [placeIn, isMoved, Option.bind_eq_bind, Option.bind_some]
  cases isPlace : toIndex.apply index p with
  | none =>
    rw [isPlace] at placed
    refine ⟨_, ?_, placed⟩
    rw [TwoLevelIterator.moveData, placed.2]
  | some i =>
    rw [isPlace] at placed
    obtain ⟨t', isMoved', inB⟩ := In.moveData placed (absolute.1 _)
    rw [absolute.2 _ (land i)] at inB
    exact ⟨t', isMoved', inB⟩

end

/-! ## Skipping empty blocks -/

section Skipping

variable [DecidableEq H] (layout : Layout index blocks)
  (cursors : ∀ a ∈ index, ∃ p, Tracks c.data (blocks a.2) (c.blockFunction a.2) p)
  {land : ∀ i : Fin index.length, Position (blocks (index.get i).2)}

variable {k : Fin (blocks (index.get i).2).length}

omit [DecidableEq H] in
theorem In.inv (inB : In c index blocks t i (some k)) :
    Inv c index blocks t (settle _ (entriesBefore index blocks i + k)) := by
  rw [Cursor.settle_of_lt (entriesBefore_lt i k)]
  exact ⟨i, k, inB, rfl⟩

theorem skipLoop_found (index' data' : Move K) (fuel : Nat) (inB : In c index blocks t i (some k)) :
    t.skipLoop c index' data' (fuel + 1) = some t := by
  obtain ⟨w, isData, -, at_⟩ := inB.data
  have isValid : t.dataValid = true := by simp [dataValid, isData, at_.key, entryAt]
  rw [skipLoop, if_pos isValid]

theorem skipLoop_exhausted (index' data' : Move K) (fuel : Nat) (placed : Placed c index blocks t land none) :
    t.skipLoop c index' data' (fuel + 1) = some t ∧ Inv c index blocks t none := by
  have isInvalid : t.dataValid = false := by simp [dataValid, placed.2]
  have noKey : t.indexIter.key.isNone = true := by simp [placed.1.key, entryAt]
  refine ⟨?_, ⟨none, placed.1⟩, placed.2⟩
  rw [skipLoop, isInvalid, noKey, if_neg Bool.false_ne_true, if_pos rfl, ← placed.2]

theorem skipLoop_next (index' data' : Move K) (fuel : Nat) (inB : In c index blocks t i none) :
    t.skipLoop c index' data' (fuel + 1) = (t.placeIn c index' data').bind (skipLoop c index' data' fuel) := by
  obtain ⟨w, isData, -, at_⟩ := inB.data
  have isInvalid : t.dataValid = false := by simp [dataValid, isData, at_.key, entryAt]
  have hasKey : t.indexIter.key.isNone = false := by simp [inB.indexAt.key, entryAt]
  rw [skipLoop, isInvalid, hasKey, if_neg Bool.false_ne_true, if_neg Bool.false_ne_true]
  rfl

/-- The place in the concatenation from which the loop looks forward. -/
def placeForward (index : List (K × H)) (blocks : H → List (K × V))
    (land : ∀ i : Fin index.length, Position (blocks (index.get i).2)) : Position index → Nat
  | none => (concatenation index blocks).length
  | some i => entriesBefore index blocks i + (land i).elim (blocks (index.get i).2).length Fin.val

/-- The place in the concatenation from which the loop looks back. -/
def placeBackward (index : List (K × H)) (blocks : H → List (K × V))
    (land : ∀ i : Fin index.length, Position (blocks (index.get i).2)) : Position index → Nat
  | none => 0
  | some i => entriesBefore index blocks i + (land i).elim 0 fun k => k.val + 1

include layout cursors

theorem skipForward_spec (fuel : Nat) {p : Position index} (placed : Placed c index blocks t land p)
    (enough : index.length - p.elim index.length Fin.val < fuel) :
    ∃ t', t.skipLoop c .next .seekToFirst fuel = some t' ∧
      Inv c index blocks t' (settle _ (placeForward index blocks land p)) := by
  induction fuel generalizing t p land with
  | zero => exact absurd enough (Nat.not_lt_zero _)
  | succ fuel ih =>
    match p with
    | none =>
      obtain ⟨done, inv⟩ := skipLoop_exhausted .next .seekToFirst fuel placed
      exact ⟨t, done, by rwa [placeForward, Cursor.settle_of_le le_rfl]⟩
    | some i =>
      cases isLand : land i with
      | some k =>
        have inB : In c index blocks t i (some k) := isLand ▸ placed
        exact ⟨t, skipLoop_found _ _ fuel inB, by rw [placeForward, isLand]; exact inB.inv⟩
      | none =>
        have inB : In c index blocks t i none := isLand ▸ placed
        obtain ⟨t', moved, placed'⟩ := placeIn_spec layout cursors
          inB.indexAt inB.dataOpen .next .seekToFirst rfl ⟨fun _ => trivial, fun _ _ => rfl⟩
        rw [skipLoop_next _ _ _ inB, moved, Option.bind_some]
        rw [Move.apply_next] at placed'
        have samePlace : placeForward index blocks land (some i) = placeForward index blocks
            (fun j => Move.seekToFirst.apply (blocks (index.get j).2) none) (settle index (i + 1)) := by
          rw [placeForward, isLand, Option.elim_none, ← entriesBefore_succ]
          obtain last | ins := Nat.eq_or_lt_of_le (Nat.succ_le_of_lt i.2)
          · rw [Cursor.settle_of_le (Nat.le_of_eq last.symm), placeForward, ← entriesBefore_length]
            exact congrArg (entriesBefore index blocks) last
          · rw [Cursor.settle_of_lt ins, placeForward, Move.apply, Cursor.settle_elim (Nat.zero_le _)]
            rfl
        rw [samePlace]
        apply ih placed'
        rw [Cursor.settle_elim (Nat.succ_le_of_lt i.2)]
        simp only [Option.elim_some] at enough
        omega

theorem skipBackward_spec (fuel : Nat) {p : Position index} (placed : Placed c index blocks t land p)
    (enough : (p.elim 0 fun i => i.val + 1) < fuel) :
    ∃ t', t.skipLoop c .prev .seekToLast fuel = some t' ∧
      Inv c index blocks t' (settleBefore _ (placeBackward index blocks land p)) := by
  induction fuel generalizing t p land with
  | zero => exact absurd enough (Nat.not_lt_zero _)
  | succ fuel ih =>
    match p with
    | none =>
      obtain ⟨done, inv⟩ := skipLoop_exhausted .prev .seekToLast fuel placed
      exact ⟨t, done, inv⟩
    | some i =>
      cases isLand : land i with
      | some k =>
        have inB : In c index blocks t i (some k) := isLand ▸ placed
        exact ⟨t, skipLoop_found _ _ fuel inB, by rw [placeBackward, isLand]; exact inB.inv⟩
      | none =>
        have inB : In c index blocks t i none := isLand ▸ placed
        obtain ⟨t', moved, placed'⟩ := placeIn_spec layout cursors
          inB.indexAt inB.dataOpen .prev .seekToLast rfl ⟨fun _ => trivial, fun _ _ => rfl⟩
        rw [skipLoop_next _ _ _ inB, moved, Option.bind_some]
        rw [Move.apply_prev] at placed'
        have samePlace : placeBackward index blocks land (some i) = placeBackward index blocks
            (fun j => Move.seekToLast.apply (blocks (index.get j).2) none) (settleBefore index i) := by
          rw [placeBackward, isLand, Option.elim_none, Nat.add_zero, settleBefore]
          split
          case isTrue zero => simp [zero, placeBackward, entriesBefore, concatenation]
          case isFalse pos =>
            have ins : i.val - 1 < index.length := by omega
            rw [Cursor.settle_of_lt ins, placeBackward, Move.apply_seekToLast, Cursor.settleBefore_elim le_rfl,
              ← entriesBefore_succ ⟨i.val - 1, ins⟩]
            simp only [Nat.sub_one_add_one pos]
        rw [samePlace]
        apply ih placed'
        rw [Cursor.settleBefore_elim i.2.le]
        simp only [Option.elim_some] at enough
        omega

/-! ## The moves -/

omit [DecidableEq H] cursors in
theorem seek_around {target : K} {i : Nat} (isIndex : index.findIdx (fun a => target ≤ a.1) = i) :
    (∀ x ∈ concatenation (index.take i) blocks, ¬target ≤ x.1) ∧
      ∀ x ∈ concatenation (index.drop (i + 1)) blocks, target ≤ x.1 := by
  constructor
  · intro x mem reaches
    obtain ⟨a, inTake, inX⟩ := mem_flatMap.mp mem
    obtain ⟨j, ins, rfl⟩ := mem_take_iff_getElem.mp inTake
    have pre : j < index.findIdx fun a => target ≤ a.1 := by omega
    exact of_decide_eq_false (not_of_lt_findIdx pre) (reaches.trans (layout.upTo _ (getElem_mem _) x inX))
  · intro x mem
    obtain ⟨b, inDrop, inX⟩ := mem_flatMap.mp mem
    obtain ⟨j, ins, rfl⟩ := mem_drop_iff_getElem.mp inDrop
    have found : index.findIdx (fun a => target ≤ a.1) < index.length := by omega
    have reaches := of_decide_eq_true (findIdx_getElem (w := found))
    have above := pairwise_iff_getElem.mp layout.above _ (i + 1 + j) found (by omega) (by omega)
    exact reaches.trans (above x inX).le

omit [DecidableEq H] cursors in
/-- The separators lead to the block where the target, or the next entry after it, has its place. -/
theorem placeForward_seek (target : K) :
    placeForward index blocks (fun i => (Move.seek target).apply (blocks (index.get i).2) none)
        (settle index (index.findIdx fun a => target ≤ a.1)) =
      (concatenation index blocks).findIdx fun x => target ≤ x.1 := by
  obtain ⟨i, isIndex⟩ : ∃ i, index.findIdx (fun a => target ≤ a.1) = i := ⟨_, rfl⟩
  obtain ⟨pre, after⟩ := seek_around layout isIndex
  rw [isIndex]
  by_cases inside : i < index.length
  · have notBefore : (concatenation (index.take i) blocks).findIdx (fun x => target ≤ x.1) =
        entriesBefore index blocks i :=
      findIdx_eq_length.mpr fun x mem => decide_eq_false (pre x mem)
    have atOnce : (concatenation (index.drop (i + 1)) blocks).findIdx (fun x => target ≤ x.1) = 0 := by
      cases isRest : concatenation (index.drop (i + 1)) blocks with
      | nil => rfl
      | cons x rest =>
        rw [findIdx_cons, decide_eq_true (after x (isRest ▸ mem_cons_self)), cond_true]
    rw [Cursor.settle_of_lt inside, placeForward, Move.apply, Cursor.settle_elim findIdx_le_length,
      concatenation_split ⟨i, inside⟩, findIdx_append, notBefore, findIdx_append, atOnce]
    simp only [entriesBefore, lt_irrefl, if_false, Nat.zero_add]
    split
    case isTrue => exact Nat.add_comm ..
    case isFalse notInBlock =>
      rw [Nat.le_antisymm findIdx_le_length (Nat.le_of_not_lt notInBlock)]
      exact Nat.add_comm ..
  · rw [take_of_length_le (Nat.le_of_not_lt inside)] at pre
    rw [Cursor.settle_of_le (Nat.le_of_not_lt inside), placeForward]
    exact (findIdx_eq_length.mpr fun x mem => decide_eq_false (pre x mem)).symm

variable (enough : index.length < c.fuel)

include enough

omit [LinearOrder K] [DecidableEq H] layout cursors in
theorem rounds_forward (p : Position index) : index.length - p.elim index.length Fin.val < c.fuel := by omega

omit [LinearOrder K] [DecidableEq H] layout cursors in
theorem rounds_backward (p : Position index) : (p.elim 0 fun i => i.val + 1) < c.fuel := by
  cases p with
  | none => exact Nat.zero_lt_of_lt enough
  | some i => exact Nat.lt_of_le_of_lt i.2 enough

theorem Inv.move {p : Position (concatenation index blocks)} (inv : Inv c index blocks t p) (m : Move K)
    (ok : m.Allowed p.isSome) :
    ∃ t', (twoLevelIterator c).move m t = some t' ∧ Inv c index blocks t' (m.apply _ p) := by
  obtain ⟨⟨q, atIndex⟩, dataOpen⟩ := inv.parts
  cases m with
  | seekToFirst =>
    obtain ⟨t', moved, placed⟩ := placeIn_spec layout cursors
      atIndex dataOpen .seekToFirst .seekToFirst trivial ⟨fun _ => trivial, fun _ _ => rfl⟩
    obtain ⟨t'', skipped, inv'⟩ := skipForward_spec layout cursors c.fuel placed (rounds_forward enough _)
    refine ⟨t'', by simpa [twoLevelIterator, seekToFirst, skipEmptyDataBlocksForward, moved] using skipped, ?_⟩
    have start : placeForward index blocks (fun i => Move.seekToFirst.apply (blocks (index.get i).2) none)
        (settle index 0) = 0 := by
      obtain empty | ins := Nat.eq_zero_or_pos index.length
      · rw [Cursor.settle_of_le (Nat.le_of_eq empty), placeForward, length_eq_zero_iff.mp empty]
        rfl
      · rw [Cursor.settle_of_lt ins, placeForward, Move.apply, Cursor.settle_elim (Nat.zero_le _)]
        rfl
    rwa [Move.apply, start] at inv'
  | seekToLast =>
    obtain ⟨t', moved, placed⟩ := placeIn_spec layout cursors
      atIndex dataOpen .seekToLast .seekToLast trivial ⟨fun _ => trivial, fun _ _ => rfl⟩
    obtain ⟨t'', skipped, inv'⟩ := skipBackward_spec layout cursors c.fuel placed (rounds_backward enough _)
    refine ⟨t'', by simpa [twoLevelIterator, seekToLast, skipEmptyDataBlocksBackward, moved] using skipped, ?_⟩
    have finish : placeBackward index blocks (fun i => Move.seekToLast.apply (blocks (index.get i).2) none)
        (settleBefore index index.length) = (concatenation index blocks).length := by
      rw [settleBefore]
      split
      case isTrue empty => rw [placeBackward, length_eq_zero_iff.mp empty]; rfl
      case isFalse ne =>
        have ins : index.length - 1 < index.length := by omega
        rw [Cursor.settle_of_lt ins, placeBackward, Move.apply_seekToLast, Cursor.settleBefore_elim le_rfl,
          ← entriesBefore_succ ⟨index.length - 1, ins⟩, ← entriesBefore_length]
        simp only [Nat.sub_one_add_one ne]
    rwa [Move.apply_seekToLast, finish, ← Move.apply_seekToLast _ p] at inv'
  | seek target =>
    obtain ⟨t', moved, placed⟩ := placeIn_spec layout cursors
      atIndex dataOpen (.seek target) (.seek target) trivial ⟨fun _ => trivial, fun _ _ => rfl⟩
    obtain ⟨t'', skipped, inv'⟩ := skipForward_spec layout cursors c.fuel placed (rounds_forward enough _)
    refine ⟨t'', by simpa [twoLevelIterator, seek, skipEmptyDataBlocksForward, moved] using skipped, ?_⟩
    rw [show (Move.seek target).apply index q = settle index (index.findIdx fun a => target ≤ a.1) from rfl,
      placeForward_seek layout target] at inv'
    exact inv'
  | next =>
    obtain ⟨j, rfl⟩ := Option.isSome_iff_exists.mp ok
    obtain ⟨i, k, inB, isPlace⟩ := inv
    obtain ⟨t', moved, inB'⟩ := inB.moveData (m := .next) rfl
    obtain ⟨t'', skipped, inv'⟩ := skipForward_spec layout cursors c.fuel inB'.placed (rounds_forward enough _)
    obtain ⟨w, isData, -, at_⟩ := inB.data
    have isValid : t.dataValid = true := by simp [dataValid, isData, at_.key, entryAt]
    refine ⟨t'', by simpa [twoLevelIterator, next, skipEmptyDataBlocksForward, isValid, moved] using skipped, ?_⟩
    rw [placeForward, Function.update_self, Move.apply_next, Cursor.settle_elim (Nat.succ_le_of_lt k.2),
      Nat.add_succ, ← isPlace] at inv'
    exact inv'
  | prev =>
    obtain ⟨j, rfl⟩ := Option.isSome_iff_exists.mp ok
    obtain ⟨i, k, inB, isPlace⟩ := inv
    obtain ⟨t', moved, inB'⟩ := inB.moveData (m := .prev) rfl
    obtain ⟨t'', skipped, inv'⟩ := skipBackward_spec layout cursors c.fuel inB'.placed (rounds_backward enough _)
    obtain ⟨w, isData, -, at_⟩ := inB.data
    have isValid : t.dataValid = true := by simp [dataValid, isData, at_.key, entryAt]
    refine ⟨t'', by simpa [twoLevelIterator, prev, skipEmptyDataBlocksBackward, isValid, moved] using skipped, ?_⟩
    rw [placeBackward, Function.update_self, Move.apply_prev, Cursor.settleBefore_elim k.2.le, ← isPlace] at inv'
    exact inv'

end Skipping

end TwoLevelIterator

/-- Over an index and blocks that are cursors the iterator is a cursor over the concatenation of the blocks. -/
theorem tracks_twoLevelIterator [LinearOrder K] [DecidableEq H] {c : TwoLevelSetting σ τ K V H} {indexIter : σ}
    (layout : Layout index blocks) (indexCursor : ∃ p, Tracks c.index index indexIter p)
    (cursors : ∀ a ∈ index, ∃ p, Tracks c.data (blocks a.2) (c.blockFunction a.2) p) (enough : index.length < c.fuel) :
    Tracks (twoLevelIterator c) (concatenation index blocks) (.new c indexIter) none := by
  obtain ⟨p, tracks⟩ := indexCursor
  apply Cursor.tracks_of_simulation (TwoLevelIterator.Inv c index blocks)
  · exact fun t p inv => inv.entry
  · exact fun t p m inv ok => inv.move layout cursors enough m ok
  · exact ⟨⟨p, tracks.update⟩, rfl⟩

/-- The same with the separators in order and each block compared with the separator before it only.  The index stands
in any position, and so does the iterator that is made for a block. -/
theorem twoLevelIterator_cursor [LinearOrder K] [DecidableEq H] (c : TwoLevelSetting σ τ K V H) (indexIter : σ)
    (index : List (K × H)) (blocks : H → List (K × V)) (handles : index.Pairwise fun a b => a.2 ≠ b.2)
    (ordered : index.Pairwise fun a b => a.1 ≤ b.1) (upTo : ∀ a ∈ index, ∀ x ∈ blocks a.2, x.1 ≤ a.1)
    (above : index.IsChain fun a b => ∀ x ∈ blocks b.2, a.1 < x.1)
    (indexCursor : ∃ p, Tracks c.index index indexIter p)
    (cursors : ∀ a ∈ index, ∃ p, Tracks c.data (blocks a.2) (c.blockFunction a.2) p) (enough : index.length < c.fuel)
    (moves : List (Move K)) (legal : Cursor.Legal (concatenation index blocks) none moves) :
    ∃ t, (twoLevelIterator c).moveAll moves (.new c indexIter) = some t ∧
      (twoLevelIterator c).current t = entryAt (Move.applyAll (concatenation index blocks) none moves) :=
  tracks_twoLevelIterator (.of_adjacent handles ordered upTo above) indexCursor cursors enough moves legal

def threeBlocks : Nat → List (Nat × Nat)
  | 0 => [(1, 10), (2, 20)]
  | 2 => [(5, 50), (7, 70)]
  | _ => []

def threeBlocksSetting : TwoLevelSetting (Cursor.ListCursor Nat Nat) (Cursor.ListCursor Nat Nat) Nat Nat Nat :=
  ⟨Cursor.listIterator, Cursor.listIterator, fun h => ⟨threeBlocks h, none⟩, 4⟩

/-- From the last entry of the first block the iterator goes on to the first of the third, and comes back. -/
theorem twoLevelIterator_cursor_threeBlocks :
    ∃ t, (twoLevelIterator threeBlocksSetting).moveAll [.seek 2, .next, .prev, .seek 3]
        (.new threeBlocksSetting ⟨[(2, 0), (2, 1), (7, 2)], none⟩) = some t ∧
      (twoLevelIterator threeBlocksSetting).current t = some (5, 50) :=
  twoLevelIterator_cursor threeBlocksSetting _ [(2, 0), (2, 1), (7, 2)] threeBlocks (by decide) (by decide) (by decide)
    (by decide) ⟨none, Cursor.listIterator_tracks _ _⟩ (fun _ _ => ⟨none, Cursor.listIterator_tracks _ _⟩) (by decide)
    [.seek 2, .next, .prev, .seek 3] ⟨trivial, rfl, rfl, trivial, trivial⟩

end Elsm
