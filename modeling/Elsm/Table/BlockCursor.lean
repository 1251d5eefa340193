import Elsm.Table.BlockBounds

/-!
# The iterator of a block that is well formed (`table/block.cpp`)

A block is well formed for a list of entries when each entry decodes against the one before it, and each restart point
is the offset of an entry with its whole key.  Over such a block the iterator is a cursor (`tracks_laid`).
-/

namespace Elsm

open Cursor (Move Iterator Tracks Position entryAt settle settleBefore Ascending)

/-! ## Keys -/

/-- Keys that are stored as bytes, and a comparator that has their order. -/
structure KeyCoding (K : Type) [LinearOrder K] where
  encode : K → Bytes
  decode : Bytes → K
  compare : Bytes → Bytes → Ordering
  decode_encode : ∀ k, decode (encode k) = k
  compare_lt : ∀ a c, compare (encode a) (encode c) = .lt ↔ a < c
  compare_gt : ∀ a c, compare (encode a) (encode c) = .gt ↔ c < a

variable {K : Type} [LinearOrder K]

namespace KeyCoding

def stored (c : KeyCoding K) (l : List (K × Bytes)) : List (Bytes × Bytes) := l.map fun e => (c.encode e.1, e.2)

@[simp] theorem stored_length (c : KeyCoding K) (l : List (K × Bytes)) : (c.stored l).length = l.length :=
  List.length_map ..

theorem stored_getElem (c : KeyCoding K) (l : List (K × Bytes)) {k : Nat} (h : k < l.length)
    (h' : k < (c.stored l).length) :
    (c.stored l)[k] = (c.encode l[k].1, l[k].2) := List.getElem_map ..

end KeyCoding

def keyedIterator (c : KeyCoding K) : Iterator BlockIterator K Bytes :=
  (blockIterator c.compare).rekey c.encode c.decode

/-! ## Well formed blocks -/

/-- The entries lie in the block one after the other. -/
structure LaidOut (b : Block) (es : List (Bytes × Bytes)) where
  offset : Nat → Nat
  shared : Nat → Nat
  start : offset 0 = 0
  ascends : ∀ k < es.length, offset k < offset (k + 1)
  ends : offset es.length = b.restartOffset
  /-- The lengths of the entry are followed by the rest of its key and its value. -/
  decodes : ∀ k (h : k < es.length), ∃ rest,
    decodeEntry (b.area.drop (offset k)) = some (shared k, es[k].1.length - shared k, es[k].2.length, rest) ∧
    b.bytes (b.restartOffset - rest.length) (es[k].1.length - shared k) = es[k].1.drop (shared k) ∧
    b.bytes (b.restartOffset - rest.length + (es[k].1.length - shared k)) es[k].2.length = es[k].2 ∧
    b.restartOffset - rest.length + (es[k].1.length - shared k) + es[k].2.length = offset (k + 1)
  /-- What is not stored of a key is in the key before it. -/
  shares : ∀ k (h : k + 1 < es.length),
    shared (k + 1) ≤ es[k].1.length ∧ es[k].1.take (shared (k + 1)) = es[k + 1].1.take (shared (k + 1))
  restart : Nat → Nat
  points : ∀ j < b.numRestarts, b.getRestartPoint j = some (offset (restart j))
  /-- A restart point is an entry, except that a block without entries has one too. -/
  inside : ∀ j < b.numRestarts, restart j < es.length ∨ es = [] ∧ j = 0
  whole : ∀ j < b.numRestarts, restart j < es.length → shared (restart j) = 0
  first : restart 0 = 0
  hasRestart : 0 < b.numRestarts
  few : b.numRestarts ≤ 2 ^ 31

namespace LaidOut

variable {b : Block} {es : List (Bytes × Bytes)} (laid : LaidOut b es)

theorem offset_lt {i j : Nat} (lt : i < j) (ins : j ≤ es.length) : laid.offset i < laid.offset j := by
  induction j with
  | zero => omega
  | succ j ih =>
    have step := laid.ascends j (by omega)
    obtain rfl | pre := Nat.eq_or_lt_of_le (Nat.le_of_lt_succ lt)
    · exact step
    · exact (ih pre (by omega)).trans step

theorem offset_lt_iff {i j : Nat} (left : i ≤ es.length) (right : j ≤ es.length) :
    laid.offset i < laid.offset j ↔ i < j := by
  refine ⟨fun lt => ?_, fun lt => laid.offset_lt lt right⟩
  by_contra notLess
  obtain rfl | after := Nat.eq_or_lt_of_le (Nat.le_of_not_lt notLess)
  · exact lt_irrefl _ lt
  · exact lt_asymm lt (laid.offset_lt after left)

theorem offset_le {i : Nat} (ins : i ≤ es.length) : laid.offset i ≤ b.restartOffset := by
  rw [← laid.ends]
  obtain rfl | lt := Nat.eq_or_lt_of_le ins
  · exact le_rfl
  · exact (laid.offset_lt lt le_rfl).le

include laid in
theorem parseFuel_enough (k : Nat) : es.length - k < BlockIter.parseFuel b := by
  have grows : ∀ i ≤ es.length, i ≤ laid.offset i := by
    intro i
    induction i with
    | zero => exact fun _ => Nat.zero_le _
    | succ i ih =>
      intro ins
      have step := laid.ascends i ins
      have := ih (by omega)
      omega
  have le := (grows es.length le_rfl).trans laid.ends.le
  rw [BlockIter.parseFuel]
  omega

/-! ## Where the iterator is -/

structure At (it : BlockIter) (k : Nat) (h : k < es.length) : Prop where
  current : it.current = laid.offset k
  key : it.key = es[k].1
  value : b.bytes it.value.1 it.value.2 = es[k].2
  next : it.value.1 + it.value.2 = laid.offset (k + 1)
  restartIndex : it.restartIndex < b.numRestarts
  status : it.status = none

/-- The iterator is at no entry, and no error was met. -/
structure Off (b : Block) (it : BlockIter) : Prop where
  invalid : it.valid b = false
  status : it.status = none

def Placed (it : BlockIter) (k : Nat) : Prop := (∀ h : k < es.length, laid.At it k h) ∧ (k = es.length → Off b it)

/-- The next entry to be parsed is the one with the number, and what it shares is there. -/
structure Ready (it : BlockIter) (k : Nat) : Prop where
  inside : k ≤ es.length
  next : it.value.1 + it.value.2 = laid.offset k
  shared : ∀ h : k < es.length, laid.shared k ≤ it.key.length ∧
    it.key.take (laid.shared k) = es[k].1.take (laid.shared k)
  restartIndex : it.restartIndex < b.numRestarts
  status : it.status = none

/-! ## Parsing -/

variable {laid} {it : BlockIter} {k : Nat}

theorem Off.markInvalid (status : it.status = none) : Off b (it.markInvalid b) :=
  ⟨by simp [BlockIter.valid, BlockIter.markInvalid], status⟩

theorem Ready.nextEntryOffset (ready : laid.Ready it k) : it.nextEntryOffset = laid.offset k := by
  have := laid.offset_le ready.inside
  have := b.fits
  rw [BlockIter.nextEntryOffset, ready.next]
  omega

theorem At.nextEntryOffset {h : k < es.length} (at_ : laid.At it k h) : it.nextEntryOffset = laid.offset (k + 1) := by
  have := laid.offset_le (show k + 1 ≤ es.length from h)
  have := b.fits
  rw [BlockIter.nextEntryOffset, at_.next]
  omega

theorem At.ready {h : k < es.length} (at_ : laid.At it k h) : laid.Ready it (k + 1) where
  inside := h
  next := at_.next
  shared h' := by rw [at_.key]; exact laid.shares k h'
  restartIndex := at_.restartIndex
  status := at_.status

theorem parseNextKey_spec (ready : laid.Ready it k) :
    ∃ it', it.parseNextKey b = some (decide (k < es.length), it') ∧ laid.Placed it' k := by
  rw [BlockIter.parseNextKey, ready.nextEntryOffset]
  obtain isEnd | lt := Nat.eq_or_lt_of_le ready.inside
  · rw [isEnd, laid.ends, if_pos le_rfl, decide_eq_false (Nat.lt_irrefl _)]
    exact ⟨_, rfl, fun h => absurd h (Nat.lt_irrefl _), fun _ => .markInvalid ready.status⟩
  have pre : laid.offset k < b.restartOffset := (laid.offset_lt lt le_rfl).trans_eq laid.ends
  obtain ⟨rest, decodes, isDelta, isValue, isNext⟩ := laid.decodes k lt
  obtain ⟨le, isShared⟩ := ready.shared lt
  obtain ⟨index, isIndex, inArray⟩ := @BlockIter.advanceRestart_spec b (laid.offset k) (b.numRestarts + 1) _
    ready.restartIndex (by omega)
  rw [if_neg (by omega), decodes]
  simp only [if_neg (Nat.not_lt.mpr le), isIndex, Option.bind_eq_bind, Option.bind_some, decide_eq_true lt]
  refine ⟨_, rfl, fun _ => ⟨rfl, ?_, isValue, isNext, inArray, ready.status⟩, fun isEnd => absurd lt (by omega)⟩
  rw [isDelta, isShared, List.take_append_drop]

/-- The loops around `ParseNextKey` stop at the first entry that has the property. -/
theorem parseUntil_spec {stop : BlockIter → Bool} {P : Nat → Prop} {fuel : Nat} (ready : laid.Ready it k)
    (stops : ∀ it k h, laid.At it k h → (stop it = true ↔ P k)) (le : es.length - k < fuel) :
    ∃ it' k', BlockIter.parseUntil b stop fuel it = some it' ∧ laid.Placed it' k' ∧ k ≤ k' ∧ k' ≤ es.length ∧
      (∀ m, k ≤ m → m < k' → ¬P m) ∧ (k' < es.length → P k') := by
  induction fuel generalizing it k with
  | zero => omega
  | succ fuel ih =>
    obtain ⟨it₁, parses, placed⟩ := parseNextKey_spec ready
    simp only [BlockIter.parseUntil, parses, Option.bind_eq_bind, Option.bind_some]
    obtain isEnd | lt := Nat.eq_or_lt_of_le ready.inside
    · rw [decide_eq_false (by omega)]
      exact ⟨it₁, k, rfl, placed, le_rfl, ready.inside, fun m _ _ => by omega, fun h => by omega⟩
    have at_ := placed.1 lt
    rw [decide_eq_true lt]
    by_cases stopped : stop it₁ = true
    · rw [stopped]
      exact ⟨it₁, k, rfl, placed, le_rfl, ready.inside, fun m _ _ => by omega, fun _ => (stops it₁ k lt at_).mp stopped⟩
    obtain ⟨it', k', loops, placed', above, ins, pre, has⟩ := ih at_.ready (by omega)
    rw [Bool.eq_false_of_not_eq_true stopped]
    refine ⟨it', k', loops, placed', by omega, ins, fun m lower upper => ?_, has⟩
    obtain rfl | later := Nat.eq_or_lt_of_le lower
    · exact fun holds => stopped ((stops it₁ _ lt at_).mpr holds)
    · exact pre m later upper

theorem seekToRestartPoint_spec {j : Nat} (inArray : j < b.numRestarts) (status : it.status = none) :
    ∃ start, it.seekToRestartPoint b j = some start ∧ laid.Ready start (laid.restart j) := by
  rw [BlockIter.seekToRestartPoint, laid.points j inArray]
  refine ⟨_, rfl, ?_, Nat.add_zero _, fun h => ?_, inArray, status⟩
  · obtain ins | ⟨noEntries, zero⟩ := laid.inside j inArray
    · exact ins.le
    · rw [zero, laid.first]
      exact Nat.zero_le _
  · rw [laid.whole j inArray h]
    exact ⟨Nat.zero_le _, rfl⟩

def Before (laid : LaidOut b es) (compare : Bytes → Bytes → Ordering) (target : Bytes) (j : Nat) : Prop :=
  j = 0 ∨ ∃ h : laid.restart j < es.length, compare es[laid.restart j].1 target = .lt

theorem searchRestarts_spec {compare : Bytes → Bytes → Ordering} {target : Bytes} {fuel left right : Nat}
    (ord : left ≤ right) (inArray : right < b.numRestarts) (le : right - left < fuel)
    (pre : laid.Before compare target left) :
    ∃ left' it', BlockIter.searchRestarts b compare target fuel left right it = some (some left', it') ∧
      left' < b.numRestarts ∧ it'.status = it.status ∧ laid.Before compare target left' := by
  induction fuel generalizing left right it with
  | zero => omega
  | succ fuel ih =>
    rw [BlockIter.searchRestarts]
    split
    case isFalse => exact ⟨left, it, rfl, by omega, rfl, pre⟩
    case isTrue open_ =>
      have few := laid.few
      obtain ⟨mid, isMid, above, upTo⟩ : ∃ mid, (left + right + 1) % 2 ^ 32 / 2 = mid ∧ left < mid ∧ mid ≤ right :=
        ⟨_, rfl, by omega, by omega⟩
      have lt : (mid + (2 ^ 32 - 1)) % 2 ^ 32 = mid - 1 := by omega
      have midInArray : mid < b.numRestarts := by omega
      have inside : laid.restart mid < es.length := (laid.inside mid midInArray).resolve_right (by omega)
      obtain ⟨rest, decodes, isKey, -⟩ := laid.decodes _ inside
      rw [laid.whole mid midInArray inside, Nat.sub_zero] at decodes isKey
      simp only [isMid, lt, laid.points mid midInArray, decodes, isKey, List.drop_zero, Option.bind_eq_bind,
        Option.bind_some, ne_eq, not_true_eq_false, if_false]
      split
      case isTrue isLess => exact ih upTo inArray (by omega) (.inr ⟨inside, isLess⟩)
      case isFalse => exact ih (by omega) (by omega) (by omega) pre

/-! ## The cursor -/

variable {c : KeyCoding K} {l : List (K × Bytes)}

/-- The iterator is where the cursor is, and no error was met. -/
def Related (laid : LaidOut b (c.stored l)) (it : BlockIter) : Position l → Prop
  | none => Off b it
  | some i => laid.At it i (by rw [c.stored_length]; exact i.2)

theorem Placed.related {laid : LaidOut b (c.stored l)} (placed : laid.Placed it k) (ins : k ≤ l.length) :
    laid.Related it (settle l k) := by
  obtain rfl | lt := Nat.eq_or_lt_of_le ins
  · rw [Cursor.settle_of_le le_rfl]
    exact placed.2 (c.stored_length l).symm
  · rw [Cursor.settle_of_lt lt]
    exact placed.1 (by rwa [c.stored_length])

variable {p : Position l}

section

variable {laid : LaidOut b (c.stored l)} (rel : laid.Related it p)

include rel

theorem Related.status : it.status = none := by
  cases p with
  | none => exact Off.status rel
  | some i => exact At.status rel

theorem Related.shows :
    (blockIterator c.compare).current (.over b it) = (entryAt p).map fun e => (c.encode e.1, e.2) := by
  cases p with
  | none => simp [blockIterator, Off.invalid rel, entryAt]
  | some i =>
    have at_ : laid.At it i _ := rel
    have isValid : it.valid b = true := by
      rw [BlockIter.valid, at_.current, ← laid.ends]
      exact decide_eq_true (laid.offset_lt (by simp) le_rfl)
    simp [blockIterator, isValid, at_.key, at_.value, c.stored_getElem, entryAt]

theorem Related.current : (keyedIterator c).current (.over b it) = entryAt p := by
  simp only [keyedIterator, Iterator.rekey, rel.shows, Option.map_map]
  cases p with
  | none => rfl
  | some i => simp [entryAt, c.decode_encode]

theorem Related.valid : it.valid b = p.isSome := by
  have shows := congrArg Option.isSome rel.current
  rw [Cursor.isSome_entryAt] at shows
  rw [← shows]
  cases isValid : it.valid b <;> simp [keyedIterator, Iterator.rekey, blockIterator, isValid]

end

variable {laid : LaidOut b (c.stored l)} {p : Position l}

theorem Related.seekToFirst (rel : laid.Related it p) :
    ∃ it', it.seekToFirst b = some it' ∧ laid.Related it' (settle l 0) := by
  obtain ⟨start, isStart, ready⟩ := seekToRestartPoint_spec laid.hasRestart rel.status
  rw [laid.first] at ready
  obtain ⟨it', parses, placed⟩ := parseNextKey_spec ready
  exact ⟨it', by simp [BlockIter.seekToFirst, isStart, parses], placed.related (Nat.zero_le _)⟩

theorem Related.seekToLast (rel : laid.Related it p) :
    ∃ it', it.seekToLast b = some it' ∧ laid.Related it' (settleBefore l l.length) := by
  have some_ := laid.hasRestart
  obtain ⟨start, isStart, ready⟩ := @seekToRestartPoint_spec b _ laid it (b.numRestarts - 1) (by omega) rel.status
  have stops : ∀ it k h, laid.At it k h →
      (decide (b.restartOffset ≤ it.nextEntryOffset) = true ↔ k + 1 = l.length) := by
    intro it k h at_
    have last := laid.offset_lt_iff (show k + 1 ≤ (c.stored l).length from h) le_rfl
    rw [laid.ends, c.stored_length] at last
    rw [c.stored_length] at h
    rw [decide_eq_true_iff, at_.nextEntryOffset]
    omega
  obtain ⟨it', k, loops, placed, above, ins, pre, has⟩ := parseUntil_spec ready stops (laid.parseFuel_enough _)
  rw [c.stored_length] at ins has
  refine ⟨it', by simp [BlockIter.seekToLast, isStart, loops], ?_⟩
  rw [settleBefore]
  obtain ents | ⟨noEntries, -⟩ := laid.inside (b.numRestarts - 1) (by omega)
  · rw [c.stored_length] at ents
    have isLast : k = l.length - 1 := by
      obtain lt | isEnd := Nat.lt_or_eq_of_le ins
      · have := has lt
        omega
      · exact absurd (show l.length - 1 + 1 = l.length by omega) (pre (l.length - 1) (by omega) (by omega))
    rw [if_neg (by omega), ← isLast]
    exact placed.related ins
  · have empty : l.length = 0 := by rw [← c.stored_length l, noEntries, List.length_nil]
    have isEnd : k = 0 := by omega
    subst isEnd
    rw [if_pos empty]
    have rel' := placed.related ins
    rwa [Cursor.settle_of_le (by omega)] at rel'

theorem Related.next {i : Fin l.length} (rel : laid.Related it (some i)) :
    ∃ it', it.next b = some it' ∧ laid.Related it' (settle l (i + 1)) := by
  have at_ : laid.At it i _ := rel
  obtain ⟨it', parses, placed⟩ := parseNextKey_spec at_.ready
  exact ⟨it', by simp [BlockIter.next, rel.valid, parses], placed.related i.2⟩

theorem Related.prev {i : Fin l.length} (rel : laid.Related it (some i)) :
    ∃ it', it.prev b = some it' ∧ laid.Related it' (settleBefore l i) := by
  have at_ : laid.At it i _ := rel
  have inStored : i.val < (c.stored l).length := by simp
  obtain ⟨found, searches, noneBefore, someBefore⟩ := @BlockIter.restartBefore_spec b it.current _ at_.restartIndex
  rw [settleBefore]
  cases found with
  | none =>
    have zero : i.val = 0 := by
      by_contra positive
      have := laid.offset_lt (Nat.pos_of_ne_zero positive) inStored.le
      have isZero := noneBefore rfl _ (laid.points 0 laid.hasRestart)
      rw [at_.current, laid.first] at isZero
      omega
    rw [if_pos zero]
    exact ⟨it.markInvalid b, by simp [BlockIter.prev, rel.valid, searches], Off.markInvalid at_.status⟩
  | some j =>
    obtain ⟨inArray, pre⟩ := someBefore j rfl
    have isBefore := pre _ (laid.points j inArray)
    obtain ⟨start, isStart, ready⟩ := @seekToRestartPoint_spec b _ laid it j inArray at_.status
    rw [at_.current, laid.offset_lt_iff ready.inside inStored.le] at isBefore
    have stops : ∀ found k h, laid.At found k h →
        (decide (it.current ≤ found.nextEntryOffset) = true ↔ i.val ≤ k + 1) := by
      intro found k h atK
      have order := laid.offset_lt_iff (show k + 1 ≤ (c.stored l).length from h) inStored.le
      rw [decide_eq_true_iff, atK.nextEntryOffset, at_.current]
      omega
    obtain ⟨it', k, loops, placed, above, ins, pre, has⟩ := parseUntil_spec ready stops (laid.parseFuel_enough _)
    have isPrev : k = i - 1 := by
      by_contra other
      obtain lt | gt := Nat.lt_or_gt_of_ne other
      · have := has (by omega)
        omega
      · exact pre (i - 1) (by omega) gt (by omega)
    rw [if_neg (by omega), ← isPrev]
    rw [c.stored_length] at ins
    exact ⟨it', by simp [BlockIter.prev, rel.valid, searches, isStart, loops], placed.related ins⟩

theorem Related.seek (asc : Ascending l) (rel : laid.Related it p) (target : K) :
    ∃ it', it.seek b c.compare (c.encode target) = some it' ∧
      laid.Related it' (settle l (l.findIdx fun e => target ≤ e.1)) := by
  have some_ := laid.hasRestart
  obtain ⟨left, it₁, searches, inArray, status, isBefore⟩ :=
    @searchRestarts_spec b _ laid it c.compare (c.encode target)
    b.numRestarts 0 (b.numRestarts - 1) (Nat.zero_le _) (by omega) (by omega) (.inl rfl)
  obtain ⟨start, isStart, ready⟩ := @seekToRestartPoint_spec b _ laid it₁ left inArray (status.trans rel.status)
  have isLess : ∀ k (h : k < (c.stored l).length) (h' : k < l.length),
      c.compare (c.stored l)[k].1 (c.encode target) = .lt ↔ l[k].1 < target := by
    intro k h h'
    rw [c.stored_getElem l h' h]
    exact c.compare_lt _ _
  have stops : ∀ found k h, laid.At found k h →
      (decide (c.compare found.key (c.encode target) ≠ .lt) = true ↔ ∃ h : k < l.length, target ≤ l[k].1) := by
    intro found k h at_
    have h' : k < l.length := by rwa [c.stored_length] at h
    rw [decide_eq_true_iff, at_.key, ne_eq, isLess k h h', not_lt]
    exact ⟨fun reaches => ⟨h', reaches⟩, fun ⟨_, reaches⟩ => reaches⟩
  obtain ⟨it', k, loops, placed, above, ins, pre, has⟩ := parseUntil_spec ready stops (laid.parseFuel_enough _)
  rw [c.stored_length] at ins has
  have allBefore : ∀ m < k, ∀ h : m < l.length, l[m].1 < target := by
    intro m less h
    by_cases scanned : laid.restart left ≤ m
    · exact not_le.mp fun reaches => pre m scanned less ⟨h, reaches⟩
    obtain rfl | ⟨inArray, isLess'⟩ := isBefore
    · rw [laid.first] at scanned
      omega
    · have inArray' : laid.restart left < l.length := by rwa [c.stored_length] at inArray
      exact ((asc.key_lt_iff h inArray').mpr (by omega)).trans ((isLess _ inArray inArray').mp isLess')
  have isFound : (l.findIdx fun e => target ≤ e.1) = k := by
    obtain less | isEnd := Nat.lt_or_eq_of_le ins
    · rw [List.findIdx_eq less]
      obtain ⟨_, reaches⟩ := has less
      exact ⟨decide_eq_true reaches, fun m pre' => decide_eq_false (not_le.mpr (allBefore m pre' (by omega)))⟩
    rw [isEnd, List.findIdx_eq_length]
    intro e mem
    obtain ⟨m, h, rfl⟩ := List.mem_iff_getElem.mp mem
    exact decide_eq_false (not_le.mpr (allBefore m (by omega) h))
  rw [isFound]
  exact ⟨it', by simp only [BlockIter.seek, searches, isStart, loops, Option.bind_eq_bind, Option.bind_some],
    placed.related ins⟩

def RelatedOver (laid : LaidOut b (c.stored l)) (s : BlockIterator) (p : Position l) : Prop :=
  ∃ it, s = .over b it ∧ laid.Related it p

theorem RelatedOver.move (asc : Ascending l) (s : BlockIterator) (p : Position l) (m : Move K)
    (rel : laid.RelatedOver s p) (ok : m.Allowed p.isSome) :
    ∃ s', (keyedIterator c).move m s = some s' ∧ laid.RelatedOver s' (m.apply l p) := by
  obtain ⟨it, rfl, rel⟩ := rel
  obtain ⟨it', moved, rel'⟩ : ∃ it', it.move b c.compare (m.map c.encode) = some it' ∧
      laid.Related it' (m.apply l p) := by
    cases m with
    | seekToFirst => exact rel.seekToFirst
    | seekToLast => rw [Move.apply_seekToLast]; exact rel.seekToLast
    | seek target => exact rel.seek asc target
    | next =>
      obtain ⟨i, rfl⟩ := Option.isSome_iff_exists.mp ok
      exact rel.next
    | prev =>
      obtain ⟨i, rfl⟩ := Option.isSome_iff_exists.mp ok
      exact rel.prev
  exact ⟨.over b it', by simp only [keyedIterator, Iterator.rekey, blockIterator, moved, Option.map_some],
    it', rfl, rel'⟩

theorem RelatedOver.new (laid : LaidOut b (c.stored l)) : laid.RelatedOver (.over b (.new b)) none :=
  ⟨_, rfl, by simp [BlockIter.valid, BlockIter.new], rfl⟩

end LaidOut

end Elsm
