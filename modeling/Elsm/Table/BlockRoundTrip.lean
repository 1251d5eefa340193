import Elsm.Table.BlockCursor

/-!
# A block is read back (`table/block_builder.cpp`)

What `BlockBuilder` writes is well formed for the entries that were added (`BlockBuilder.laid`), so that the iterator
over it is a cursor over them.
-/

namespace Elsm

open List
open Cursor (Move Iterator Tracks Position entryAt Ascending Legal)

/-! ## Bytes -/

theorem getVarint32_single {byte : UInt8} (small : byte < 128) (rest : Bytes) :
    getVarint32 (byte :: rest) = some (byte.toNat, rest) := by
  have isSmall : byte.toNat < 128 := small
  have noMore := (varintByte byte.toNat isSmall).1
  have fits : byte.toNat % 2 ^ 32 = byte.toNat := Nat.mod_eq_of_lt (isSmall.trans (by decide))
  simp only [getVarint32, getVarintLoop, noMore, ne_eq, not_true_eq_false, if_false, Nat.shiftLeft_zero, fits,
    Nat.zero_or]

theorem readLengths_encode {shared nonShared valueLength : Nat} (sharedFits : shared < 2 ^ 32)
    (nonSharedFits : nonShared < 2 ^ 32) (valueFits : valueLength < 2 ^ 32) (rest : Bytes) :
    readLengths (encodeVarint32 shared ++ (encodeVarint32 nonShared ++ (encodeVarint32 valueLength ++ rest))) =
      some (shared, nonShared, valueLength, rest) := by
  have slow : (do
      let shared ← getVarint32 (encodeVarint32 shared ++ (encodeVarint32 nonShared ++
        (encodeVarint32 valueLength ++ rest)))
      let nonShared ← getVarint32 shared.2
      let valueLength ← getVarint32 nonShared.2
      return (shared.1, nonShared.1, valueLength)) = some (shared, nonShared, valueLength, rest) := by
    simp [getVarint32_encodeVarint32 sharedFits, getVarint32_encodeVarint32 nonSharedFits,
      getVarint32_encodeVarint32 valueFits]
  have long : 3 ≤ (encodeVarint32 shared ++ (encodeVarint32 nonShared ++
      (encodeVarint32 valueLength ++ rest))).length := by
    have := encodeVarint32_length_pos shared
    have := encodeVarint32_length_pos nonShared
    have := encodeVarint32_length_pos valueLength
    simp only [length_append]
    omega
  generalize encodeVarint32 shared ++ (encodeVarint32 nonShared ++ (encodeVarint32 valueLength ++ rest)) =
    input at slow long
  obtain _ | ⟨first, _ | ⟨snd, _ | ⟨third, tail⟩⟩⟩ := input
  · simp at long
  · simp at long
  · simp at long
  rw [readLengths]
  split
  case isFalse => exact slow
  case isTrue small =>
    have joined : first.toNat ||| snd.toNat ||| third.toNat < 128 := small
    have smallFirst : first < 128 := (Nat.left_le_or.trans Nat.left_le_or).trans_lt joined
    have smallSecond : snd < 128 := (Nat.right_le_or.trans Nat.left_le_or).trans_lt joined
    have smallThird : third < 128 := Nat.right_le_or.trans_lt joined
    rw [getVarint32_single smallFirst] at slow
    simp only [Option.bind_eq_bind, Option.bind_some, getVarint32_single smallSecond,
      getVarint32_single smallThird] at slow
    exact slow

theorem encodeFixed32_length (n : Nat) : (encodeFixed32 n).length = 4 := rfl

theorem flatMap_fixed32_drop (ns : List Nat) {j : Nat} (h : j < ns.length) :
    ∃ tail, (ns.flatMap encodeFixed32).drop (j * 4) = encodeFixed32 ns[j] ++ tail := by
  induction ns generalizing j with
  | nil => cases h
  | cons n rest ih =>
    cases j with
    | zero => exact ⟨rest.flatMap encodeFixed32, rfl⟩
    | succ j =>
      obtain ⟨tail, isTail⟩ := ih (Nat.lt_of_succ_lt_succ h)
      refine ⟨tail, ?_⟩
      rw [flatMap_cons, show (j + 1) * 4 = (encodeFixed32 n).length + j * 4 by rw [encodeFixed32_length]; omega,
        drop_append, drop_of_length_le (Nat.le_add_right ..), nil_append, Nat.add_sub_cancel_left, isTail]
      rfl

theorem flatMap_fixed32_length (ns : List Nat) : (ns.flatMap encodeFixed32).length = ns.length * 4 := by
  induction ns with
  | nil => rfl
  | cons n rest ih => rw [flatMap_cons, length_append, ih, encodeFixed32_length, length_cons]; omega

/-! ## The builder -/

namespace BlockBuilder

variable {interval : Nat}

def addAll (interval : Nat) (es : List (Bytes × Bytes)) : BlockBuilder :=
  es.foldl (fun block e => block.add interval e.1 e.2) .empty

/-- `shared` in `Add`. -/
def sharedWith (interval : Nat) (block : BlockBuilder) (key : Bytes) : Nat :=
  if block.counter < interval then commonLength block.lastKey key else 0

/-- What `Add` appends. -/
def encodeEntry (shared : Nat) (key value : Bytes) : Bytes :=
  encodeVarint32 shared ++ (encodeVarint32 (key.length - shared) ++ (encodeVarint32 value.length ++
    (key.drop shared ++ value)))

section

variable (block : BlockBuilder) (key val : Bytes)

theorem add_buffer : (block.add interval key val).buffer =
    block.buffer ++ encodeEntry (block.sharedWith interval key) key val := by
  by_cases few : block.counter < interval <;> simp [add, sharedWith, encodeEntry, few]

theorem add_lastKey : (block.add interval key val).lastKey = key := rfl

theorem add_restarts : (block.add interval key val).restarts =
    if block.counter < interval then block.restarts else block.restarts ++ [block.buffer.length] := by
  by_cases few : block.counter < interval <;> simp [add, few]

end

theorem addAll_take_succ (es : List (Bytes × Bytes)) {k : Nat} (h : k < es.length) :
    addAll interval (es.take (k + 1)) = (addAll interval (es.take k)).add interval es[k].1 es[k].2 := by
  rw [addAll, take_succ_eq_append_getElem h, foldl_append]
  rfl

theorem addAll_append (es more : List (Bytes × Bytes)) :
    ∃ tail, (addAll interval (es ++ more)).buffer = (addAll interval es).buffer ++ tail := by
  rw [addAll, foldl_append, ← addAll]
  generalize addAll interval es = block
  induction more generalizing block with
  | nil => exact ⟨[], (append_nil _).symm⟩
  | cons e rest ih =>
    obtain ⟨tail, isTail⟩ := ih (block.add interval e.1 e.2)
    refine ⟨encodeEntry (block.sharedWith interval e.1) e.1 e.2 ++ tail, ?_⟩
    rw [foldl_cons, isTail, add_buffer, append_assoc]

/-! ## The entries in the buffer -/

theorem commonLength_spec (a b : Bytes) :
    commonLength a b ≤ a.length ∧ commonLength a b ≤ b.length ∧
      a.take (commonLength a b) = b.take (commonLength a b) := by
  induction a, b using commonLength.induct with
  | case1 x a b ih => simpa [commonLength] using ih
  | case2 x a y b ne => simp [commonLength, ne]
  | case3 a b notBoth => simp [commonLength]

variable (interval) (es : List (Bytes × Bytes))

def offsetOf (k : Nat) : Nat := (addAll interval (es.take k)).buffer.length

/-- How much of its key the entry shares with the one before. -/
def sharedOf (k : Nat) : Nat := (es[k]?).elim 0 fun e => (addAll interval (es.take k)).sharedWith interval e.1

variable {interval es}

theorem sharedOf_eq {k : Nat} (h : k < es.length) :
    sharedOf interval es k = (addAll interval (es.take k)).sharedWith interval es[k].1 := by
  rw [sharedOf, getElem?_eq_getElem h]
  rfl

theorem buffer_drop {k : Nat} (h : k < es.length) : ∃ tail, (addAll interval es).buffer =
      (addAll interval (es.take k)).buffer ++ (encodeEntry (sharedOf interval es k) es[k].1 es[k].2 ++ tail) ∧
    offsetOf interval es (k + 1) =
      offsetOf interval es k + (encodeEntry (sharedOf interval es k) es[k].1 es[k].2).length := by
  obtain ⟨tail, isTail⟩ := @addAll_append interval (es.take (k + 1)) (es.drop (k + 1))
  have isNext : (addAll interval (es.take (k + 1))).buffer =
      (addAll interval (es.take k)).buffer ++ encodeEntry (sharedOf interval es k) es[k].1 es[k].2 := by
    rw [addAll_take_succ es h, add_buffer, sharedOf_eq h]
  refine ⟨tail, ?_, ?_⟩
  · rw [take_append_drop] at isTail
    rw [isTail, isNext, append_assoc]
  · rw [offsetOf, isNext, length_append]
    rfl

theorem lastKey_take {k : Nat} (h : k < es.length) : (addAll interval (es.take (k + 1))).lastKey = es[k].1 := by
  rw [addAll_take_succ es h, add_lastKey]

theorem sharedWith_spec (block : BlockBuilder) (key : Bytes) : block.sharedWith interval key ≤ block.lastKey.length ∧
    block.sharedWith interval key ≤ key.length ∧
    block.lastKey.take (block.sharedWith interval key) = key.take (block.sharedWith interval key) := by
  rw [sharedWith]
  split
  case isTrue => exact commonLength_spec _ _
  case isFalse => exact ⟨Nat.zero_le _, Nat.zero_le _, rfl⟩

/-- Every restart point is where an entry starts that shares nothing. -/
theorem restarts_spec (k : Nat) (ins : k ≤ es.length) : ∃ restart : Nat → Nat,
    (∀ j (h : j < (addAll interval (es.take k)).restarts.length),
      (addAll interval (es.take k)).restarts[j] = offsetOf interval es (restart j) ∧
      (restart j < k ∨ k = 0 ∧ j = 0) ∧ (restart j < k → sharedOf interval es (restart j) = 0)) ∧
    restart 0 = 0 ∧ 0 < (addAll interval (es.take k)).restarts.length := by
  induction k with
  | zero =>
    refine ⟨fun _ => 0, fun j h => ?_, rfl, Nat.one_pos⟩
    have isFirst : j = 0 := Nat.lt_one_iff.mp h
    subst isFirst
    exact ⟨rfl, .inr ⟨rfl, rfl⟩, fun lt => absurd lt (Nat.lt_irrefl _)⟩
  | succ k ih =>
    obtain ⟨restart, points, first, some_⟩ := ih (by omega)
    have h : k < es.length := ins
    have isRestarts := @add_restarts interval (addAll interval (es.take k)) es[k].1 es[k].2
    rw [← addAll_take_succ es h] at isRestarts
    have kept : ∀ j (h : j < (addAll interval (es.take k)).restarts.length),
        (addAll interval (es.take k)).restarts[j] = offsetOf interval es (restart j) ∧
        restart j < k + 1 ∧ sharedOf interval es (restart j) = 0 := by
      intro j inArray
      obtain ⟨isPoint, lt | ⟨rfl, rfl⟩, whole⟩ := points j inArray
      · exact ⟨isPoint, by omega, whole lt⟩
      refine ⟨isPoint, by omega, ?_⟩
      rw [first, sharedOf_eq h]
      have shares := @sharedWith_spec interval (addAll interval (es.take 0)) es[0].1
      exact Nat.le_zero.mp shares.1
    by_cases few : (addAll interval (es.take k)).counter < interval
    · rw [if_pos few] at isRestarts
      rw [isRestarts]
      refine ⟨restart, fun j inArray => ?_, first, some_⟩
      obtain ⟨isPoint, lt, whole⟩ := kept j inArray
      exact ⟨isPoint, .inl lt, fun _ => whole⟩
    · rw [if_neg few] at isRestarts
      rw [isRestarts]
      refine ⟨fun j => if j < (addAll interval (es.take k)).restarts.length then restart j else k, fun j inArray => ?_,
        by simp [some_, first], by simp⟩
      by_cases old : j < (addAll interval (es.take k)).restarts.length
      · obtain ⟨isPoint, lt, whole⟩ := kept j old
        rw [getElem_append_left old]
        simp only [if_pos old]
        exact ⟨isPoint, .inl lt, fun _ => whole⟩
      · have new : j = (addAll interval (es.take k)).restarts.length := by
          rw [length_append, length_singleton] at inArray
          omega
        simp only [if_neg old]
        refine ⟨?_, .inl (Nat.lt_succ_self k), fun _ => ?_⟩
        · simp [new, offsetOf]
        · rw [sharedOf_eq h, sharedWith, if_neg few]

/-! ## The finished block -/

theorem finish_length (block : BlockBuilder) :
    block.finish.length = block.buffer.length + (block.restarts.length * 4 + 4) := by
  rw [finish, length_append, length_append, flatMap_fixed32_length, encodeFixed32_length, Nat.add_assoc]

theorem new_finish (block : BlockBuilder) (out : Nat → UInt8) (short : block.finish.length < 2 ^ 32) :
    (Block.new block.finish out).contents = block.finish ∧
    (Block.new block.finish out).size = block.finish.length ∧
    (Block.new block.finish out).restartOffset = block.buffer.length ∧
    (Block.new block.finish out).numRestarts = block.restarts.length := by
  have len := block.finish_length
  have isCount : decodeFixed32 (block.finish.drop (block.finish.length - 4)) = block.restarts.length := by
    have front : block.finish.length - 4 = (block.buffer ++ block.restarts.flatMap encodeFixed32).length := by
      rw [len, length_append, flatMap_fixed32_length]
      omega
    have decoded := @decodeFixed32_encodeFixed32 block.restarts.length (by omega) []
    rw [append_nil] at decoded
    rw [front, finish, drop_left, decoded]
  have isNew : Block.new block.finish out = ⟨block.finish, out, block.finish.length,
      (block.finish.length - (1 + block.restarts.length) % 2 ^ 32 * 4) % 2 ^ 32,
      (Nat.mod_le ..).trans (Nat.sub_le ..), Nat.mod_lt _ (by decide)⟩ := by
    rw [Block.new, if_neg (by omega)]
    simp only [isCount]
    rw [if_neg (by omega)]
  rw [isNew]
  refine ⟨rfl, rfl, ?_, isCount⟩
  simp only
  omega

theorem bytes_between {b : Block} {front middle rest : Bytes} (isContents : b.contents = front ++ (middle ++ rest)) :
    b.bytes front.length middle.length = middle := by
  rw [Block.bytes, bytesAt_of_le (by rw [isContents]; simp), isContents, drop_left, take_left]

theorem getRestartPoint_finish {block : BlockBuilder} {out : Nat → UInt8} (short : block.finish.length < 2 ^ 32)
    (small : ∀ r ∈ block.restarts, r ≤ block.buffer.length) {j : Nat} (h : j < block.restarts.length) :
    (Block.new block.finish out).getRestartPoint j = some block.restarts[j] := by
  obtain ⟨isContents, -, isOffset, isCount⟩ := new_finish block out short
  obtain ⟨tail, isTail⟩ := flatMap_fixed32_drop block.restarts h
  have len := block.finish_length
  have split : (Block.new block.finish out).contents =
    (block.buffer ++ (block.restarts.flatMap encodeFixed32).take (j * 4)) ++
      (encodeFixed32 block.restarts[j] ++ (tail ++ encodeFixed32 block.restarts.length)) := by
    rw [isContents, finish]
    conv_lhs => rw [← take_append_drop (j * 4) (block.restarts.flatMap encodeFixed32), isTail]
    simp only [append_assoc]
  have front : (block.buffer ++ (block.restarts.flatMap encodeFixed32).take (j * 4)).length =
      block.buffer.length + j * 4 := by
    rw [length_append, length_take, flatMap_fixed32_length]
    omega
  have isBytes := bytes_between split
  have smallPoint := small _ (getElem_mem h)
  have decoded := @decodeFixed32_encodeFixed32 block.restarts[j] (by omega) []
  rw [front, encodeFixed32_length] at isBytes
  rw [append_nil] at decoded
  rw [Block.getRestartPoint, isCount, if_pos h, isOffset, isBytes, decoded]

theorem offsetOf_le (k : Nat) : offsetOf interval es k ≤ (addAll interval es).buffer.length := by
  obtain ⟨tail, isTail⟩ := @addAll_append interval (es.take k) (es.drop k)
  rw [take_append_drop] at isTail
  rw [isTail, length_append]
  exact Nat.le_add_right ..

theorem encodeEntry_length_pos (shared : Nat) (key val : Bytes) : 0 < (encodeEntry shared key val).length := by
  have := encodeVarint32_length_pos shared
  rw [encodeEntry, length_append]
  omega

theorem decodeEntry_encodeEntry {shared : Nat} {key val : Bytes} (isShared : shared ≤ key.length) (tail : Bytes)
    (short : (encodeEntry shared key val ++ tail).length < 2 ^ 32) (fits : key.length < 2 ^ 32) :
    decodeEntry (encodeEntry shared key val ++ tail) =
      some (shared, key.length - shared, val.length, key.drop shared ++ (val ++ tail)) := by
  simp only [encodeEntry, append_assoc, length_append, length_drop] at short ⊢
  rw [decodeEntry_eq_some]
  refine ⟨readLengths_encode (by omega) (by omega) (by omega) _, ?_⟩
  simp only [length_append, length_drop]
  omega

theorem lastKey_length_le (k : Nat) (ins : k ≤ es.length) :
    (addAll interval (es.take k)).lastKey.length ≤ (addAll interval (es.take k)).buffer.length := by
  induction k with
  | zero => exact Nat.le_refl _
  | succ k ih =>
    have h : k < es.length := ins
    have pre := ih h.le
    have shares := (@sharedWith_spec interval (addAll interval (es.take k)) es[k].1).1
    rw [addAll_take_succ es h, add_lastKey, add_buffer, length_append, encodeEntry]
    simp only [length_append, length_drop]
    omega

theorem decodes_entry {b : Block} (isContents : b.contents = (addAll interval es).finish)
    (isOffset : b.restartOffset = (addAll interval es).buffer.length) (k : Nat) (h : k < es.length) : ∃ rest,
    decodeEntry (b.area.drop (offsetOf interval es k)) =
      some (sharedOf interval es k, es[k].1.length - sharedOf interval es k, es[k].2.length, rest) ∧
    b.bytes (b.restartOffset - rest.length) (es[k].1.length - sharedOf interval es k) =
      es[k].1.drop (sharedOf interval es k) ∧
    b.bytes (b.restartOffset - rest.length + (es[k].1.length - sharedOf interval es k)) es[k].2.length = es[k].2 ∧
    b.restartOffset - rest.length + (es[k].1.length - sharedOf interval es k) + es[k].2.length =
      offsetOf interval es (k + 1) := by
  obtain ⟨tail, isBuffer, isNext⟩ := @buffer_drop interval es k h
  have isShared : sharedOf interval es k ≤ es[k].1.length := by
    rw [sharedOf_eq h]
    exact (sharedWith_spec _ _).2.1
  have keyFits : es[k].1.length ≤ b.restartOffset := by
    rw [isOffset, ← @lastKey_take interval es k h]
    exact (lastKey_length_le (k + 1) h).trans (offsetOf_le (k + 1))
  have isArea : b.area = (addAll interval es).buffer := by
    rw [Block.area, isContents, finish, isOffset, append_assoc, take_left]
  have small := b.fits
  have isStart : offsetOf interval es k = (addAll interval (es.take k)).buffer.length := rfl
  generalize sharedOf interval es k = shared at isBuffer isNext isShared ⊢
  generalize (addAll interval (es.take k)).buffer = before at isBuffer isStart
  generalize es[k].1 = key at isShared isBuffer isNext keyFits ⊢
  generalize es[k].2 = value at isBuffer isNext ⊢
  obtain ⟨header, isHeader⟩ : ∃ header, header = encodeVarint32 shared ++ (encodeVarint32 (key.length - shared) ++
      encodeVarint32 value.length) := ⟨_, rfl⟩
  have isEncoding : encodeEntry shared key value = header ++ (key.drop shared ++ value) := by
    simp only [encodeEntry, isHeader, append_assoc]
  have whole : b.contents = (before ++ header) ++ (key.drop shared ++ (value ++ (tail ++
      ((addAll interval es).restarts.flatMap encodeFixed32 ++
        encodeFixed32 (addAll interval es).restarts.length)))) := by
    rw [isContents, finish, isBuffer, isEncoding]
    simp only [append_assoc]
  have isPlace : b.restartOffset - (key.drop shared ++ (value ++ tail)).length = (before ++ header).length := by
    rw [isOffset, isBuffer, isEncoding]
    simp only [length_append]
    omega
  have deltaLength : key.length - shared = (key.drop shared).length := length_drop.symm
  refine ⟨key.drop shared ++ (value ++ tail), ?_, ?_, ?_, ?_⟩
  · rw [isArea, isBuffer, isStart, drop_left]
    apply decodeEntry_encodeEntry isShared
    · rw [isOffset, isBuffer, length_append] at small
      omega
    · omega
  · rw [isPlace, deltaLength]
    exact bytes_between whole
  · rw [isPlace, deltaLength, ← length_append]
    apply bytes_between
    rw [whole]
    simp only [append_assoc]
    rfl
  · rw [isPlace, isNext, isStart, isEncoding]
    simp only [length_append, length_drop]
    omega

section

variable (interval : Nat) (es : List (Bytes × Bytes)) (out : Nat → UInt8)
  (short : (addAll interval es).finish.length < 2 ^ 32)

include short

/-- What the builder writes is well formed. -/
theorem laid : Nonempty (LaidOut (Block.new (addAll interval es).finish out) es) := by
  obtain ⟨isContents, -, isOffset, isCount⟩ := new_finish (addAll interval es) out short
  obtain ⟨restart, points, first, some_⟩ := @restarts_spec interval es es.length le_rfl
  rw [take_length] at points some_
  have len := (addAll interval es).finish_length
  have small : ∀ r ∈ (addAll interval es).restarts, r ≤ (addAll interval es).buffer.length := by
    intro r mem
    obtain ⟨j, inArray, rfl⟩ := mem_iff_getElem.mp mem
    rw [(points j inArray).1]
    exact offsetOf_le _
  refine ⟨{
    offset := offsetOf interval es
    shared := sharedOf interval es
    start := rfl
    ascends := fun k h => ?_
    ends := by rw [offsetOf, take_length, isOffset]
    decodes := decodes_entry isContents isOffset
    shares := fun k h => ?_
    restart
    points := fun j inArray => ?_
    inside := fun j inArray => ?_
    whole := fun j inArray => ?_
    first
    hasRestart := by rwa [isCount]
    few := by omega }⟩
  · obtain ⟨-, -, isNext⟩ := @buffer_drop interval es k h
    rw [isNext]
    exact Nat.lt_add_of_pos_right (encodeEntry_length_pos ..)
  · have shares := @sharedWith_spec interval (addAll interval (es.take (k + 1))) es[k + 1].1
    rw [lastKey_take (Nat.lt_of_succ_lt h)] at shares
    rw [sharedOf_eq h]
    exact ⟨shares.1, shares.2.2⟩
  · rw [isCount] at inArray
    rw [getRestartPoint_finish short small inArray, (points j inArray).1]
  · rw [isCount] at inArray
    obtain ⟨-, lt | ⟨noEntries, isFirst⟩, -⟩ := points j inArray
    · exact .inl lt
    · exact .inr ⟨eq_nil_of_length_eq_zero noEntries, isFirst⟩
  · rw [isCount] at inArray
    exact (points j inArray).2.2

theorem newIterator_finish :
    (Block.new (addAll interval es).finish out).newIterator = .over (Block.new (addAll interval es).finish out)
        (.new (Block.new (addAll interval es).finish out)) := by
  obtain ⟨-, isSize, -, -⟩ := new_finish (addAll interval es) out short
  obtain ⟨laid⟩ := laid interval es out short
  have len := (addAll interval es).finish_length
  rw [Block.newIterator, isSize, if_neg (by omega), if_neg (Nat.ne_of_gt laid.hasRestart)]

end

/-- The assertions of `Add` on the counter and on the key. -/
def Asserted (compare : Bytes → Bytes → Ordering) (interval : Nat) (block : BlockBuilder) (key : Bytes) : Prop :=
  block.counter ≤ interval ∧ (block.buffer = [] ∨ compare key block.lastKey = .gt)

theorem counter_le (pos : 1 ≤ interval) (k : Nat) (ins : k ≤ es.length) :
    (addAll interval (es.take k)).counter ≤ interval := by
  induction k with
  | zero => exact Nat.zero_le _
  | succ k ih =>
    have h : k < es.length := ins
    rw [addAll_take_succ es h, add]
    by_cases few : (addAll interval (es.take k)).counter < interval
    · simp only [if_pos few]
      exact few
    · simpa only [if_neg few] using pos

end BlockBuilder

variable {K : Type} [LinearOrder K]

theorem asserted_of_ascending (c : KeyCoding K) {interval : Nat} (pos : 1 ≤ interval) {l : List (K × Bytes)}
    (asc : Ascending l) (k : Nat) (h : k < l.length) :
    (BlockBuilder.addAll interval ((c.stored l).take k)).Asserted c.compare interval (c.encode l[k].1) := by
  refine ⟨BlockBuilder.counter_le pos k (by rw [c.stored_length]; exact h.le), ?_⟩
  cases k with
  | zero => exact .inl rfl
  | succ k =>
    have pre : k < l.length := Nat.lt_of_succ_lt h
    rw [BlockBuilder.lastKey_take (by rwa [c.stored_length]), c.stored_getElem l pre, c.compare_gt]
    exact .inr ((asc.key_lt_iff pre h).mpr (Nat.lt_succ_self k))

section

variable {l : List (K × Bytes)} (c : KeyCoding K) (interval : Nat) (asc : Ascending l) (out : Nat → UInt8)

include asc

theorem tracks_finish (short : (BlockBuilder.addAll interval (c.stored l)).finish.length < 2 ^ 32) :
    Tracks (keyedIterator c) l (Block.new (BlockBuilder.addAll interval (c.stored l)).finish out).newIterator none := by
  obtain ⟨laid⟩ := BlockBuilder.laid interval (c.stored l) out short
  rw [BlockBuilder.newIterator_finish interval _ out short]
  apply Cursor.tracks_of_simulation laid.RelatedOver
  · rintro s p ⟨it, rfl, rel⟩
    exact rel.current
  · exact LaidOut.RelatedOver.move asc
  · exact .new laid

theorem seek_finish (short : (BlockBuilder.addAll interval (c.stored l)).finish.length < 2 ^ 32) (target : K) :
    ∃ s, (blockIterator c.compare).move (.seek (c.encode target))
        (Block.new (BlockBuilder.addAll interval (c.stored l)).finish out).newIterator = some s ∧
      s.status = none ∧ (blockIterator c.compare).current s =
        (l[l.findIdx fun e => target ≤ e.1]?).map fun e => (c.encode e.1, e.2) := by
  obtain ⟨laid⟩ := BlockBuilder.laid interval (c.stored l) out short
  obtain ⟨_, moved, it, rfl, rel⟩ := LaidOut.RelatedOver.move asc _ _ (.seek target) (.new laid) trivial
  rw [BlockBuilder.newIterator_finish interval _ out short]
  refine ⟨_, moved, rel.status, ?_⟩
  rw [rel.shows, Move.apply, Cursor.entryAt_settle]

end

/-- Whatever entries are added in ascending order, no assertion of the builder fails, and the iterator over the finished
block goes to the entries that a cursor would go to and meets no error. -/
theorem blockBuilder_roundTrip (c : KeyCoding K) {interval : Nat} (positive : 1 ≤ interval) {l : List (K × Bytes)}
    (ascending : Ascending l) (outside : Nat → UInt8)
    (short : (BlockBuilder.addAll interval (c.stored l)).finish.length < 2 ^ 32) :
    (∀ k (h : k < l.length),
      (BlockBuilder.addAll interval ((c.stored l).take k)).Asserted c.compare interval (c.encode l[k].1)) ∧
    ∀ moves, Legal l none moves → ∃ s, (keyedIterator c).moveAll moves
      (Block.new (BlockBuilder.addAll interval (c.stored l)).finish outside).newIterator = some s ∧
      (keyedIterator c).current s = entryAt (Move.applyAll l none moves) ∧ s.status = none := by
  refine ⟨asserted_of_ascending c positive ascending, fun moves legal => ?_⟩
  obtain ⟨laid⟩ := BlockBuilder.laid interval (c.stored l) outside short
  rw [BlockBuilder.newIterator_finish interval _ outside short]
  obtain ⟨s, moved, it, rfl, related⟩ := Cursor.moveAll_simulation laid.RelatedOver
    (LaidOut.RelatedOver.move ascending) (.new laid) legal
  exact ⟨_, moved, related.current, related.status⟩

/-- Byte strings in the order of `BytewiseComparator`. -/
def bytewise : KeyCoding Bytes where
  encode := id
  decode := id
  compare := sliceCompare
  decode_encode _ := rfl
  compare_lt := sliceCompare_eq_lt
  compare_gt := sliceCompare_eq_gt

def fourEntries : List (Bytes × Bytes) := [([97], [1]), ([97, 98], [2]), ([97, 99], [3]), ([98], [4])]

theorem blockBuilder_roundTrip_fourEntries :
    ∃ s, (keyedIterator bytewise).moveAll [.seek [97, 98, 99], .prev, .seekToLast, .prev]
      (Block.new (BlockBuilder.addAll 2 (bytewise.stored fourEntries)).finish fun _ => 0).newIterator = some s ∧
      (keyedIterator bytewise).current s = some ([97, 99], [3]) ∧ s.status = none := by
  obtain ⟨s, moved, shows, status⟩ := (@blockBuilder_roundTrip Bytes _ bytewise 2 (by decide) fourEntries (by decide)
    (fun _ => 0) (by decide +kernel)).2 [.seek [97, 98, 99], .prev, .seekToLast, .prev]
    ⟨trivial, rfl, trivial, rfl, trivial⟩
  exact ⟨s, moved, shows, status⟩

end Elsm
