import Elsm.Table.Block

/-!
# Parsing blocks that are not trusted (`table/block.cpp`)

Every operation of a block iterator ends, whatever the bytes of the block are.  It looks only at the entries as long
as no entry that can be reached from a restart point has two lengths whose sum needs more than 32 bits; `DecodeEntry`
cuts that sum off before it compares it with what is left of the block.  Where the restart points are entries, as in
every block of a `BlockBuilder`, an entry with such a sum is shown by some operations.
-/

namespace Elsm

open Cursor (Move Iterator)

/-! ## DecodeEntry -/

/-- The bytes that `DecodeEntry` announces are there just when their number was not cut off. -/
theorem decodeEntry_fits_iff {input rest : Bytes} {shared nonShared valueLength : Nat} (short : input.length < 2 ^ 32)
    (decodes : decodeEntry input = some (shared, nonShared, valueLength, rest)) :
    nonShared + valueLength ≤ rest.length ↔ nonShared + valueLength < 2 ^ 32 := by
  obtain ⟨reads, le⟩ := decodeEntry_eq_some.mp decodes
  have shorter := readLengths_shorter reads
  omega

/-- The offsets of the entries from some of the restart points on, with the length of the key before. -/
inductive Block.EntryAt (b : Block) (starts : Nat → Prop) : Nat → Nat → Prop
  | restart {index offset : Nat} (start : starts index) (isPoint : b.getRestartPoint index = some offset) :
    EntryAt b starts offset 0
  | next {offset keyLength shared nonShared valueLength : Nat} {rest : Bytes}
    (entry : EntryAt b starts offset keyLength)
      (decodes : decodeEntry (b.area.drop offset) = some (shared, nonShared, valueLength, rest))
      (hasKey : shared ≤ keyLength) :
    EntryAt b starts ((b.restartOffset - rest.length + nonShared + valueLength) % 2 ^ 32) (shared + nonShared)

/-- No entry that is parsed has two lengths with a sum of more than 32 bits. -/
def Block.LengthsFit (b : Block) : Prop :=
  ∀ {offset keyLength shared nonShared valueLength rest}, b.EntryAt (fun _ => True) offset keyLength →
    decodeEntry (b.area.drop offset) = some (shared, nonShared, valueLength, rest) → shared ≤ keyLength →
    nonShared + valueLength < 2 ^ 32

def Block.RestartsAreEntries (b : Block) : Prop :=
  ∀ {index offset}, b.getRestartPoint index = some offset → ∃ keyLength, b.EntryAt (· = 0) offset keyLength

variable {b : Block}

theorem Block.getRestartPoint_of_lt (b : Block) {index : Nat} (inArray : index < b.numRestarts) :
    ∃ offset, b.getRestartPoint index = some offset ∧ offset < 2 ^ 32 := by
  refine ⟨_, if_pos inArray, (littleEndian_lt _).trans_le (Nat.pow_le_pow_right (by decide) (List.length_take_le ..))⟩

theorem Block.EntryAt.from_first (entries : b.RestartsAreEntries) {offset keyLength : Nat}
    (entry : b.EntryAt (fun _ => True) offset keyLength) : ∃ k, keyLength ≤ k ∧ b.EntryAt (· = 0) offset k := by
  induction entry with
  | restart _ isPoint =>
    obtain ⟨k, entry⟩ := entries isPoint
    exact ⟨k, Nat.zero_le k, entry⟩
  | next _ decodes hasKey ih =>
    obtain ⟨k, le, entry⟩ := ih
    exact ⟨_, le_rfl, entry.next decodes (hasKey.trans le)⟩

namespace BlockIter

variable {it : BlockIter}

/-! ## One entry -/

/-- The next entry is one that is reached from a restart point. -/
def Placed (b : Block) (it : BlockIter) : Prop := b.EntryAt (fun _ => True) it.nextEntryOffset it.key.length

/-- Where an entry that was parsed is: it starts at the offset, and its key and value follow. -/
structure Parsed (b : Block) (offset : Nat) (it : BlockIter) : Prop where
  current : it.current = offset
  before : offset < b.restartOffset
  restartIndex : it.restartIndex < b.numRestarts
  later : offset < it.nextEntryOffset
  next : it.nextEntryOffset ≤ b.restartOffset
  placed : it.Placed b
  value : b.LengthsFit → it.value.1 + it.value.2 ≤ b.restartOffset

/-- The copied and compared bytes are bytes of entries. -/
def DeltasInside (b : Block) (it : BlockIter) : Prop := ∀ range ∈ it.deltas, range.1 + range.2 ≤ b.restartOffset

theorem decodeEntry_inside {o shared nonShared valueLength : Nat} {rest : Bytes}
    (decodes : decodeEntry (b.area.drop o) = some (shared, nonShared, valueLength, rest)) :
    o + 3 ≤ b.restartOffset - rest.length ∧ rest.length ≤ b.restartOffset ∧
      b.restartOffset - rest.length + (nonShared + valueLength) % 2 ^ 32 ≤ b.restartOffset ∧
      (nonShared + valueLength < 2 ^ 32 ↔
        b.restartOffset - rest.length + nonShared + valueLength ≤ b.restartOffset) := by
  obtain ⟨reads, le⟩ := decodeEntry_eq_some.mp decodes
  have shorter := readLengths_shorter reads
  have small := b.fits
  rw [List.length_drop, b.area_length] at shorter
  exact ⟨by omega, by omega, by omega, by omega⟩

theorem advanceRestart_spec {cur fuel index : Nat} (inArray : index < b.numRestarts)
    (le : b.numRestarts < index + fuel) :
    ∃ index', advanceRestart b cur fuel index = some index' ∧ index' < b.numRestarts := by
  induction fuel generalizing index with
  | zero => omega
  | succ fuel ih =>
    rw [advanceRestart]
    split
    case isFalse => exact ⟨index, rfl, inArray⟩
    case isTrue more =>
      simp only [Block.getRestartPoint, if_pos more, Option.bind_eq_bind, Option.bind_some]
      split
      case isTrue => exact ih more (by omega)
      case isFalse => exact ⟨index, rfl, inArray⟩

structure Inv (b : Block) (it : BlockIter) : Prop where
  parsed : it.valid b = true → it.Parsed b it.current
  deltas : b.LengthsFit → it.DeltasInside b

theorem Inv.of_invalid (invalid : it.valid b = false) (deltas : b.LengthsFit → it.DeltasInside b) : it.Inv b :=
  ⟨fun isValid => (Bool.false_ne_true (invalid.symm.trans isValid)).elim, deltas⟩

theorem inv_of_parsed {offset : Nat} (parsed : it.Parsed b offset) (deltas : b.LengthsFit → it.DeltasInside b) :
    (true = true → it.Parsed b offset) ∧ it.Inv b :=
  ⟨fun _ => parsed, fun _ => parsed.current ▸ parsed, deltas⟩

/-- The entry after the current one is parsed if its lengths are accepted. -/
theorem parseNextKey_entry (inArray : it.restartIndex < b.numRestarts) {shared nonShared valueLength : Nat}
    {rest : Bytes}
    (decodes : decodeEntry (b.area.drop it.nextEntryOffset) = some (shared, nonShared, valueLength, rest))
    (hasKey : shared ≤ it.key.length) : ∃ it', it.parseNextKey b = some (true, it') ∧ it'.restartIndex < b.numRestarts ∧
      it'.current = it.nextEntryOffset ∧ it'.key.length = shared + nonShared ∧
      it'.value = (b.restartOffset - rest.length + nonShared, valueLength) ∧
      it'.deltas = (b.restartOffset - rest.length, nonShared) :: it.deltas := by
  obtain ⟨index, isIndex, inArray'⟩ := @advanceRestart_spec b it.nextEntryOffset (b.numRestarts + 1)
    _ inArray (by omega)
  obtain ⟨header, room, -, -⟩ := decodeEntry_inside decodes
  have parses : it.parseNextKey b = some (true, { it with
      current := it.nextEntryOffset
      restartIndex := index
      key := it.key.take shared ++ b.bytes (b.restartOffset - rest.length) nonShared
      value := (b.restartOffset - rest.length + nonShared, valueLength)
      deltas := (b.restartOffset - rest.length, nonShared) :: it.deltas }) := by
    rw [parseNextKey, if_neg (by omega)]
    simp only [decodes, if_neg (Nat.not_lt.mpr hasKey), isIndex, Option.bind_eq_bind, Option.bind_some]
    rfl
  exact ⟨_, parses, inArray', rfl, by simp [Block.bytes, bytesAt, hasKey], rfl, rfl⟩

theorem parseNextKey_spec (inArray : it.restartIndex < b.numRestarts) (placed : it.Placed b)
    (deltas : b.LengthsFit → it.DeltasInside b) :
    ∃ found it', it.parseNextKey b = some (found, it') ∧ (found = true → it'.Parsed b it.nextEntryOffset) ∧
      it'.Inv b := by
  by_cases atEnd : b.restartOffset ≤ it.nextEntryOffset
  · exact ⟨_, _, if_pos atEnd, nofun, .of_invalid (by simp [valid, markInvalid]) deltas⟩
  cases decodes : decodeEntry (b.area.drop it.nextEntryOffset) with
  | none =>
    refine ⟨false, it.corruptionError b, ?_, nofun, .of_invalid (by simp [valid, corruptionError]) deltas⟩
    rw [parseNextKey, if_neg atEnd]
    simp only [decodes]
  | some lengths =>
    obtain ⟨shared, nonShared, valueLength, rest⟩ := lengths
    by_cases hasKey : shared ≤ it.key.length
    · obtain ⟨it', parses, inArray', isCurrent, isLength, isValue, isDeltas⟩ :=
        parseNextKey_entry inArray decodes hasKey
      obtain ⟨header, room, cut, whole⟩ := decodeEntry_inside decodes
      have isNext : it'.nextEntryOffset = (b.restartOffset - rest.length + nonShared + valueLength) % 2 ^ 32 := by
        rw [nextEntryOffset, isValue]
      have small := b.fits
      refine ⟨true, it', parses, inv_of_parsed ⟨isCurrent, by omega, inArray', by omega, by omega, ?_, fun fit => ?_⟩
        fun fit range mem => ?_⟩
      · rw [Placed, isNext, isLength]
        exact Block.EntryAt.next placed decodes hasKey
      · rw [isValue]
        exact whole.mp (fit placed decodes hasKey)
      · rw [isDeltas] at mem
        obtain rfl | older := List.mem_cons.mp mem
        · have := whole.mp (fit placed decodes hasKey)
          simp only
          omega
        · exact deltas fit range older
    · refine ⟨false, it.corruptionError b, ?_, nofun, .of_invalid (by simp [valid, corruptionError]) deltas⟩
      rw [parseNextKey, if_neg atEnd]
      simp only [decodes, if_pos (Nat.lt_of_not_le hasKey)]

/-! ## The loops -/

theorem parseUntil_spec {stop : BlockIter → Bool} {fuel : Nat} (inArray : it.restartIndex < b.numRestarts)
    (placed : it.Placed b) (deltas : b.LengthsFit → it.DeltasInside b)
    (le : b.restartOffset - it.nextEntryOffset < fuel) :
    ∃ it', parseUntil b stop fuel it = some it' ∧ it'.Inv b := by
  induction fuel generalizing it with
  | zero => omega
  | succ fuel ih =>
    obtain ⟨found, it₁, parses, isParsed, inv₁⟩ := parseNextKey_spec inArray placed deltas
    simp only [parseUntil, parses, Option.bind_eq_bind, Option.bind_some]
    cases found with
    | false => exact ⟨it₁, rfl, inv₁⟩
    | true =>
      have parsed := isParsed rfl
      split
      case isTrue => exact ⟨it₁, rfl, inv₁⟩
      case isFalse =>
        apply ih parsed.restartIndex parsed.placed inv₁.deltas
        have later := parsed.later
        have pre := parsed.before
        omega

theorem restartBefore_spec {original index : Nat} (inArray : index < b.numRestarts) :
    ∃ found, restartBefore b original index = some found ∧
      (found = none → ∀ point ∈ b.getRestartPoint 0, original ≤ point) ∧
      ∀ i ∈ found, i < b.numRestarts ∧ ∀ point ∈ b.getRestartPoint i, point < original := by
  induction index with
  | zero =>
    obtain ⟨point, isPoint, -⟩ := b.getRestartPoint_of_lt inArray
    simp only [restartBefore, isPoint, Option.bind_eq_bind, Option.bind_some]
    by_cases le : original ≤ point
    · exact ⟨none, by rw [if_pos le]; rfl, by simp [le], by simp⟩
    · exact ⟨some 0, by rw [if_neg le]; rfl, by simp, by simp [inArray, isPoint, Nat.lt_of_not_le le]⟩
  | succ index ih =>
    obtain ⟨point, isPoint, -⟩ := b.getRestartPoint_of_lt inArray
    simp only [restartBefore, isPoint, Option.bind_eq_bind, Option.bind_some]
    split
    case isTrue => exact ih (Nat.lt_of_succ_lt inArray)
    case isFalse gt => exact ⟨_, rfl, by simp, by simp [inArray, isPoint, Nat.lt_of_not_le gt]⟩

theorem parseUntil_restart {stop : BlockIter → Bool} {index : Nat} (inArray : index < b.numRestarts)
    (deltas : b.LengthsFit → it.DeltasInside b) :
    ∃ start it', it.seekToRestartPoint b index = some start ∧ start.restartIndex < b.numRestarts ∧ start.Placed b ∧
      (b.LengthsFit → start.DeltasInside b) ∧ parseUntil b stop (parseFuel b) start = some it' ∧
      it'.Inv b := by
  obtain ⟨offset, isPoint, fits⟩ := b.getRestartPoint_of_lt inArray
  have isStart : it.seekToRestartPoint b index =
      some { it with key := [], restartIndex := index, value := (offset, 0) } := by
    rw [seekToRestartPoint, isPoint]
    rfl
  have placed : { it with key := [], restartIndex := index, value := (offset, 0) }.Placed b := by
    rw [Placed, nextEntryOffset, Nat.add_zero, Nat.mod_eq_of_lt fits]
    exact .restart trivial isPoint
  obtain ⟨it', isEnd, inv⟩ := @parseUntil_spec b _ stop (parseFuel b) inArray placed deltas (by rw [parseFuel]; omega)
  exact ⟨_, it', isStart, inArray, placed, deltas, isEnd, inv⟩

theorem searchRestarts_spec {compare : Bytes → Bytes → Ordering} {target : Bytes} {fuel left right : Nat}
    (few : b.numRestarts ≤ 2 ^ 31) (ord : left ≤ right) (inArray : right < b.numRestarts)
    (deltas : b.LengthsFit → it.DeltasInside b) (le : right - left < fuel) :
    ∃ found it', searchRestarts b compare target fuel left right it = some (found, it') ∧
      (∀ i ∈ found, i < b.numRestarts) ∧ (b.LengthsFit → it'.DeltasInside b) := by
  induction fuel generalizing left right it with
  | zero => omega
  | succ fuel ih =>
    rw [searchRestarts]
    split
    case isFalse =>
      refine ⟨_, it, rfl, fun i isFound => ?_, deltas⟩
      cases isFound
      omega
    case isTrue open_ =>
      obtain ⟨mid, isMid, above, upTo⟩ : ∃ mid, (left + right + 1) % 2 ^ 32 / 2 = mid ∧ left < mid ∧ mid ≤ right :=
        ⟨_, rfl, by omega, by omega⟩
      have lt : (mid + (2 ^ 32 - 1)) % 2 ^ 32 = mid - 1 := by omega
      obtain ⟨offset, isPoint, -⟩ := b.getRestartPoint_of_lt (show mid < b.numRestarts by omega)
      simp only [isMid, lt, isPoint, Option.bind_eq_bind, Option.bind_some]
      split
      case h_1 => exact ⟨none, it, rfl, nofun, deltas⟩
      case h_2 shared nonShared valueLength rest decodes =>
        split
        case isTrue => exact ⟨none, it, rfl, nofun, deltas⟩
        case isFalse isWhole =>
          obtain ⟨-, -, -, whole⟩ := decodeEntry_inside decodes
          have deltas' : b.LengthsFit → { it with
              deltas := (b.restartOffset - rest.length, nonShared) :: it.deltas }.DeltasInside b := by
            intro fit range mem
            obtain rfl | older := List.mem_cons.mp mem
            · have := whole.mp (fit (.restart trivial isPoint) decodes (Nat.le_of_eq (not_not.mp isWhole)))
              simp only
              omega
            · exact deltas fit range older
          split
          case isTrue => exact ih upTo inArray deltas' (by omega)
          case isFalse => exact ih (by omega) (by omega) deltas' (by omega)

/-! ## The operations -/

theorem Inv.new : (BlockIter.new b).Inv b := .of_invalid (by simp [valid, BlockIter.new]) fun _ => nofun

theorem Inv.move (inv : it.Inv b) (some_ : b.numRestarts ≠ 0) (few : b.numRestarts ≤ 2 ^ 31)
    (compare : Bytes → Bytes → Ordering) {m : Move Bytes} (ok : m.Allowed (it.valid b)) :
    ∃ it', it.move b compare m = some it' ∧ it'.Inv b := by
  cases m with
  | seekToFirst =>
    obtain ⟨start, -, isStart, inArray, placed, deltas, -⟩ := @parseUntil_restart b it (fun _ => true) 0 (by omega)
      inv.deltas
    obtain ⟨found, it₁, parses, -, inv₁⟩ := parseNextKey_spec inArray placed deltas
    exact ⟨it₁, by simp [BlockIter.move, seekToFirst, isStart, parses], inv₁⟩
  | seekToLast =>
    obtain ⟨start, it₁, isStart, -, -, -, isEnd, inv₁⟩ := @parseUntil_restart b it
      (fun found => b.restartOffset ≤ found.nextEntryOffset) (b.numRestarts - 1) (by omega) inv.deltas
    exact ⟨it₁, by simp [BlockIter.move, seekToLast, isStart, isEnd], inv₁⟩
  | seek target =>
    obtain ⟨found, it₁, searches, inArray, deltas₁⟩ := @searchRestarts_spec b it compare target b.numRestarts 0
      (b.numRestarts - 1) few (Nat.zero_le _) (by omega) inv.deltas (by omega)
    cases found with
    | none => exact ⟨it₁.corruptionError b, by simp [BlockIter.move, BlockIter.seek, searches],
        .of_invalid (by simp [valid, corruptionError]) deltas₁⟩
    | some left =>
      obtain ⟨start, it₂, isStart, -, -, -, isEnd, inv₂⟩ := @parseUntil_restart b it₁
        (fun found => compare found.key target ≠ .lt) left (inArray left rfl) deltas₁
      exact ⟨it₂, by simp only [BlockIter.move, BlockIter.seek, searches, isStart, isEnd, Option.bind_eq_bind,
        Option.bind_some], inv₂⟩
  | next =>
    have isValid : it.valid b = true := ok
    obtain ⟨found, it₁, parses, -, inv₁⟩ := parseNextKey_spec (inv.parsed isValid).restartIndex
      (inv.parsed isValid).placed inv.deltas
    exact ⟨it₁, by simp [BlockIter.move, BlockIter.next, isValid, parses], inv₁⟩
  | prev =>
    have isValid : it.valid b = true := ok
    obtain ⟨found, searches, -, ins⟩ := @restartBefore_spec b it.current _ (inv.parsed isValid).restartIndex
    cases found with
    | none => exact ⟨it.markInvalid b, by simp [BlockIter.move, BlockIter.prev, isValid, searches],
        .of_invalid (by simp [valid, markInvalid]) inv.deltas⟩
    | some index =>
      obtain ⟨start, it₁, isStart, -, -, -, isEnd, inv₁⟩ := @parseUntil_restart b it
        (fun found => it.current ≤ found.nextEntryOffset) index (ins index rfl).1 inv.deltas
      exact ⟨it₁, by simp [BlockIter.move, BlockIter.prev, isValid, searches, isStart, isEnd], inv₁⟩

end BlockIter

/-- What an iterator has copied, compared or shows is inside the entries of its block. -/
def BlockIterator.InBounds : BlockIterator → Prop
  | .over b it => it.DeltasInside b ∧ (it.valid b = true → it.value.1 + it.value.2 ≤ b.restartOffset)
  | .error _ | .empty => True

def BlockIterator.Inv (b : Block) : BlockIterator → Prop
  | .over b' it => b' = b ∧ b.numRestarts ≠ 0 ∧ it.Inv b
  | .error _ | .empty => True

theorem Block.newIterator_inv (b : Block) : b.newIterator.Inv b := by
  rw [Block.newIterator]
  split
  case isTrue => trivial
  case isFalse =>
    split
    case isTrue => trivial
    case isFalse some_ => exact ⟨rfl, some_, .new⟩

theorem blockIterator_move (few : b.numRestarts ≤ 2 ^ 31) (compare : Bytes → Bytes → Ordering)
    (s : BlockIterator) (m : Move Bytes) (inv : s.Inv b) (ok : m.Allowed ((blockIterator compare).current s).isSome) :
    ∃ s', (blockIterator compare).move m s = some s' ∧ s'.Inv b := by
  match s with
  | .error status => exact ⟨.error status, if_pos ok, trivial⟩
  | .empty => exact ⟨.empty, if_pos ok, trivial⟩
  | .over b' it =>
    obtain ⟨rfl, some_, inv⟩ := inv
    have isValid : m.Allowed (it.valid b') := by
      cases valid : it.valid b' <;> simpa [blockIterator, valid] using ok
    obtain ⟨it', moved, inv'⟩ := inv.move some_ few compare isValid
    exact ⟨.over b' it', by simp only [blockIterator, moved, Option.map_some], rfl, some_, inv'⟩

theorem BlockIterator.Inv.inBounds (fit : b.LengthsFit) {s : BlockIterator} (inv : s.Inv b) : s.InBounds := by
  match s with
  | .error _ | .empty => trivial
  | .over b' it =>
    obtain ⟨rfl, -, inv⟩ := inv
    exact ⟨inv.deltas fit, fun isValid => (inv.parsed isValid).value fit⟩

/-! ## Entries that are shown -/

theorem Block.newIterator_over {contents : Bytes} {outside : Nat → UInt8} (isBlock : Block.new contents outside = b)
    (restarts : 0 < b.numRestarts) (entries : 0 < b.restartOffset) : b.newIterator = .over b (.new b) := by
  have long : 4 ≤ b.size := by
    by_contra short
    rw [← isBlock] at entries short
    by_cases few : contents.length < 4
    · simp [Block.new, few] at entries
    by_cases many : (contents.length - 4) / 4 < decodeFixed32 (contents.drop (contents.length - 4))
    · simp [Block.new, few, many] at entries
    · simp only [Block.new, few, many, if_false] at short
      omega
  rw [Block.newIterator, if_neg (Nat.not_lt.mpr long), if_neg restarts.ne']

/-- An entry from the first restart point on is shown by some operations. -/
theorem Block.EntryAt.shown {contents : Bytes} {outside : Nat → UInt8} (isBlock : Block.new contents outside = b)
    (compare : Bytes → Bytes → Ordering) {offset keyLength shared nonShared valueLength : Nat} {rest : Bytes}
    (entry : b.EntryAt (· = 0) offset keyLength)
    (decodes : decodeEntry (b.area.drop offset) = some (shared, nonShared, valueLength, rest))
    (hasKey : shared ≤ keyLength) :
    ∃ moves it, (blockIterator compare).Permitted b.newIterator moves ∧
      (blockIterator compare).moveAll moves b.newIterator = some (.over b it) ∧ it.restartIndex < b.numRestarts ∧
      it.current = offset ∧ it.key.length = shared + nonShared ∧
      it.value = (b.restartOffset - rest.length + nonShared, valueLength) := by
  induction entry generalizing shared nonShared valueLength rest with
  | @restart index offset start isPoint =>
    subst start
    have restarts : 0 < b.numRestarts := by
      by_contra none
      rw [Block.getRestartPoint, if_neg none] at isPoint
      cases isPoint
    obtain ⟨_, isPoint', fits⟩ := b.getRestartPoint_of_lt restarts
    cases isPoint.symm.trans isPoint'
    obtain ⟨header, -, -, -⟩ := BlockIter.decodeEntry_inside decodes
    obtain ⟨it₀, isStart, at_, noKey, isFirst⟩ : ∃ it₀, (BlockIter.new b).seekToRestartPoint b 0 = some it₀ ∧
        it₀.nextEntryOffset = offset ∧ it₀.key = [] ∧ it₀.restartIndex = 0 := by
      rw [BlockIter.seekToRestartPoint, isPoint]
      exact ⟨_, rfl, Nat.mod_eq_of_lt fits, rfl, rfl⟩
    rw [← at_] at decodes
    obtain ⟨it', parses, inArray, isCurrent, isLength, isValue, -⟩ :=
      BlockIter.parseNextKey_entry (by rwa [isFirst]) decodes
      (hasKey.trans (Nat.zero_le _))
    have moved : (blockIterator compare).move .seekToFirst (.over b (.new b)) = some (.over b it') := by
      simp [blockIterator, BlockIter.move, BlockIter.seekToFirst, isStart, parses]
    rw [Block.newIterator_over isBlock restarts (by omega)]
    refine ⟨[.seekToFirst], it', ⟨trivial, fun _ _ => trivial⟩, ?_, inArray, isCurrent.trans at_, isLength, isValue⟩
    simp [Cursor.Iterator.moveAll, moved]
  | @next offset₀ keyLength₀ shared₀ nonShared₀ valueLength₀ rest₀ entry₀ decodes₀ hasKey₀ ih =>
    obtain ⟨moves, it, permitted, moved, inArray, isCurrent, isLength, isValue⟩ := ih decodes₀ hasKey₀
    obtain ⟨header, -, -, -⟩ := BlockIter.decodeEntry_inside decodes₀
    have at_ : it.nextEntryOffset = (b.restartOffset - rest₀.length + nonShared₀ + valueLength₀) % 2 ^ 32 := by
      rw [BlockIter.nextEntryOffset, isValue]
    have isValid : it.valid b = true := by
      simp only [BlockIter.valid, decide_eq_true_eq]
      omega
    rw [← isLength] at hasKey
    rw [← at_] at decodes ⊢
    obtain ⟨it', parses, inArray', isCurrent', isLength', isValue', -⟩ :=
      BlockIter.parseNextKey_entry inArray decodes hasKey
    have steps : (blockIterator compare).move .next (.over b it) = some (.over b it') := by
      simp [blockIterator, BlockIter.move, BlockIter.next, isValid, parses]
    have shows : (Move.next : Move Bytes).Allowed ((blockIterator compare).current (.over b it)).isSome := by
      simp [blockIterator, isValid, Cursor.Move.Allowed]
    obtain ⟨permitted', moved'⟩ := Cursor.Iterator.moveAll_concat permitted moved shows steps
    exact ⟨_, it', permitted', moved', inArray', isCurrent', isLength', isValue'⟩

/-- The bytes an entry announces are there just when the sum of its lengths was not cut off.  Every sequence of
operations on a block ends, and where no sum is cut off it stays inside the entries.  Where the restart points are
entries, this is so only then. -/
theorem blockIterator_inBounds (contents : Bytes) (outside : Nat → UInt8) :
    (∀ input shared nonShared valueLength rest, input.length < 2 ^ 32 →
      decodeEntry input = some (shared, nonShared, valueLength, rest) →
      (nonShared + valueLength ≤ rest.length ↔ nonShared + valueLength < 2 ^ 32)) ∧
    (∀ compare moves, (Block.new contents outside).numRestarts ≤ 2 ^ 31 →
      (blockIterator compare).Permitted (Block.new contents outside).newIterator moves →
      ∃ s, (blockIterator compare).moveAll moves (Block.new contents outside).newIterator = some s ∧
        ((Block.new contents outside).LengthsFit → s.InBounds)) ∧
    ∀ compare, (Block.new contents outside).RestartsAreEntries →
      (∀ moves s, (blockIterator compare).Permitted (Block.new contents outside).newIterator moves →
        (blockIterator compare).moveAll moves (Block.new contents outside).newIterator = some s → s.InBounds) →
      (Block.new contents outside).LengthsFit := by
  refine ⟨fun _ _ _ _ _ => decodeEntry_fits_iff, fun compare moves few permitted => ?_,
    fun compare entries inBounds => ?_⟩
  · obtain ⟨s, moved, inv⟩ := Iterator.moveAll_invariant (blockIterator_move few compare)
      (Block.newIterator_inv (Block.new contents outside)) permitted
    exact ⟨s, moved, fun fit => inv.inBounds fit⟩
  · intro offset keyLength shared nonShared valueLength rest entry decodes hasKey
    obtain ⟨k, le, first⟩ := entry.from_first entries
    obtain ⟨moves, it, permitted, moved, -, isCurrent, -, isValue⟩ := first.shown rfl compare decodes (hasKey.trans le)
    obtain ⟨header, -, -, whole⟩ := BlockIter.decodeEntry_inside decodes
    have shown := (inBounds moves _ permitted moved).2 (by simp only [BlockIter.valid, decide_eq_true_eq]; omega)
    rw [isValue] at shown
    exact whole.mpr shown

/-- An entry whose value looks like an entry with a length of 2^32 - 1. -/
def nestedBlock : Bytes := [0, 1, 7, 107, 0, 1, 255, 255, 255, 255, 15] ++ [0, 0, 0, 0] ++ [1, 0, 0, 0]

theorem nestedBlock_entries {starts : Nat → Prop} {offset keyLength : Nat}
    (entry : (Block.new nestedBlock fun _ => 0).EntryAt starts offset keyLength) :
    offset = 0 ∧ keyLength = 0 ∨ offset = 11 := by
  induction entry with
  | @restart index offset start isPoint =>
    rw [Block.getRestartPoint] at isPoint
    split at isPoint
    case isTrue inArray =>
      cases Nat.lt_one_iff.mp inArray
      exact .inl ⟨(Option.some.inj isPoint).symm, rfl⟩
    case isFalse => cases isPoint
  | next _ decodes _ ih =>
    obtain ⟨rfl, -⟩ | rfl := ih
    · cases decodes.symm.trans (show _ = some (0, 1, 7, [107, 0, 1, 255, 255, 255, 255, 15]) from rfl)
      exact .inr rfl
    · cases decodes.symm.trans (show _ = none from rfl)

theorem blockIterator_inBounds_nested : (1 + 7 ≤ [107, 0, 1, 255, 255, 255, 255, 15].length ↔ 1 + 7 < 2 ^ 32) ∧
    (∃ s, (blockIterator sliceCompare).moveAll [.seekToFirst, .seek [109], .seekToLast]
      (Block.new nestedBlock fun _ => 0).newIterator = some s ∧ s.InBounds) ∧
    (Block.new nestedBlock fun _ => 0).LengthsFit := by
  obtain ⟨whole, ends, only⟩ := blockIterator_inBounds nestedBlock fun _ => 0
  have fit : (Block.new nestedBlock fun _ => 0).LengthsFit := by
    intro offset keyLength shared nonShared valueLength rest entry decodes _
    obtain ⟨rfl, -⟩ | rfl := nestedBlock_entries entry
    · cases decodes.symm.trans (show _ = some (0, 1, 7, [107, 0, 1, 255, 255, 255, 255, 15]) from rfl)
      decide
    · cases decodes.symm.trans (show _ = none from rfl)
  have entries : (Block.new nestedBlock fun _ => 0).RestartsAreEntries := by
    intro index offset isPoint
    have first : (Block.new nestedBlock fun _ => 0).EntryAt (· = 0) 0 0 := .restart rfl rfl
    obtain ⟨rfl, -⟩ | rfl := nestedBlock_entries (@Block.EntryAt.restart _ (fun _ => True) _ _ trivial isPoint)
    · exact ⟨0, first⟩
    · exact ⟨1, @Block.EntryAt.next _ _ _ _ 0 1 7 [107, 0, 1, 255, 255, 255, 255, 15] first rfl le_rfl⟩
  refine ⟨whole [0, 1, 7, 107, 0, 1, 255, 255, 255, 255, 15] 0 1 7 _ (by decide) rfl, ?_, ?_⟩
  · obtain ⟨s, moved, inside⟩ := ends sliceCompare [.seekToFirst, .seek [109], .seekToLast] (by decide)
      ⟨trivial, fun _ _ => ⟨trivial, fun _ _ => ⟨trivial, fun _ _ => trivial⟩⟩⟩
    exact ⟨s, moved, inside fit⟩
  · refine only sliceCompare entries fun moves s permitted moved => ?_
    obtain ⟨s', moved', inside⟩ := ends sliceCompare moves (by decide) permitted
    cases moved.symm.trans moved'
    exact inside fit

instance BlockIterator.decidableInBounds (s : BlockIterator) : Decidable s.InBounds :=
  match s with
  | .over _ _ => inferInstanceAs (Decidable ((∀ range ∈ _, _) ∧ (_ → _)))
  | .error _ | .empty => inferInstanceAs (Decidable True)

/-- The key `k` and a value length of 2^32 - 1, whose sum is taken for 0. -/
def hugeValueBlock : Bytes := [0, 1, 255, 255, 255, 255, 15, 107] ++ [0, 0, 0, 0] ++ [1, 0, 0, 0]

/-- The value that is shown reaches far behind the block. -/
theorem blockIterator_shows_outside :
    ∃ s, (blockIterator sliceCompare).moveAll [.seekToFirst]
      (Block.new hugeValueBlock fun _ => 0).newIterator = some s ∧
      ¬s.InBounds := by
  have shows : ((blockIterator sliceCompare).moveAll [.seekToFirst]
      (Block.new hugeValueBlock fun _ => 0).newIterator).any (fun s => !decide s.InBounds) = true := by decide +kernel
  generalize (blockIterator sliceCompare).moveAll _ _ = moved at shows
  cases moved with
  | none => cases shows
  | some s => exact ⟨s, rfl, by simpa using shows⟩

end Elsm
