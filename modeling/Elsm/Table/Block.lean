import Elsm.Lib.Cursor
import Elsm.Table.Format

/-!
# Blocks and their iterators (`table/block.cpp`)

A block is entries, an array of offsets of entries (the restart points) and the length of the array.  Nothing in it
is trusted.  The iterator parses an entry where the one before ends, or at a restart point.  Places in the block are
offsets from `data_`; what the iterator copies or compares of a key is noted in `deltas`.
-/

namespace Elsm

open Cursor (Move Iterator)

/-! ## Block -/

/-- A `Block`.  `outside` are the bytes that are not in its contents, and a size of 0 marks an error. -/
structure Block where
  contents : Bytes
  outside : Nat → UInt8
  size : Nat
  restartOffset : Nat
  inside : restartOffset ≤ contents.length
  fits : restartOffset < 2 ^ 32

namespace Block

/-- `Block::Block`.  `restart_offset_` is a `uint32_t`, and so is the sum that it is computed from. -/
def new (contents : Bytes) (outside : Nat → UInt8) : Block :=
  if contents.length < 4 then ⟨contents, outside, 0, 0, Nat.zero_le _, by decide⟩
  else
    let maxRestartsAllowed := (contents.length - 4) / 4
    let numRestarts := decodeFixed32 (contents.drop (contents.length - 4))
    if maxRestartsAllowed < numRestarts then ⟨contents, outside, 0, 0, Nat.zero_le _, by decide⟩
    else ⟨contents, outside, contents.length, (contents.length - (1 + numRestarts) % 2 ^ 32 * 4) % 2 ^ 32,
      (Nat.mod_le ..).trans (Nat.sub_le ..), Nat.mod_lt _ (by decide)⟩

variable (b : Block)

def numRestarts : Nat := decodeFixed32 (b.contents.drop (b.size - 4))

def bytes (start length : Nat) : Bytes := bytesAt b.contents b.outside start length

/-- The entries: what is before the restart array. -/
def area : Bytes := b.contents.take b.restartOffset

@[simp] theorem area_length : b.area.length = b.restartOffset := List.length_take_of_le b.inside

/-- `GetRestartPoint`; `none` where the assertion fails. -/
def getRestartPoint (index : Nat) : Option Nat :=
  if index < b.numRestarts then some (decodeFixed32 (b.bytes (b.restartOffset + index * 4) 4)) else none

end Block

/-! ## Entries -/

/-- The lengths at the start of an entry (`shared`, `non_shared`, `value_length`) and what follows them. -/
def readLengths (input : Bytes) : Option (Nat × Nat × Nat × Bytes) :=
  match input with
  | shared :: nonShared :: valueLength :: rest =>
    -- the fast path: all three in one byte each
    if shared ||| nonShared ||| valueLength < 128 then
      some (shared.toNat, nonShared.toNat, valueLength.toNat, rest)
    else do
      let (shared, input) ← getVarint32 input
      let (nonShared, input) ← getVarint32 input
      let (valueLength, input) ← getVarint32 input
      return (shared, nonShared, valueLength, input)
  | _ => none

/-- `DecodeEntry` on the bytes between `p` and `limit`.  The sum of the lengths has 32 bits. -/
def decodeEntry (input : Bytes) : Option (Nat × Nat × Nat × Bytes) :=
  match readLengths input with
  | none => none
  | some (shared, nonShared, valueLength, rest) =>
    if rest.length % 2 ^ 32 < (nonShared + valueLength) % 2 ^ 32 then none
    else some (shared, nonShared, valueLength, rest)

variable {shared nonShared valueLength : Nat}

theorem readLengths_shorter {input rest : Bytes}
    (reads : readLengths input = some (shared, nonShared, valueLength, rest)) : rest.length + 3 ≤ input.length := by
  unfold readLengths at reads
  split at reads
  case h_2 => cases reads
  case h_1 first snd third rest' =>
    split at reads
    case isTrue =>
      cases reads
      simp
    case isFalse =>
      obtain ⟨⟨_, input₁⟩, read₁, reads⟩ := Option.bind_eq_some_iff.mp reads
      obtain ⟨⟨_, input₂⟩, read₂, reads⟩ := Option.bind_eq_some_iff.mp reads
      obtain ⟨⟨_, input₃⟩, read₃, reads⟩ := Option.bind_eq_some_iff.mp reads
      cases reads
      have shorter₁ := getVarint32_shorter read₁
      have shorter₂ := getVarint32_shorter read₂
      have shorter₃ := getVarint32_shorter read₃
      omega

theorem decodeEntry_eq_some {input rest : Bytes} :
    decodeEntry input = some (shared, nonShared, valueLength, rest) ↔
      readLengths input = some (shared, nonShared, valueLength, rest) ∧
        (nonShared + valueLength) % 2 ^ 32 ≤ rest.length % 2 ^ 32 := by
  rw [decodeEntry]
  cases readLengths input with
  | none => simp
  | some lengths =>
    obtain ⟨shared', nonShared', valueLength', rest'⟩ := lengths
    simp only [Option.some.injEq, Prod.mk.injEq]
    split
    case isTrue short =>
      refine iff_of_false nofun ?_
      rintro ⟨⟨-, rfl, rfl, rfl⟩, le⟩
      omega
    case isFalse le =>
      simp only [Option.some.injEq, Prod.mk.injEq, iff_self_and]
      rintro ⟨-, rfl, rfl, rfl⟩
      omega

/-! ## The iterator -/

structure BlockIter where
  current : Nat
  restartIndex : Nat
  key : Bytes
  /-- Where the value starts, and its length.  After `clear()` it is empty and not looked at. -/
  value : Nat × Nat
  status : Option Status
  /-- The places of which something was copied into a key or compared with one, as a start and a length. -/
  deltas : List (Nat × Nat)

namespace BlockIter

variable (b : Block)

def new : BlockIter := ⟨b.restartOffset, b.numRestarts, [], (0, 0), none, []⟩

def valid (it : BlockIter) : Bool := it.current < b.restartOffset

def nextEntryOffset (it : BlockIter) : Nat := (it.value.1 + it.value.2) % 2 ^ 32

def seekToRestartPoint (index : Nat) (it : BlockIter) : Option BlockIter :=
  (b.getRestartPoint index).map fun offset => { it with key := [], restartIndex := index, value := (offset, 0) }

def corruptionError (it : BlockIter) : BlockIter :=
  { it with
    current := b.restartOffset
    restartIndex := b.numRestarts
    status := some (.corruption "bad entry in block")
    key := []
    value := (0, 0) }

def markInvalid (it : BlockIter) : BlockIter := { it with current := b.restartOffset, restartIndex := b.numRestarts }

/-- The loop at the end of `ParseNextKey`.  Here and in the other loops `none` also stands for not ending. -/
def advanceRestart (current : Nat) : Nat → Nat → Option Nat
  | 0, _ => none
  | fuel + 1, restartIndex =>
    if restartIndex + 1 < b.numRestarts then do
      let point ← b.getRestartPoint (restartIndex + 1)
      if point < current then advanceRestart current fuel (restartIndex + 1) else return restartIndex
    else some restartIndex

def parseNextKey (it : BlockIter) : Option (Bool × BlockIter) :=
  let current := it.nextEntryOffset
  if b.restartOffset ≤ current then some (false, it.markInvalid b)
  else
    match decodeEntry (b.area.drop current) with
    | none => some (false, it.corruptionError b)
    | some (shared, nonShared, valueLength, rest) =>
      if it.key.length < shared then some (false, it.corruptionError b)
      else do
        let p := b.restartOffset - rest.length
        let restartIndex ← advanceRestart b current (b.numRestarts + 1) it.restartIndex
        return (true,
          { it with
            current, restartIndex
            key := it.key.take shared ++ b.bytes p nonShared
            value := (p + nonShared, valueLength)
            deltas := (p, nonShared) :: it.deltas })

/-- The loops around `ParseNextKey`. -/
def parseUntil (stop : BlockIter → Bool) : Nat → BlockIter → Option BlockIter
  | 0, _ => none
  | fuel + 1, it => do
    let (found, it) ← it.parseNextKey b
    if !found || stop it then return it else parseUntil stop fuel it

/-- An entry takes at least a byte, which bounds the turns of these loops. -/
def parseFuel : Nat := b.restartOffset + 1

def next (it : BlockIter) : Option BlockIter :=
  if it.valid b then (it.parseNextKey b).map (·.2) else none

/-- The first loop of `Prev`: the last restart point before the offset, from an index on downwards. -/
def restartBefore (original : Nat) : Nat → Option (Option Nat)
  | 0 => do
    let point ← b.getRestartPoint 0
    return if original ≤ point then none else some 0
  | index + 1 => do
    let point ← b.getRestartPoint (index + 1)
    if original ≤ point then restartBefore original index else return some (index + 1)

def prev (it : BlockIter) : Option BlockIter :=
  if it.valid b then do
    match ← restartBefore b it.current it.restartIndex with
    | none => return it.markInvalid b
    | some index =>
      let start ← it.seekToRestartPoint b index
      parseUntil b (fun found => it.current ≤ found.nextEntryOffset) (parseFuel b) start
  else none

variable (compare : Bytes → Bytes → Ordering)

/-- The binary search of `Seek`: the restart point, if no bad entry was met.  The arithmetic has 32 bits. -/
def searchRestarts (target : Bytes) : Nat → Nat → Nat → BlockIter → Option (Option Nat × BlockIter)
  | 0, _, _, _ => none
  | fuel + 1, left, right, it =>
    if left < right then do
      let mid := (left + right + 1) % 2 ^ 32 / 2
      let regionOffset ← b.getRestartPoint mid
      match decodeEntry (b.area.drop regionOffset) with
      | none => return (none, it)
      | some (shared, nonShared, _, rest) =>
        if shared ≠ 0 then return (none, it)
        else
          let p := b.restartOffset - rest.length
          let it := { it with deltas := (p, nonShared) :: it.deltas }
          if compare (b.bytes p nonShared) target = .lt then searchRestarts target fuel mid right it
          else searchRestarts target fuel left ((mid + (2 ^ 32 - 1)) % 2 ^ 32) it
    else some (some left, it)

def seek (target : Bytes) (it : BlockIter) : Option BlockIter := do
  match ← searchRestarts b compare target b.numRestarts 0 (b.numRestarts - 1) it with
  | (none, it) => return it.corruptionError b
  | (some left, it) =>
    let start ← it.seekToRestartPoint b left
    parseUntil b (fun found => compare found.key target ≠ .lt) (parseFuel b) start

def seekToFirst (it : BlockIter) : Option BlockIter := do
  let start ← it.seekToRestartPoint b 0
  let (_, it) ← start.parseNextKey b
  return it

def seekToLast (it : BlockIter) : Option BlockIter := do
  let start ← it.seekToRestartPoint b (b.numRestarts - 1)
  parseUntil b (fun found => b.restartOffset ≤ found.nextEntryOffset) (parseFuel b) start

def move : Move Bytes → BlockIter → Option BlockIter
  | .seekToFirst => seekToFirst b
  | .seekToLast => seekToLast b
  | .seek target => seek b compare target
  | .next => next b
  | .prev => prev b

end BlockIter

inductive BlockIterator where
  | error (status : Status)
  | empty
  | over (b : Block) (it : BlockIter)

def BlockIterator.status : BlockIterator → Option Status
  | .error status => some status
  | .empty => none
  | .over _ it => it.status

def Block.newIterator (b : Block) : BlockIterator :=
  if b.size < 4 then .error (.corruption "bad block contents")
  else if b.numRestarts = 0 then .empty
  else .over b (.new b)

def blockIterator (compare : Bytes → Bytes → Ordering) : Iterator BlockIterator Bytes Bytes where
  current
    | .over b it => if it.valid b then some (it.key, b.bytes it.value.1 it.value.2) else none
    | .error _ | .empty => none
  move
    | m, .over b it => (it.move b compare m).map (.over b)
    -- an `EmptyIterator` goes nowhere
    | m, s => if m.Allowed false then some s else none

end Elsm
