import Elsm.Db.Capacity

/-!
# What an arena hands out (`util/arena.cpp`, `util/arena.h`)

`Arena` with its blocks and the ranges its calls returned.  Small requests share a bump pointer, large ones get a block
of their own, and both kinds of request leave the same two fields behind.  Sizes are a `size_t` each.  All blocks are
regions of one address space of 64 bits, so the bytes in use and those of a new block stay below 2^64.
-/

namespace Elsm.Blocks

open List
open Elsm.Arena (kBlockSize)

/-! ## The code -/

structure Ptr where
  block : Nat
  offset : Nat
  deriving DecidableEq

/-- `NULL` is `none`. -/
def address (base : Nat → Nat) : Option Ptr → Nat
  | none => 0
  | some p => base p.block + p.offset

/-- Of a block only the size is kept; it begins at the address `base` gives for its number. -/
structure Arena where
  allocPtr : Option Ptr := none
  allocBytesRemaining : Nat := 0
  blocks : List Nat := []
  memoryUsage : Nat := 0

def Ptr.advance (bytes : Nat) (p : Ptr) : Ptr := { p with offset := p.offset + bytes }

namespace Arena

def allocateNewBlock (arena : Arena) (blockBytes : Nat) : Ptr × Arena :=
  (⟨arena.blocks.length, 0⟩,
    { arena with
      blocks := arena.blocks ++ [blockBytes]
      memoryUsage := (arena.memoryUsage + blockBytes + 8) % 2 ^ 64 })

def take (arena : Arena) (bytes : Nat) : Arena :=
  { arena with
    allocPtr := arena.allocPtr.map (.advance bytes)
    allocBytesRemaining := arena.allocBytesRemaining - bytes }

def allocateFallback (arena : Arena) (bytes : Nat) : Option Ptr × Arena :=
  if kBlockSize / 4 < bytes then
    let (result, arena) := arena.allocateNewBlock bytes
    (some result, arena)
  else
    -- the rest of the current block is wasted
    let (block, arena) := arena.allocateNewBlock kBlockSize
    (some block, { arena with allocPtr := some block, allocBytesRemaining := kBlockSize }.take bytes)

def allocate (arena : Arena) (bytes : Nat) : Option Ptr × Arena :=
  if bytes ≤ arena.allocBytesRemaining then (arena.allocPtr, arena.take bytes) else arena.allocateFallback bytes

def allocateAligned (base : Nat → Nat) (arena : Arena) (bytes : Nat) : Option Ptr × Arena :=
  let currentMod := address base arena.allocPtr % 8
  let slop := if currentMod = 0 then 0 else 8 - currentMod
  let needed := (bytes + slop) % 2 ^ 64
  if needed ≤ arena.allocBytesRemaining then (arena.allocPtr.map (.advance slop), arena.take needed)
  else arena.allocateFallback bytes

end Arena

/-! ## Runs -/

structure Range where
  start : Option Ptr
  bytes : Nat
  aligned : Bool
  deriving DecidableEq

structure State where
  arena : Arena := {}
  ranges : List Range := []

structure Call where
  bytes : Nat
  aligned : Bool

def State.call (base : Nat → Nat) (s : State) (c : Call) : State :=
  let (result, arena) := if c.aligned then s.arena.allocateAligned base c.bytes else s.arena.allocate c.bytes
  ⟨arena, s.ranges ++ [⟨result, c.bytes, c.aligned⟩]⟩

def Range.Apart (r r' : Range) : Prop :=
  ∀ p ∈ r.start, ∀ p' ∈ r'.start, p.block = p'.block →
    p.offset + r.bytes ≤ p'.offset ∨ p'.offset + r'.bytes ≤ p.offset

def Range.Inside (blocks : List Nat) (r : Range) : Prop :=
  ∃ p ∈ r.start, ∃ size ∈ blocks[p.block]?, p.offset + r.bytes ≤ size

/-- `alloc_bytes_remaining_` reaches to the end of the block `alloc_ptr_` is in, and `MemoryUsage` counts every block
with its pointer. -/
structure Arena.Accounted (arena : Arena) : Prop where
  null : arena.allocPtr = none → arena.allocBytesRemaining = 0
  remaining : ∀ p ∈ arena.allocPtr, arena.blocks[p.block]? = some (p.offset + arena.allocBytesRemaining)
  usage : arena.memoryUsage = (arena.blocks.map (· + 8)).sum

structure Sound (base : Nat → Nat) (s : State) : Prop where
  inside : ∀ r ∈ s.ranges, r.Inside s.arena.blocks
  apart : s.ranges.Pairwise Range.Apart
  aligned : ∀ r ∈ s.ranges, r.aligned → 8 ∣ address base r.start
  accounted : s.arena.Accounted

/-! ## The part of a block that is in use -/

/-- Where the used part of a block ends: at the bump pointer, or with the block when the pointer is in another one. -/
def Arena.filled (arena : Arena) (block : Nat) : Nat :=
  match arena.allocPtr with
  | none => arena.blocks[block]?.getD 0
  | some p => if p.block = block then p.offset else arena.blocks[block]?.getD 0

/-- A call that returns `p` takes bytes that were not in use. -/
structure Serves (before after : Arena) (p : Ptr) (bytes : Nat) : Prop where
  start : before.filled p.block ≤ p.offset
  stop : p.offset + bytes ≤ after.filled p.block
  grows : ∀ block, before.filled block ≤ after.filled block
  accounted : after.Accounted

section Step

variable {base : Nat → Nat} {s : State} {arena after : Arena} {p : Ptr} {bytes : Nat}

section

variable (accounted : arena.Accounted)

include accounted

theorem Arena.Accounted.filled_le (block : Nat) : arena.filled block ≤ arena.blocks[block]?.getD 0 := by
  have remaining := accounted.remaining
  grind [Arena.filled]

theorem Arena.Accounted.take {slop : Nat} (positive : 0 < bytes) (fits : slop + bytes ≤ arena.allocBytesRemaining) :
    ∃ p, arena.allocPtr = some p ∧ Serves arena (arena.take (slop + bytes)) (p.advance slop) bytes := by
  obtain ⟨null, remaining, usage⟩ := accounted
  cases current : arena.allocPtr with
  | none =>
    have := null current
    omega
  | some q =>
    have isBlock := remaining q current
    refine ⟨q, rfl, ?_, ?_, fun block => ?_, ?_, ?_, usage⟩ <;> grind [Arena.filled, Arena.take, Ptr.advance]

theorem Arena.Accounted.newBlock {size : Nat} (fits : bytes ≤ size)
    (blocks : after.blocks = arena.blocks ++ [size]) (usage : after.memoryUsage = arena.memoryUsage + size + 8)
    (pointer : after.allocPtr = arena.allocPtr ∧ after.allocBytesRemaining = arena.allocBytesRemaining ∧ bytes = size ∨
      after.allocPtr = some ⟨arena.blocks.length, bytes⟩ ∧ after.allocBytesRemaining = size - bytes) :
    Serves arena after ⟨arena.blocks.length, 0⟩ bytes := by
  have fresh : arena.filled arena.blocks.length = 0 := by
    simpa using accounted.filled_le arena.blocks.length
  have sum : after.memoryUsage = (after.blocks.map (· + 8)).sum := by
    simp [usage, blocks, accounted.usage, Nat.add_assoc]
  have last : after.blocks[arena.blocks.length]? = some size := by simp [blocks]
  have others (b : Nat) (other : b ≠ arena.blocks.length) : after.blocks[b]? = arena.blocks[b]? := by
    rw [blocks]
    grind
  have within := accounted.filled_le
  obtain ⟨null, remaining, -⟩ := accounted
  clear blocks usage
  refine ⟨fresh.le, ?_, fun block => ?_, ?_, ?_, sum⟩ <;> clear sum
  · grind [Arena.filled]
  · have := within block
    grind [Arena.filled]
  · grind
  · grind

theorem Arena.Accounted.allocateFallback (bounded : arena.memoryUsage + bytes + 4104 < 2 ^ 64) :
    (arena.allocateFallback bytes).1 = some ⟨arena.blocks.length, 0⟩ ∧
      Serves arena (arena.allocateFallback bytes).2 ⟨arena.blocks.length, 0⟩ bytes := by
  rw [Arena.allocateFallback]
  by_cases large : kBlockSize / 4 < bytes
  · rw [if_pos large]
    exact ⟨rfl, accounted.newBlock (Nat.le_refl _) rfl (Nat.mod_eq_of_lt (by omega)) (.inl ⟨rfl, rfl, rfl⟩)⟩
  · rw [if_neg large]
    simp only [kBlockSize, Nat.not_lt] at large
    have room : arena.memoryUsage + kBlockSize + 8 < 2 ^ 64 := by
      rw [kBlockSize]
      omega
    refine ⟨rfl, accounted.newBlock (large.trans (by decide)) rfl (Nat.mod_eq_of_lt room) (.inr ⟨?_, rfl⟩)⟩
    show some (Ptr.mk _ (0 + bytes)) = _
    rw [Nat.zero_add]

end

/-! ## Runs of calls -/

structure Inv (base : Nat → Nat) (s : State) : Prop where
  below : ∀ r ∈ s.ranges, 0 < r.bytes ∧ ∃ p ∈ r.start, p.offset + r.bytes ≤ s.arena.filled p.block
  apart : s.ranges.Pairwise Range.Apart
  aligned : ∀ r ∈ s.ranges, r.aligned → 8 ∣ address base r.start
  accounted : s.arena.Accounted

theorem Inv.sound (inv : Inv base s) : Sound base s := by
  refine ⟨fun r mem => ?_, inv.apart, inv.aligned, inv.accounted⟩
  obtain ⟨positive, p, start, stop⟩ := inv.below r mem
  have within := inv.accounted.filled_le p.block
  cases isBlock : s.arena.blocks[p.block]? with
  | none =>
    rw [isBlock, Option.getD_none] at within
    omega
  | some size =>
    rw [isBlock, Option.getD_some] at within
    exact ⟨p, start, size, isBlock, stop.trans within⟩

theorem Inv.serve (inv : Inv base s) {aligned : Bool} (positive : 0 < bytes) (serves : Serves s.arena after p bytes)
    (isAligned : aligned → 8 ∣ address base (some p)) :
    Inv base ⟨after, s.ranges ++ [⟨some p, bytes, aligned⟩]⟩ where
  below := by
    refine SortedList.forall_mem_concat (fun r old => ?_) ⟨positive, p, rfl, serves.stop⟩
    obtain ⟨nonempty, q, start, stop⟩ := inv.below r old
    exact ⟨nonempty, q, start, stop.trans (serves.grows q.block)⟩
  apart := by
    refine SortedList.pairwise_concat inv.apart fun r old q start p' start' same => .inl ?_
    cases start'
    obtain ⟨-, q', isStart, stop⟩ := inv.below r old
    cases Option.some.inj (start.symm.trans isStart)
    exact stop.trans (same ▸ serves.start)
  aligned := SortedList.forall_mem_concat inv.aligned isAligned
  accounted := serves.accounted

theorem Inv.call (inv : Inv base s) (blocks : ∀ n, 8 ∣ base n) {c : Call} (positive : 0 < c.bytes)
    (bounded : s.arena.memoryUsage + c.bytes + 4104 < 2 ^ 64) : Inv base (s.call base c) := by
  obtain ⟨size, aligned⟩ := c
  simp only at positive bounded
  have fallback : Inv base ⟨(s.arena.allocateFallback size).2,
      s.ranges ++ [⟨(s.arena.allocateFallback size).1, size, aligned⟩]⟩ := by
    obtain ⟨result, serves⟩ := inv.accounted.allocateFallback bounded
    rw [result]
    exact inv.serve positive serves fun _ => blocks _
  rw [State.call]
  cases aligned with
  | false =>
    simp only [Bool.false_eq_true, if_false, Arena.allocate]
    split
    case isTrue fits =>
      rw [← Nat.zero_add size] at fits
      obtain ⟨p, isPtr, serves⟩ := inv.accounted.take positive fits
      rw [Nat.zero_add] at serves
      rw [isPtr]
      exact inv.serve positive serves nofun
    case isFalse => exact fallback
  | true =>
    simp only [if_true, Arena.allocateAligned]
    generalize isSlop : (if address base s.arena.allocPtr % 8 = 0 then 0 else 8 - address base s.arena.allocPtr % 8) =
      slop
    have rounded : slop < 8 ∧ 8 ∣ address base s.arena.allocPtr + slop := by
      split at isSlop <;> omega
    rw [Nat.mod_eq_of_lt (by omega), Nat.add_comm size]
    split
    case isTrue fits =>
      obtain ⟨p, isPtr, serves⟩ := inv.accounted.take positive fits
      rw [isPtr] at rounded ⊢
      refine inv.serve positive serves fun _ => ?_
      show 8 ∣ base p.block + (p.offset + slop)
      rw [← Nat.add_assoc]
      exact rounded.2
    case isFalse => exact fallback

end Step

/-- In a run of calls whose blocks all fit into the address space, every range lies in one block and apart from the
others. -/
theorem ranges_apart {base : Nat → Nat} (blocks : ∀ n, 8 ∣ base n) {s : State}
    (run : Transition.Reaches (fun s c s' => s' = s.call base c)
      (fun s c => 0 < c.bytes ∧ s.arena.memoryUsage + c.bytes + 4104 < 2 ^ 64) {} s) : Sound base s := by
  have initial : Inv base {} := ⟨nofun, .nil, nofun, fun _ => rfl, nofun, rfl⟩
  have inv := run.invariant (Inv base) initial fun inv admitted taken => by
    rw [taken]
    exact inv.call blocks admitted.1 admitted.2
  exact inv.sound

theorem ranges_apart_two : let base := fun n => 4096 * (n + 1)
    Sound base ((({} : State).call base ⟨1, false⟩).call base ⟨16, true⟩) := by
  apply ranges_apart
  · intro n
    omega
  · exact .tail (.tail .refl (by decide) rfl) (by decide) rfl

end Elsm.Blocks
