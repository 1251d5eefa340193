import Elsm.Lib.SortedList
import Elsm.Log.Records

/-!
# Where the fragments of records lie

`fragmentsOf` follows the loop of `AddRecord` and says which physical records it writes and at which offsets in
the file (`addRecord_placed`).  A file that is cut holds the fragments before the cut (`Framed.take_inside`).
-/

namespace Elsm.Log

open List

abbrev PlacedFragment := Nat × Fragment

def fragmentEnd (p : PlacedFragment) : Nat := p.1 + kHeaderSize + p.2.2.length

/-- Where the next physical record goes in a file of a size: behind the trailer, if the block has no room for a
header. -/
def nextOffset (size : Nat) : Nat :=
  if kBlockSize - size % kBlockSize < kHeaderSize then (size / kBlockSize + 1) * kBlockSize else size

/-- The fragments that the loop of `AddRecord` writes to a file of a size. -/
def fragmentsFrom : Nat → Bool → Bytes → Nat → List PlacedFragment
  | 0, _, _, _ => []
  | rounds + 1, begin, left, size =>
    let offset := nextOffset size
    let avail := kBlockSize - offset % kBlockSize - kHeaderSize
    (offset, fragmentType begin (left.length ≤ avail), left.take avail) ::
      if left.drop avail = [] then [] else fragmentsFrom rounds false (left.drop avail) (offset + kHeaderSize + avail)

def fragmentsOf (record : Bytes) (size : Nat) : List PlacedFragment :=
  fragmentsFrom (record.length + 2) true record size

def sizeAfter (size : Nat) (placed : List PlacedFragment) : Nat := placed.foldl (fun _ p => fragmentEnd p) size

def layout : Nat → List Bytes → List (Bytes × List PlacedFragment)
  | _, [] => []
  | size, record :: records =>
    (record, fragmentsOf record size) :: layout (sizeAfter size (fragmentsOf record size)) records

def placedFragments (l : List (Bytes × List PlacedFragment)) : List PlacedFragment := l.flatMap (·.2)

/-! ## Fragments that follow each other -/

/-- Each fragment has its place behind the one before, within one block. -/
def Consecutive : Nat → List PlacedFragment → Prop
  | _, [] => True
  | size, p :: rest =>
    p.1 = nextOffset size ∧ p.1 % kBlockSize + kHeaderSize + p.2.2.length ≤ kBlockSize ∧
      Consecutive (fragmentEnd p) rest

variable {size : Nat} {left right : List PlacedFragment}

theorem Consecutive.append (first : Consecutive size left)
    (snd : Consecutive (sizeAfter size left) right) : Consecutive size (left ++ right) := by
  induction left generalizing size with
  | nil => exact snd
  | cons p rest ih =>
    obtain ⟨isNext, fits, others⟩ := first
    exact ⟨isNext, fits, ih others snd⟩

theorem Consecutive.later (consec : Consecutive size (left ++ right)) : Consecutive (sizeAfter size left) right := by
  induction left generalizing size with
  | nil => exact consec
  | cons p rest ih => exact ih consec.2.2

theorem le_nextOffset (size : Nat) : size ≤ nextOffset size := by
  rw [nextOffset]
  split
  case isTrue =>
    simp only [kBlockSize]
    omega
  case isFalse => exact le_rfl

theorem nextOffset_fill {o trailer : Nat} (here : size % kBlockSize = o % kBlockSize)
    (few : kBlockSize < o + kHeaderSize) (full : o + trailer = kBlockSize) :
    nextOffset size = size + trailer ∧ nextOffset (size + trailer) = size + trailer ∧
      (size + trailer) % kBlockSize = 0 % kBlockSize := by
  have isStart : (size + trailer) % kBlockSize = 0 := by
    rw [Nat.add_mod, here, ← Nat.add_mod, full, Nat.mod_self]
  refine ⟨?_, ?_, isStart⟩
  · rw [nextOffset]
    split <;> simp only [kBlockSize, kHeaderSize] at * <;> omega
  · rw [nextOffset, isStart]
    rfl

theorem nextOffset_room {o : Nat} (here : size % kBlockSize = o % kBlockSize)
    (room : o + kHeaderSize ≤ kBlockSize) : nextOffset size = size := by
  rw [nextOffset, if_neg]
  simp only [kBlockSize, kHeaderSize] at *
  omega

variable {placed : List PlacedFragment}

theorem Consecutive.le (consec : Consecutive size placed) {p : PlacedFragment} (mem : p ∈ placed) : size ≤ p.1 := by
  induction placed generalizing size with
  | nil => cases mem
  | cons first rest ih =>
    obtain ⟨isNext, -, others⟩ := consec
    have here : size ≤ first.1 := isNext ▸ le_nextOffset size
    cases mem with
    | head => exact here
    | tail _ mem =>
      have later := ih others mem
      rw [fragmentEnd] at later
      omega

theorem Consecutive.pairwise (consec : Consecutive size placed) : placed.Pairwise fun p q => fragmentEnd p ≤ q.1 := by
  induction placed generalizing size with
  | nil => exact .nil
  | cons p rest ih =>
    obtain ⟨-, -, others⟩ := consec
    exact .cons (fun q mem => others.le mem) (ih others)

theorem Consecutive.eq_of_offset (consec : Consecutive size placed)
    {p q : PlacedFragment} (inP : p ∈ placed) (inQ : q ∈ placed) (eq : p.1 = q.1) : p = q := by
  have apart : ∀ {a b : PlacedFragment}, fragmentEnd a ≤ b.1 → a.1 ≠ b.1 := by
    intro a b pre
    simp only [fragmentEnd, kHeaderSize] at pre
    omega
  obtain isSame | pre | pre := SortedList.rel_or_rel consec.pairwise inP inQ
  · exact isSame
  · exact absurd eq (apart pre)
  · exact absurd eq.symm (apart pre)

/-! ## The writer -/

variable {crc : Crc}

/-- The writer has put the fragments into its file. -/
structure Wrote (crc : Crc) (w w' : Writer Bytes) (placed : List PlacedFragment) : Prop where
  appended : ∃ bytes, Appended crc w w' bytes (placed.map (·.2))
  consecutive : Consecutive w.dest.length placed
  size : w'.dest.length = sizeAfter w.dest.length placed

theorem switchBlock_size {w : Writer Bytes} (inB : w.blockOffset ≤ kBlockSize)
    (o : w.dest.length % kBlockSize = w.blockOffset % kBlockSize) :
    (switchBlock plainFile w).dest.length = nextOffset w.dest.length ∧
      (switchBlock plainFile w).blockOffset = nextOffset w.dest.length % kBlockSize := by
  simp only [switchBlock, nextOffset, plainFile, kBlockSize, kHeaderSize] at *
  by_cases few : 32768 - w.blockOffset < 7
  · by_cases full : w.blockOffset = 32768
    · have isStart : w.dest.length % 32768 = 0 := by omega
      simp [full, isStart]
    have ins : w.dest.length % 32768 = w.blockOffset := by omega
    have pos : 0 < 32768 - w.blockOffset := by omega
    simp only [few, if_true, ins, pos, length_append, length_replicate]
    omega
  · have ins : w.dest.length % 32768 = w.blockOffset := by omega
    simp only [ins, few, if_false, and_self]

/-- The loop of `AddRecord`.  Only the first round can find no room for a byte of the record. -/
theorem addRecordLoop_placed {rounds : Nat} {begin : Bool} {left : Bytes} {w : Writer Bytes}
    (inB : w.blockOffset ≤ kBlockSize) (o : w.dest.length % kBlockSize = w.blockOffset % kBlockSize)
    (enough : left.length + (if w.blockOffset = kBlockSize then 1 else 2) ≤ rounds) :
    ∃ w', addRecordLoop plainFile crc rounds begin left w = (true, w') ∧
      Wrote crc w w' (fragmentsFrom rounds begin left w.dest.length) ∧
      Split begin left ((fragmentsFrom rounds begin left w.dest.length).map (·.2)) := by
  induction rounds generalizing begin left w with
  | zero => split at enough <;> omega
  | succ rounds ih =>
    obtain ⟨room, zeros, switched⟩ := @switchBlock_appended crc w inB
    obtain ⟨isSize, isOffset⟩ := switchBlock_size inB o
    simp only [addRecordLoop, fragmentsFrom, ← isSize]
    generalize isNext : switchBlock plainFile w = next at room switched isSize isOffset
    rw [← isSize] at isOffset
    rw [← isOffset]
    generalize isAvail : kBlockSize - next.blockOffset - kHeaderSize = avail
    by_cases isLast : left.length ≤ avail
    · have fits : next.blockOffset + kHeaderSize + left.length ≤ kBlockSize := by omega
      obtain ⟨w', emits, _, appended⟩ := @emit_appended crc next (fragmentType begin true, left) fits
      have all : left.take avail = left := take_of_length_le isLast
      have nothing : left.drop avail = [] := drop_eq_nil_of_le isLast
      simp only [isLast, decide_true, all, emits, nothing, ne_eq, not_true_eq_false, and_false, if_false, if_true]
      refine ⟨w', rfl, ⟨⟨_, switched.trans inB appended⟩, ⟨isSize, ?_, trivial⟩, ?_⟩, ?_⟩
      · rwa [← isOffset]
      · rw [appended.dest, length_append, physical_length, ← Nat.add_assoc]
        rfl
      cases begin with
      | true => exact .full left
      | false => exact .last left
    · have len : (left.take avail).length = avail := by
        rw [length_take]
        omega
      have fits : next.blockOffset + kHeaderSize + (left.take avail).length ≤ kBlockSize := by omega
      obtain ⟨full, emits, isEnd, appended⟩ := @emit_appended crc next (fragmentType begin false, left.take avail) fits
      have more : left.drop avail ≠ [] := fun isEmpty => isLast (drop_eq_nil_iff.mp isEmpty)
      have atEnd : full.blockOffset = kBlockSize := by
        rw [isEnd]
        simp only
        omega
      have fullSize : full.dest.length = next.dest.length + kHeaderSize + avail := by
        rw [appended.dest, length_append, physical_length, ← Nat.add_assoc, len]
      have fullOffset : full.dest.length % kBlockSize = full.blockOffset % kBlockSize := by
        rw [fullSize, atEnd, Nat.mod_self]
        rw [len] at fits
        simp only [kBlockSize, kHeaderSize] at *
        omega
      have enough' : (left.drop avail).length + (if full.blockOffset = kBlockSize then 1 else 2) ≤ rounds := by
        rw [if_pos atEnd, length_drop]
        split at enough
        case isTrue isFull =>
          have new : next.blockOffset = 0 := by
            rw [← isNext, switchBlock, isFull]
            rfl
          simp only [new, kBlockSize, kHeaderSize] at isAvail
          omega
        case isFalse => omega
      obtain ⟨w', writes, wrote, split⟩ := @ih false _ full atEnd.le fullOffset enough'
      have type : fragmentType begin false = if begin then .first else .middle := by cases begin <;> rfl
      simp only [isLast, decide_false, emits, more, ne_eq, not_false_eq_true, and_self, if_true, if_false, writes,
        ← fullSize]
      obtain ⟨others, isOthers⟩ := wrote.appended
      refine ⟨w', rfl, ⟨⟨_, (switched.trans inB appended).trans inB isOthers⟩, ⟨isSize, ?_, ?_⟩, ?_⟩, ?_⟩
      · rwa [← isOffset]
      · rw [fragmentEnd, len, ← fullSize]
        exact wrote.consecutive
      · rw [wrote.size, sizeAfter, sizeAfter, foldl_cons, fragmentEnd, len, ← fullSize]
      · have split' := split.more begin (left.take avail)
        rwa [take_append_drop, ← type] at split'

/-- `AddRecord` on a file that takes everything. -/
theorem addRecord_placed {w : Writer Bytes} (inB : w.blockOffset ≤ kBlockSize)
    (o : w.dest.length % kBlockSize = w.blockOffset % kBlockSize) (r : Bytes) :
    ∃ w', addRecord plainFile crc r w = (true, w') ∧ Wrote crc w w' (fragmentsOf r w.dest.length) ∧
      Split true r ((fragmentsOf r w.dest.length).map (·.2)) := by
  apply addRecordLoop_placed inB o
  split <;> omega

/-! ## What a cut leaves -/

/-- The fragment lies in the first bytes of the file. -/
def Inside (cut : Nat) (p : PlacedFragment) : Prop := fragmentEnd p ≤ cut

instance (cut : Nat) (p : PlacedFragment) : Decidable (Inside cut p) := inferInstanceAs (Decidable (_ ≤ _))

theorem Consecutive.filter_inside {cut : Nat} (consec : Consecutive size placed)
    (short : cut < size + kHeaderSize) : placed.filter (Inside cut ·) = [] := by
  apply filter_eq_nil_iff.mpr
  intro p mem ins
  have after := consec.le mem
  have pre : fragmentEnd p ≤ cut := of_decide_eq_true ins
  rw [fragmentEnd] at pre
  omega

theorem Consecutive.skip {size' : Nat} (consec : Consecutive size placed)
    (eq : nextOffset size' = nextOffset size) : Consecutive size' placed := by
  cases placed with
  | nil => trivial
  | cons p rest =>
    obtain ⟨isNext, fits, others⟩ := consec
    exact ⟨isNext.trans eq.symm, fits, others⟩

/-- The bytes before a cut hold the fragments that lie before it. -/
theorem Framed.take_inside {o : Nat} {bytes : Bytes} {fragments : List Fragment}
    (framed : Framed crc true o bytes fragments) {size : Nat} (cut : Nat)
    (isPlaced : placed.map (·.2) = fragments) (consec : Consecutive size placed)
    (here : size % kBlockSize = o % kBlockSize) (inB : o ≤ kBlockSize) :
    Framed crc false o (bytes.take cut) ((placed.filter (Inside (size + cut) ·)).map (·.2)) := by
  induction framed generalizing size placed cut with
  | nil o =>
    obtain rfl := map_eq_nil_iff.mp isPlaced
    simpa using .nil o
  | trailer few fits =>
    obtain rfl := map_eq_nil_iff.mp isPlaced
    apply Framed.trailer few
    rw [length_take]
    omega
  | fill few full others ih =>
    rename_i o zeros rest fragments
    obtain ⟨isNext, isStart⟩ := nextOffset_fill here few full
    have there : Consecutive (size + zeros.length) placed := consec.skip (isStart.1.trans isNext.symm)
    by_cases inZeros : cut < zeros.length
    · have lost : placed.filter (Inside (size + cut) ·) = [] := there.filter_inside (by omega)
      rw [lost, take_append_of_le_length inZeros.le]
      apply Framed.trailer few
      rw [length_take]
      omega
    · have left := ih (cut - zeros.length) isPlaced there isStart.2 (Nat.zero_le _)
      rw [show size + zeros.length + (cut - zeros.length) = size + cut by omega] at left
      rw [take_append, take_of_length_le (by omega)]
      exact .fill few full left
  | record fits others ih =>
    rename_i o fragment rest fragments
    obtain ⟨p, others', rfl, rfl, isOthers⟩ := map_eq_cons_iff.mp isPlaced
    obtain ⟨isNext, -, consec'⟩ := consec
    have isHere : p.1 = size := isNext.trans (nextOffset_room here (by omega))
    have isEnd : fragmentEnd p = size + kHeaderSize + p.2.2.length := by rw [fragmentEnd, isHere]
    have len := physical_length crc p.2
    by_cases inRecord : cut < kHeaderSize + p.2.2.length
    · have lost : (p :: others').filter (Inside (size + cut) ·) = [] := by
        rw [filter_cons_of_neg, consec'.filter_inside (by omega)]
        intro ins
        have pre : fragmentEnd p ≤ size + cut := of_decide_eq_true ins
        omega
      rw [lost, take_append_of_le_length (by omega)]
      exact .torn rfl fits inRecord
    · have left := ih (cut - (kHeaderSize + p.2.2.length)) isOthers consec' ?_ fits
      · rw [show fragmentEnd p + (cut - (kHeaderSize + p.2.2.length)) = size + cut by omega] at left
        rw [filter_cons_of_pos, take_append, take_of_length_le (by omega), len]
        · exact .record fits left
        · have pre : fragmentEnd p ≤ size + cut := by omega
          exact decide_eq_true pre
      · rw [isEnd, Nat.add_assoc, Nat.add_assoc, Nat.add_mod, here, ← Nat.add_mod]
  | torn notWhole => cases notWhole

theorem inside_mono (cut : Nat) (inOrder : placed.Pairwise fun p q => fragmentEnd p ≤ q.1) :
    placed.Pairwise fun p q => Inside cut q → Inside cut p := by
  apply inOrder.imp
  intro p q pre ins
  exact pre.trans ((Nat.le_add_right ..).trans ((Nat.le_add_right ..).trans ins))

end Elsm.Log
