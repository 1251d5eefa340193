import Mathlib.Data.List.Lex
import Mathlib.Order.Lattice

/-!
# Byte strings and their order (`include/leveldb/slice.h`, `util/comparator.cpp`)

User keys are compared by `BytewiseComparator`, which is `Slice::compare`: `memcmp` over the
common length, then the shorter string first.  That is the lexicographic order of the
bytes, the one Mathlib puts on lists over a linear order.
-/

namespace Elsm

abbrev Bytes := List UInt8

instance instLinearOrderUInt8 : LinearOrder UInt8 where
  le_refl := UInt8.le_refl
  le_trans _ _ _ := UInt8.le_trans
  le_antisymm _ _ := UInt8.le_antisymm
  le_total := UInt8.le_total
  lt_iff_le_not_ge a b := by rw [UInt8.not_le]; exact ⟨fun h => ⟨UInt8.le_of_lt h, h⟩, fun h => h.2⟩
  toDecidableLE := inferInstance
  toDecidableLT := inferInstance
  toDecidableEq := inferInstance

def memcmp : Nat → Bytes → Bytes → Ordering
  | n + 1, x :: a, y :: b => if x < y then .lt else if y < x then .gt else memcmp n a b
  | _, _, _ => .eq

/-- `Slice::compare`. -/
def sliceCompare (a b : Bytes) : Ordering :=
  match memcmp (min a.length b.length) a b with
  | .eq => if a.length < b.length then .lt else if b.length < a.length then .gt else .eq
  | r => r

theorem sliceCompare_cons (x y : UInt8) (a b : Bytes) : sliceCompare (x :: a) (y :: b) =
      if x < y then .lt else if y < x then .gt else sliceCompare a b := by
  simp only [sliceCompare, List.length_cons, Nat.succ_min_succ, memcmp, Nat.succ_lt_succ_iff]
  by_cases less : x < y
  · simp [less]
  by_cases greater : y < x
  · simp [less, greater]
  · simp [less, greater]

theorem sliceCompare_eq_lt (a b : Bytes) : sliceCompare a b = .lt ↔ a < b := by
  induction a generalizing b with
  | nil => cases b <;> simp [sliceCompare, memcmp]
  | cons x a ih =>
    cases b with
    | nil => simp [sliceCompare, memcmp]
    | cons y b =>
      rw [sliceCompare_cons, List.cons_lt_cons_iff]
      split
      case isTrue less => simp [less]
      case isFalse notLess =>
        split
        case isTrue gt => simp [notLess, gt.ne']
        case isFalse notGreater =>
          have eq : x = y := le_antisymm (not_lt.mp notGreater) (not_lt.mp notLess)
          simp [eq, ih]

theorem sliceCompare_swap (a b : Bytes) : (sliceCompare a b).swap = sliceCompare b a := by
  induction a generalizing b with
  | nil => cases b <;> simp [sliceCompare, memcmp]
  | cons x a ih =>
    cases b with
    | nil => simp [sliceCompare, memcmp]
    | cons y b =>
      rw [sliceCompare_cons, sliceCompare_cons, ← ih]
      obtain lt | rfl | gt := lt_trichotomy x y
      · simp [lt, lt.not_gt]
      · simp
      · simp [gt, gt.not_gt]

theorem sliceCompare_eq_gt (a b : Bytes) : sliceCompare a b = .gt ↔ b < a := by
  rw [← sliceCompare_eq_lt, ← sliceCompare_swap a b]
  cases sliceCompare a b <;> simp

end Elsm
