import Mathlib.Data.List.Basic
import Mathlib.Tactic.Common

/-!
# Binary search over an initial segment

`bisect` finds the end of the initial segment of `[left, right)` on which a predicate
holds.  The fuel is the length of the interval, which the loop at least halves.
-/

namespace Elsm.Bisect

def bisect (holds : Nat → Bool) : Nat → Nat → Nat → Nat
  | 0, _, right => right
  | fuel + 1, left, right =>
    if left < right then
      let mid := (left + right) / 2
      if holds mid then bisect holds fuel (mid + 1) right else bisect holds fuel left mid
    else right

/-- What the loop returns: everything before it satisfies the predicate, nothing from it on does. -/
theorem bisect_spec {holds : Nat → Bool} (initial : ∀ i j, i ≤ j → holds j = true → holds i = true) :
    ∀ (fuel left right : Nat), left ≤ right → right ≤ left + fuel →
      left ≤ bisect holds fuel left right ∧ bisect holds fuel left right ≤ right ∧
        (∀ i, left ≤ i → i < bisect holds fuel left right → holds i = true) ∧
        (∀ i, bisect holds fuel left right ≤ i → i < right → holds i = false) := by
  intro fuel
  induction fuel with
  | zero =>
    intro left right ord le
    have eq : left = right := by omega
    subst eq
    refine ⟨Nat.le_refl _, Nat.le_refl _, ?_, ?_⟩ <;> intro i lower upper <;>
      simp only [bisect] at lower upper <;> omega
  | succ fuel ih =>
    intro left right ord le
    simp only [bisect]
    by_cases open_ : left < right
    · have mid_lt : (left + right) / 2 < right := by omega
      have left_le : left ≤ (left + right) / 2 := by omega
      generalize (left + right) / 2 = mid at mid_lt left_le
      simp only [open_, if_true]
      by_cases below : holds mid = true
      · simp only [below, if_true]
        obtain ⟨lower, upper, pre, after⟩ := ih (mid + 1) right (by omega) (by omega)
        refine ⟨by omega, upper, ?_, after⟩
        intro i _ ins
        by_cases beyond : mid + 1 ≤ i
        · exact pre i beyond ins
        · exact initial i mid (by omega) below
      · simp only [below, Bool.false_eq_true, if_false]
        obtain ⟨lower, upper, pre, after⟩ := ih left mid left_le (by omega)
        refine ⟨lower, by omega, pre, ?_⟩
        intro i beyond ins
        by_cases within : i < mid
        · exact after i beyond within
        · have notAt : ¬ holds i = true := fun at_ => below (initial mid i (by omega) at_)
          simpa using notAt
    · simp only [open_, if_false]
      refine ⟨ord, Nat.le_refl _, ?_, ?_⟩ <;> intro i lower upper <;> omega

/-- Over the elements of a list, the search returns the index of the first element that
fails the predicate. -/
theorem bisect_eq_findIdx {α : Type*} (p : α → Bool) (xs : List α)
    (initial : xs.Pairwise fun x y => p y = true → p x = true) :
    bisect (fun i => (xs[i]?).any p) xs.length 0 xs.length = xs.findIdx fun x => !p x := by
  have segment : ∀ i j : Nat, i ≤ j → ((xs[j]?).any p) = true → ((xs[i]?).any p) = true := by
    intro i j ord atJ
    cases isJ : xs[j]? with
    | none => simp [isJ] at atJ
    | some y =>
      obtain ⟨boundJ, rfl⟩ := List.getElem?_eq_some_iff.mp isJ
      have boundI : i < xs.length := by omega
      rw [List.getElem?_eq_getElem boundI]
      rw [isJ] at atJ
      rcases Nat.lt_or_eq_of_le ord with strict | eq
      · simpa using List.pairwise_iff_getElem.mp initial i j boundI boundJ strict (by simpa using atJ)
      · subst eq
        simpa using atJ
  obtain ⟨-, upper, pre, after⟩ := bisect_spec segment xs.length 0 xs.length (Nat.zero_le _) (by omega)
  symm
  generalize bisect _ _ _ _ = found at upper pre after
  rcases Nat.lt_or_eq_of_le upper with ins | eq
  · rw [List.findIdx_eq ins]
    refine ⟨?_, ?_⟩
    · have failed := after found (Nat.le_refl _) ins
      simpa [List.getElem?_eq_getElem ins] using failed
    intro j below
    have passed := pre j (Nat.zero_le _) below
    simpa [List.getElem?_eq_getElem (Nat.lt_trans below ins)] using passed
  · subst eq
    apply List.findIdx_eq_length.mpr
    intro x mem
    obtain ⟨i, bound, rfl⟩ := List.getElem_of_mem mem
    have passed := pre i (Nat.zero_le _) bound
    simpa [List.getElem?_eq_getElem bound] using passed

end Elsm.Bisect
