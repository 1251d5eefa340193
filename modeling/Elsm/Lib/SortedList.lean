import Mathlib.Data.List.Basic
import Mathlib.Data.List.Pairwise
import Mathlib.Order.Lattice

/-!
# Lists ordered by a relation

Facts about searching, filtering and merging lists that are `Pairwise` related: what the
first hit of a search says about every other hit, and when a strictly sorted list is
determined by its members.
-/

namespace Elsm.SortedList

open List

variable {α β : Type*} {xs : List α} {p : α → Bool}

theorem forall_mem_concat {P : α → Prop} {x : α} (old : ∀ y ∈ xs, P y) (new : P x) : ∀ y ∈ xs ++ [x], P y :=
  forall_mem_append.mpr ⟨old, forall_mem_singleton.mpr new⟩

theorem pairwise_concat {r : α → α → Prop} {x : α} (old : xs.Pairwise r) (new : ∀ y ∈ xs, r y x) :
    (xs ++ [x]).Pairwise r :=
  pairwise_append.mpr ⟨old, pairwise_singleton _ _, fun y mem => forall_mem_singleton.mpr (new y mem)⟩

theorem find?_congr {q : α → Bool} (eq : ∀ x ∈ xs, p x = q x) : xs.find? p = xs.find? q := by
  induction xs with
  | nil => rfl
  | cons x rest ih =>
    rw [find?_cons, find?_cons, eq x (by simp), ih fun y inR => eq y (by simp [inR])]

theorem find?_flatMap_of_hits {parts : List β} {items : β → List α} {reaches : β → Bool}
    (hits : ∀ part ∈ parts, reaches part = true ↔ ∃ x ∈ items part, p x = true) :
    (parts.flatMap items).find? p = (parts.find? reaches).bind fun part => (items part).find? p := by
  induction parts with
  | nil => rfl
  | cons part rest ih =>
    have ofRest := ih fun other inR => hits other (mem_cons_of_mem _ inR)
    have here := hits part mem_cons_self
    rw [flatMap_cons, find?_append, find?_cons]
    cases reached : reaches part with
    | true =>
      have found : ((items part).find? p).isSome := find?_isSome.mpr (here.mp reached)
      obtain ⟨x, isFirst⟩ := Option.isSome_iff_exists.mp found
      simp [isFirst]
    | false =>
      have missed : (items part).find? p = none := by
        rw [find?_eq_none]
        intro x mem hit
        rw [here.mpr ⟨x, mem, hit⟩] at reached
        cases reached
      rw [missed, Option.none_or]
      exact ofRest

variable {R : α → α → Prop} {x : α}

theorem find?_first {y : α} (sorted : xs.Pairwise R) (found : xs.find? p = some x) (mem : y ∈ xs) (hit : p y = true) :
    x = y ∨ R x y := by
  obtain ⟨-, pre, after, rfl, missed⟩ := find?_eq_some_iff_append.mp found
  simp only [mem_append, mem_cons] at mem
  obtain inBefore | rfl | inAfter := mem
  · exact absurd hit (by simpa using missed y inBefore)
  · exact .inl rfl
  · exact .inr (rel_of_pairwise_cons (pairwise_append.mp sorted).2.1 inAfter)

theorem rel_or_rel {y : α} (sorted : xs.Pairwise R) (left : x ∈ xs) (right : y ∈ xs) : x = y ∨ R x y ∨ R y x := by
  induction xs with
  | nil => simp at left
  | cons z rest ih =>
    have ⟨head, tail⟩ := pairwise_cons.mp sorted
    cases mem_cons.mp left with
    | inl isHead =>
      cases mem_cons.mp right with
      | inl alsoHead => exact .inl (isHead.trans alsoHead.symm)
      | inr inR => exact .inr (.inl (isHead ▸ head y inR))
    | inr inR =>
      cases mem_cons.mp right with
      | inl isHead => exact .inr (.inr (isHead ▸ head x inR))
      | inr alsoRest => exact ih tail inR alsoRest

theorem countP_lt {q : α → Bool} (mem : x ∈ xs)
    (weaker : ∀ y ∈ xs, p y = true → q y = true) (lost : p x = false) (kept : q x = true) :
    xs.countP p < xs.countP q := by
  obtain ⟨pre, after, rfl⟩ := append_of_mem mem
  have left : pre.countP p ≤ pre.countP q := countP_mono_left fun y inBefore => weaker y (by simp [inBefore])
  have right : after.countP p ≤ after.countP q := countP_mono_left fun y inAfter => weaker y (by simp [inAfter])
  simp only [countP_append, countP_cons, lost, kept]
  simp only [Bool.false_eq_true, if_false, if_true]
  omega

theorem not_of_mem_dropWhile (sorted : xs.Pairwise R) (initial : ∀ y z, R y z → p z = true → p y = true)
    (mem : x ∈ xs.dropWhile p) : p x = false := by
  induction xs with
  | nil => simp at mem
  | cons y rest ih =>
    have ⟨head, tail⟩ := pairwise_cons.mp sorted
    rw [dropWhile_cons] at mem
    split at mem
    · exact ih tail mem
    case isFalse fails =>
      cases mem_cons.mp mem with
      | inl isHead => simpa [isHead] using fails
      | inr inR =>
        cases holds : p x with
        | false => rfl
        | true => exact absurd (initial y x (head x inR) holds) fails

theorem of_mem_takeWhile (mem : x ∈ xs.takeWhile p) : p x = true :=
  all_eq_true.mp all_takeWhile x mem

theorem flatMap_split {f : α → List β} {pre after : List β} {b : β} (eq : xs.flatMap f = pre ++ b :: after) :
    ∃ xs₁ x xs₂ ys₁ ys₂, xs = xs₁ ++ x :: xs₂ ∧ f x = ys₁ ++ b :: ys₂ ∧ pre = xs₁.flatMap f ++ ys₁ := by
  induction xs generalizing pre with
  | nil => simp at eq
  | cons x xs ih =>
    rw [flatMap_cons] at eq
    obtain ⟨more, isBefore, isRest⟩ | ⟨more, isHead, isRest⟩ := append_eq_append_iff.mp eq
    · obtain ⟨xs₁, y, xs₂, ys₁, ys₂, split, isY, isMore⟩ := ih isRest
      refine ⟨x :: xs₁, y, xs₂, ys₁, ys₂, by rw [split]; rfl, isY, ?_⟩
      rw [isBefore, isMore, flatMap_cons, append_assoc]
    · cases more with
      | nil =>
        obtain ⟨xs₁, y, xs₂, ys₁, ys₂, split, isY, isMore⟩ := @ih [] isRest.symm
        refine ⟨x :: xs₁, y, xs₂, ys₁, ys₂, by rw [split]; rfl, isY, ?_⟩
        rw [flatMap_cons, append_assoc, ← isMore, isHead]
        simp
      | cons c more =>
        simp only [cons_append, List.cons.injEq] at isRest
        exact ⟨[], x, xs, pre, more, rfl, isRest.1 ▸ isHead, rfl⟩

theorem filter_append_filter_not {P : α → Prop} [DecidablePred P] {l : List α}
    (lost : l.Pairwise fun a b => P b → P a) : l = l.filter (P ·) ++ l.filter (¬P ·) := by
  induction lost with
  | nil => rfl
  | cons pre others ih =>
    rename_i a rest
    by_cases holds : P a
    · simpa [holds] using ih
    have none : rest.filter (P ·) = [] :=
      filter_eq_nil_iff.mpr fun b mem has => holds (pre b mem (of_decide_eq_true has))
    have all : rest.filter (¬P ·) = rest :=
      filter_eq_self.mpr fun b mem => decide_eq_true fun has => holds (pre b mem has)
    simp only [holds, none, all, filter_cons, decide_false, not_false_eq_true, decide_true, if_true]
    rfl

end Elsm.SortedList
