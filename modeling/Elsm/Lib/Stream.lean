import Mathlib.Order.Lattice

/-!
# Readers as streams

A reader is a function that takes a state to an item and the next state, or to no item when it
has come to the end.  `collect` calls it until then, with a bound on the number of calls.
`Yields` is what it gives when nothing bounds it, and `collect_eq` says that a large enough
bound makes no difference.
-/

namespace Elsm.Stream

variable {σ α : Type*}

def collect (next : σ → Option α × σ) : Nat → σ → List α × σ
  | 0, s => ([], s)
  | bound + 1, s =>
    match next s with
    | (none, s') => ([], s')
    | (some a, s') => (a :: (collect next bound s').1, (collect next bound s').2)

/-- The items from a state on, and the state in which the reader has come to the end. -/
inductive Yields (next : σ → Option α × σ) : σ → List α → σ → Prop
  | done {s s' : σ} (ends : next s = (none, s')) : Yields next s [] s'
  | more {s middle s' : σ} {a : α} {items : List α} (reads : next s = (some a, middle))
      (others : Yields next middle items s') : Yields next s (a :: items) s'

variable {next : σ → Option α × σ}

theorem collect_eq {s s' : σ} {items : List α} (yields : Yields next s items s') {fuel : Nat}
    (le : items.length < fuel) : collect next fuel s = (items, s') := by
  induction yields generalizing fuel with
  | done ends =>
    obtain ⟨fuel, rfl⟩ := Nat.exists_eq_add_of_lt le
    simp [collect, ends]
  | more reads others ih =>
    cases fuel with
    | zero => cases le
    | succ fuel =>
      rw [List.length_cons, Nat.succ_lt_succ_iff] at le
      simp only [collect, reads, ih le]

theorem exists_yields (size : σ → Nat) (uses : ∀ {s s' : σ} {a : α}, next s = (some a, s') → size s' < size s) (s : σ) :
    ∃ items s', Yields next s items s' ∧ items.length ≤ size s := by
  induction bound : size s using Nat.strongRecOn generalizing s with
  | ind n ih =>
    cases reads : next s with
    | mk item middle =>
      cases item with
      | none => exact ⟨[], middle, .done reads, Nat.zero_le _⟩
      | some a =>
        have lt : size middle < n := bound ▸ uses reads
        obtain ⟨items, s', others, len⟩ := ih _ lt middle rfl
        exact ⟨a :: items, s', .more reads others, Nat.succ_le_of_lt (Nat.lt_of_le_of_lt len lt)⟩

end Elsm.Stream
