import Mathlib.Data.List.Basic

/-!
# Readers of a prefix of their input

A reader takes a value from the front of a list and leaves the rest.  `Reads` says which items it takes for a value, and
`Local` that it looks at nothing else.  Both are kept when readers are put one after the other.
-/

namespace Elsm.Reading

variable {σ α β : Type*}

abbrev Reader (σ α : Type*) := List σ → Option (α × List σ)

def andThen (read : Reader σ α) (next : α → Reader σ β) : Reader σ β :=
  fun input => (read input).bind fun found => next found.1 found.2

def give (a : α) : Reader σ α := fun input => some (a, input)

/-- The items are taken for the value, whatever follows them. -/
def Reads (read : Reader σ α) (used : List σ) (a : α) : Prop := ∀ rest, read (used ++ rest) = some (a, rest)

/-- What is read is read from the items that are taken. -/
def Local (read : Reader σ α) : Prop :=
  ∀ input a rest, read input = some (a, rest) → ∃ used, input = used ++ rest ∧ Reads read used a

theorem Reads.give (a : α) : Reads (σ := σ) (Reading.give a) [] a := fun _ => rfl

variable {read : Reader σ α}

theorem Reads.andThen {next : α → Reader σ β} {used used' : List σ} {a : α} {b : β}
    (first : Reads read used a) (snd : Reads (next a) used' b) :
    Reads (Reading.andThen read next) (used ++ used') b := by
  intro rest
  rw [Reading.andThen, List.append_assoc, first, Option.bind_some, snd]

theorem Reads.andGive {used : List σ} {a : α} (reads : Reads read used a) (f : α → β) :
    Reads (Reading.andThen read fun a => Reading.give (f a)) used (f a) := by
  intro rest
  rw [Reading.andThen, reads]
  rfl

theorem Local.give (a : α) : Local (σ := σ) (Reading.give a) := by
  intro input b rest read
  cases read
  exact ⟨[], rfl, .give a⟩

theorem Local.andThen {next : α → Reader σ β} (first : Local read) (snd : ∀ a, Local (next a)) :
    Local (Reading.andThen read next) := by
  intro input b rest found
  obtain ⟨⟨a, middle⟩, isFirst, isSecond⟩ := Option.bind_eq_some_iff.mp found
  obtain ⟨used, rfl, reads⟩ := first input a middle isFirst
  obtain ⟨used', rfl, reads'⟩ := snd a middle b rest isSecond
  exact ⟨used ++ used', (List.append_assoc ..).symm, reads.andThen reads'⟩

end Elsm.Reading
