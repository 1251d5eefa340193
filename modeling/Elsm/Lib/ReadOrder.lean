import Mathlib.Data.List.Basic

/-!
# Reading layered sources

A reader asks a list of sources in turn and takes the first answer.  When each source answers
with the newest of the entries the reader may see, and sources asked earlier are newer, the
first answer is the newest of all.
-/

namespace Elsm.ReadOrder

open List

variable {α : Type*}

theorem findSome?_flatMap_eq {β γ : Type*} {parts : List β} {items : β → List α} {lookup : α → Option γ}
    {answer : β → Option γ} (each : ∀ part ∈ parts, (items part).findSome? lookup = answer part) :
    (parts.flatMap items).findSome? lookup = parts.findSome? answer := by
  induction parts with
  | nil => rfl
  | cons part rest ih =>
    have ofRest := ih fun other inR => each other (mem_cons_of_mem _ inR)
    rw [flatMap_cons, findSome?_append, findSome?_cons, ofRest, each part mem_cons_self]
    cases answer part with
    | none | some => rfl

/-- The newest of the entries that are visible. -/
structure NewestIn (visible : α → Prop) (stamp : α → Nat) (entries : List α) (x : α) : Prop where
  mem : x ∈ entries
  seen : visible x
  newest : ∀ y ∈ entries, visible y → stamp y ≤ stamp x

/-- An answer is the newest visible entry, and there is one unless nothing is visible. -/
def Answers (visible : α → Prop) (stamp : α → Nat) (entries : List α) : Option α → Prop
  | some x => NewestIn visible stamp entries x
  | none => ∀ y ∈ entries, ¬ visible y

/-- Nothing of the second source is newer than what is visible in the first. -/
def Covers (visible : α → Prop) (stamp : α → Nat) (first second : List α) : Prop :=
  ∀ x ∈ first, ∀ y ∈ second, visible x → visible y → stamp y ≤ stamp x

theorem answers_findSome? {vis : α → Prop} {stamp : α → Nat} {lookup : List α → Option α}
    {sources : List (List α)} (each : ∀ source ∈ sources, Answers vis stamp source (lookup source))
    (layered : sources.Pairwise (Covers vis stamp)) :
    Answers vis stamp sources.flatten (sources.findSome? lookup) := by
  induction sources with
  | nil =>
    intro y member
    simp at member
  | cons source rest ih =>
    have ⟨covers, layeredRest⟩ := pairwise_cons.mp layered
    have later := ih (fun other inR => each other (mem_cons_of_mem _ inR)) layeredRest
    have here := each source mem_cons_self
    rw [findSome?_cons]
    cases answer : lookup source with
    | some x =>
      rw [answer] at here
      refine ⟨mem_append_left _ here.mem, here.seen, fun y member isVisible => ?_⟩
      cases mem_append.mp member with
      | inl inSource => exact here.newest y inSource isVisible
      | inr inR =>
        obtain ⟨other, isSource, inOther⟩ := mem_flatten.mp inR
        exact covers other isSource x here.mem y inOther here.seen isVisible
    | none =>
      rw [answer] at here
      change Answers vis stamp (source ++ rest.flatten) (rest.findSome? lookup)
      cases found : rest.findSome? lookup with
      | some x =>
        rw [found] at later
        refine ⟨mem_append_right _ later.mem, later.seen, fun y member isVisible => ?_⟩
        cases mem_append.mp member with
        | inl inSource => exact absurd isVisible (here y inSource)
        | inr inR => exact later.newest y inR isVisible
      | none =>
        rw [found] at later
        intro y member
        cases mem_append.mp member with
        | inl inSource => exact here y inSource
        | inr inR => exact later y inR

end Elsm.ReadOrder
