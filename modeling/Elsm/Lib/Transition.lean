import Mathlib.Logic.Basic

/-!
# Labelled transition systems

Runs of a labelled transition relation whose steps all satisfy a side condition, the
induction rule for invariants over such runs, and the relation of a system whose steps are
computed.
-/

namespace Elsm.Transition

variable {State Label Stop : Type*}

/-- States reached from `start` by steps that `allowed` admits in the state they leave. -/
inductive Reaches (step : State → Label → State → Prop) (allowed : State → Label → Prop) (start : State) : State → Prop
  | refl : Reaches step allowed start start
  | tail {before after : State} {label : Label} (run : Reaches step allowed start before)
      (admitted : allowed before label) (taken : step before label after) :
      Reaches step allowed start after

section Rules

variable {step : State → Label → State → Prop} {allowed stronger : State → Label → Prop} {start middle final : State}

/-- The invariant rule: an invariant of the start that every admitted step keeps holds of
every state reached. -/
theorem Reaches.invariant (Inv : State → Prop) (initial : Inv start)
    (preserved : ∀ {pre after : State} {lbl : Label}, Inv pre → allowed pre lbl → step pre lbl after → Inv after)
    (run : Reaches step allowed start final) : Inv final := by
  induction run with
  | refl => exact initial
  | tail _ adm taken ih => exact preserved ih adm taken

theorem Reaches.mono (weaker : ∀ state lbl, stronger state lbl → allowed state lbl)
    (run : Reaches step stronger start final) : Reaches step allowed start final := by
  induction run with
  | refl => exact .refl
  | tail _ adm taken ih => exact .tail ih (weaker _ _ adm) taken

theorem Reaches.trans (first : Reaches step allowed start middle)
    (snd : Reaches step allowed middle final) : Reaches step allowed start final := by
  induction snd with
  | refl => exact first
  | tail _ adm run ih => exact .tail ih adm run

end Rules

/-! ## Computed steps -/

/-- The transition relation of a step function that may stop. -/
def Steps (step : State → Label → Except Stop State) (before : State) (label : Label) (after : State) : Prop :=
  step before label = .ok after

theorem eq_ok_of_toOption {res : Except Stop State} {state : State}
    (isSome : res.toOption = some state) : res = .ok state := by
  cases res with
  | error stop => cases isSome
  | ok next => exact congrArg _ (Option.some.inj isSome)

variable {step : State → Label → Except Stop State}

/-- A fold of steps that stop exactly when the labels taken so far are no longer `Good` is the fold of
the unchecked steps, or stops. -/
theorem foldlM_checked {next : State → Label → State} {stop : Stop}
    (Good : List Label → Prop) (Inv : List Label → State → Prop)
    (closed : ∀ seen lbl rest, Good (seen ++ lbl :: rest) → Good (seen ++ [lbl]))
    (checked : ∀ seen state lbl, Good seen → Inv seen state →
      (Good (seen ++ [lbl]) ∧ step state lbl = .ok (next state lbl) ∧ Inv (seen ++ [lbl]) (next state lbl)) ∨
        (¬Good (seen ++ [lbl]) ∧ step state lbl = .error stop))
    (labels : List Label) {seen : List Label} {state : State} (good : Good seen) (inv : Inv seen state) :
    (Good (seen ++ labels) ∧ labels.foldlM step state = .ok (labels.foldl next state) ∧
        Inv (seen ++ labels) (labels.foldl next state)) ∨
      (¬Good (seen ++ labels) ∧ labels.foldlM step state = .error stop) := by
  induction labels generalizing seen state with
  | nil => exact .inl ⟨by simpa using good, rfl, by simpa using inv⟩
  | cons lbl rest ih =>
    have split : seen ++ lbl :: rest = (seen ++ [lbl]) ++ rest := by simp
    rw [List.foldlM_cons, List.foldl_cons]
    cases checked seen state lbl good inv with
    | inl passes =>
      obtain ⟨stillGood, run, stillInv⟩ := passes
      rw [run, split]
      exact ih stillGood stillInv
    | inr fails =>
      obtain ⟨notGood, stops⟩ := fails
      rw [stops]
      exact .inr ⟨fun whole => notGood (closed seen lbl rest whole), rfl⟩

/-- The state after a list of steps, each of which must be allowed. -/
def run (step : State → Label → Except Stop State) (allowed : State → Label → Prop)
    [∀ state label, Decidable (allowed state label)] : State → List Label → Option State
  | state, [] => some state
  | state, label :: rest =>
    if allowed state label then
      match step state label with
      | .ok next => run step allowed next rest
      | .error _ => none
    else none

theorem exists_of_eval {computed : Option State} {Q R : State → Prop} (found : ∃ state ∈ computed, Q state)
    (rest : ∀ state, computed = some state → Q state → R state) : ∃ state, computed = some state ∧ R state := by
  obtain ⟨state, isSome, holds⟩ := found
  exact ⟨state, isSome, rest state isSome holds⟩

theorem reaches_of_run {allowed : State → Label → Prop}
    [∀ state lbl, Decidable (allowed state lbl)] {start middle final : State} {labels : List Label}
    (reached : Reaches (Steps step) allowed start middle) (runs : run step allowed middle labels = some final) :
    Reaches (Steps step) allowed start final := by
  induction labels generalizing middle with
  | nil => exact Option.some.inj runs ▸ reached
  | cons lbl rest ih =>
    simp only [run] at runs
    split at runs
    case isTrue adm =>
      cases taken : step middle lbl with
      | error stop => simp [taken] at runs
      | ok next =>
        rw [taken] at runs
        exact ih (reached.tail adm taken) runs
    · cases runs

end Elsm.Transition
