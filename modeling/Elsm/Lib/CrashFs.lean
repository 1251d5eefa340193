import Mathlib.Logic.Function.Basic

/-!
# Files that are written through buffers

A file holds what was appended to it, but only a first part of that is certain to outlive the process that
writes it: what had left the buffers when the file was last flushed or closed.  An `Image` is what
another process may find in a directory.  Operations can fail, and a failed one may have done a part of
its work.  A `Session` is what one process does to a directory.  It keeps the directories that were passed
through, one after each operation, so that a property of all of them is a property of every crash.
-/

namespace Elsm.CrashFs

open List Function

variable {Name B : Type*}

structure File (B : Type*) where
  bytes : List B
  /-- At least so many bytes have left the buffer. -/
  flushed : Nat

abbrev Directory (Name B : Type*) := Name → Option (File B)

/-- What may be left of a directory when the process has ended. -/
def Image (dir : Directory Name B) (image : Name → Option (List B)) : Prop :=
  ∀ name, match dir name with
    | none => image name = none
    | some file => ∃ size ≥ file.flushed, image name = some (file.bytes.take size)

variable {name : Name} {file : File B}

section

variable {dir : Directory Name B} {image : Name → Option (List B)} (isImage : Image dir image)

include isImage

theorem Image.whole (present : dir name = some file) (flushed : file.bytes.length ≤ file.flushed) :
    image name = some file.bytes := by
  have here := isImage name
  rw [present] at here
  obtain ⟨size, le, eq⟩ := here
  rw [eq, take_of_length_le (Nat.le_trans flushed le)]

theorem Image.missing (absent : dir name = none) : image name = none := by
  have here := isImage name
  rw [absent] at here
  exact here

end

inductive Operation (Name B : Type*) where
  /-- Open for writing, and forget what was in the file. -/
  | create (name : Name)
  | append (name : Name) (data : List B)
  | flush (name : Name)
  | close (name : Name)
  | rename (source target : Name)
  | delete (name : Name)

inductive Outcome where
  | done
  /-- Something was done before the failure: so many bytes of an append. -/
  | failed (progress : Nat)

variable [DecidableEq Name]

namespace Operation

def names : Operation Name B → List Name
  | create name | append name _ | flush name | close name | delete name => [name]
  | rename source target => [source, target]

/-- Whether the operation reports success, and the directory after it. -/
def run (dir : Directory Name B) : Operation Name B → Outcome → Bool × Directory Name B
  | create name, .done => (true, update dir name (some ⟨[], 0⟩))
  | create name, .failed progress =>
    (false, if progress = 0 then dir else update dir name (some ⟨[], 0⟩))
  | append name data, .done =>
    (true, update dir name ((dir name).map fun file => { file with bytes := file.bytes ++ data }))
  | append name data, .failed progress =>
    -- an append reports how many bytes it took, and taking all of them is no failure
    (decide (data.length ≤ progress),
      update dir name ((dir name).map fun file => { file with bytes := file.bytes ++ data.take progress }))
  | flush name, .done | close name, .done =>
    (true, update dir name ((dir name).map fun file => { file with flushed := file.bytes.length }))
  | rename source target, .done =>
    match dir source with
    | some file => (true, update (update dir source none) target (some file))
    | none => (false, dir)
  | delete name, .done => (true, update dir name none)
  | flush _, .failed _ | close _, .failed _ | rename _ _, .failed _ | delete _, .failed _ => (false, dir)

end Operation

structure Session (Name B : Type*) where
  dir : Directory Name B
  /-- What becomes of an operation, given how many there were before it. -/
  outcome : Nat → Operation Name B → Outcome
  /-- The directories after the operations so far, the last one first. -/
  passed : List (Directory Name B)

namespace Session

def perform (op : Operation Name B) (s : Session Name B) : Bool × Session Name B :=
  let result := op.run s.dir (s.outcome s.passed.length op)
  (result.1, { s with dir := result.2, passed := result.2 :: s.passed })

def Kept (P : Directory Name B → Prop) (s : Session Name B) : Prop := ∀ dir ∈ s.passed, P dir

variable {s : Session Name B} {op : Operation Name B} {P : Directory Name B → Prop}

theorem Kept.perform (kept : s.Kept P) (next : P (s.perform op).2.dir) : (s.perform op).2.Kept P :=
  forall_mem_cons.mpr ⟨next, kept⟩

theorem perform_other (other : name ∉ op.names) : (s.perform op).2.dir name = s.dir name := by
  simp only [Session.perform]
  generalize s.outcome s.passed.length op = outcome
  cases op with
  | create created =>
    rw [Operation.names, mem_singleton] at other
    cases outcome with
    | done => exact update_of_ne other _ _
    | failed progress =>
      simp only [Operation.run]
      split
      · rfl
      · exact update_of_ne other _ _
  | append wr data =>
    rw [Operation.names, mem_singleton] at other
    cases outcome <;> exact update_of_ne other _ _
  | flush | close | delete =>
    rw [Operation.names, mem_singleton] at other
    cases outcome with
    | done => exact update_of_ne other _ _
    | failed progress => rfl
  | rename source target =>
    rw [Operation.names, mem_cons, mem_singleton, not_or] at other
    cases outcome with
    | failed progress => rfl
    | done =>
      simp only [Operation.run]
      cases s.dir source with
      | none => rfl
      | some file =>
        simp only [update_of_ne other.2, update_of_ne other.1]

theorem perform_create (succeeds : (s.perform (.create name)).1 = true) :
    (s.perform (.create name)).2.dir name = some ⟨[], 0⟩ := by
  simp only [Session.perform] at succeeds ⊢
  cases isOutcome : s.outcome s.passed.length (.create name) with
  | done => simp [Operation.run]
  | failed progress => simp [isOutcome, Operation.run] at succeeds

/-- An append adds the first bytes of the data, and all of them when it succeeds. -/
theorem perform_append (present : s.dir name = some file) (data : List B) :
    ∃ size, (s.perform (.append name data)).2.dir name = some ⟨file.bytes ++ data.take size, file.flushed⟩ ∧
      ((s.perform (.append name data)).1 = true → data.take size = data) := by
  simp only [Session.perform]
  cases s.outcome s.passed.length (.append name data) with
  | done => exact ⟨data.length, by simp [Operation.run, present], fun _ => take_length⟩
  | failed progress =>
    refine ⟨progress, by simp [Operation.run, present], fun succeeds => ?_⟩
    exact take_of_length_le (of_decide_eq_true succeeds)

theorem perform_flush (present : s.dir name = some file) (isFlush : op = .flush name ∨ op = .close name) :
    ((s.perform op).1 = true ∧ (s.perform op).2.dir name = some ⟨file.bytes, file.bytes.length⟩) ∨
      ((s.perform op).1 = false ∧ (s.perform op).2.dir name = some file) := by
  simp only [Session.perform]
  obtain rfl | rfl := isFlush
  all_goals
    generalize s.outcome s.passed.length _ = outcome
    cases outcome with
    | done => exact .inl ⟨rfl, by simp [Operation.run, present]⟩
    | failed progress => exact .inr ⟨rfl, present⟩

theorem perform_rename {source target : Name} {file : File B} (present : s.dir source = some file)
    (succeeds : s.outcome s.passed.length (.rename source target) = .done) :
    (s.perform (.rename source target)).2.dir target = some file := by
  simp [Session.perform, succeeds, Operation.run, present]

/-! ### Operations on some of the files -/

/-- The second session comes from the first by operations on files with these names. -/
inductive Follows (names : List Name) : Session Name B → Session Name B → Prop
  | refl (s : Session Name B) : Follows names s s
  | perform {s s' : Session Name B} (op : Operation Name B) (about : ∀ name ∈ op.names, name ∈ names)
      (before : Follows names s s') : Follows names s (s'.perform op).2

variable {s' s'' : Session Name B} {names more : List Name}

theorem Follows.trans (first : Follows names s s') (snd : Follows names s' s'') : Follows names s s'' := by
  induction snd with
  | refl => exact first
  | perform op about _ ih => exact .perform op about ih

variable (follows : Follows names s s')

include follows

theorem Follows.mono (subset : ∀ name ∈ names, name ∈ more) : Follows more s s' := by
  induction follows with
  | refl => exact .refl _
  | perform op about _ ih => exact .perform op (fun name mem => subset name (about name mem)) ih

theorem Follows.outcome : s'.outcome = s.outcome := by
  induction follows with
  | refl => rfl
  | perform op about _ ih => exact ih

theorem Follows.other (other : name ∉ names) : s'.dir name = s.dir name := by
  induction follows with
  | refl => rfl
  | perform op about _ ih => rw [perform_other fun mem => other (about name mem), ih]

theorem Follows.kept (kept : s.Kept P)
    (others : ∀ dir, (∀ name ∉ names, dir name = s.dir name) → P dir) : s'.Kept P := by
  induction follows with
  | refl => exact kept
  | perform op about pre ih =>
    exact Kept.perform ih (others _ fun name other => (Follows.perform op about pre).other other)

end Session

end Elsm.CrashFs
