import Elsm.Db.State
import Elsm.Lib.RefCount
import Elsm.Version.Recover

/-!
# References to open tables (`db/table_cache.cpp`)

`FindTable` gives out a handle of the table cache, and each caller has to give it back: `Get` by `Release`, an iterator
when it is destroyed.  The entries of the cache are counted with `RefCount`; the references are those of iterators and
one of the cache itself.  `BuildTable` destroys the iterator that it checks a new table with only if the check fails
(`buildTable_keeps_reference`).
-/

namespace Elsm

open RefCount (Counts)
open List

/-! ## The code -/

structure TableHandles where
  cache : List (Nat × Nat)
  entries : RefCount.Table Nat
  nextEntry : Nat
  /-- The entries under the table iterators that callers have. -/
  iterators : List Nat

/-- What an iterator was made with: an error, or a handle that is released when it is destroyed. -/
abbrev TableIterator := Except Status Nat

/-- Calls with what the host makes of them.  `opened` and `status` are the errors of `Open` and of the
iterator, if there are any. -/
inductive HandleEvent where
  | newIterator (number : Nat) (opened : Option Status)
  | destroyIterator (entry : Nat)
  | get (number : Nat) (opened : Option Status)
  /-- The files that the key falls into. -/
  | approximateOffsetOf (files : List (Nat × Option Status))
  /-- `written` when the memtable was not empty and the file was written. -/
  | buildTable (number : Nat) (written : Bool) (opened status : Option Status)
  | finishCompactionOutputFile (number : Nat) (written : Bool) (opened : Option Status)
  /-- `Evict`, or an eviction by the cache. -/
  | evict (number : Nat)

namespace TableHandles

def init : TableHandles := ⟨[], ⟨fun _ => 0, []⟩, 0, []⟩

/-- `FindTable`.  A new entry has a reference for the caller and one for the cache. -/
def findTable (s : TableHandles) (number : Nat) (opened : Option Status) : Except Status Nat × TableHandles :=
  match s.cache.lookup number with
  | some e => (.ok e, { s with entries := s.entries.ref e })
  | none =>
    match opened with
    | some error => (.error error, s)
    | none =>
      (.ok s.nextEntry, { s with
        cache := (number, s.nextEntry) :: s.cache
        entries := (s.entries.link s.nextEntry).ref s.nextEntry
        nextEntry := s.nextEntry + 1 })

def newIterator (s : TableHandles) (number : Nat) (opened : Option Status) : TableIterator × TableHandles :=
  s.findTable number opened

def release (s : TableHandles) (e : Nat) : TableHandles := { s with entries := s.entries.unref e }

def destroy (s : TableHandles) : TableIterator → TableHandles
  | .error _ => s
  | .ok e => s.release e

def get (s : TableHandles) (number : Nat) (opened : Option Status) : TableHandles :=
  match s.findTable number opened with
  | (.error _, s) => s
  | (.ok e, s) => s.release e

def approximateOffsetOf (s : TableHandles) (files : List (Nat × Option Status)) : TableHandles :=
  files.foldl (fun s file => let (iter, s) := s.newIterator file.1 file.2; s.destroy iter) s

/-- The end of `BuildTable`: the iterator stays if the table is usable. -/
def buildTable (s : TableHandles) (number : Nat) (written : Bool) (opened status : Option Status) : TableHandles :=
  if written then
    match s.newIterator number opened with
    | (.error error, s) => s.destroy (.error error)
    | (.ok e, s) => if status.isNone then s else s.destroy (.ok e)
  else s

def finishCompactionOutputFile (s : TableHandles) (number : Nat) (written : Bool) (opened : Option Status) :
    TableHandles :=
  if written then
    let (iter, s) := s.newIterator number opened
    s.destroy iter
  else s

def step (s : TableHandles) : HandleEvent → Except Stop TableHandles
  | .newIterator number opened =>
    match s.newIterator number opened with
    | (.error _, s) => .ok s
    | (.ok e, s) => .ok { s with iterators := e :: s.iterators }
  | .destroyIterator e =>
    if e ∈ s.iterators then .ok { s.destroy (.ok e) with iterators := s.iterators.erase e } else .error .disabled
  | .get number opened => .ok (s.get number opened)
  | .approximateOffsetOf files => .ok (s.approximateOffsetOf files)
  | .buildTable number written opened status => .ok (s.buildTable number written opened status)
  | .finishCompactionOutputFile number written opened => .ok (s.finishCompactionOutputFile number written opened)
  | .evict number =>
    match s.cache.lookup number with
    | none => .ok s
    | some e => .ok { s.release e with cache := s.cache.erase (number, e) }

/-! ## References -/

structure Holds (s : TableHandles) (handles : List Nat) : Prop where
  counts : Counts s.entries (handles ++ s.cache.map (·.2))
  fresh : ∀ e ∈ handles ++ s.cache.map (·.2), e < s.nextEntry
  distinct : (s.cache.map (·.2)).Nodup

variable {s : TableHandles} {handles : List Nat}

theorem mem_of_lookup {number e : Nat} (found : s.cache.lookup number = some e) : (number, e) ∈ s.cache := by
  obtain ⟨l, r, isCache, -⟩ := lookup_eq_some_iff.mp found
  rw [isCache]
  exact mem_append_right _ mem_cons_self

theorem Holds.findTable (holds : Holds s handles) (number : Nat) (opened : Option Status) :
    match s.findTable number opened with
    | (.error _, s') => s' = s
    | (.ok e, s') => Holds s' (e :: handles) ∧ s'.iterators = s.iterators := by
  unfold TableHandles.findTable
  cases found : s.cache.lookup number with
  | some e =>
    have mem : e ∈ handles ++ s.cache.map (·.2) := mem_append_right _ (mem_map.mpr ⟨_, mem_of_lookup found, rfl⟩)
    exact ⟨⟨holds.counts.ref mem, forall_mem_cons.mpr ⟨holds.fresh e mem, holds.fresh⟩, holds.distinct⟩, rfl⟩
  | none =>
    cases opened with
    | some error => rfl
    | none =>
      have unused : s.nextEntry ∉ handles ++ s.cache.map (·.2) := fun mem => lt_irrefl _ (holds.fresh _ mem)
      have counts := (holds.counts.link unused).ref mem_cons_self
      have moved : (s.nextEntry :: s.nextEntry :: (handles ++ s.cache.map (·.2))).Perm
          ((s.nextEntry :: handles) ++ s.nextEntry :: s.cache.map (·.2)) := perm_middle.symm.cons _
      refine ⟨⟨counts.perm moved, fun e mem => ?_, ?_⟩, rfl⟩
      · obtain isNew | isNew | old : e = s.nextEntry ∨ e = s.nextEntry ∨ e ∈ handles ++ s.cache.map (·.2) := by
          simpa using moved.mem_iff.mpr mem
        · exact isNew ▸ Nat.lt_succ_self _
        · exact isNew ▸ Nat.lt_succ_self _
        · exact Nat.lt_succ_of_lt (holds.fresh e old)
      · exact nodup_cons.mpr ⟨fun mem => unused (mem_append_right _ mem), holds.distinct⟩

theorem Holds.release {e : Nat} (holds : Holds s (e :: handles)) : Holds (s.release e) handles :=
  ⟨holds.counts.unref, fun e mem => holds.fresh e (mem_cons_of_mem _ mem), holds.distinct⟩

theorem Holds.destroyed (holds : Holds s handles) (number : Nat) (opened : Option Status) :
    Holds ((s.newIterator number opened).2.destroy (s.newIterator number opened).1) handles ∧
      ((s.newIterator number opened).2.destroy (s.newIterator number opened).1).iterators = s.iterators := by
  have found := holds.findTable number opened
  rw [newIterator]
  split at found
  case h_1 error s' isFound =>
    rw [isFound, found]
    exact ⟨holds, rfl⟩
  case h_2 e s' isFound =>
    rw [isFound]
    exact ⟨found.1.release, found.2⟩

def keeps (s : TableHandles) : HandleEvent → Bool
  | .buildTable number written opened status =>
    written && ((s.cache.lookup number).isSome || opened.isNone) && status.isNone
  | _ => false

theorem Holds.step {s' : TableHandles} {event : HandleEvent} (holds : Holds s s.iterators)
    (notKept : s.keeps event = false)
    (taken : s.step event = .ok s') : Holds s' s'.iterators := by
  cases event with
  | newIterator number opened =>
    have found := holds.findTable number opened
    simp only [TableHandles.step, TableHandles.newIterator] at taken
    split at taken
    case h_1 error s₁ isFound =>
      rw [isFound] at found
      cases taken
      exact found ▸ holds
    case h_2 e s₁ isFound =>
      rw [isFound] at found
      cases taken
      exact ⟨found.2 ▸ found.1.counts, found.2 ▸ found.1.fresh, found.1.distinct⟩
  | destroyIterator e =>
    simp only [TableHandles.step] at taken
    split at taken
    case isTrue mem =>
      cases taken
      have moved := (perm_cons_erase mem).append_right (s.cache.map (·.2))
      have held : Holds s (e :: s.iterators.erase e) :=
        ⟨holds.counts.perm moved, fun e mem => holds.fresh e (moved.mem_iff.mpr mem), holds.distinct⟩
      exact ⟨held.release.counts, held.release.fresh, held.distinct⟩
    case isFalse => cases taken
  | get number opened =>
    cases taken
    obtain ⟨held, same⟩ := holds.destroyed number opened
    have isGet : s.get number opened = (s.newIterator number opened).2.destroy (s.newIterator number opened).1 := by
      unfold TableHandles.get newIterator
      split <;> simp only [*, destroy]
    rw [isGet, same]
    exact held
  | approximateOffsetOf files =>
    cases taken
    rw [TableHandles.approximateOffsetOf]
    clear notKept
    induction files generalizing s with
    | nil => exact holds
    | cons file rest ih =>
      obtain ⟨held, same⟩ := holds.destroyed file.1 file.2
      exact ih (same ▸ held)
  | buildTable number written opened status =>
    cases taken
    have found := holds.findTable number opened
    unfold TableHandles.buildTable newIterator
    split
    case isTrue isWritten =>
      split
      case h_1 error s₁ isFound =>
        rw [isFound] at found
        exact found ▸ holds
      case h_2 e s₁ isFound =>
        rw [isFound] at found
        split
        case isTrue isOk =>
          unfold TableHandles.findTable at isFound
          split at isFound
          case h_1 isCached => simp [keeps, isWritten, isOk, isCached] at notKept
          case h_2 =>
            split at isFound
            case h_1 => cases isFound
            case h_2 => simp [keeps, isWritten, isOk] at notKept
        case isFalse => exact found.2 ▸ found.1.release
    case isFalse => exact holds
  | finishCompactionOutputFile number written opened =>
    cases taken
    rw [TableHandles.finishCompactionOutputFile]
    split
    case isTrue =>
      obtain ⟨held, same⟩ := holds.destroyed number opened
      exact same ▸ held
    case isFalse => exact holds
  | evict number =>
    simp only [TableHandles.step] at taken
    split at taken
    case h_1 =>
      cases taken
      exact holds
    case h_2 e found =>
      cases taken
      have moved : (s.iterators ++ s.cache.map (·.2)).Perm (e ::
          (s.iterators ++ (s.cache.erase (number, e)).map (·.2))) :=
        (((perm_cons_erase (mem_of_lookup found)).map _).append_left _).trans perm_middle
      refine ⟨(holds.counts.perm moved).unref, fun e mem => ?_, ?_⟩
      · exact holds.fresh e (moved.mem_iff.mpr (mem_cons_of_mem _ mem))
      · exact holds.distinct.sublist (erase_sublist.map _)

/-- As long as `BuildTable` finds no new table usable, the references to an entry are those of the iterators that
callers have, and one of the cache.  So without iterators the cache can let it go. -/
theorem references_balance (s : TableHandles)
    (run : Transition.Reaches (Transition.Steps step) (fun s event => s.keeps event = false) init s) :
    (∀ e, s.entries.refs e = s.iterators.count e + (s.cache.map (·.2)).count e) ∧
      ∀ number e, s.cache.lookup number = some e → e ∉ s.iterators → s.entries.refs e = 1 := by
  have start : Holds init init.iterators := ⟨⟨fun _ => rfl, fun _ => Iff.rfl, nodup_nil⟩, nofun, nodup_nil⟩
  have holds : Holds s s.iterators := run.invariant (fun s => Holds s s.iterators) start Holds.step
  have balance : ∀ e, s.entries.refs e = s.iterators.count e + (s.cache.map (·.2)).count e := by
    intro e
    rw [holds.counts.count, count_append]
  refine ⟨balance, fun number e found unused => ?_⟩
  rw [balance, count_eq_zero_of_not_mem unused,
    count_eq_one_of_mem holds.distinct (mem_map.mpr ⟨_, mem_of_lookup found, rfl⟩)]

/-- Two iterators on a table, of which one is destroyed, and a lookup in it. -/
theorem references_balance_iterators : ∃ s,
    Transition.Reaches (Transition.Steps step) (fun s event => s.keeps event = false) init s ∧ s.iterators = [0] ∧
      s.entries.refs 0 = [0].count 0 + [0].count 0 := by
  have run := Transition.reaches_of_run .refl (rfl : Transition.run step (fun s event => s.keeps event = false) init
    [.newIterator 7 none, .newIterator 7 none, .get 7 none, .destroyIterator 0] = some _)
  exact ⟨_, run, rfl, (references_balance _ run).1 0⟩

/-- The flush of a memtable leaves a reference although no caller has an iterator. -/
theorem buildTable_keeps_reference : ∃ s, Transition.Reaches (Transition.Steps step) (fun _ _ => True) init s ∧
    s.iterators = [] ∧ s.cache = [(1, 0)] ∧ s.entries.refs 0 = 2 :=
  ⟨_, Transition.reaches_of_run .refl (rfl : Transition.run step (fun _ _ => True)
    init [.buildTable 1 true none none] = some _),
    rfl, rfl, rfl⟩

end TableHandles

end Elsm
