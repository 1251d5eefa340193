import Mathlib.Data.List.FinRange
import Mathlib.Logic.Function.Basic
import Elsm.Lib.Cursor

/-!
# The merging iterator (`table/merger.cpp`, `table/iterator_wrapper.h`)

`mergingIterator_tracks` says that the iterator is a cursor over the sorted union of its children's entries.  The
invariant is about the children that are not current: going forward, each stands on its first entry above the current
key; going back, on its last entry below it.
-/

namespace Elsm

open List
open Cursor (Move Iterator Tracks Stands First Ascending Position entryAt)

variable {σ K V : Type} {n : Nat}

/-! ## The code -/

inductive Direction where
  | forward
  | reverse
  deriving DecidableEq, Repr

/-- `IteratorWrapper`: an iterator with its key as it was after the last move, `none` when `valid_` is false. -/
structure IteratorWrapper (σ K : Type) where
  iter : σ
  key : Option K

namespace IteratorWrapper

/-- `Set` and `Update`. -/
def update (it : Iterator σ K V) (iter : σ) : IteratorWrapper σ K := ⟨iter, (it.current iter).map (·.1)⟩

/-- `Next`, `Prev`, `Seek`, `SeekToFirst` and `SeekToLast`. -/
def move (it : Iterator σ K V) (m : Move K) (w : IteratorWrapper σ K) : Option (IteratorWrapper σ K) :=
  (it.move m w.iter).map (update it)

def value (it : Iterator σ K V) (w : IteratorWrapper σ K) : Option V := (it.current w.iter).map (·.2)

end IteratorWrapper

/-- `children_` with its length `n_`, `current_` as an index, and `direction_`. -/
structure MergingIterator (σ K : Type) (n : Nat) where
  children : Fin n → IteratorWrapper σ K
  current : Option (Fin n)
  direction : Direction

namespace MergingIterator

def forChildren (body : Fin n → Option (IteratorWrapper σ K)) : Option (Fin n → IteratorWrapper σ K) :=
  if h : ∀ i, (body i).isSome then some fun i => (body i).get (h i) else none

def pick (better : K → K → Prop) [DecidableRel better] (children : Fin n → IteratorWrapper σ K)
    (best : Option (Fin n × K)) (i : Fin n) : Option (Fin n × K) :=
  match (children i).key, best with
  | none, best => best
  | some key, none => some (i, key)
  | some key, some (b, bestKey) => if better key bestKey then some (i, key) else some (b, bestKey)

section Order

variable [LinearOrder K]

def findSmallest (children : Fin n → IteratorWrapper σ K) : Option (Fin n) :=
  ((finRange n).foldl (pick (· < ·) children) none).map (·.1)

/-- From the last child to the first. -/
def findLargest (children : Fin n → IteratorWrapper σ K) : Option (Fin n) :=
  ((finRange n).reverse.foldl (pick (· > ·) children) none).map (·.1)

def new (it : Iterator σ K V) (children : Fin n → σ) : MergingIterator σ K n :=
  ⟨fun i => .update it (children i), none, .forward⟩

/-- `Valid`, `key` and `value`. -/
def entry (it : Iterator σ K V) (m : MergingIterator σ K n) : Option (K × V) := do
  let c ← m.current
  let key ← (m.children c).key
  let value ← (m.children c).value it
  return (key, value)

def seekToFirst (it : Iterator σ K V) (m : MergingIterator σ K n) : Option (MergingIterator σ K n) := do
  let children ← forChildren fun i => (m.children i).move it .seekToFirst
  return ⟨children, findSmallest children, .forward⟩

def seekToLast (it : Iterator σ K V) (m : MergingIterator σ K n) : Option (MergingIterator σ K n) := do
  let children ← forChildren fun i => (m.children i).move it .seekToLast
  return ⟨children, findLargest children, .reverse⟩

def seek (it : Iterator σ K V) (target : K) (m : MergingIterator σ K n) : Option (MergingIterator σ K n) := do
  let children ← forChildren fun i => (m.children i).move it (.seek target)
  return ⟨children, findSmallest children, .forward⟩

/-- What `Next` does to a child that is not current when the direction changes. -/
def seekAfter (it : Iterator σ K V) (key : K) (child : IteratorWrapper σ K) : Option (IteratorWrapper σ K) := do
  let child ← child.move it (.seek key)
  if child.key = some key then child.move it .next else return child

/-- What `Prev` does to a child that is not current when the direction changes. -/
def seekBefore (it : Iterator σ K V) (key : K) (child : IteratorWrapper σ K) : Option (IteratorWrapper σ K) := do
  let child ← child.move it (.seek key)
  -- a valid child is at its first entry >= key; the others have no such entry
  if child.key.isSome then child.move it .prev else child.move it .seekToLast

/-- Before a step in the other direction, every child but the current one is placed anew. -/
def turn (m : MergingIterator σ K n) (d : Direction) (c : Fin n)
    (place : IteratorWrapper σ K → Option (IteratorWrapper σ K)) : Option (Fin n → IteratorWrapper σ K) :=
  if m.direction ≠ d then forChildren fun i => if i = c then some (m.children i) else place (m.children i)
  else some m.children

def next (it : Iterator σ K V) (m : MergingIterator σ K n) : Option (MergingIterator σ K n) := do
  -- assert(Valid())
  let c ← m.current
  let key ← (m.children c).key
  let children ← m.turn .forward c (seekAfter it key)
  let current ← (children c).move it .next
  let children := Function.update children c current
  return ⟨children, findSmallest children, .forward⟩

def prev (it : Iterator σ K V) (m : MergingIterator σ K n) : Option (MergingIterator σ K n) := do
  -- assert(Valid())
  let c ← m.current
  let key ← (m.children c).key
  let children ← m.turn .reverse c (seekBefore it key)
  let current ← (children c).move it .prev
  let children := Function.update children c current
  return ⟨children, findLargest children, .reverse⟩

end Order

end MergingIterator

def mergingIterator [LinearOrder K] (it : Iterator σ K V) (n : Nat) : Iterator (MergingIterator σ K n) K V where
  current := MergingIterator.entry it
  move
    | .seekToFirst => MergingIterator.seekToFirst it
    | .seekToLast => MergingIterator.seekToLast it
    | .seek target => MergingIterator.seek it target
    | .next => MergingIterator.next it
    | .prev => MergingIterator.prev it

def sortedUnion [LinearOrder K] (lists : Fin n → List (K × V)) : List (K × V) :=
  ((finRange n).flatMap lists).mergeSort fun a b => decide (a.1 ≤ b.1)

variable [LinearOrder K] {it : Iterator σ K V} {lists : Fin n → List (K × V)}

/-! ## The union -/

def DistinctKeys (lists : Fin n → List (K × V)) : Prop :=
  ∀ i j, i ≠ j → ∀ a ∈ lists i, ∀ b ∈ lists j, a.1 ≠ b.1

@[simp] theorem mem_sortedUnion {e : K × V} : e ∈ sortedUnion lists ↔ ∃ i, e ∈ lists i := by
  rw [sortedUnion, mem_mergeSort, mem_flatMap]
  exact ⟨fun ⟨i, _, mem⟩ => ⟨i, mem⟩, fun ⟨i, mem⟩ => ⟨i, mem_finRange i, mem⟩⟩

theorem sortedUnion_ascending (asc : ∀ i, Ascending (lists i)) (dist : DistinctKeys lists) :
    Ascending (sortedUnion lists) := by
  have sorted : (sortedUnion lists).Pairwise fun a b => a.1 ≤ b.1 := by
    have ord := @List.pairwise_mergeSort _ (fun a b : K × V => decide (a.1 ≤ b.1))
      (fun a b c ab bc => by simpa using le_trans (of_decide_eq_true ab) (of_decide_eq_true bc))
      (fun a b => by simpa using le_total a.1 b.1) ((finRange n).flatMap lists)
    exact ord.imp of_decide_eq_true
  have apart : (sortedUnion lists).Pairwise fun a b => a.1 ≠ b.1 := by
    have inParts : ((finRange n).flatMap lists).Pairwise fun a b => a.1 ≠ b.1 := by
      rw [pairwise_flatMap]
      refine ⟨fun i _ => (asc i).imp ne_of_lt, ?_⟩
      exact (nodup_finRange n).imp fun differ a inA b inB => dist _ _ differ a inA b inB
    exact (mergeSort_perm _ _).symm.pairwise inParts fun differ => differ.symm
  exact sorted.imp₂ (fun _ _ => lt_of_le_of_ne) apart

/-! ## One child -/

/-- The child is a cursor that stands on the entry, and the wrapper has its key. -/
structure IteratorWrapper.On (it : Iterator σ K V) (l : List (K × V)) (w : IteratorWrapper σ K) (e : Option (K × V)) :
    Prop where
  stands : Stands it l w.iter e
  key : w.key = e.map (·.1)

variable {e : Option (K × V)} {l : List (K × V)}

theorem Cursor.Stands.update {s : σ} (stands : Stands it l s e) : (IteratorWrapper.update it s).On it l e :=
  ⟨stands, by rw [IteratorWrapper.update, stands.current]⟩

variable {w : IteratorWrapper σ K}

theorem IteratorWrapper.On.move (asc : Ascending l) (on : w.On it l e) (m : Move K) (ok : m.Allowed e.isSome) :
    ∃ w' e', w.move it m = some w' ∧ w'.On it l e' ∧ m.Lands l e e' := by
  obtain ⟨s', e', moved, stands, lands⟩ := on.stands.move asc m ok
  exact ⟨.update it s', e', by rw [IteratorWrapper.move, moved]; rfl, stands.update, lands⟩

/-! ## The order in a direction -/

/-- Not after, in the direction of the iterator. -/
def Direction.le : Direction → K → K → Prop
  | .forward => (· ≤ ·)
  | .reverse => (· ≥ ·)

def Direction.lt : Direction → K → K → Prop
  | .forward => (· < ·)
  | .reverse => (· > ·)

variable {d : Direction}

theorem Direction.le_trans {a b c : K} (ab : d.le a b) (bc : d.le b c) : d.le a c := by
  cases d with
  | forward => exact Preorder.le_trans _ _ _ ab bc
  | reverse => exact Preorder.le_trans _ _ _ bc ab

theorem Direction.lt_iff {a b : K} : d.lt a b ↔ d.le a b ∧ a ≠ b := by
  cases d with
  | forward => exact lt_iff_le_and_ne
  | reverse => exact lt_iff_le_and_ne.trans (and_congr_right fun _ => ne_comm)

instance (d : Direction) (a b : K) : Decidable (d.le a b) :=
  match d with
  | .forward => inferInstanceAs (Decidable (a ≤ b))
  | .reverse => inferInstanceAs (Decidable (b ≤ a))

namespace MergingIterator

/-! ## Choosing a child -/

/-- The child whose key comes first, or none when no child is valid. -/
def Chosen (r : K → K → Prop) (children : Fin n → IteratorWrapper σ K) : Option (Fin n) → Prop
  | none => ∀ i, (children i).key = none
  | some c => ∃ key, (children c).key = some key ∧ ∀ i, ∀ other ∈ (children i).key, r key other

def Best (better : K → K → Prop) (children : Fin n → IteratorWrapper σ K) (seen : List (Fin n)) :
    Option (Fin n × K) → Prop
  | none => ∀ i ∈ seen, (children i).key = none
  | some (b, key) => (children b).key = some key ∧ ∀ i ∈ seen, ∀ other ∈ (children i).key, ¬better other key

omit [LinearOrder K] in
theorem Best.pick {better : K → K → Prop} [DecidableRel better] (irrefl : ∀ a, ¬better a a)
    (trans : ∀ a b c, better a b → better b c → better a c) {children : Fin n → IteratorWrapper σ K}
    {seen : List (Fin n)}
    {best : Option (Fin n × K)} (isBest : Best better children seen best) (i : Fin n) :
    Best better children (seen ++ [i]) (MergingIterator.pick better children best i) := by
  unfold MergingIterator.pick
  cases isKey : (children i).key with
  | none =>
    cases best with
    | none => exact forall_mem_append.mpr ⟨isBest, forall_mem_singleton.mpr isKey⟩
    | some chosen => exact ⟨isBest.1, forall_mem_append.mpr ⟨isBest.2, by simp [isKey]⟩⟩
  | some key =>
    have self : ∀ j ∈ [i], ∀ other ∈ (children j).key, ¬better other key := by simp [isKey, irrefl]
    cases best with
    | none =>
      refine ⟨isKey, forall_mem_append.mpr ⟨fun j earlier other isOther => ?_, self⟩⟩
      rw [isBest j earlier] at isOther
      cases isOther
    | some chosen =>
      obtain ⟨b, bestKey⟩ := chosen
      dsimp only
      split
      case isTrue wins =>
        refine ⟨isKey, forall_mem_append.mpr ⟨fun j earlier other isOther betters => ?_, self⟩⟩
        exact isBest.2 j earlier other isOther (trans _ _ _ betters wins)
      case isFalse loses => exact ⟨isBest.1, forall_mem_append.mpr ⟨isBest.2, by simpa [isKey] using loses⟩⟩

omit [LinearOrder K] in
theorem Best.foldl {better : K → K → Prop} [DecidableRel better] (irrefl : ∀ a, ¬better a a)
    (trans : ∀ a b c, better a b → better b c → better a c) {children : Fin n → IteratorWrapper σ K}
    (order : List (Fin n))
    {seen : List (Fin n)} {best : Option (Fin n × K)} (isBest : Best better children seen best) :
    Best better children (seen ++ order) (order.foldl (MergingIterator.pick better children) best) := by
  induction order generalizing seen best with
  | nil => rwa [append_nil]
  | cons i rest ih =>
    have all := ih (isBest.pick irrefl trans i)
    rwa [append_assoc] at all

omit [LinearOrder K] in
theorem Best.chosen {better r : K → K → Prop} (total : ∀ a b, ¬better b a → r a b)
    {children : Fin n → IteratorWrapper σ K} {seen : List (Fin n)} (all : ∀ i, i ∈ seen) {best : Option (Fin n × K)}
    (isBest : Best better children seen best) : Chosen r children (best.map (·.1)) := by
  cases best with
  | none => exact fun i => isBest i (all i)
  | some chosen => exact ⟨chosen.2, isBest.1, fun i other isOther => total _ _ (isBest.2 i (all i) other isOther)⟩

theorem findSmallest_chosen (children : Fin n → IteratorWrapper σ K) :
    Chosen Direction.forward.le children (findSmallest children) := by
  have start : Best (· < ·) children [] none := nofun
  have isBest := start.foldl lt_irrefl (fun _ _ _ => lt_trans) (finRange n)
  exact isBest.chosen (fun _ _ => le_of_not_gt) (by simp)

theorem findLargest_chosen (children : Fin n → IteratorWrapper σ K) :
    Chosen Direction.reverse.le children (findLargest children) := by
  have start : Best (· > ·) children [] none := nofun
  have isBest := @Best.foldl σ K n (· > ·) _ lt_irrefl (fun _ _ _ ab bc => lt_trans bc ab)
    children (finRange n).reverse
    [] none start
  exact isBest.chosen (fun _ _ => le_of_not_gt) (by simp)

/-! ## Loops over the children -/

omit [LinearOrder K] in
theorem forChildren_spec {body : Fin n → Option (IteratorWrapper σ K)} {Q : Fin n → IteratorWrapper σ K → Prop}
    (each : ∀ i, ∃ w, body i = some w ∧ Q i w) : ∃ children, forChildren body = some children ∧
      ∀ i, Q i (children i) := by
  choose children isBody holds using each
  have allSome : ∀ i, (body i).isSome := fun i => by rw [isBody i]; rfl
  refine ⟨children, ?_, holds⟩
  rw [forChildren, dif_pos allSome]
  simp only [isBody, Option.get_some]

/-! ## The invariant -/

/-- The current child stands on the entry, and each other child on its first entry beyond it. -/
def Aligned (it : Iterator σ K V) (lists : Fin n → List (K × V)) (d : Direction) (c : Fin n) (x : K × V)
    (children : Fin n → IteratorWrapper σ K) : Prop :=
  ∀ i, ∃ e, (children i).On it (lists i) e ∧ (i = c → e = some x) ∧ (i ≠ c → First d.le (lists i) (d.lt x.1) e)

def Inv (it : Iterator σ K V) (lists : Fin n → List (K × V)) (m : MergingIterator σ K n) : Option (K × V) → Prop
  | none => m.current = none ∧ ∀ i, ∃ e, (m.children i).On it (lists i) e
  | some x => ∃ c, m.current = some c ∧ Aligned it lists m.direction c x m.children

variable {m : MergingIterator σ K n}

theorem Inv.entry (inv : Inv it lists m e) : m.entry it = e := by
  cases e with
  | none => rw [MergingIterator.entry, inv.1]; rfl
  | some x =>
    obtain ⟨c, isCurrent, aligned⟩ := inv
    obtain ⟨_, on, here, -⟩ := aligned c
    obtain rfl := here rfl
    simp [MergingIterator.entry, isCurrent, on.key, IteratorWrapper.value, on.stands.current]

theorem Inv.children (inv : Inv it lists m e) (i : Fin n) : ∃ e, (m.children i).On it (lists i) e := by
  cases e with
  | none => exact inv.2 i
  | some x =>
    obtain ⟨c, -, aligned⟩ := inv
    obtain ⟨e, on, -⟩ := aligned i
    exact ⟨e, on⟩

/-- Every child is at its first entry with a property, and the child that comes first of all is chosen: then it is at
the first such entry of the union. -/
theorem inv_of_first (dist : DistinctKeys lists) {children : Fin n → IteratorWrapper σ K}
    {cur : Option (Fin n)} (chosen : Chosen d.le children cur) {P : K → Prop} (upward : ∀ a b, P a → d.le a b → P b)
    (placed : ∀ i, ∃ e, (children i).On it (lists i) e ∧ First d.le (lists i) P e) :
    ∃ e, Inv it lists ⟨children, cur, d⟩ e ∧ First d.le (sortedUnion lists) P e := by
  choose place on first using placed
  cases cur with
  | none =>
    refine ⟨none, ⟨rfl, fun i => ⟨_, on i⟩⟩, fun e mem holds => ?_⟩
    obtain ⟨i, inList⟩ := mem_sortedUnion.mp mem
    have isNone : place i = none := Option.map_eq_none_iff.mp ((on i).key.symm.trans (chosen i))
    have nothing := first i
    rw [isNone] at nothing
    exact nothing e inList holds
  | some c =>
    obtain ⟨key, isKey, least⟩ := chosen
    obtain ⟨x, isPlace, rfl⟩ := Option.map_eq_some_iff.mp ((on c).key.symm.trans isKey)
    have here := first c
    rw [isPlace] at here
    have later : ∀ i, ∀ z ∈ lists i, P z.1 → d.le x.1 z.1 := by
      intro i z mem holds
      have inList := first i
      cases isY : place i with
      | none =>
        rw [isY] at inList
        exact absurd holds (inList z mem)
      | some y =>
        rw [isY] at inList
        have notAfter : d.le x.1 y.1 := least i y.1 (by rw [(on i).key, isY]; rfl)
        exact Direction.le_trans notAfter (inList.2.2 z mem holds)
    refine ⟨some x, ⟨c, rfl, fun i => ⟨place i, on i, fun eq => eq ▸ isPlace, fun differ => ?_⟩⟩, ?_⟩
    · refine (first i).congr fun z mem => ⟨fun holds => ?_, fun beyond => ?_⟩
      · exact Direction.lt_iff.mpr ⟨later i z mem holds, dist c i differ.symm x here.1 z mem⟩
      · exact upward _ _ here.2.1 (Direction.lt_iff.mp beyond).1
    · refine ⟨mem_sortedUnion.mpr ⟨c, here.1⟩, here.2.1, fun z mem holds => ?_⟩
      obtain ⟨i, inI⟩ := mem_sortedUnion.mp mem
      exact later i z inI holds

/-! ## Turning round -/

theorem seekAfter_spec (asc : Ascending l) (on : w.On it l e) (key : K) :
    ∃ w' e', seekAfter it key w = some w' ∧ w'.On it l e' ∧ First (· ≤ ·) l (key < ·) e' := by
  obtain ⟨w₁, e₁, sought, on₁, atLeast⟩ := on.move asc (.seek key) trivial
  simp only [seekAfter, sought, Option.bind_eq_bind, Option.bind_some]
  split
  case isTrue eq =>
    rw [on₁.key] at eq
    obtain ⟨x, rfl, rfl⟩ := Option.map_eq_some_iff.mp eq
    obtain ⟨w₂, e₂, moved, on₂, beyond⟩ := on₁.move asc .next rfl
    exact ⟨w₂, e₂, moved, on₂, Cursor.lands_next.mp beyond⟩
  case isFalse differs =>
    refine ⟨w₁, e₁, rfl, on₁, ?_⟩
    rw [on₁.key] at differs
    cases e₁ with
    | none => exact fun y mem above => atLeast y mem above.le
    | some x =>
      obtain ⟨mem, reaches, least⟩ := atLeast
      have beyond : key < x.1 := lt_of_le_of_ne reaches fun eq => differs (congrArg some eq.symm)
      exact ⟨mem, beyond, fun y inList above => least y inList above.le⟩

theorem seekBefore_spec (asc : Ascending l) (on : w.On it l e) (key : K) :
    ∃ w' e', seekBefore it key w = some w' ∧ w'.On it l e' ∧ First (· ≥ ·) l (· < key) e' := by
  obtain ⟨w₁, e₁, sought, on₁, atLeast⟩ := on.move asc (.seek key) trivial
  simp only [seekBefore, sought, Option.bind_eq_bind, Option.bind_some, on₁.key, Option.isSome_map]
  cases e₁ with
  | none =>
    obtain ⟨w₂, e₂, moved, on₂, last⟩ := on₁.move asc .seekToLast trivial
    refine ⟨w₂, e₂, by simpa using moved, on₂, (Cursor.lands_seekToLast.mp last).congr fun y mem => ?_⟩
    exact iff_of_true trivial (lt_of_not_ge (atLeast y mem))
  | some x =>
    obtain ⟨w₂, e₂, moved, on₂, last⟩ := on₁.move asc .prev rfl
    refine ⟨w₂, e₂, by simpa using moved, on₂, (Cursor.lands_prev.mp last).congr fun y mem => ?_⟩
    obtain ⟨-, reaches, least⟩ := atLeast
    constructor
    · intro below
      exact lt_of_not_ge fun above => absurd (least y mem above) (not_le.mpr below)
    · exact fun below => lt_of_lt_of_le below reaches

variable {x : K × V}

theorem turn_spec {c : Fin n} (aligned : Aligned it lists m.direction c x m.children)
    {place : IteratorWrapper σ K → Option (IteratorWrapper σ K)} (places : ∀ i w e, w.On it (lists i) e →
      ∃ w' e', place w = some w' ∧ w'.On it (lists i) e' ∧ First d.le (lists i) (d.lt x.1) e') :
    ∃ children, m.turn d c place = some children ∧ Aligned it lists d c x children := by
  rw [turn]
  split
  case isFalse eq => exact ⟨_, rfl, not_not.mp eq ▸ aligned⟩
  case isTrue =>
    refine forChildren_spec (Q := fun i w => ∃ e, w.On it (lists i) e ∧ (i = c → e = some x) ∧
      (i ≠ c → First d.le (lists i) (d.lt x.1) e)) fun i => ?_
    obtain ⟨e, on, here, -⟩ := aligned i
    by_cases eq : i = c
    · exact ⟨_, if_pos eq, e, on, here, fun differ => absurd eq differ⟩
    · obtain ⟨w, e', moved, on', first⟩ := places i _ e on
      exact ⟨w, by rw [if_neg eq, moved], e', on', fun isC => absurd isC eq, fun _ => first⟩

/-- The current child steps, and the child that now comes first is chosen. -/
theorem Aligned.step (dist : DistinctKeys lists) {c : Fin n}
    {children : Fin n → IteratorWrapper σ K} (aligned : Aligned it lists d c x children)
    (on : w.On it (lists c) e) (first : First d.le (lists c) (d.lt x.1) e) {cur : Option (Fin n)}
    (chosen : Chosen d.le (Function.update children c w) cur) :
    ∃ e', Inv it lists ⟨Function.update children c w, cur, d⟩ e' ∧ First d.le (sortedUnion lists) (d.lt x.1) e' := by
  apply inv_of_first dist chosen
  · intro a b beyond notBefore
    cases d with
    | forward => exact lt_of_lt_of_le beyond notBefore
    | reverse => exact lt_of_le_of_lt notBefore beyond
  · intro i
    by_cases same : i = c
    · subst same
      exact ⟨e, by rwa [Function.update_self], first⟩
    · obtain ⟨e', on', -, beyond⟩ := aligned i
      exact ⟨e', by rwa [Function.update_of_ne same], beyond same⟩

/-! ## The moves -/

variable (asc : ∀ i, Ascending (lists i)) (dist : DistinctKeys lists)

include asc dist

theorem inv_of_seek (inv : Inv it lists m e) {find : (Fin n → IteratorWrapper σ K) → Option (Fin n)}
    (chosen : ∀ children, Chosen d.le children (find children)) (move : Move K) (always : ∀ valid, move.Allowed valid)
    {P : K → Prop} (upward : ∀ a b, P a → d.le a b → P b)
    (lands : ∀ i e e', move.Lands (lists i) e e' → First d.le (lists i) P e') :
    ∃ children e', forChildren (fun i => (m.children i).move it move) = some children ∧
      Inv it lists ⟨children, find children, d⟩ e' ∧ First d.le (sortedUnion lists) P e' := by
  have each : ∀ i, ∃ w, (m.children i).move it move = some w ∧ ∃ e, w.On it (lists i) e ∧ First d.le (lists i) P e := by
    intro i
    obtain ⟨e₀, on⟩ := inv.children i
    obtain ⟨w, e₁, moved, on₁, landed⟩ := on.move (asc i) move (always _)
    exact ⟨w, moved, e₁, on₁, lands i _ _ landed⟩
  obtain ⟨children, moved, placed⟩ := forChildren_spec each
  obtain ⟨e', inv', first⟩ := inv_of_first dist (chosen children) upward placed
  exact ⟨children, e', moved, inv', first⟩

theorem next_spec (inv : Inv it lists m (some x)) :
    ∃ m' e', m.next it = some m' ∧ Inv it lists m' e' ∧ First (· ≤ ·) (sortedUnion lists) (x.1 < ·) e' := by
  obtain ⟨c, isCurrent, aligned⟩ := inv
  obtain ⟨_, onC, here, -⟩ := aligned c
  obtain rfl := here rfl
  obtain ⟨children, isTurned, aligned'⟩ := turn_spec (d := .forward) aligned fun i _ _ on =>
    seekAfter_spec (asc i) on x.1
  obtain ⟨_, onC', here', -⟩ := aligned' c
  obtain rfl := here' rfl
  obtain ⟨w, e, moved, on, beyond⟩ := onC'.move (asc c) .next rfl
  obtain ⟨e', inv', first⟩ := aligned'.step dist on (Cursor.lands_next.mp beyond) (findSmallest_chosen _)
  refine ⟨_, e', ?_, inv', first⟩
  simp only [next, isCurrent, onC.key, Option.map_some, Option.bind_eq_bind, Option.bind_some, isTurned, moved]
  rfl

theorem prev_spec (inv : Inv it lists m (some x)) :
    ∃ m' e', m.prev it = some m' ∧ Inv it lists m' e' ∧ First (· ≥ ·) (sortedUnion lists) (· < x.1) e' := by
  obtain ⟨c, isCurrent, aligned⟩ := inv
  obtain ⟨_, onC, here, -⟩ := aligned c
  obtain rfl := here rfl
  obtain ⟨children, isTurned, aligned'⟩ := turn_spec (d := .reverse) aligned fun i _ _ on =>
    seekBefore_spec (asc i) on x.1
  obtain ⟨_, onC', here', -⟩ := aligned' c
  obtain rfl := here' rfl
  obtain ⟨w, e, moved, on, beyond⟩ := onC'.move (asc c) .prev rfl
  obtain ⟨e', inv', first⟩ := aligned'.step dist on (Cursor.lands_prev.mp beyond) (findLargest_chosen _)
  refine ⟨_, e', ?_, inv', first⟩
  simp only [prev, isCurrent, onC.key, Option.map_some, Option.bind_eq_bind, Option.bind_some, isTurned, moved]
  rfl

theorem Inv.move (inv : Inv it lists m e) (move : Move K) (ok : move.Allowed e.isSome) :
    ∃ m' e', (mergingIterator it n).move move m = some m' ∧ Inv it lists m' e' ∧
      move.Lands (sortedUnion lists) e e' := by
  cases move with
  | seekToFirst =>
    obtain ⟨children, e', moved, inv', first⟩ := inv_of_seek asc dist inv findSmallest_chosen .seekToFirst
      (fun _ => trivial) (fun _ _ _ _ => trivial) fun _ _ _ => Cursor.lands_seekToFirst.mp
    exact ⟨_, e', by simp only [mergingIterator, seekToFirst, moved]; rfl, inv', first⟩
  | seekToLast =>
    obtain ⟨children, e', moved, inv', first⟩ := inv_of_seek asc dist inv findLargest_chosen .seekToLast
      (fun _ => trivial) (fun _ _ _ _ => trivial) fun _ _ _ => Cursor.lands_seekToLast.mp
    exact ⟨_, e', by simp only [mergingIterator, seekToLast, moved]; rfl, inv', first⟩
  | seek target =>
    obtain ⟨children, e', moved, inv', first⟩ := inv_of_seek asc dist inv findSmallest_chosen (.seek target)
      (fun _ => trivial) (fun _ _ reaches above => le_trans reaches above) fun _ _ _ => Cursor.lands_seek.mp
    exact ⟨_, e', by simp only [mergingIterator, seek, moved]; rfl, inv', first⟩
  | next =>
    obtain ⟨x, rfl⟩ := Option.isSome_iff_exists.mp ok
    obtain ⟨m', e', moved, inv', first⟩ := next_spec asc dist inv
    exact ⟨m', e', moved, inv', Cursor.lands_next.mpr first⟩
  | prev =>
    obtain ⟨x, rfl⟩ := Option.isSome_iff_exists.mp ok
    obtain ⟨m', e', moved, inv', first⟩ := prev_spec asc dist inv
    exact ⟨m', e', moved, inv', Cursor.lands_prev.mpr first⟩

end MergingIterator

theorem MergingIterator.Inv.tracks (asc : ∀ i, Ascending (lists i)) (dist : DistinctKeys lists)
    {m : MergingIterator σ K n} {p : Position (sortedUnion lists)} (inv : Inv it lists m (entryAt p)) :
    Tracks (mergingIterator it n) (sortedUnion lists) m p :=
  Cursor.tracks_of_lands (sortedUnion_ascending asc dist) (Inv it lists) (fun _ _ inv => inv.entry)
    (fun _ _ move inv ok => inv.move asc dist move ok) inv

theorem MergingIterator.inv_new {children : Fin n → σ} (cursors : ∀ i, ∃ p, Tracks it (lists i) (children i) p) :
    Inv it lists (.new it children) none := by
  refine ⟨rfl, fun i => ?_⟩
  obtain ⟨p, tracks⟩ := cursors i
  have stands : Stands it (lists i) (children i) (entryAt p) := ⟨p, tracks, rfl⟩
  exact ⟨_, stands.update⟩

/-- Over children that are cursors the merging iterator is a cursor over the union of their lists. -/
theorem mergingIterator_tracks (it : Iterator σ K V) (lists : Fin n → List (K × V)) (children : Fin n → σ)
    (ascending : ∀ i, Ascending (lists i)) (distinct : DistinctKeys lists)
    (cursors : ∀ i, ∃ p, Tracks it (lists i) (children i) p) :
    Tracks (mergingIterator it n) (sortedUnion lists) (.new it children) none :=
  MergingIterator.Inv.tracks ascending distinct (MergingIterator.inv_new cursors)

def twoLists : Fin 2 → List (Nat × Nat)
  | 0 => [(1, 10), (3, 30)]
  | 1 => [(2, 20)]

theorem mergingIterator_tracks_two : Tracks (mergingIterator Cursor.listIterator 2) (sortedUnion twoLists)
      (.new Cursor.listIterator fun i => ⟨twoLists i, none⟩) none :=
  mergingIterator_tracks Cursor.listIterator twoLists _ (by decide) (by unfold DistinctKeys; decide)
    fun i => ⟨none, Cursor.listIterator_tracks _ _⟩

/-! ## `NewMergingIterator` -/

inductive MergedIterator (σ K : Type) where
  /-- `NewEmptyIterator()` -/
  | empty
  | child (s : σ)
  | merging {n : Nat} (m : MergingIterator σ K n)

def newMergingIterator (it : Iterator σ K V) : List σ → MergedIterator σ K
  | [] => .empty
  | [s] => .child s
  | s :: t :: rest => .merging (.new it (s :: t :: rest).get)

def mergedIterator (it : Iterator σ K V) : Iterator (MergedIterator σ K) K V where
  current
    | .empty => none
    | .child s => it.current s
    | .merging m => (mergingIterator it _).current m
  move m
    | .empty => if m.Allowed false then some .empty else none
    | .child s => (it.move m s).map .child
    | .merging k => ((mergingIterator it _).move m k).map .merging

/-- Whatever their number, children that are cursors are merged to a cursor over all their entries. -/
theorem newMergingIterator_tracks {children : List σ} {lists : List (List (K × V))}
    (cursors : List.Forall₂ (fun s l => Tracks it l s none) children lists) (asc : ∀ l ∈ lists, Ascending l)
    (dist : lists.Pairwise fun l l' => ∀ a ∈ l, ∀ b ∈ l', a.1 ≠ b.1) :
    ∃ merged, Ascending merged ∧ (∀ e, e ∈ merged ↔ ∃ l ∈ lists, e ∈ l) ∧
      Tracks (mergedIterator it) merged (newMergingIterator it children) none := by
  match children, cursors with
  | [], .nil =>
    refine ⟨[], .nil, by simp, ?_⟩
    refine Cursor.tracks_of_simulation (fun s _ => s = .empty) ?_ ?_ rfl
    · rintro _ p rfl
      exact (Option.eq_none_iff_forall_ne_some.mpr fun i _ => i.elim0 : p = none) ▸ rfl
    rintro _ p m rfl ok
    obtain rfl : p = none := Option.eq_none_iff_forall_ne_some.mpr fun i _ => i.elim0
    exact ⟨.empty, if_pos ok, rfl⟩
  | [s], .cons (b := l) tracks .nil =>
    refine ⟨l, asc l (by simp), by simp, ?_⟩
    exact tracks.map (f := MergedIterator.child) (fun _ => rfl) fun _ _ => rfl
  | s :: t :: rest, cursors =>
    have sameLength := cursors.length_eq
    generalize isChildren : s :: t :: rest = children at cursors sameLength
    let es : Fin children.length → List (K × V) := fun i => lists.get (i.cast sameLength)
    have each : ∀ i, Tracks it (es i) (children.get i) none := fun i => by
      exact (forall₂_iff_get.mp cursors).2 i i.2 (i.cast sameLength).2
    have ascends : ∀ i, Ascending (es i) := fun i => asc _ (get_mem _ _)
    have apart : DistinctKeys es := by
      intro i j differ a inA b inB
      have pairs := pairwise_iff_getElem.mp dist
      obtain lt | lt := Nat.lt_or_gt_of_ne fun eq => differ (Fin.ext eq)
      · exact pairs i j (i.cast sameLength).2 (j.cast sameLength).2 lt a inA b inB
      · exact (pairs j i (j.cast sameLength).2 (i.cast sameLength).2 lt b inB a inA).symm
    refine ⟨sortedUnion es, sortedUnion_ascending ascends apart, fun e => ?_, ?_⟩
    · rw [mem_sortedUnion]
      constructor
      · rintro ⟨i, mem⟩
        exact ⟨_, get_mem _ _, mem⟩
      rintro ⟨l, isList, mem⟩
      obtain ⟨i, rfl⟩ := mem_iff_get.mp isList
      exact ⟨i.cast sameLength.symm, mem⟩
    · have merged : newMergingIterator it children = .merging (.new it children.get) := by
        rw [← isChildren]
        rfl
      rw [merged]
      have placed : ∀ i, ∃ p, Tracks it (es i) (children.get i) p := fun i => ⟨none, each i⟩
      have inv := MergingIterator.inv_new placed
      exact (MergingIterator.Inv.tracks ascends apart inv).map (fun _ => rfl) fun _ _ => rfl

end Elsm
