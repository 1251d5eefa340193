import Mathlib.Data.List.Basic
import Mathlib.Data.List.Pairwise
import Mathlib.Order.Lattice

/-!
# Cursors over sorted lists

A cursor stands on an entry of a list, or on none.  An `Iterator` is anything that can be asked for the entry
it stands on and told to move.  `Tracks` says that it cannot be told from a cursor, whatever sequence of moves it
makes.  On a list that ascends by key a move is determined by the entry it lands on (`Move.Lands`), and
`tracks_of_lands` is the rule by which an iterator is shown to be a cursor: one invariant, and where each move lands.
-/

namespace Elsm.Cursor

open List

variable {K V σ : Type*}

inductive Move (K : Type*) where
  | seekToFirst
  | seekToLast
  | seek (target : K)
  | next
  | prev

def Move.map {K' : Type*} (f : K → K') : Move K → Move K'
  | seekToFirst => seekToFirst
  | seekToLast => seekToLast
  | seek target => seek (f target)
  | next => next
  | prev => prev

/-- Only from an entry can one go to the next or to the one before. -/
def Move.Allowed (onEntry : Bool) : Move K → Prop
  | next | prev => onEntry = true
  | seekToFirst | seekToLast | seek _ => True

/-! ## The cursor -/

abbrev Position (l : List (K × V)) := Option (Fin l.length)

def entryAt {l : List (K × V)} (p : Position l) : Option (K × V) := p.map l.get

variable {l : List (K × V)}

@[simp] theorem isSome_entryAt (p : Position l) : (entryAt p).isSome = p.isSome := Option.isSome_map

def settle (l : List (K × V)) (i : Nat) : Position l := if h : i < l.length then some ⟨i, h⟩ else none

theorem entryAt_settle (l : List (K × V)) (i : Nat) : entryAt (settle l i) = l[i]? := by
  rw [settle]
  split
  case isTrue ins => exact (getElem?_eq_getElem ins).symm
  case isFalse out => exact (getElem?_eq_none (Nat.le_of_not_lt out)).symm

variable {i : Nat}

theorem settle_of_lt (ins : i < l.length) : settle l i = some ⟨i, ins⟩ := dif_pos ins

theorem settle_of_le (out : l.length ≤ i) : settle l i = none :=
  dif_neg (Nat.not_lt.mpr out)

theorem isSome_settle : (settle l i).isSome = true ↔ i < l.length := by
  rw [settle]
  split
  case isTrue ins => exact iff_of_true rfl ins
  case isFalse out => exact iff_of_false nofun out

def settleBefore (l : List (K × V)) (i : Nat) : Position l := if i = 0 then none else settle l (i - 1)

theorem settle_elim (ins : i ≤ l.length) : (settle l i).elim l.length Fin.val = i := by
  obtain rfl | lt := Nat.eq_or_lt_of_le ins
  · rw [settle_of_le (Nat.le_refl _), Option.elim_none]
  · rw [settle_of_lt lt, Option.elim_some]

theorem settleBefore_elim (ins : i ≤ l.length) : (settleBefore l i).elim 0 (fun j => j.val + 1) = i := by
  rw [settleBefore]
  split
  case isTrue zero => simp [zero]
  case isFalse pos =>
    rw [settle_of_lt (by omega), Option.elim_some]
    exact Nat.sub_one_add_one pos

section Moves

variable [LinearOrder K]

/-- Where a cursor goes: past either end it stands on no entry. -/
def Move.apply (l : List (K × V)) (p : Position l) : Move K → Position l
  | seekToFirst => settle l 0
  | seekToLast => if l = [] then none else settle l (l.length - 1)
  | seek target => settle l (l.findIdx fun e => target ≤ e.1)
  | next => p.bind fun i => settle l (i + 1)
  | prev => p.bind fun i => if i.val = 0 then none else settle l (i - 1)

theorem Move.apply_seekToLast (l : List (K × V)) (p : Position l) :
    Move.seekToLast.apply l p = settleBefore l l.length := by
  simp only [Move.apply, settleBefore, length_eq_zero_iff]

theorem Move.apply_next (i : Fin l.length) : Move.next.apply l (some i) = settle l (i + 1) := rfl

theorem Move.apply_prev (i : Fin l.length) : Move.prev.apply l (some i) = settleBefore l i := rfl

def Move.applyAll (l : List (K × V)) (p : Position l) (moves : List (Move K)) : Position l :=
  moves.foldl (fun p m => m.apply l p) p

def Legal (l : List (K × V)) : Position l → List (Move K) → Prop
  | _, [] => True
  | p, m :: rest => m.Allowed p.isSome ∧ Legal l (m.apply l p) rest

end Moves

/-! ## Iterators -/

structure Iterator (σ K V : Type*) where
  /-- `none` when the iterator is not valid. -/
  current : σ → Option (K × V)
  /-- `none` when an assertion fails, or the move never ends. -/
  move : Move K → σ → Option σ

namespace Iterator

def moveAll (it : Iterator σ K V) (moves : List (Move K)) (s : σ) : Option σ := moves.foldlM (fun s m => it.move m s) s

/-- The iterator under another form of its keys. -/
def rekey {K' : Type*} (encode : K → K') (decode : K' → K) (it : Iterator σ K' V) : Iterator σ K V where
  current s := (it.current s).map fun e => (decode e.1, e.2)
  move m := it.move (m.map encode)

/-- The moves are made only where the iterator says that they can be made. -/
def Permitted (it : Iterator σ K V) : σ → List (Move K) → Prop
  | _, [] => True
  | s, m :: rest => m.Allowed (it.current s).isSome ∧ ∀ s', it.move m s = some s' → Permitted it s' rest

theorem moveAll_concat {it : Iterator σ K V} {ms : List (Move K)} {m : Move K} {s s' s'' : σ}
    (permitted : it.Permitted s ms)
    (moved : it.moveAll ms s = some s') (ok : m.Allowed (it.current s').isSome) (next : it.move m s' = some s'') :
    it.Permitted s (ms ++ [m]) ∧ it.moveAll (ms ++ [m]) s = some s'' := by
  refine ⟨?_, ?_⟩
  · induction ms generalizing s with
    | nil =>
      cases moved
      exact ⟨ok, fun _ _ => trivial⟩
    | cons first rest ih =>
      obtain ⟨s₁, isFirst, others⟩ := Option.bind_eq_some_iff.mp moved
      refine ⟨permitted.1, fun s₂ isMoved => ?_⟩
      cases isFirst.symm.trans isMoved
      exact ih (permitted.2 s₁ isFirst) others
  · rw [moveAll] at moved ⊢
    simp [foldlM_append, moved, next]

/-- What every permitted move keeps holds after every sequence of them. -/
theorem moveAll_invariant {it : Iterator σ K V} {Inv : σ → Prop}
    (moves : ∀ s m, Inv s → m.Allowed (it.current s).isSome → ∃ s', it.move m s = some s' ∧ Inv s') {s : σ}
    (start : Inv s) {ms : List (Move K)} (permitted : it.Permitted s ms) :
    ∃ s', it.moveAll ms s = some s' ∧ Inv s' := by
  induction ms generalizing s with
  | nil => exact ⟨s, rfl, start⟩
  | cons m rest ih =>
    obtain ⟨s₁, moved, inv⟩ := moves s m start permitted.1
    obtain ⟨s', all, inv'⟩ := ih inv (permitted.2 s₁ moved)
    refine ⟨s', ?_, inv'⟩
    simp only [moveAll, foldlM_cons, moved, Option.bind_eq_bind, Option.bind_some]
    exact all

end Iterator

section Tracks

variable [LinearOrder K] {it : Iterator σ K V} {l : List (K × V)} {s : σ} {p : Position l}

/-- After every sequence of moves the iterator shows the entry that a cursor would stand on. -/
def Tracks (it : Iterator σ K V) (l : List (K × V)) (s : σ) (p : Position l) : Prop :=
  ∀ moves, Legal l p moves → ∃ s', it.moveAll moves s = some s' ∧ it.current s' = entryAt (Move.applyAll l p moves)

section

variable (tracks : Tracks it l s p)

include tracks

theorem Tracks.current : it.current s = entryAt p := by
  obtain ⟨s', eq, shows⟩ := tracks [] trivial
  cases eq
  exact shows

theorem Tracks.move {m : Move K} (ok : m.Allowed p.isSome) :
    ∃ s', it.move m s = some s' ∧ Tracks it l s' (m.apply l p) := by
  obtain ⟨s', moved, -⟩ := tracks [m] ⟨ok, trivial⟩
  simp only [Iterator.moveAll, foldlM_cons, foldlM_nil, Option.bind_eq_bind, Option.bind_eq_some_iff] at moved
  obtain ⟨s'', moved, eq⟩ := moved
  cases eq
  refine ⟨s', moved, fun moves legal => ?_⟩
  obtain ⟨last, all, shows⟩ := tracks (m :: moves) ⟨ok, legal⟩
  simp only [Iterator.moveAll, foldlM_cons, moved, Option.bind_eq_bind, Option.bind_some] at all
  exact ⟨last, all, shows⟩

theorem Tracks.shown_mem {moves : List (Move K)} (permitted : it.Permitted s moves) {s' : σ}
    (moved : it.moveAll moves s = some s') {e : K × V} (shows : it.current s' = some e) : e ∈ l := by
  have step : ∀ s m, (∃ p : Position l, Tracks it l s p) → m.Allowed (it.current s).isSome →
      ∃ s', it.move m s = some s' ∧ ∃ p : Position l, Tracks it l s' p := by
    rintro s m ⟨p, tracks⟩ ok
    rw [tracks.current, isSome_entryAt] at ok
    obtain ⟨s', moved, tracks'⟩ := tracks.move ok
    exact ⟨s', moved, _, tracks'⟩
  obtain ⟨_, all, p', tracks'⟩ := Iterator.moveAll_invariant step ⟨p, tracks⟩ permitted
  cases moved.symm.trans all
  rw [tracks'.current] at shows
  obtain ⟨i, -, rfl⟩ := Option.map_eq_some_iff.mp shows
  exact get_mem l i

/-- From the first entry on the list is shown in order, and then no entry. -/
theorem Tracks.scan (ins : i ≤ l.length) :
    ∃ s', it.moveAll (.seekToFirst :: replicate i .next) s = some s' ∧ it.current s' = l[i]? := by
  have steps : ∀ n j, j + n ≤ l.length → Legal l (settle l j) (replicate n .next) ∧
      Move.applyAll l (settle l j) (replicate n .next) = settle l (j + n) := by
    intro n
    induction n with
    | zero => exact fun j _ => ⟨trivial, rfl⟩
    | succ n ih =>
      intro j ins
      obtain ⟨legal, moved⟩ := ih (j + 1) (by omega)
      rw [settle_of_lt (by omega)]
      exact ⟨⟨rfl, legal⟩, moved.trans (congrArg (settle l) (Nat.add_right_comm ..))⟩
  obtain ⟨legal, moved⟩ := steps i 0 (by omega)
  obtain ⟨s', all, shows⟩ := tracks (.seekToFirst :: replicate i .next) ⟨trivial, legal⟩
  rw [Nat.zero_add] at moved
  exact ⟨s', all, shows.trans ((congrArg entryAt moved).trans (entryAt_settle l i))⟩

end

theorem moveAll_simulation (R : σ → Position l → Prop)
    (moves : ∀ s p m, R s p → m.Allowed p.isSome → ∃ s', it.move m s = some s' ∧ R s' (m.apply l p)) (start : R s p)
    {ms : List (Move K)} (legal : Legal l p ms) : ∃ s', it.moveAll ms s = some s' ∧ R s' (Move.applyAll l p ms) := by
  induction ms generalizing s p with
  | nil => exact ⟨s, rfl, start⟩
  | cons m rest ih =>
    obtain ⟨s₁, moved, rel⟩ := moves s p m start legal.1
    obtain ⟨s', all, eq⟩ := ih rel legal.2
    refine ⟨s', ?_, eq⟩
    simp only [Iterator.moveAll, foldlM_cons, moved, Option.bind_eq_bind, Option.bind_some]
    exact all

theorem tracks_of_simulation (R : σ → Position l → Prop) (shows : ∀ s p, R s p → it.current s = entryAt p)
    (moves : ∀ s p m, R s p → m.Allowed p.isSome → ∃ s', it.move m s = some s' ∧ R s' (m.apply l p)) (start : R s p) :
    Tracks it l s p := by
  intro ms legal
  obtain ⟨s', all, rel⟩ := moveAll_simulation R moves start legal
  exact ⟨s', all, shows s' _ rel⟩

theorem Tracks.map {τ : Type*} {it' : Iterator τ K V} {f : σ → τ} (shows : ∀ s, it'.current (f s) = it.current s)
    (moves : ∀ m s, it'.move m (f s) = (it.move m s).map f) (tracks : Tracks it l s p) : Tracks it' l (f s) p := by
  refine tracks_of_simulation (fun t q => ∃ s, t = f s ∧ Tracks it l s q) ?_ ?_ ⟨s, rfl, tracks⟩
  · rintro _ q ⟨s, rfl, tracks⟩
    rw [shows, tracks.current]
  rintro _ q m ⟨s, rfl, tracks⟩ ok
  obtain ⟨s', moved, tracks'⟩ := tracks.move ok
  exact ⟨f s', by rw [moves, moved]; rfl, s', rfl, tracks'⟩

def Iterator.sum {τ : Type*} (a : Iterator σ K V) (b : Iterator τ K V) : Iterator (σ ⊕ τ) K V where
  current
    | .inl s => a.current s
    | .inr t => b.current t
  move m
    | .inl s => (a.move m s).map .inl
    | .inr t => (b.move m t).map .inr

theorem Tracks.inl {τ : Type*} {b : Iterator τ K V} (tracks : Tracks it l s p) : Tracks (it.sum b) l (.inl s) p :=
  tracks.map (fun _ => rfl) fun _ _ => rfl

theorem Tracks.inr {τ : Type*} {a : Iterator τ K V} (tracks : Tracks it l s p) : Tracks (a.sum it) l (.inr s) p :=
  tracks.map (fun _ => rfl) fun _ _ => rfl

end Tracks

/-! ## Where a move lands -/

/-- The first, in the order `r`, of the entries whose key has the property; `none` if there is none. -/
def First (r : K → K → Prop) (l : List (K × V)) (P : K → Prop) : Option (K × V) → Prop
  | none => ∀ e ∈ l, ¬P e.1
  | some x => x ∈ l ∧ P x.1 ∧ ∀ e ∈ l, P e.1 → r x.1 e.1

abbrev Ascending [LT K] (l : List (K × V)) : Prop := l.Pairwise fun a b => a.1 < b.1

section Lands

variable [LinearOrder K] {l : List (K × V)}

theorem Ascending.eq_of_key (asc : Ascending l) {a b : K × V} (left : a ∈ l) (right : b ∈ l) (eq : a.1 = b.1) :
    a = b := by
  obtain ⟨i, inI, rfl⟩ := mem_iff_getElem.mp left
  obtain ⟨j, inJ, rfl⟩ := mem_iff_getElem.mp right
  have strict := pairwise_iff_getElem.mp asc
  obtain pre | rfl | after := Nat.lt_trichotomy i j
  · exact absurd eq (strict i j inI inJ pre).ne
  · rfl
  · exact absurd eq (strict j i inJ inI after).ne'

variable {e e' : Option (K × V)} {P : K → Prop}

theorem First.unique {r : K → K → Prop} (antisymm : ∀ a b, r a b → r b a → a = b) (asc : Ascending l)
    (first : First r l P e) (other : First r l P e') : e = e' := by
  match e, e', first, other with
  | none, none, _, _ => rfl
  | none, some y, nothing, ⟨mem, holds, _⟩ => exact absurd holds (nothing y mem)
  | some x, none, ⟨mem, holds, _⟩, nothing => exact absurd holds (nothing x mem)
  | some x, some y, ⟨memberX, holdsX, leastX⟩, ⟨memberY, holdsY, leastY⟩ =>
    have eqKey := antisymm _ _ (leastX y memberY holdsY) (leastY x memberX holdsX)
    rw [asc.eq_of_key memberX memberY eqKey]

omit [LinearOrder K] in
theorem First.congr {r : K → K → Prop} {Q : K → Prop} (first : First r l P e)
    (eq : ∀ x ∈ l, P x.1 ↔ Q x.1) : First r l Q e := by
  cases e with
  | none => exact fun x mem holds => first x mem ((eq x mem).mpr holds)
  | some x =>
    obtain ⟨mem, holds, least⟩ := first
    exact ⟨mem, (eq x mem).mp holds, fun y inList q => least y inList ((eq y inList).mpr q)⟩

def Move.Lands (l : List (K × V)) (e : Option (K × V)) : Move K → Option (K × V) → Prop
  | seekToFirst => First (· ≤ ·) l fun _ => True
  | seekToLast => First (· ≥ ·) l fun _ => True
  | seek target => First (· ≤ ·) l (target ≤ ·)
  | next => First (· ≤ ·) l fun k => ∃ x ∈ e, x.1 < k
  | prev => First (· ≥ ·) l fun k => ∃ x ∈ e, k < x.1

theorem lands_seekToFirst : Move.seekToFirst.Lands l e e' ↔ First (· ≤ ·) l (fun _ => True) e' := Iff.rfl

theorem lands_seekToLast : Move.seekToLast.Lands l e e' ↔ First (· ≥ ·) l (fun _ => True) e' := Iff.rfl

theorem lands_seek {target : K} : (Move.seek target).Lands l e e' ↔ First (· ≤ ·) l (target ≤ ·) e' := Iff.rfl

variable {x : K × V}

theorem lands_next : Move.next.Lands l (some x) e' ↔ First (· ≤ ·) l (x.1 < ·) e' := by
  simp only [Move.Lands, Option.mem_def, Option.some.injEq, exists_eq_left']

theorem lands_prev : Move.prev.Lands l (some x) e' ↔ First (· ≥ ·) l (· < x.1) e' := by
  simp only [Move.Lands, Option.mem_def, Option.some.injEq, exists_eq_left']

section

variable (asc : Ascending l)

include asc

theorem Move.Lands.unique {m : Move K} {e₁ e₂ : Option (K × V)} (one : m.Lands l e e₁)
    (two : m.Lands l e e₂) : e₁ = e₂ := by
  unfold Move.Lands at one two
  cases m with
  | seekToFirst | seek target | next => exact First.unique (fun _ _ => le_antisymm) asc one two
  | seekToLast | prev => exact First.unique (fun _ _ above below => le_antisymm below above) asc one two

theorem Ascending.key_lt_iff {j : Nat} (inI : i < l.length) (inJ : j < l.length) : l[i].1 < l[j].1 ↔ i < j := by
  have strict := pairwise_iff_getElem.mp asc
  constructor
  · intro lt
    by_contra notBefore
    obtain rfl | after := Nat.eq_or_lt_of_le (Nat.le_of_not_lt notBefore)
    · exact lt_irrefl _ lt
    · exact lt_asymm lt (strict j i inJ inI after)
  · exact strict i j inI inJ

theorem Ascending.key_le_iff {j : Nat} (inI : i < l.length) (inJ : j < l.length) : l[i].1 ≤ l[j].1 ↔ i ≤ j := by
  rw [← not_lt, asc.key_lt_iff inJ inI, Nat.not_lt]

theorem Ascending.first_of_index
    (holds : ∀ h : i < l.length, P l[i].1) (least : ∀ j (h : j < l.length), P l[j].1 → i ≤ j) :
    First (· ≤ ·) l P l[i]? := by
  by_cases inside : i < l.length
  · rw [getElem?_eq_getElem inside]
    refine ⟨getElem_mem inside, holds inside, fun e mem has => ?_⟩
    obtain ⟨j, inJ, rfl⟩ := mem_iff_getElem.mp mem
    exact (asc.key_le_iff inside inJ).mpr (least j inJ has)
  · rw [getElem?_eq_none (Nat.le_of_not_lt inside)]
    intro e mem has
    obtain ⟨j, inJ, rfl⟩ := mem_iff_getElem.mp mem
    exact inside (Nat.lt_of_le_of_lt (least j inJ has) inJ)

theorem Ascending.last_of_index (ins : i < l.length)
    (holds : P l[i].1) (greatest : ∀ j (h : j < l.length), P l[j].1 → j ≤ i) : First (· ≥ ·) l P l[i]? := by
  rw [getElem?_eq_getElem ins]
  refine ⟨getElem_mem ins, holds, fun e mem has => ?_⟩
  obtain ⟨j, inJ, rfl⟩ := mem_iff_getElem.mp mem
  exact (asc.key_le_iff inJ ins).mpr (greatest j inJ has)

theorem Move.apply_lands (m : Move K) (p : Position l) (ok : m.Allowed p.isSome) :
    m.Lands l (entryAt p) (entryAt (m.apply l p)) := by
  cases m with
  | seekToFirst =>
    rw [Move.apply, entryAt_settle, Move.Lands]
    exact asc.first_of_index (fun _ => trivial) fun j _ _ => Nat.zero_le j
  | seekToLast =>
    rw [Move.apply, Move.Lands]
    split
    case isTrue empty =>
      intro e mem
      rw [empty] at mem
      cases mem
    case isFalse notEmpty =>
      have ins : l.length - 1 < l.length := Nat.sub_lt (length_pos_iff.mpr notEmpty) Nat.one_pos
      rw [entryAt_settle]
      exact asc.last_of_index ins trivial fun j h _ => Nat.le_sub_one_of_lt h
  | seek target =>
    rw [Move.apply, entryAt_settle, Move.Lands]
    apply asc.first_of_index
    · exact fun ins => of_decide_eq_true (findIdx_getElem (w := ins))
    intro j h reaches
    by_contra later
    exact of_decide_eq_false (not_of_lt_findIdx (Nat.lt_of_not_le later)) reaches
  | next =>
    obtain ⟨i, rfl⟩ := Option.isSome_iff_exists.mp ok
    simp only [Move.Lands, Move.apply, Option.bind_some, entryAt_settle]
    apply asc.first_of_index
    · exact fun ins => ⟨_, rfl, (asc.key_lt_iff i.2 ins).mpr (Nat.lt_succ_self _)⟩
    · rintro j h ⟨_, ⟨⟩, above⟩
      exact (asc.key_lt_iff i.2 h).mp above
  | prev =>
    obtain ⟨i, rfl⟩ := Option.isSome_iff_exists.mp ok
    simp only [Move.Lands, Move.apply, Option.bind_some]
    split
    case isTrue zero =>
      rintro e mem ⟨_, ⟨⟩, below⟩
      obtain ⟨j, inJ, rfl⟩ := mem_iff_getElem.mp mem
      have pre := (asc.key_lt_iff inJ i.2).mp below
      omega
    case isFalse pos =>
      have ins : i.val - 1 < l.length := by omega
      rw [entryAt_settle]
      apply asc.last_of_index ins
      · exact ⟨_, rfl, (asc.key_lt_iff ins i.2).mpr (by omega)⟩
      rintro j h ⟨_, ⟨⟩, below⟩
      have pre := (asc.key_lt_iff h i.2).mp below
      omega

theorem Ascending.findIdx_eq_some {target : K}
    (first : First (· ≤ ·) l (target ≤ ·) (some x)) : l[l.findIdx fun e => target ≤ e.1]? = some x := by
  have lands := (Move.seek target).apply_lands asc none trivial
  rw [Move.apply, entryAt_settle] at lands
  exact First.unique (fun _ _ => le_antisymm) asc lands first

variable {it : Iterator σ K V} {s : σ}

/-- An iterator is a cursor when it keeps an invariant under which it shows an entry and each move lands where it
should. -/
theorem tracks_of_lands (Inv : σ → Option (K × V) → Prop) (shows : ∀ s e, Inv s e → it.current s = e)
    (moves : ∀ s e m, Inv s e → m.Allowed e.isSome → ∃ s' e', it.move m s = some s' ∧ Inv s' e' ∧ m.Lands l e e')
    {p : Position l} (start : Inv s (entryAt p)) : Tracks it l s p := by
  refine tracks_of_simulation (fun s p => Inv s (entryAt p)) (fun s p inv => shows s _ inv) ?_ start
  intro s p m inv ok
  obtain ⟨s', e', moved, inv', lands⟩ := moves s _ m inv (by rwa [isSome_entryAt])
  refine ⟨s', moved, ?_⟩
  rw [(m.apply_lands asc p ok).unique asc lands]
  exact inv'

end

/-- The iterator is a cursor, and stands on the entry. -/
def Stands (it : Iterator σ K V) (l : List (K × V)) (s : σ) (e : Option (K × V)) : Prop :=
  ∃ p : Position l, Tracks it l s p ∧ entryAt p = e

theorem Stands.current (stands : Stands it l s e) : it.current s = e := by
  obtain ⟨p, tracks, eq⟩ := stands
  exact tracks.current.trans eq

theorem Stands.mem (stands : Stands it l s (some x)) : x ∈ l := by
  obtain ⟨p, -, eq⟩ := stands
  obtain ⟨i, -, rfl⟩ := Option.map_eq_some_iff.mp eq
  exact get_mem l i

theorem Stands.move (asc : Ascending l) (stands : Stands it l s e) (m : Move K)
    (ok : m.Allowed e.isSome) : ∃ s' e', it.move m s = some s' ∧ Stands it l s' e' ∧ m.Lands l e e' := by
  obtain ⟨p, tracks, rfl⟩ := stands
  rw [isSome_entryAt] at ok
  obtain ⟨s', moved, tracks'⟩ := tracks.move ok
  exact ⟨s', _, moved, ⟨_, tracks', rfl⟩, m.apply_lands asc p ok⟩

end Lands

/-! ## The cursor as an iterator -/

instance (onEntry : Bool) (m : Move K) : Decidable (m.Allowed onEntry) :=
  match m with
  | .next | .prev => inferInstanceAs (Decidable (onEntry = true))
  | .seekToFirst | .seekToLast | .seek _ => inferInstanceAs (Decidable True)

structure ListCursor (K V : Type*) where
  list : List (K × V)
  position : Position list

variable [LinearOrder K]

def listIterator : Iterator (ListCursor K V) K V where
  current c := entryAt c.position
  move m c := if m.Allowed c.position.isSome then some ⟨c.list, m.apply c.list c.position⟩ else none

theorem listIterator_tracks (l : List (K × V)) (p : Position l) : Tracks listIterator l ⟨l, p⟩ p := by
  refine tracks_of_simulation (fun c q => c = ⟨l, q⟩) ?_ ?_ rfl
  · rintro _ q rfl
    rfl
  · rintro _ q m rfl ok
    exact ⟨_, if_pos ok, rfl⟩

end Elsm.Cursor
