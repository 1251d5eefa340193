import Mathlib.Data.List.Dedup
import Elsm.Table.Merger
import Elsm.Lib.SortedList
import Elsm.Version.Recover

/-!
# The database iterator (`db/db_iter.cpp`)

`DBIter` turns an iterator over internal entries into one over the map that a reader sees.  Going forward, the internal
iterator stands on the entry that is shown.  Going back, it stands before all entries of the key that is shown, and key
and value are kept aside.

`dbIterator_tracks` says that after any moves the iterator shows what a cursor over `visibleMap` shows.  The loops
are about one property of keys each: the forward loop finds the first key with the property, the backward loop the last.
-/

namespace Elsm

open List
open Cursor (Move Iterator Tracks Stands First Ascending Position entryAt)

variable {σ K V : Type}

/-! ## The code -/

/-- What a `DBIter` is made with, and a bound for the rounds of its loops. -/
structure DbIterSetting (σ K V : Type) where
  iterator : Iterator σ (InternalKey K) V
  sequence : Nat
  /-- `k.size() + iter_->value().size()` -/
  size : InternalKey K × V → Nat
  fuel : Nat

structure DbIter (σ K V : Type) where
  iter : σ
  status : Option Status
  /-- `none` when it is cleared or holds the target of a seek.  It is not read then. -/
  savedKey : Option K
  savedValue : Option V
  direction : Direction
  valid : Bool
  bytesCounter : UInt32

namespace DbIter

/-- `DBIter(db, cmp, iter, s, seed)`, with the first number that `RandomPeriod` draws. -/
def new (iter : σ) (period : UInt32) : DbIter σ K V := ⟨iter, none, none, none, .forward, false, period⟩

/-- `Valid`, `key` and `value`. -/
def entry (c : DbIterSetting σ K V) (d : DbIter σ K V) : Option (K × V) :=
  if d.valid then
    match d.direction with
    | .forward => (c.iterator.current d.iter).map fun e => (e.1.userKey, e.2)
    | .reverse => d.savedKey.bind fun key => d.savedValue.map fun value => (key, value)
  else none

def iterValid (c : DbIterSetting σ K V) (d : DbIter σ K V) : Bool := (c.iterator.current d.iter).isSome

def moveIter (c : DbIterSetting σ K V) (m : Move (InternalKey K)) (d : DbIter σ K V) : Option (DbIter σ K V) :=
  (c.iterator.move m d.iter).map fun iter => { d with iter }

/-- `ParseKey` on the entry.  The counter is unsigned and so never below zero: its loop is not entered. -/
def parseKey (c : DbIterSetting σ K V) (e : InternalKey K × V) (d : DbIter σ K V) :
    Option (ParsedInternalKey K) × DbIter σ K V :=
  let d := { d with bytesCounter := d.bytesCounter - UInt32.ofNat (c.size e) }
  match parseInternalKey e.1 with
  | none => (none, { d with status := some (.corruption "corrupted internal key in DBIter") })
  | some ikey => (some ikey, d)

/-- `ParseKey(&ikey) && ikey.sequence <= sequence_`. -/
def readKey (c : DbIterSetting σ K V) (e : InternalKey K × V) (d : DbIter σ K V) :
    Option (ParsedInternalKey K) × DbIter σ K V :=
  match parseKey c e d with
  | (some ikey, d) => if ikey.sequence ≤ c.sequence then (some ikey, d) else (none, d)
  | (none, d) => (none, d)

section Order

variable [LinearOrder K]

inductive Round (σ K V : Type) where
  | yield (d : DbIter σ K V)
  | goOn (skipping : Bool) (d : DbIter σ K V)

/-- The body of the loop of `FindNextUserEntry`, where `skip` is `saved_key_`. -/
def nextRound (c : DbIterSetting σ K V) (e : InternalKey K × V) (skipping : Bool) (d : DbIter σ K V) :
    Option (Round σ K V) :=
  match readKey c e d with
  | (none, d) => some (.goOn skipping d)
  | (some ikey, d) =>
    match ikey.type with
    -- upcoming entries for this key are hidden by the deletion
    | .deletion => some (.goOn true { d with savedKey := some ikey.userKey })
    | .value =>
      if skipping then
        match d.savedKey with
        | none => none
        | some skip =>
          if ikey.userKey ≤ skip then some (.goOn skipping d)
          else some (.yield { d with valid := true, savedKey := none })
      else some (.yield { d with valid := true, savedKey := none })

def findNextLoop (c : DbIterSetting σ K V) : Nat → Bool → DbIter σ K V → Option (DbIter σ K V)
  | 0, _, _ => none
  | fuel + 1, skipping, d => do
    let e ← c.iterator.current d.iter
    match ← nextRound c e skipping d with
    | .yield d => return d
    | .goOn skipping d =>
      let d ← d.moveIter c .next
      if d.iterValid c then findNextLoop c fuel skipping d else return { d with savedKey := none, valid := false }

def findNextUserEntry (c : DbIterSetting σ K V) (skipping : Bool) (d : DbIter σ K V) : Option (DbIter σ K V) :=
  findNextLoop c c.fuel skipping d

def next (c : DbIterSetting σ K V) (d : DbIter σ K V) : Option (DbIter σ K V) :=
  if d.valid then
    match d.direction with
    | .reverse => do
      -- the iterator is just before the entries for the key, so it goes into them
      let d ← { d with direction := .forward }.moveIter c (if d.iterValid c then .next else .seekToFirst)
      if d.iterValid c then findNextUserEntry c true d else return { d with valid := false, savedKey := none }
    | .forward => do
      let e ← c.iterator.current d.iter
      findNextUserEntry c true { d with savedKey := some e.1.userKey }
  else none

/-- The body of the loop of `FindPrevUserEntry`, and whether the loop goes on. -/
def prevRound (c : DbIterSetting σ K V) (e : InternalKey K × V) (valueType : ValueType) (d : DbIter σ K V) :
    Bool × ValueType × DbIter σ K V :=
  match readKey c e d with
  | (none, d) => (true, valueType, d)
  | (some ikey, d) =>
    -- a value was found among the entries of a later key
    if valueType ≠ .deletion ∧ d.savedKey.any (ikey.userKey < ·) then (false, valueType, d)
    else
      match ikey.type with
      | .deletion => (true, .deletion, { d with savedKey := none, savedValue := none })
      | .value => (true, .value, { d with savedKey := some e.1.userKey, savedValue := some e.2 })

def findPrevLoop (c : DbIterSetting σ K V) : Nat → ValueType → DbIter σ K V → Option (ValueType × DbIter σ K V)
  | 0, _, _ => none
  | fuel + 1, valueType, d => do
    let e ← c.iterator.current d.iter
    match prevRound c e valueType d with
    | (false, valueType, d) => return (valueType, d)
    | (true, valueType, d) =>
      let d ← d.moveIter c .prev
      if d.iterValid c then findPrevLoop c fuel valueType d else return (valueType, d)

def prevEntries (c : DbIterSetting σ K V) (d : DbIter σ K V) : Option (ValueType × DbIter σ K V) :=
  if d.iterValid c then findPrevLoop c c.fuel .deletion d else some (.deletion, d)

def findPrevUserEntry (c : DbIterSetting σ K V) (d : DbIter σ K V) : Option (DbIter σ K V) := do
  let (valueType, d) ← prevEntries c d
  if valueType = .deletion then
    return { d with valid := false, savedKey := none, savedValue := none, direction := .forward }
  else return { d with valid := true }

/-- The scan of `Prev` to an entry of a smaller key; `false` when there is none. -/
def scanBack (c : DbIterSetting σ K V) (key : K) : Nat → DbIter σ K V → Option (Bool × DbIter σ K V)
  | 0, _ => none
  | fuel + 1, d => do
    let d ← d.moveIter c .prev
    match c.iterator.current d.iter with
    | none => return (false, d)
    | some e => if e.1.userKey < key then return (true, d) else scanBack c key fuel d

def prev (c : DbIterSetting σ K V) (d : DbIter σ K V) : Option (DbIter σ K V) :=
  if d.valid then
    match d.direction with
    | .forward => do
      let e ← c.iterator.current d.iter
      let (found, d) ← scanBack c e.1.userKey c.fuel { d with savedKey := some e.1.userKey }
      if found then findPrevUserEntry c { d with direction := .reverse }
      else return { d with valid := false, savedKey := none, savedValue := none }
    | .reverse => findPrevUserEntry c d
  else none

def seek (c : DbIterSetting σ K V) (target : K) (d : DbIter σ K V) : Option (DbIter σ K V) := do
  let d ← { d with direction := .forward, savedValue := none, savedKey := none }.moveIter c
    (.seek (.make target c.sequence kValueTypeForSeek))
  if d.iterValid c then findNextUserEntry c false d else return { d with valid := false }

def seekToFirst (c : DbIterSetting σ K V) (d : DbIter σ K V) : Option (DbIter σ K V) := do
  let d ← { d with direction := .forward, savedValue := none }.moveIter c .seekToFirst
  if d.iterValid c then findNextUserEntry c false d else return { d with valid := false }

def seekToLast (c : DbIterSetting σ K V) (d : DbIter σ K V) : Option (DbIter σ K V) := do
  let d ← { d with direction := .reverse, savedValue := none }.moveIter c .seekToLast
  findPrevUserEntry c d

end Order

end DbIter

variable [LinearOrder K]

def dbIterator (c : DbIterSetting σ K V) : Iterator (DbIter σ K V) K V where
  current := DbIter.entry c
  move
    | .seekToFirst => DbIter.seekToFirst c
    | .seekToLast => DbIter.seekToLast c
    | .seek target => DbIter.seek c target
    | .next => DbIter.next c
    | .prev => DbIter.prev c

/-! ## What a reader sees -/

/-- The newest entry for the key that a reader at `s` sees, in entries that are in order. -/
def newestEntry (l : List (InternalKey K × V)) (s : Nat) (key : K) : Option (InternalKey K × V) :=
  l.find? fun e => e.1.userKey = key ∧ e.1.sequence ≤ s

def entryValue (e : InternalKey K × V) : Option V :=
  match parseInternalKey e.1 with
  | some ⟨_, _, .value⟩ => some e.2
  | _ => none

/-- The keys whose newest entry is a value, in order. -/
def visibleMap (l : List (InternalKey K × V)) (s : Nat) : List (K × V) :=
  ((l.map (·.1.userKey)).dedup).filterMap fun key => (newestEntry l s key).bind fun e => (entryValue e).map (key, ·)

variable {x : InternalKey K × V} {key : K} {kv : K × V}

section Visible

variable {l : List (InternalKey K × V)} {s : Nat}

theorem mem_of_newestEntry (found : newestEntry l s key = some x) : x ∈ l ∧ x.1.userKey = key ∧ x.1.sequence ≤ s := by
  rw [newestEntry] at found
  exact ⟨mem_of_find?_eq_some found, by simpa using find?_some found⟩

theorem newestEntry_iff (ascending : Ascending l) :
    newestEntry l s key = some x ↔ x ∈ l ∧ x.1.userKey = key ∧ x.1.sequence ≤ s ∧
      ∀ z ∈ l, z.1.userKey = key → z.1.sequence ≤ s → x.1 ≤ z.1 := by
  constructor
  · intro found
    obtain ⟨inList, eqKey, vis⟩ := mem_of_newestEntry found
    refine ⟨inList, eqKey, vis, fun z mem isKey seen => ?_⟩
    obtain rfl | lt := SortedList.find?_first ascending found mem (decide_eq_true ⟨isKey, seen⟩)
    · exact le_rfl
    · exact lt.le
  · intro ⟨mem, isKey, seen, least⟩
    cases found : newestEntry l s key with
    | none => exact absurd (decide_eq_true ⟨isKey, seen⟩) (find?_eq_none.mp found x mem)
    | some y =>
      obtain ⟨inList, eqKey, vis⟩ := mem_of_newestEntry found
      obtain rfl | lt := SortedList.find?_first ascending found mem (decide_eq_true ⟨isKey, seen⟩)
      · rfl
      · exact absurd (least y inList eqKey vis) (not_le.mpr lt)

theorem mem_visibleMap : kv ∈ visibleMap l s ↔ ∃ x, newestEntry l s kv.1 = some x ∧ entryValue x = some kv.2 := by
  simp only [visibleMap, mem_filterMap, mem_dedup, Option.bind_eq_some_iff, Option.map_eq_some_iff]
  constructor
  · rintro ⟨key, -, x, newest, val, isValue, rfl⟩
    exact ⟨x, newest, isValue⟩
  rintro ⟨x, newest, isValue⟩
  obtain ⟨inList, isKey, -⟩ := mem_of_newestEntry newest
  exact ⟨kv.1, mem_map.mpr ⟨x, inList, isKey⟩, x, newest, kv.2, isValue, rfl⟩

theorem visibleMap_ascending (ascending : Ascending l) : Ascending (visibleMap l s) := by
  have ord : (l.map (·.1.userKey)).Pairwise (· ≤ ·) :=
    pairwise_map.mpr (ascending.imp fun lt => InternalKey.userKey_le_of_le lt.le)
  have strict : (l.map (·.1.userKey)).dedup.Pairwise (· < ·) :=
    (ord.sublist (dedup_sublist _)).imp₂ (fun _ _ => lt_of_le_of_ne) (nodup_dedup _)
  refine strict.filterMap _ fun a a' lt b isB b' isB' => ?_
  simp only [Option.bind_eq_some_iff, Option.map_eq_some_iff] at isB isB'
  obtain ⟨_, -, _, -, rfl⟩ := isB
  obtain ⟨_, -, _, -, rfl⟩ := isB'
  exact lt

end Visible

namespace DbIter

variable {c : DbIterSetting σ K V} {l : List (InternalKey K × V)} {d : DbIter σ K V}

def WellFormed (l : List (InternalKey K × V)) : Prop := ∀ e ∈ l, (parseInternalKey e.1).isSome

/-! ## One entry -/

variable {ikey : ParsedInternalKey K}

omit [LinearOrder K] in
theorem parseInternalKey_fields {key : InternalKey K} (parsed : parseInternalKey key = some ikey) :
    ikey.userKey = key.userKey ∧ ikey.sequence = key.sequence := by
  obtain ⟨type, -, rfl⟩ := Option.map_eq_some_iff.mp parsed
  exact ⟨rfl, rfl⟩

variable {e : InternalKey K × V}

omit [LinearOrder K] in
theorem entryValue_eq (parsed : parseInternalKey e.1 = some ikey) : entryValue e = match ikey.type with
      | .value => some e.2
      | .deletion => none := by
  obtain ⟨k, seq, type⟩ := ikey
  rw [entryValue, parsed]
  cases type with
  | value | deletion => rfl

def counted (c : DbIterSetting σ K V) (e : InternalKey K × V) (d : DbIter σ K V) : DbIter σ K V :=
  { d with bytesCounter := d.bytesCounter - UInt32.ofNat (c.size e) }

def yielded (c : DbIterSetting σ K V) (e : InternalKey K × V) (d : DbIter σ K V) : DbIter σ K V :=
  { counted c e d with valid := true, savedKey := none }

omit [LinearOrder K] in
theorem readKey_eq (parsed : parseInternalKey e.1 = some ikey) :
    readKey c e d = (if e.1.sequence ≤ c.sequence then some ikey else none, counted c e d) := by
  rw [readKey, parseKey, parsed, ← (parseInternalKey_fields parsed).2]
  dsimp only [counted]
  split
  · rfl
  · rfl

theorem moveIter_spec (ascending : Ascending l) {e : Option (InternalKey K × V)} (stands : Stands c.iterator l d.iter e)
    (m : Move (InternalKey K)) (ok : m.Allowed e.isSome) :
    ∃ iter e', d.moveIter c m = some { d with iter } ∧ Stands c.iterator l iter e' ∧ m.Lands l e e' := by
  obtain ⟨iter, e', moved, stands', lands⟩ := stands.move ascending m ok
  exact ⟨iter, e', by rw [moveIter, moved]; rfl, stands', lands⟩

theorem fewer_after {y : InternalKey K × V} (mem : x ∈ l) (after : x.1 < y.1) :
    l.countP (fun z => y.1 ≤ z.1) < l.countP (fun z => x.1 ≤ z.1) := by
  apply SortedList.countP_lt mem
  · intro z _ reaches
    exact decide_eq_true (after.le.trans (of_decide_eq_true reaches))
  · simpa using after
  · simp

theorem fewer_before {y : InternalKey K × V} (mem : x ∈ l) (pre : y.1 < x.1) :
    l.countP (fun z => z.1 ≤ y.1) < l.countP (fun z => z.1 ≤ x.1) := by
  apply SortedList.countP_lt mem
  · intro z _ notAfter
    exact decide_eq_true ((of_decide_eq_true notAfter).trans pre.le)
  · simpa using pre
  · simp

/-! ## The search for the next key -/

/-- The forward loop looks for the first key with the property, among the entries whose keys are in `rest`. -/
structure Searching (c : DbIterSetting σ K V) (l : List (InternalKey K × V)) (P : K → Prop)
    (rest : InternalKey K → Prop)
    (skipping : Bool) (skip : Option K) : Prop where
  ahead : ∀ kv ∈ visibleMap l c.sequence, P kv.1 → ∀ e, newestEntry l c.sequence kv.1 = some e → rest e.1
  /-- The key to skip has no visible entry before it and no key that is looked for at or before it. -/
  skipped : skipping = true → ∃ key, skip = some key ∧ (∀ kv ∈ visibleMap l c.sequence, P kv.1 → key < kv.1) ∧
    ∀ e ∈ l, rest e.1 → e.1.sequence ≤ c.sequence → key ≤ e.1.userKey
  /-- Where nothing is skipped, no entry of the same key was passed. -/
  candidate : ∀ e ∈ l, rest e.1 → e.1.sequence ≤ c.sequence → (skipping = true → ∀ key ∈ skip, key < e.1.userKey) →
    P e.1.userKey ∧ ∀ z ∈ l, z.1.sequence ≤ c.sequence → z.1.userKey = e.1.userKey → rest z.1

variable {rest : InternalKey K → Prop}

section Searching

variable {P : K → Prop} {skipping : Bool} {skip : Option K} {x : InternalKey K × V} {rest' : InternalKey K → Prop}

theorem Searching.congr (searching : Searching c l P rest skipping skip)
    (eq : ∀ e ∈ l, rest e.1 ↔ rest' e.1) : Searching c l P rest' skipping skip where
  ahead kv mem holds e isNewest := (eq e (mem_of_newestEntry isNewest).1).mp (searching.ahead kv mem holds e isNewest)
  skipped isSkipping := by
    obtain ⟨key, isSkip, later, atLeast⟩ := searching.skipped isSkipping
    exact ⟨key, isSkip, later, fun e mem left => atLeast e mem ((eq e mem).mpr left)⟩
  candidate e mem left visible notSkipped := by
    obtain ⟨holds, fresh⟩ := searching.candidate e mem ((eq e mem).mpr left) visible notSkipped
    exact ⟨holds, fun z inList seen eqKey => (eq z inList).mp (fresh z inList seen eqKey)⟩

section

variable (ascending : Ascending l) (mem : x ∈ l)

include ascending mem

theorem Searching.pass (searching : Searching c l P (x.1 ≤ ·) skipping skip) {skipping' : Bool} {skip' : Option K}
    (notNewest : ∀ kv ∈ visibleMap l c.sequence, P kv.1 → newestEntry l c.sequence kv.1 ≠ some x)
    (skipped : skipping' = true → ∃ key, skip' = some key ∧ (∀ kv ∈ visibleMap l c.sequence, P kv.1 → key < kv.1) ∧
      ∀ e ∈ l, x.1 < e.1 → e.1.sequence ≤ c.sequence → key ≤ e.1.userKey)
    (fewer : ∀ e ∈ l, x.1 < e.1 → e.1.sequence ≤ c.sequence → (skipping' = true → ∀ key ∈ skip', key < e.1.userKey) →
      (skipping = true → ∀ key ∈ skip, key < e.1.userKey) ∧ (x.1.sequence ≤ c.sequence → x.1.userKey ≠ e.1.userKey)) :
    Searching c l P (x.1 < ·) skipping' skip' where
  ahead kv isKey holds e isNewest := by
    have notBefore := searching.ahead kv isKey holds e isNewest
    refine lt_of_le_of_ne notBefore fun eq => notNewest kv isKey holds ?_
    rw [ascending.eq_of_key mem (mem_of_newestEntry isNewest).1 eq, isNewest]
  skipped := skipped
  candidate e inList after visible notSkipped := by
    obtain ⟨wasNotSkipped, differs⟩ := fewer e inList after visible notSkipped
    obtain ⟨holds, fresh⟩ := searching.candidate e inList after.le visible wasNotSkipped
    refine ⟨holds, fun z inZ seen eqKey => lt_of_le_of_ne (fresh z inZ seen eqKey) fun eq => ?_⟩
    rw [← ascending.eq_of_key mem inZ eq] at eqKey seen
    exact differs seen eqKey

theorem Searching.invisible (hidden : ¬x.1.sequence ≤ c.sequence)
    (searching : Searching c l P (x.1 ≤ ·) skipping skip) : Searching c l P (x.1 < ·) skipping skip := by
  apply searching.pass ascending mem
  · exact fun kv _ _ newest => hidden (mem_of_newestEntry newest).2.2
  · intro isSkipping
    obtain ⟨key, isSkip, later, atLeast⟩ := searching.skipped isSkipping
    exact ⟨key, isSkip, later, fun e inList after => atLeast e inList after.le⟩
  · exact fun e _ _ _ notSkipped => ⟨notSkipped, fun vis => absurd vis hidden⟩

theorem Searching.deletion (vis : x.1.sequence ≤ c.sequence)
    (noValue : entryValue x = none) (searching : Searching c l P (x.1 ≤ ·) skipping skip) :
    Searching c l P (x.1 < ·) true (some x.1.userKey) := by
  have notNewest : ∀ kv ∈ visibleMap l c.sequence, P kv.1 → newestEntry l c.sequence kv.1 ≠ some x := by
    intro kv isKey _ isNewest
    obtain ⟨e, isNewest', isValue⟩ := mem_visibleMap.mp isKey
    cases isNewest.symm.trans isNewest'
    cases noValue.symm.trans isValue
  apply searching.pass ascending mem notNewest
  · intro _
    refine ⟨_, rfl, fun kv isKey holds => ?_, fun e inList after _ => InternalKey.userKey_le_of_le after.le⟩
    obtain ⟨e, isNewest, -⟩ := mem_visibleMap.mp isKey
    obtain ⟨inList, eqKey, seen, least⟩ := (newestEntry_iff ascending).mp isNewest
    have notBefore := searching.ahead kv isKey holds e isNewest
    have atLeast : x.1.userKey ≤ kv.1 := eqKey ▸ InternalKey.userKey_le_of_le notBefore
    refine lt_of_le_of_ne atLeast fun eq => notNewest kv isKey holds ?_
    have isX : e = x := ascending.eq_of_key inList mem (le_antisymm (least x mem eq vis) notBefore)
    rw [← isX, isNewest]
  · intro e inList after seen notSkipped
    have later := notSkipped rfl _ rfl
    refine ⟨fun isSkipping key isSkip => ?_, fun _ => later.ne⟩
    obtain ⟨_, isKey, -, atLeast⟩ := searching.skipped isSkipping
    cases isKey.symm.trans isSkip
    exact lt_of_le_of_lt (atLeast x mem le_rfl vis) later

theorem Searching.hidden (notAfter : x.1.userKey ≤ key)
    (searching : Searching c l P (x.1 ≤ ·) true (some key)) : Searching c l P (x.1 < ·) true (some key) := by
  obtain ⟨_, ⟨⟩, later, atLeast⟩ := searching.skipped rfl
  apply searching.pass ascending mem
  · intro kv isKey holds newest
    have isLater := later kv isKey holds
    rw [← (mem_of_newestEntry newest).2.1] at isLater
    exact absurd notAfter (not_le.mpr isLater)
  · exact fun _ => ⟨key, rfl, later, fun e inList after => atLeast e inList after.le⟩
  · exact fun e _ _ _ notSkipped => ⟨notSkipped, fun _ => (lt_of_le_of_lt notAfter (notSkipped rfl key rfl)).ne⟩

theorem Searching.yields (vis : x.1.sequence ≤ c.sequence) {v : V}
    (isValue : entryValue x = some v) (notSkipped : skipping = true → ∀ key ∈ skip, key < x.1.userKey)
    (searching : Searching c l P (x.1 ≤ ·) skipping skip) :
    newestEntry l c.sequence x.1.userKey = some x ∧
      First (· ≤ ·) (visibleMap l c.sequence) P (some (x.1.userKey, v)) := by
  obtain ⟨holds, fresh⟩ := searching.candidate x mem le_rfl vis notSkipped
  have newest : newestEntry l c.sequence x.1.userKey = some x :=
    (newestEntry_iff ascending).mpr ⟨mem, rfl, vis, fun z inList eqKey seen => fresh z inList seen eqKey⟩
  refine ⟨newest, mem_visibleMap.mpr ⟨x, newest, isValue⟩, holds, fun kv isKey has => ?_⟩
  obtain ⟨e, newest', -⟩ := mem_visibleMap.mp isKey
  have notBefore := InternalKey.userKey_le_of_le (searching.ahead kv isKey has e newest')
  rwa [(mem_of_newestEntry newest').2.1] at notBefore

end

theorem Searching.exhausted (nothing : ∀ e ∈ l, ¬rest e.1)
    (searching : Searching c l P rest skipping skip) : First (· ≤ ·) (visibleMap l c.sequence) P none := by
  intro kv isKey holds
  obtain ⟨e, newest, -⟩ := mem_visibleMap.mp isKey
  exact nothing e (mem_of_newestEntry newest).1 (searching.ahead kv isKey holds e newest)

end Searching

/-! ## The invariant -/

/-- The iterator stands before all visible entries of the key and of later keys. -/
structure Before (l : List (InternalKey K × V)) (s : Nat) (key : K) (e : Option (InternalKey K × V)) : Prop where
  before : ∀ y ∈ e, y.1.userKey < key
  after : ∀ z ∈ l, (∀ y ∈ e, y.1 < z.1) → z.1.sequence ≤ s → key ≤ z.1.userKey

def Inv (c : DbIterSetting σ K V) (l : List (InternalKey K × V)) (d : DbIter σ K V) : Option (K × V) → Prop
  | none => d.valid = false ∧ ∃ e, Stands c.iterator l d.iter e
  | some kv => d.valid = true ∧ match d.direction with
    | .forward => ∃ x, Stands c.iterator l d.iter (some x) ∧ newestEntry l c.sequence kv.1 = some x ∧
      entryValue x = some kv.2
    | .reverse => d.savedKey = some kv.1 ∧ d.savedValue = some kv.2 ∧ kv ∈ visibleMap l c.sequence ∧
      ∃ e, Stands c.iterator l d.iter e ∧ Before l c.sequence kv.1 e

/-- A move gives the first of the visible keys with the property. -/
abbrev Finds (c : DbIterSetting σ K V) (l : List (InternalKey K × V)) (r : K → K → Prop) (P : K → Prop)
    (moved : Option (DbIter σ K V)) : Prop :=
  ∃ d' e', moved = some d' ∧ Inv c l d' e' ∧ First r (visibleMap l c.sequence) P e'

omit [LinearOrder K] in
theorem eq_of_entryValue {v : V} (isValue : entryValue e = some v) : e.2 = v := by
  rw [entryValue] at isValue
  split at isValue
  · exact Option.some.inj isValue
  · cases isValue

variable {e : Option (K × V)}

theorem Inv.entry (inv : Inv c l d e) : d.entry c = e := by
  cases e with
  | none => rw [DbIter.entry, inv.1]; rfl
  | some kv =>
    obtain ⟨valid, shown⟩ := inv
    rw [DbIter.entry, if_pos valid]
    cases isDirection : d.direction with
    | forward =>
      rw [isDirection] at shown
      obtain ⟨x, stands, newest, isValue⟩ := shown
      simp [stands.current, (mem_of_newestEntry newest).2.1, eq_of_entryValue isValue]
    | reverse =>
      rw [isDirection] at shown
      obtain ⟨isKey, isValue, -⟩ := shown
      simp [isKey, isValue]

theorem Inv.stands (inv : Inv c l d e) : ∃ e, Stands c.iterator l d.iter e := by
  cases e with
  | none => exact inv.2
  | some kv =>
    obtain ⟨-, shown⟩ := inv
    cases isDirection : d.direction with
    | forward =>
      rw [isDirection] at shown
      obtain ⟨x, stands, -⟩ := shown
      exact ⟨_, stands⟩
    | reverse =>
      rw [isDirection] at shown
      obtain ⟨-, -, -, e, stands, -⟩ := shown
      exact ⟨e, stands⟩

/-! ## The forward loop -/

section Forward

variable {P : K → Prop} {skipping : Bool} {x : InternalKey K × V} (ascending : Ascending l) (wellFormed : WellFormed l)

include ascending wellFormed

theorem nextRound_spec (mem : x ∈ l) (searching : Searching c l P (x.1 ≤ ·) skipping d.savedKey) :
    (∃ v, nextRound c x skipping d = some (.yield (yielded c x d)) ∧
      newestEntry l c.sequence x.1.userKey = some x ∧ entryValue x = some v ∧
      First (· ≤ ·) (visibleMap l c.sequence) P (some (x.1.userKey, v))) ∨
    ∃ skipping' d', nextRound c x skipping d = some (.goOn skipping' d') ∧ d'.iter = d.iter ∧
      d'.direction = d.direction ∧
      Searching c l P (x.1 < ·) skipping' d'.savedKey := by
  obtain ⟨ikey, parsed⟩ := Option.isSome_iff_exists.mp (wellFormed x mem)
  have eqKey := (parseInternalKey_fields parsed).1
  have val := entryValue_eq parsed
  rw [nextRound, readKey_eq parsed]
  by_cases visible : x.1.sequence ≤ c.sequence
  · simp only [visible, if_true]
    cases type : ikey.type with
    | deletion =>
      rw [type] at val
      refine .inr ⟨_, _, rfl, rfl, rfl, ?_⟩
      exact eqKey ▸ searching.deletion ascending mem visible val
    | value =>
      rw [type] at val
      cases skipping with
      | false =>
        have notSkipped : false = true → ∀ key ∈ d.savedKey, key < x.1.userKey := nofun
        obtain ⟨newest, first⟩ := searching.yields ascending mem visible val notSkipped
        exact .inl ⟨x.2, rfl, newest, val, first⟩
      | true =>
        obtain ⟨key, isSkip, -⟩ := searching.skipped rfl
        have isSkip' : (counted c x d).savedKey = some key := isSkip
        rw [isSkip] at searching
        simp only [isSkip', if_true, eqKey]
        split
        case isTrue notAfter =>
          refine .inr ⟨_, _, rfl, rfl, rfl, ?_⟩
          rw [isSkip']
          exact searching.hidden ascending mem notAfter
        case isFalse after =>
          have notSkipped : true = true → ∀ other ∈ some key, other < x.1.userKey := by
            rintro - _ ⟨⟩
            exact lt_of_not_ge after
          obtain ⟨newest, first⟩ := searching.yields ascending mem visible val notSkipped
          exact .inl ⟨x.2, rfl, newest, val, first⟩
  · simp only [visible, if_false]
    exact .inr ⟨_, _, rfl, rfl, rfl, searching.invisible ascending mem visible⟩

theorem findNextLoop_spec (fuel : Nat) (stands : Stands c.iterator l d.iter (some x))
    (forward : d.direction = .forward) (searching : Searching c l P (x.1 ≤ ·) skipping d.savedKey)
    (enough : l.countP (fun z => x.1 ≤ z.1) ≤ fuel) :
    Finds c l (· ≤ ·) P (findNextLoop c fuel skipping d) := by
  have member := stands.mem
  induction fuel generalizing skipping d x with
  | zero =>
    have pos : 0 < l.countP (fun z => x.1 ≤ z.1) := countP_pos_iff.mpr ⟨x, member, by simp⟩
    omega
  | succ fuel ih =>
    simp only [findNextLoop, stands.current, Option.bind_eq_bind, Option.bind_some]
    obtain ⟨v, round, newest, isValue, first⟩ | ⟨skipping', d', round, sameIter, sameDirection, searching'⟩ :=
      nextRound_spec ascending wellFormed member searching
    · rw [round]
      refine ⟨_, some (x.1.userKey, v), rfl, ⟨rfl, ?_⟩, first⟩
      have stays : (yielded c x d).direction = .forward := forward
      rw [stays]
      exact ⟨x, stands, newest, isValue⟩
    · rw [round]
      simp only [Option.bind_some]
      have stays : Stands c.iterator l d'.iter (some x) := sameIter ▸ stands
      obtain ⟨iter, e, moved, stands', lands⟩ := moveIter_spec ascending stays .next rfl
      rw [moved, Option.bind_some, iterValid, stands'.current]
      rw [Cursor.lands_next] at lands
      cases e with
      | none =>
        refine ⟨_, none, rfl, ⟨rfl, none, stands'⟩, searching'.exhausted lands⟩
      | some y =>
        obtain ⟨inList, after, least⟩ := lands
        have eq : ∀ e ∈ l, x.1 < e.1 ↔ y.1 ≤ e.1 := fun e inL => ⟨least e inL, fun reaches => after.trans_le reaches⟩
        refine ih stands' (sameDirection.trans forward) (searching'.congr eq) ?_ inList
        have fewer := fewer_after member after
        omega

theorem findNextUserEntry_spec (enough : l.length ≤ c.fuel)
    (stands : Stands c.iterator l d.iter (some x)) (forward : d.direction = .forward)
    (searching : Searching c l P (x.1 ≤ ·) skipping d.savedKey) :
    Finds c l (· ≤ ·) P (findNextUserEntry c skipping d) :=
  findNextLoop_spec ascending wellFormed c.fuel stands forward searching (countP_le_length.trans enough)

end Forward

/-! ## The search for the previous key -/

/-- The value that the backward loop has kept: the first visible entry among those it has passed. -/
structure Pending (c : DbIterSetting σ K V) (l : List (InternalKey K × V)) (P : K → Prop) (rest : InternalKey K → Prop)
    (x : InternalKey K × V) : Prop where
  mem : x ∈ l
  passed : ¬rest x.1
  visible : x.1.sequence ≤ c.sequence
  holds : P x.1.userKey
  first : ∀ z ∈ l, ¬rest z.1 → z.1.sequence ≤ c.sequence → x.1 ≤ z.1
  ahead : ∀ kv ∈ visibleMap l c.sequence, P kv.1 → ∀ e, newestEntry l c.sequence kv.1 = some e →
    rest e.1 ∨ kv.1 = x.1.userKey

/-- The backward loop looks for the last key with the property, among the entries whose keys are in `rest`. -/
structure Gathering (c : DbIterSetting σ K V) (l : List (InternalKey K × V)) (P : K → Prop)
    (rest : InternalKey K → Prop)
    (valueType : ValueType) (savedKey : Option K) (savedValue : Option V) : Prop where
  holds : ∀ e ∈ l, rest e.1 → e.1.sequence ≤ c.sequence → P e.1.userKey
  ahead : valueType = .deletion → ∀ kv ∈ visibleMap l c.sequence, P kv.1 →
    ∀ e, newestEntry l c.sequence kv.1 = some e → rest e.1
  pending : valueType = .value → ∃ x v, Pending c l P rest x ∧ entryValue x = some v ∧
    savedKey = some x.1.userKey ∧ savedValue = some v

section Gathering

variable {P : K → Prop} {valueType : ValueType} {savedKey : Option K} {savedValue : Option V} {x : InternalKey K × V}

theorem Gathering.congr (gathering : Gathering c l P rest valueType savedKey savedValue)
    (eq : ∀ e ∈ l, rest e.1 ↔ rest' e.1) : Gathering c l P rest' valueType savedKey savedValue where
  holds e member left := gathering.holds e member ((eq e member).mpr left)
  ahead isDeletion kv isKey has e newest :=
    (eq e (mem_of_newestEntry newest).1).mp (gathering.ahead isDeletion kv isKey has e newest)
  pending isValue := by
    obtain ⟨y, v, pending, saved⟩ := gathering.pending isValue
    refine ⟨y, v, { pending with passed := ?_, first := ?_, ahead := ?_ }, saved⟩
    · exact fun left => pending.passed ((eq y pending.mem).mpr left)
    · exact fun z member passed => pending.first z member fun left => passed ((eq z member).mp left)
    · exact fun kv isKey has e newest =>
        (pending.ahead kv isKey has e newest).imp_left (eq e (mem_of_newestEntry newest).1).mp

theorem newest_le (ascending : Ascending l) (mem : x ∈ l) (vis : x.1.sequence ≤ c.sequence)
    {e : InternalKey K × V} (newest : newestEntry l c.sequence x.1.userKey = some e) : e.1 ≤ x.1 :=
  ((newestEntry_iff ascending).mp newest).2.2.2 x mem rfl vis

theorem newest_lt (ascending : Ascending l) (mem : x ∈ l) (hidden : ¬x.1.sequence ≤ c.sequence)
    {e : InternalKey K × V} (newest : newestEntry l c.sequence key = some e) (notAfter : e.1 ≤ x.1) : e.1 < x.1 := by
  refine lt_of_le_of_ne notAfter fun eq => hidden ?_
  rw [← ascending.eq_of_key (mem_of_newestEntry newest).1 mem eq]
  exact (mem_of_newestEntry newest).2.2

theorem Gathering.invisible (hidden : ¬x.1.sequence ≤ c.sequence)
    (ascending : Ascending l) (mem : x ∈ l) (gathering : Gathering c l P (· ≤ x.1) valueType savedKey savedValue) :
    Gathering c l P (· < x.1) valueType savedKey savedValue where
  holds e inList pre := gathering.holds e inList pre.le
  ahead isDeletion kv isKey has e newest :=
    newest_lt ascending mem hidden newest (gathering.ahead isDeletion kv isKey has e newest)
  pending isValue := by
    obtain ⟨y, v, pending, saved⟩ := gathering.pending isValue
    refine ⟨y, v, { pending with passed := ?_, first := ?_, ahead := ?_ }, saved⟩
    · exact fun pre => pending.passed pre.le
    · intro z inList notBefore seen
      refine pending.first z inList (fun notAfter => hidden ?_) seen
      rwa [ascending.eq_of_key mem inList (le_antisymm (not_lt.mp notBefore) notAfter)]
    · exact fun kv isKey has e newest =>
        (pending.ahead kv isKey has e newest).imp_left (newest_lt ascending mem hidden newest)

section

variable (ascending : Ascending l) (mem : x ∈ l) (vis : x.1.sequence ≤ c.sequence)

include ascending mem vis

/-- A visible entry that does not end the loop.  What is looked for is not behind it, unless it is of the same key. -/
theorem Gathering.takes (goesOn : valueType = .value → ¬savedKey.any (x.1.userKey < ·))
    (gathering : Gathering c l P (· ≤ x.1) valueType savedKey savedValue) :
    ∀ kv ∈ visibleMap l c.sequence, P kv.1 → ∀ e, newestEntry l c.sequence kv.1 = some e → e.1 ≤ x.1 := by
  intro kv isKey has e newest
  cases type : valueType with
  | deletion => exact gathering.ahead type kv isKey has e newest
  | value =>
    obtain ⟨y, v, pending, -, isSaved, -⟩ := gathering.pending type
    obtain notAfter | eq := pending.ahead kv isKey has e newest
    · exact notAfter
    have notBefore := goesOn type
    rw [isSaved, Option.any_some, decide_eq_true_eq] at notBefore
    have eqKey : y.1.userKey = x.1.userKey :=
      le_antisymm (not_lt.mp notBefore) (InternalKey.userKey_le_of_le (not_le.mp pending.passed).le)
    rw [eq, eqKey] at newest
    exact newest_le ascending mem vis newest

theorem Gathering.deletion
    (noValue : entryValue x = none) (goesOn : valueType = .value → ¬savedKey.any (x.1.userKey < ·))
    (gathering : Gathering c l P (· ≤ x.1) valueType savedKey savedValue) :
    Gathering c l P (· < x.1) .deletion none none where
  holds e inList before := gathering.holds e inList before.le
  ahead _ kv isKey has e newest := by
    refine lt_of_le_of_ne (gathering.takes ascending mem vis goesOn kv isKey has e newest) fun eq => ?_
    obtain ⟨e', newest', isValue⟩ := mem_visibleMap.mp isKey
    cases newest.symm.trans newest'
    rw [ascending.eq_of_key (mem_of_newestEntry newest).1 mem eq, noValue] at isValue
    cases isValue
  pending := nofun

theorem Gathering.value {v : V}
    (isValue : entryValue x = some v) (goesOn : valueType = .value → ¬savedKey.any (x.1.userKey < ·))
    (gathering : Gathering c l P (· ≤ x.1) valueType savedKey savedValue) :
    Gathering c l P (· < x.1) .value (some x.1.userKey) (some v) where
  holds e inList pre := gathering.holds e inList pre.le
  ahead := nofun
  pending _ := by
    refine ⟨x, v, ⟨mem, lt_irrefl _, vis, gathering.holds x mem le_rfl vis, ?_, ?_⟩, isValue, rfl, rfl⟩
    · exact fun z _ notBefore _ => not_lt.mp notBefore
    intro kv isKey has e newest
    obtain pre | eq := lt_or_eq_of_le (gathering.takes ascending mem vis goesOn kv isKey has e newest)
    · exact .inl pre
    · rw [← (mem_of_newestEntry newest).2.1, eq]
      exact .inr rfl

end

theorem Pending.found (ascending : Ascending l) (pending : Pending c l P rest x) {v : V}
    (isValue : entryValue x = some v) (left : ∀ e ∈ l, rest e.1 → e.1.userKey < x.1.userKey) :
    (x.1.userKey, v) ∈ visibleMap l c.sequence ∧ First (· ≥ ·) (visibleMap l c.sequence) P (some (x.1.userKey, v)) := by
  have newest : newestEntry l c.sequence x.1.userKey = some x := by
    refine (newestEntry_iff ascending).mpr ⟨pending.mem, rfl, pending.visible, fun z member eqKey seen => ?_⟩
    exact pending.first z member (fun inR => absurd eqKey (left z member inR).ne) seen
  have isKey : (x.1.userKey, v) ∈ visibleMap l c.sequence := mem_visibleMap.mpr ⟨x, newest, isValue⟩
  refine ⟨isKey, isKey, pending.holds, fun kv inMap has => ?_⟩
  obtain ⟨e, newest', -⟩ := mem_visibleMap.mp inMap
  obtain inR | eq := pending.ahead kv inMap has e newest'
  · have pre := left e (mem_of_newestEntry newest').1 inR
    rw [(mem_of_newestEntry newest').2.1] at pre
    exact pre.le
  · exact eq.le

theorem Gathering.exhausted (nothing : ∀ e ∈ l, ¬rest e.1)
    (gathering : Gathering c l P rest .deletion savedKey savedValue) :
    First (· ≥ ·) (visibleMap l c.sequence) P none := by
  intro kv isKey has
  obtain ⟨e, newest, -⟩ := mem_visibleMap.mp isKey
  exact nothing e (mem_of_newestEntry newest).1 (gathering.ahead rfl kv isKey has e newest)

end Gathering

/-! ## The backward loops -/

section Backward

variable {P : K → Prop} {valueType : ValueType} {x : InternalKey K × V} (ascending : Ascending l)

include ascending

theorem prevRound_spec (wellFormed : WellFormed l) (mem : x ∈ l)
    (gathering : Gathering c l P (· ≤ x.1) valueType d.savedKey d.savedValue) :
    (prevRound c x valueType d = (false, valueType, counted c x d) ∧ valueType = .value ∧
      d.savedKey.any (x.1.userKey < ·)) ∨
    ∃ valueType' d', prevRound c x valueType d = (true, valueType', d') ∧ d'.iter = d.iter ∧
      d'.direction = d.direction ∧ Gathering c l P (· < x.1) valueType' d'.savedKey d'.savedValue := by
  obtain ⟨ikey, parsed⟩ := Option.isSome_iff_exists.mp (wellFormed x mem)
  have eqKey := (parseInternalKey_fields parsed).1
  have val := entryValue_eq parsed
  rw [prevRound, readKey_eq parsed]
  by_cases visible : x.1.sequence ≤ c.sequence
  · simp only [visible, if_true, eqKey]
    split
    case isTrue breaks =>
      refine .inl ⟨rfl, ?_, breaks.2⟩
      cases valueType with
      | deletion => exact absurd rfl breaks.1
      | value => rfl
    case isFalse goes =>
      have goesOn : valueType = .value → ¬d.savedKey.any (x.1.userKey < ·) :=
        fun isValue pre => goes ⟨by rw [isValue]; decide, pre⟩
      cases type : ikey.type with
      | deletion =>
        rw [type] at val
        exact .inr ⟨_, _, rfl, rfl, rfl, gathering.deletion ascending mem visible val goesOn⟩
      | value =>
        rw [type] at val
        exact .inr ⟨_, _, rfl, rfl, rfl, gathering.value ascending mem visible val goesOn⟩
  · simp only [visible, if_false]
    exact .inr ⟨_, _, rfl, rfl, rfl, gathering.invisible visible ascending mem⟩

structure Gathered (c : DbIterSetting σ K V) (l : List (InternalKey K × V)) (P : K → Prop) (valueType : ValueType)
    (d : DbIter σ K V) (e : Option (InternalKey K × V)) : Prop where
  stands : Stands c.iterator l d.iter e
  nothing : valueType = .deletion → First (· ≥ ·) (visibleMap l c.sequence) P none
  found : valueType = .value → ∃ kv ∈ visibleMap l c.sequence, d.savedKey = some kv.1 ∧ d.savedValue = some kv.2 ∧
    First (· ≥ ·) (visibleMap l c.sequence) P (some kv) ∧ Before l c.sequence kv.1 e

theorem Gathering.gathered
    (gathering : Gathering c l P rest .value d.savedKey d.savedValue) {e : Option (InternalKey K × V)}
    (stands : Stands c.iterator l d.iter e) (left : ∀ z ∈ l, rest z.1 → ∃ y ∈ e, z.1 ≤ y.1)
    (pre : ∀ y ∈ e, d.savedKey.any (y.1.userKey < ·)) : Gathered c l P .value d e := by
  refine ⟨stands, nofun, fun _ => ?_⟩
  obtain ⟨x, v, pending, isValue, isKey, isSaved⟩ := gathering.pending rfl
  rw [isKey] at pre
  have isBefore : ∀ y ∈ e, y.1.userKey < x.1.userKey := fun y isY => by simpa using pre y isY
  have earlier : ∀ z ∈ l, rest z.1 → z.1.userKey < x.1.userKey := by
    intro z mem inR
    obtain ⟨y, isY, notAfter⟩ := left z mem inR
    exact lt_of_le_of_lt (InternalKey.userKey_le_of_le notAfter) (isBefore y isY)
  obtain ⟨isVisible, first⟩ := pending.found ascending isValue earlier
  refine ⟨_, isVisible, isKey, isSaved, first, isBefore, fun z mem after seen => ?_⟩
  apply InternalKey.userKey_le_of_le
  refine pending.first z mem (fun inR => ?_) seen
  obtain ⟨y, isY, notAfter⟩ := left z mem inR
  exact absurd (after y isY) (not_lt.mpr notAfter)

theorem findPrevLoop_spec (wellFormed : WellFormed l) (fuel : Nat) (stands : Stands c.iterator l d.iter (some x))
    (gathering : Gathering c l P (· ≤ x.1) valueType d.savedKey d.savedValue)
    (enough : l.countP (fun z => z.1 ≤ x.1) ≤ fuel) :
    ∃ valueType' d' e, findPrevLoop c fuel valueType d = some (valueType', d') ∧ d'.direction = d.direction ∧
      Gathered c l P valueType' d' e := by
  have member := stands.mem
  induction fuel generalizing valueType d x with
  | zero =>
    have pos : 0 < l.countP (fun z => z.1 ≤ x.1) := countP_pos_iff.mpr ⟨x, member, by simp⟩
    omega
  | succ fuel ih =>
    simp only [findPrevLoop, stands.current, Option.bind_eq_bind, Option.bind_some]
    obtain ⟨round, rfl, pre⟩ | ⟨valueType', d', round, sameIter, sameDirection, gathering'⟩ :=
      prevRound_spec ascending wellFormed member gathering
    · rw [round]
      refine ⟨_, _, _, rfl, rfl, Gathering.gathered (d := counted c x d) ascending gathering stands ?_ ?_⟩
      · exact fun z _ notAfter => ⟨x, rfl, notAfter⟩
      · rintro _ ⟨⟩
        exact pre
    · rw [round]
      have stays : Stands c.iterator l d'.iter (some x) := sameIter ▸ stands
      obtain ⟨iter, e, moved, stands', lands⟩ := moveIter_spec ascending stays .prev rfl
      simp only [moved, Option.bind_some, iterValid, stands'.current]
      rw [Cursor.lands_prev] at lands
      cases e with
      | none =>
        have noMore : ∀ z ∈ l, ¬z.1 < x.1 := lands
        refine ⟨valueType', _, none, rfl, sameDirection, ?_⟩
        cases valueType' with
        | deletion => exact ⟨stands', fun _ => gathering'.exhausted noMore, nofun⟩
        | value =>
          refine Gathering.gathered (d := { d' with iter }) ascending gathering' stands' ?_ nofun
          exact fun z inList inR => absurd inR (noMore z inList)
      | some y =>
        obtain ⟨inList, pre, greatest⟩ := lands
        have eq : ∀ e ∈ l, e.1 < x.1 ↔ e.1 ≤ y.1 := fun e inL => ⟨greatest e inL, fun notAfter => notAfter.trans_lt pre⟩
        have fewer := fewer_before member pre
        obtain ⟨valueType'', d'', e, loops, keeps, gathered⟩ :=
          @ih { d' with iter } valueType' y stands' (gathering'.congr eq) (by omega) inList
        exact ⟨valueType'', d'', e, loops, keeps.trans sameDirection, gathered⟩

theorem findPrevUserEntry_spec (wellFormed : WellFormed l) (enough : l.length ≤ c.fuel)
    {e : Option (InternalKey K × V)} (stands : Stands c.iterator l d.iter e) (reverse : d.direction = .reverse)
    (holds : ∀ z ∈ l, (∃ y ∈ e, z.1 ≤ y.1) → z.1.sequence ≤ c.sequence → P z.1.userKey)
    (ahead : ∀ kv ∈ visibleMap l c.sequence, P kv.1 → ∀ z, newestEntry l c.sequence kv.1 = some z →
      ∃ y ∈ e, z.1 ≤ y.1) :
    Finds c l (· ≥ ·) P (findPrevUserEntry c d) := by
  have gathers : ∃ valueType d' e, prevEntries c d = some (valueType, d') ∧ d'.direction = .reverse ∧
      Gathered c l P valueType d' e := by
    rw [prevEntries, iterValid, stands.current]
    cases e with
    | none =>
      refine ⟨_, _, none, rfl, reverse, stands, fun _ kv isKey has => ?_, nofun⟩
      obtain ⟨z, newest, -⟩ := mem_visibleMap.mp isKey
      obtain ⟨_, ⟨⟩, -⟩ := ahead kv isKey has z newest
    | some x =>
      have gathering : Gathering c l P (· ≤ x.1) .deletion d.savedKey d.savedValue := by
        refine ⟨fun z mem notAfter => holds z mem ⟨x, rfl, notAfter⟩, fun _ kv isKey has z newest => ?_, nofun⟩
        obtain ⟨_, ⟨⟩, notAfter⟩ := ahead kv isKey has z newest
        exact notAfter
      obtain ⟨valueType, d', e, loops, keeps, gathered⟩ :=
        findPrevLoop_spec ascending wellFormed c.fuel stands gathering (countP_le_length.trans enough)
      exact ⟨valueType, d', e, loops, keeps.trans reverse, gathered⟩
  obtain ⟨valueType, d', e, loops, keeps, gathered⟩ := gathers
  simp only [findPrevUserEntry, loops, Option.bind_eq_bind, Option.bind_some]
  cases valueType with
  | deletion => exact ⟨_, none, rfl, ⟨rfl, e, gathered.stands⟩, gathered.nothing rfl⟩
  | value =>
    obtain ⟨kv, isVisible, isKey, isSaved, first, isBefore⟩ := gathered.found rfl
    refine ⟨_, some kv, rfl, ⟨rfl, ?_⟩, first⟩
    simp only [keeps]
    exact ⟨isKey, isSaved, isVisible, e, gathered.stands, isBefore⟩

theorem scanBack_spec (fuel : Nat)
    (stands : Stands c.iterator l d.iter (some x)) (passed : ∀ z ∈ l, x.1 ≤ z.1 → key ≤ z.1.userKey)
    (enough : l.countP (fun z => z.1 ≤ x.1) ≤ fuel) :
    ∃ found iter e, scanBack c key fuel d = some (found, { d with iter }) ∧ Stands c.iterator l iter e ∧
      found = e.isSome ∧ (∀ y ∈ e, y.1.userKey < key) ∧ ∀ z ∈ l, (∀ y ∈ e, y.1 < z.1) → key ≤ z.1.userKey := by
  have member := stands.mem
  induction fuel generalizing d x with
  | zero =>
    have pos : 0 < l.countP (fun z => z.1 ≤ x.1) := countP_pos_iff.mpr ⟨x, member, by simp⟩
    omega
  | succ fuel ih =>
    obtain ⟨iter, e, moved, stands', lands⟩ := moveIter_spec ascending stands .prev rfl
    simp only [scanBack, moved, Option.bind_eq_bind, Option.bind_some, stands'.current]
    rw [Cursor.lands_prev] at lands
    cases e with
    | none =>
      refine ⟨_, iter, none, rfl, stands', rfl, nofun, fun z inList _ => ?_⟩
      exact passed z inList (not_lt.mp (lands z inList))
    | some y =>
      obtain ⟨inList, pre, greatest⟩ := lands
      have beyond : ∀ z ∈ l, y.1 < z.1 → key ≤ z.1.userKey := fun z inZ after =>
        passed z inZ (not_lt.mp fun earlier => absurd after (not_lt.mpr (greatest z inZ earlier)))
      dsimp only
      split
      case isTrue smaller =>
        refine ⟨_, iter, some y, rfl, stands', rfl, ?_, fun z inZ after => beyond z inZ (after y rfl)⟩
        rintro _ ⟨⟩
        exact smaller
      case isFalse notSmaller =>
        have passed' : ∀ z ∈ l, y.1 ≤ z.1 → key ≤ z.1.userKey := fun z _ notBefore =>
          (not_lt.mp notSmaller).trans (InternalKey.userKey_le_of_le notBefore)
        have fewer := fewer_before member pre
        exact @ih { d with iter } y stands' passed' (by omega) inList

end Backward

/-! ## The moves -/

section Moves

variable (ascending : Ascending l) (wellFormed : WellFormed l) (enough : l.length ≤ c.fuel)

include ascending wellFormed enough

theorem findNext_of_seek {P : K → Prop} {iter : σ} {e : Option (InternalKey K × V)} {Reaches : InternalKey K → Prop}
    (stands : Stands c.iterator l iter e) (first : First (· ≤ ·) l Reaches e)
    (upward : ∀ a b, Reaches a → a ≤ b → Reaches b) (forward : d.direction = .forward) {skipping : Bool}
    {savedKey : Option K} (searching : Searching c l P Reaches skipping d.savedKey) :
    Finds c l (· ≤ ·) P (if ({ d with iter } : DbIter σ K V).iterValid c then findNextUserEntry c skipping
      { d with iter }
      else some { d with iter, savedKey, valid := false }) := by
  rw [iterValid, stands.current]
  cases e with
  | none => exact ⟨_, none, rfl, ⟨rfl, none, stands⟩, searching.exhausted first⟩
  | some x =>
    obtain ⟨-, reaches, least⟩ := first
    have eq : ∀ e ∈ l, Reaches e.1 ↔ x.1 ≤ e.1 := fun e mem => ⟨least e mem, upward _ _ reaches⟩
    exact findNextUserEntry_spec ascending wellFormed enough (d := { d with iter }) stands forward (searching.congr eq)

theorem seekToFirst_spec (inv : Inv c l d e) : Finds c l (· ≤ ·) (fun _ => True) (d.seekToFirst c) := by
  obtain ⟨e₀, stands⟩ := inv.stands
  obtain ⟨iter, e₁, moved, stands', lands⟩ :=
    moveIter_spec (d := { d with direction := .forward, savedValue := none }) ascending stands .seekToFirst trivial
  simp only [seekToFirst, moved, Option.bind_eq_bind, Option.bind_some]
  refine findNext_of_seek ascending wellFormed enough (d := { d with direction := .forward, savedValue := none })
    stands' (Cursor.lands_seekToFirst.mp lands) (fun _ _ _ _ => trivial) rfl ?_
  exact ⟨fun _ _ _ _ _ => trivial, nofun, fun _ _ _ _ _ => ⟨trivial, fun _ _ _ _ => trivial⟩⟩

theorem seek_spec (inv : Inv c l d e) (target : K) :
    Finds c l (· ≤ ·) (target ≤ ·) (d.seek c target) := by
  obtain ⟨e₀, stands⟩ := inv.stands
  obtain ⟨iter, e₁, moved, stands', lands⟩ :=
    moveIter_spec (d := { d with direction := .forward, savedValue := none, savedKey := none }) ascending stands
      (.seek (.make target c.sequence kValueTypeForSeek)) trivial
  simp only [seek, moved, Option.bind_eq_bind, Option.bind_some]
  refine findNext_of_seek ascending wellFormed enough
    (d := { d with direction := .forward, savedValue := none, savedKey := none })
    stands' (Cursor.lands_seek.mp lands) (fun _ _ => le_trans) rfl ?_
  have reaches : ∀ z ∈ l, target ≤ z.1.userKey → z.1.sequence ≤ c.sequence →
      InternalKey.make target c.sequence kValueTypeForSeek ≤ z.1 := by
    intro z mem notBefore vis
    obtain ⟨ikey, parsed⟩ := Option.isSome_iff_exists.mp (wellFormed z mem)
    rw [InternalKey.le_iff]
    obtain after | eq := lt_or_eq_of_le notBefore
    · exact .inl after
    refine .inr ⟨eq, ?_⟩
    rw [parseInternalKey_eq_some parsed, InternalKey.make_sequence] at vis
    rw [parseInternalKey_eq_some parsed, InternalKey.make_tag, InternalKey.make_tag]
    cases ikey.type with
    | value | deletion =>
      simp only [kValueTypeForSeek, ValueType.code]
      omega
  refine ⟨fun kv isKey has z newest => ?_, by rintro ⟨⟩, fun z mem after vis _ => ?_⟩
  · obtain ⟨mem, eqKey, vis⟩ := mem_of_newestEntry newest
    exact reaches z mem (eqKey ▸ has) vis
  · have notBefore : target ≤ z.1.userKey := InternalKey.userKey_le_of_le after
    exact ⟨notBefore, fun y inList seen eq => reaches y inList (eq ▸ notBefore) seen⟩

theorem seekToLast_spec (inv : Inv c l d e) : Finds c l (· ≥ ·) (fun _ => True) (d.seekToLast c) := by
  obtain ⟨e₀, stands⟩ := inv.stands
  obtain ⟨iter, e₁, moved, stands', lands⟩ :=
    moveIter_spec (d := { d with direction := .reverse, savedValue := none }) ascending stands .seekToLast trivial
  simp only [seekToLast, moved, Option.bind_eq_bind, Option.bind_some]
  refine findPrevUserEntry_spec ascending wellFormed enough
    (d := { d with direction := .reverse, savedValue := none, iter }) stands' rfl (fun _ _ _ _ => trivial) ?_
  intro kv isKey _ z newest
  have mem := (mem_of_newestEntry newest).1
  rw [Cursor.lands_seekToLast] at lands
  cases e₁ with
  | none => exact absurd trivial (lands z mem)
  | some y => exact ⟨y, rfl, lands.2.2 z mem trivial⟩

theorem next_spec (inv : Inv c l d (some kv)) : Finds c l (· ≤ ·) (kv.1 < ·) (d.next c) := by
  obtain ⟨valid, shown⟩ := inv
  rw [next, if_pos valid]
  cases isDirection : d.direction with
  | forward =>
    rw [isDirection] at shown
    obtain ⟨x, stands, newest, isValue⟩ := shown
    have isKey := (mem_of_newestEntry newest).2.1
    simp only [stands.current, Option.bind_eq_bind, Option.bind_some]
    refine findNextUserEntry_spec ascending wellFormed enough 
      (d := { d with savedKey := some x.1.userKey, direction := .forward }) stands rfl ?_
    rw [isKey]
    have later : ∀ z : InternalKey K × V, kv.1 < z.1.userKey → x.1 ≤ z.1 := fun z after =>
      (InternalKey.lt_of_userKey_lt (isKey ▸ after)).le
    refine ⟨fun kv' _ after z newest' => ?_, fun _ => ⟨kv.1, rfl, fun _ _ after => after, fun z _ notBefore _ => ?_⟩,
      fun z _ _ _ notSkipped => ⟨notSkipped rfl _ rfl, fun y _ _ eq => ?_⟩⟩
    · exact later z ((mem_of_newestEntry newest').2.1 ▸ after)
    · exact isKey ▸ InternalKey.userKey_le_of_le notBefore
    · exact later y (eq ▸ notSkipped rfl _ rfl)
  | reverse =>
    rw [isDirection] at shown
    obtain ⟨isSaved, -, -, e, stands, isBefore⟩ := shown
    have steps : ∃ iter e', { d with direction := .forward }.moveIter c
      (if d.iterValid c then .next else .seekToFirst) =
        some { d with direction := .forward, iter } ∧ Stands c.iterator l iter e' ∧
        First (· ≤ ·) l (fun k => ∀ y ∈ e, y.1 < k) e' := by
      rw [iterValid, stands.current]
      cases e with
      | none =>
        obtain ⟨iter, e', moved, stands', lands⟩ :=
          moveIter_spec (d := { d with direction := .forward }) ascending stands .seekToFirst trivial
        exact ⟨iter, e', moved, stands', (Cursor.lands_seekToFirst.mp lands).congr fun z _ => by simp⟩
      | some y =>
        obtain ⟨iter, e', moved, stands', lands⟩ :=
          moveIter_spec (d := { d with direction := .forward }) ascending stands .next rfl
        exact ⟨iter, e', moved, stands', (Cursor.lands_next.mp lands).congr fun z _ => by simp⟩
    obtain ⟨iter, e', moved, stands', first⟩ := steps
    simp only [moved, Option.bind_eq_bind, Option.bind_some]
    have later : ∀ z : InternalKey K × V, kv.1 ≤ z.1.userKey → ∀ y ∈ e, y.1 < z.1 := fun z notBefore y isY =>
      InternalKey.lt_of_userKey_lt ((isBefore.before y isY).trans_le notBefore)
    have searching : Searching c l (kv.1 < ·) (fun k => ∀ y ∈ e, y.1 < k) true d.savedKey := by
      rw [isSaved]
      refine ⟨fun kv' _ after z newest => ?_, fun _ => ⟨kv.1, rfl, fun _ _ after => after, isBefore.after⟩,
        fun z _ _ _ notSkipped => ⟨notSkipped rfl _ rfl, fun y _ _ eq => ?_⟩⟩
      · exact later z ((mem_of_newestEntry newest).2.1 ▸ after.le)
      · exact later y (eq ▸ (notSkipped rfl _ rfl).le)
    exact findNext_of_seek ascending wellFormed enough (d := { d with direction := .forward }) stands' first
      (fun _ _ reaches notBefore y isY => (reaches y isY).trans_le notBefore) rfl searching

theorem prev_spec (inv : Inv c l d (some kv)) : Finds c l (· ≥ ·) (· < kv.1) (d.prev c) := by
  obtain ⟨valid, shown⟩ := inv
  rw [prev, if_pos valid]
  cases isDirection : d.direction with
  | reverse =>
    rw [isDirection] at shown
    obtain ⟨-, -, -, e, stands, isBefore⟩ := shown
    refine findPrevUserEntry_spec ascending wellFormed enough stands isDirection ?_ ?_
    · rintro z - ⟨y, isY, notAfter⟩ -
      exact (InternalKey.userKey_le_of_le notAfter).trans_lt (isBefore.before y isY)
    intro kv' _ pre z newest
    obtain ⟨mem, eqKey, vis⟩ := mem_of_newestEntry newest
    by_contra passed
    push Not at passed
    have notBefore := isBefore.after z mem passed vis
    exact absurd pre (not_lt.mpr (eqKey ▸ notBefore))
  | forward =>
    rw [isDirection] at shown
    obtain ⟨x, stands, newest, -⟩ := shown
    have isKey := (mem_of_newestEntry newest).2.1
    have passed : ∀ z ∈ l, x.1 ≤ z.1 → x.1.userKey ≤ z.1.userKey := fun z _ => InternalKey.userKey_le_of_le
    obtain ⟨found, iter, e, scanned, stands', isFound, pre, after⟩ := scanBack_spec
      (d := { d with savedKey := some x.1.userKey, direction := .forward }) ascending c.fuel stands passed
      (countP_le_length.trans enough)
    rw [isKey] at pre after
    simp only [stands.current, Option.bind_eq_bind, Option.bind_some, scanned]
    have ahead : ∀ kv' ∈ visibleMap l c.sequence, kv'.1 < kv.1 →
        ∀ z, newestEntry l c.sequence kv'.1 = some z → ∃ y ∈ e, z.1 ≤ y.1 := by
      intro kv' _ isBefore z newest'
      obtain ⟨mem, eqKey, -⟩ := mem_of_newestEntry newest'
      by_contra passed
      push Not at passed
      exact absurd isBefore (not_lt.mpr (eqKey ▸ after z mem passed))
    cases e with
    | none =>
      obtain rfl : found = false := isFound
      refine ⟨_, none, rfl, ⟨rfl, none, stands'⟩, fun kv' isVisible isBefore => ?_⟩
      obtain ⟨z, newest', -⟩ := mem_visibleMap.mp isVisible
      obtain ⟨_, ⟨⟩, -⟩ := ahead kv' isVisible isBefore z newest'
    | some y =>
      obtain rfl : found = true := isFound
      refine findPrevUserEntry_spec ascending wellFormed enough (P := (· < kv.1))
        (d := { d with savedKey := some x.1.userKey, iter, direction := .reverse }) stands' rfl ?_ ahead
      rintro z - ⟨_, ⟨⟩, notAfter⟩ -
      exact (InternalKey.userKey_le_of_le notAfter).trans_lt (pre y rfl)

theorem Inv.move (inv : Inv c l d e) (m : Move K) (ok : m.Allowed e.isSome) :
    ∃ d' e', (dbIterator c).move m d = some d' ∧ Inv c l d' e' ∧ m.Lands (visibleMap l c.sequence) e e' := by
  cases m with
  | seekToFirst => exact seekToFirst_spec ascending wellFormed enough inv
  | seekToLast => exact seekToLast_spec ascending wellFormed enough inv
  | seek target => exact seek_spec ascending wellFormed enough inv target
  | next =>
    obtain ⟨kv, rfl⟩ := Option.isSome_iff_exists.mp ok
    obtain ⟨d', e', moved, inv', first⟩ := next_spec ascending wellFormed enough inv
    exact ⟨d', e', moved, inv', Cursor.lands_next.mpr first⟩
  | prev =>
    obtain ⟨kv, rfl⟩ := Option.isSome_iff_exists.mp ok
    obtain ⟨d', e', moved, inv', first⟩ := prev_spec ascending wellFormed enough inv
    exact ⟨d', e', moved, inv', Cursor.lands_prev.mpr first⟩

end Moves

end DbIter

variable {l : List (InternalKey K × V)}

theorem DbIter.Inv.tracks {c : DbIterSetting σ K V} (ascending : Ascending l)
    (wellFormed : DbIter.WellFormed l) (enough : l.length ≤ c.fuel) {d : DbIter σ K V}
    {p : Position (visibleMap l c.sequence)} (inv : DbIter.Inv c l d (entryAt p)) :
    Tracks (dbIterator c) (visibleMap l c.sequence) d p :=
  Cursor.tracks_of_lands (visibleMap_ascending ascending) (DbIter.Inv c l) (fun _ _ inv => inv.entry)
    (fun _ _ m inv ok => inv.move ascending wellFormed enough m ok) inv

theorem DbIter.inv_new {c : DbIterSetting σ K V} {iter : σ}
    (cursor : ∃ p, Tracks c.iterator l iter p) (period : UInt32) : DbIter.Inv c l (.new iter period) none := by
  obtain ⟨p, tracks⟩ := cursor
  exact ⟨rfl, entryAt p, p, tracks, rfl⟩

/-- Over an internal iterator that is a cursor, the database iterator is a cursor over the visible map. -/
theorem dbIterator_tracks (c : DbIterSetting σ K V) (l : List (InternalKey K × V)) (iter : σ) (period : UInt32)
    (ascending : Ascending l) (wellFormed : DbIter.WellFormed l) (cursor : ∃ p, Tracks c.iterator l iter p)
    (enough : l.length ≤ c.fuel) : Tracks (dbIterator c) (visibleMap l c.sequence) (.new iter period) none :=
  DbIter.Inv.tracks ascending wellFormed enough (DbIter.inv_new cursor period)

def someEntries : List (InternalKey Nat × Nat) :=
  [(.make 1 3 .value, 10), (.make 2 4 .deletion, 0), (.make 2 2 .value, 20), (.make 3 7 .value, 31),
    (.make 3 1 .value, 30)]

theorem dbIterator_tracks_some : visibleMap someEntries 5 = [(1, 10), (3, 30)] ∧
    Tracks (dbIterator ⟨Cursor.listIterator, 5, fun _ => 16, 5⟩) (visibleMap someEntries 5)
      (.new ⟨someEntries, none⟩ 0) none :=
  ⟨by decide, dbIterator_tracks ⟨Cursor.listIterator, 5, fun _ => 16, 5⟩ someEntries _ _ (by decide)
    (by unfold DbIter.WellFormed; decide) ⟨none, Cursor.listIterator_tracks _ _⟩ (by decide)⟩

/-! ## Read sampling -/

/-- `bytes_counter_`, and how often `RecordReadSample` was called. -/
structure Sampler where
  bytesCounter : UInt32
  samples : Nat

namespace Sampler

variable (period : Nat → UInt32) (fuel : Nat)

/-- The loop of `ParseKey`.  `RandomPeriod` draws the numbers `period`, the first one in the constructor. -/
def sampleLoop : Nat → Sampler → Option Sampler
  | 0, _ => none
  | fuel + 1, s =>
    if s.bytesCounter < 0 then
      sampleLoop fuel ⟨s.bytesCounter + period (s.samples + 1), s.samples + 1⟩
    else some s

/-- `ParseKey` as far as the counter goes, for an entry of `n` bytes. -/
def parseKey (s : Sampler) (n : Nat) : Option Sampler :=
  sampleLoop period fuel { s with bytesCounter := s.bytesCounter - UInt32.ofNat n }

def parseKeys (sizes : List Nat) : Option Sampler := sizes.foldlM (parseKey period fuel) ⟨period 0, 0⟩

def periods : Nat → Nat
  | 0 => 0
  | j + 1 => periods j + (period j).toNat

/-- There was a sample for every period that the bytes exceed, and for none that they have not reached. -/
def KeepsUp (s : Sampler) (bytes : Nat) : Prop :=
  (∀ j, 0 < j → periods period j < bytes → j ≤ s.samples) ∧ ∀ j, 0 < j → j ≤ s.samples → periods period j ≤ bytes

/-- An unsigned counter is never below zero. -/
theorem parseKey_eq (s : Sampler) (n : Nat) :
    parseKey period (fuel + 1) s n = some { s with bytesCounter := s.bytesCounter - UInt32.ofNat n } := by
  rw [parseKey, sampleLoop, if_neg]
  exact Nat.not_lt_zero _

theorem parseKey_dbIter {σ K V : Type} (c : DbIterSetting σ K V) (e : InternalKey K × V) (d : DbIter σ K V)
    (samples : Nat) :
    parseKey period (fuel + 1) ⟨d.bytesCounter, samples⟩ (c.size e) =
      some ⟨(DbIter.parseKey c e d).2.bytesCounter, samples⟩ := by
  rw [parseKey_eq, DbIter.parseKey]
  split <;> rfl

theorem foldlM_parseKey (sizes : List Nat) (s : Sampler) :
    ∃ counter, sizes.foldlM (parseKey period (fuel + 1)) s = some ⟨counter, s.samples⟩ := by
  induction sizes generalizing s with
  | nil => exact ⟨_, rfl⟩
  | cons n rest ih =>
    rw [List.foldlM_cons, parseKey_eq]
    exact ih _

/-- The samples keep up as long as not more than the first period was read. -/
theorem samples_keep_up_iff (sizes : List Nat) :
    (∃ s, parseKeys period (fuel + 1) sizes = some s ∧ s.KeepsUp period sizes.sum) ↔
      sizes.sum ≤ (period 0).toNat := by
  have first : periods period 1 = (period 0).toNat := Nat.zero_add _
  obtain ⟨counter, run⟩ := foldlM_parseKey period fuel sizes ⟨period 0, 0⟩
  constructor
  · rintro ⟨s, run', enough, -⟩
    cases run.symm.trans run'
    by_contra exceeds
    exact Nat.not_succ_le_zero 0 (enough 1 one_pos (by omega))
  · intro within
    refine ⟨_, run, fun j pos exceeds => ?_, fun j pos none => absurd none (Nat.not_le_of_lt pos)⟩
    have grows : periods period 1 ≤ periods period j := monotone_nat_of_le_succ (fun _ => Nat.le_add_right ..) pos
    omega

/-- One byte more than an average period is read, and no sample is taken. -/
theorem samples_keep_up_not_always :
    ¬∃ s, parseKeys (fun _ => 1048576) 1 [1048577] = some s ∧ s.KeepsUp (fun _ => 1048576) 1048577 := by
  rintro ⟨s, ⟨⟩, enough, -⟩
  exact absurd (enough 1 one_pos (by decide)) (by decide)

end Sampler

end Elsm
