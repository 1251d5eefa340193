import Mathlib.Data.Prod.Lex
import Mathlib.Order.OrderDual
import Mathlib.Tactic.NormNum
import Elsm.Format.Comparator

/-! # Internal keys (`db/dbformat.h`, `db/dbformat.cpp`)

An internal key is a user key followed by eight bytes that pack a sequence number
and a value type.  `InternalKey` keeps the packed number (`tag`) as it is, so that a
key whose type byte is neither a value nor a deletion can be represented and
`parseInternalKey` can refuse it.  The order is the one of `InternalKeyComparator`:
user keys ascending, tags descending.
-/

namespace Elsm

/-- `kTypeDeletion = 0x0`, `kTypeValue = 0x1`. -/
inductive ValueType where
  | deletion
  | value
  deriving DecidableEq, Repr

def ValueType.code : ValueType → Nat
  | .deletion => 0
  | .value => 1

def ValueType.ofCode? : Nat → Option ValueType
  | 0 => some .deletion
  | 1 => some .value
  | _ => none

def kMaxSequenceNumber : Nat := 2 ^ 56 - 1

/-- The highest-numbered type: tags sort in decreasing order, so it comes first. -/
def kValueTypeForSeek : ValueType := .value

structure InternalKey (K : Type*) where
  userKey : K
  tag : Nat
  deriving DecidableEq, Repr

/-- `(seq << 8) | t`. -/
def packSequenceAndType (seq : Nat) (t : ValueType) : Nat := seq * 256 + t.code

variable {K : Type*}

namespace InternalKey

/-- `InternalKey(user_key, s, t)`. -/
def make (userKey : K) (seq : Nat) (t : ValueType) : InternalKey K :=
  ⟨userKey, packSequenceAndType seq t⟩

def sequence (k : InternalKey K) : Nat := k.tag / 256

def typeCode (k : InternalKey K) : Nat := k.tag % 256

@[simp] theorem make_userKey (u : K) (s : Nat) (t : ValueType) : (make u s t).userKey = u := rfl

@[simp] theorem make_tag (u : K) (s : Nat) (t : ValueType) :
    (make u s t).tag = s * 256 + t.code := rfl

@[simp] theorem make_sequence (u : K) (s : Nat) (t : ValueType) : (make u s t).sequence = s := by
  cases t with
  | deletion => simp [sequence, ValueType.code]
  | value =>
    simp only [sequence, make_tag, ValueType.code]
    omega

@[simp] theorem make_typeCode (u : K) (s : Nat) (t : ValueType) :
    (make u s t).typeCode = t.code := by
  cases t <;> simp [typeCode, ValueType.code]

end InternalKey

structure ParsedInternalKey (K : Type*) where
  userKey : K
  sequence : Nat
  type : ValueType
  deriving DecidableEq, Repr

/-- `ParseInternalKey`: fails on a type byte above `kTypeValue`. -/
def parseInternalKey (k : InternalKey K) : Option (ParsedInternalKey K) :=
  (ValueType.ofCode? k.typeCode).map fun t => ⟨k.userKey, k.sequence, t⟩

@[simp] theorem ofCode?_code (t : ValueType) : ValueType.ofCode? t.code = some t := by
  cases t <;> rfl

theorem ofCode?_eq_some {n : Nat} {t : ValueType} (h : ValueType.ofCode? n = some t) : n = t.code := by
  match n with
  | 0 => cases h; rfl
  | 1 => cases h; rfl
  | n + 2 => cases h

@[simp] theorem parseInternalKey_make (u : K) (s : Nat) (t : ValueType) :
    parseInternalKey (InternalKey.make u s t) = some ⟨u, s, t⟩ := by
  simp [parseInternalKey]

theorem parseInternalKey_eq_some {k : InternalKey K} {p : ParsedInternalKey K}
    (h : parseInternalKey k = some p) : k = InternalKey.make p.userKey p.sequence p.type := by
  unfold parseInternalKey at h
  cases isType : ValueType.ofCode? k.typeCode with
  | none => simp [isType] at h
  | some t =>
    simp only [isType, Option.map_some, Option.some.injEq] at h
    subst h
    have code := ofCode?_eq_some isType
    obtain ⟨u, tag⟩ := k
    simp only [InternalKey.typeCode, InternalKey.sequence, InternalKey.make, packSequenceAndType,
      InternalKey.mk.injEq, true_and] at code ⊢
    omega

/-! ## The internal key order -/

section Order

variable [LinearOrder K]

/-- `InternalKeyComparator::Compare`: increasing user key, then decreasing tag. -/
def internalKeyCompare (a b : InternalKey K) : Ordering :=
  match compare a.userKey b.userKey with
  | .eq => if a.tag > b.tag then .lt else if a.tag < b.tag then .gt else .eq
  | r => r

namespace InternalKey

instance : LE (InternalKey K) := ⟨fun a b => internalKeyCompare a b ≠ .gt⟩
instance : LT (InternalKey K) := ⟨fun a b => internalKeyCompare a b = .lt⟩

instance (a b : InternalKey K) : Decidable (a ≤ b) :=
  inferInstanceAs (Decidable (internalKeyCompare a b ≠ .gt))
instance (a b : InternalKey K) : Decidable (a < b) :=
  inferInstanceAs (Decidable (internalKeyCompare a b = .lt))

variable {a b : InternalKey K}

theorem lt_iff : a < b ↔ a.userKey < b.userKey ∨ a.userKey = b.userKey ∧ b.tag < a.tag := by
  change internalKeyCompare a b = .lt ↔ _
  unfold internalKeyCompare
  cases h : compare a.userKey b.userKey with
  | lt => simp [compare_lt_iff_lt.mp h]
  | eq =>
    have same := compare_eq_iff_eq.mp h
    by_cases greater : a.tag > b.tag
    · simp [same, greater]
    by_cases less : a.tag < b.tag
    · simp [same, greater, less]
    · simp [same, greater, less]
  | gt =>
    have greater := compare_gt_iff_gt.mp h
    simp [greater.not_gt, greater.ne']

theorem le_iff : a ≤ b ↔ a.userKey < b.userKey ∨ a.userKey = b.userKey ∧ b.tag ≤ a.tag := by
  change internalKeyCompare a b ≠ .gt ↔ _
  unfold internalKeyCompare
  cases h : compare a.userKey b.userKey with
  | lt => simp [compare_lt_iff_lt.mp h]
  | eq =>
    have same := compare_eq_iff_eq.mp h
    by_cases greater : a.tag > b.tag
    · simp [same, greater, greater.le]
    by_cases less : a.tag < b.tag
    · simp [same, greater, less]
    · simp [same, greater, less, Nat.le_of_not_lt less]
  | gt =>
    have greater := compare_gt_iff_gt.mp h
    simp [greater.not_gt, greater.ne']

instance : LinearOrder (InternalKey K) where
  le_refl a := by rw [le_iff]; simp
  le_trans a b c := by
    rw [le_iff, le_iff, le_iff]
    rintro (h | ⟨h, t⟩) (h' | ⟨h', t'⟩)
    · exact .inl (h.trans h')
    · exact .inl (h' ▸ h)
    · exact .inl (h ▸ h')
    · exact .inr ⟨h.trans h', t'.trans t⟩
  le_antisymm a b := by
    rw [le_iff, le_iff]
    rintro (h | ⟨h, t⟩) (h' | ⟨h', t'⟩)
    · exact absurd h h'.not_gt
    · exact absurd h' h.ne'
    · exact absurd h h'.ne'
    obtain ⟨u, n⟩ := a
    obtain ⟨v, m⟩ := b
    simp only at h t t'
    rw [h, le_antisymm t' t]
  le_total a b := by
    rw [le_iff, le_iff]
    rcases lt_trichotomy a.userKey b.userKey with h | h | h
    · exact .inl (.inl h)
    · rcases le_total b.tag a.tag with t | t
      · exact .inl (.inr ⟨h, t⟩)
      · exact .inr (.inr ⟨h.symm, t⟩)
    · exact .inr (.inl h)
  lt_iff_le_not_ge a b := by
    rw [lt_iff, le_iff, le_iff]
    constructor
    · rintro (h | ⟨h, t⟩)
      · exact ⟨.inl h, by simp [h.not_gt, h.ne']⟩
      · exact ⟨.inr ⟨h, t.le⟩, by simp [h, t]⟩
    rintro ⟨h | ⟨h, t⟩, not⟩
    · exact .inl h
    · refine .inr ⟨h, lt_of_not_ge fun t' => not (.inr ⟨h.symm, t'⟩)⟩
  toDecidableLE := inferInstance
  toDecidableLT := inferInstance
  toDecidableEq := inferInstance

theorem userKey_le_of_le (h : a ≤ b) : a.userKey ≤ b.userKey := by
  rcases le_iff.mp h with h | ⟨h, _⟩
  · exact h.le
  · exact h.le

theorem lt_of_userKey_lt (h : a.userKey < b.userKey) : a < b :=
  lt_iff.mpr (.inl h)

theorem tag_lt_of_lt (eq : a.userKey = b.userKey) (h : a < b) : b.tag < a.tag := by
  rcases lt_iff.mp h with h | ⟨_, t⟩
  · exact absurd eq h.ne
  · exact t

theorem tag_le_of_le (eq : a.userKey = b.userKey) (h : a ≤ b) : b.tag ≤ a.tag := by
  rcases le_iff.mp h with h | ⟨_, t⟩
  · exact absurd eq h.ne
  · exact t

end InternalKey

end Order

/-! ## Byte encoding -/

/-- `EncodeFixed64`: eight bytes, least significant first. -/
def encodeFixed64 (n : Nat) : Bytes := (List.range 8).map fun i => UInt8.ofNat (n / 256 ^ i)

@[simp] theorem encodeFixed64_length (n : Nat) : (encodeFixed64 n).length = 8 := rfl

/-- `AppendInternalKey`. -/
def InternalKey.encode (k : InternalKey Bytes) : Bytes := k.userKey ++ encodeFixed64 k.tag

@[simp] theorem InternalKey.encode_length (k : InternalKey Bytes) :
    k.encode.length = k.userKey.length + 8 := by
  simp [InternalKey.encode]

/-- `LookupKey(user_key, s).internal_key()`: the first internal key of `user_key` that a
reader at sequence `s` may see. -/
def lookupKey (userKey : K) (s : Nat) : InternalKey K := .make userKey s kValueTypeForSeek

end Elsm
