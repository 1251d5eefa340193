import Elsm.Format.InternalKey
import Elsm.Lib.Reading

/-!
# Number encodings and separators (`util/coding.cpp`, `util/comparator.cpp`, `db/dbformat.cpp`)

The writers and readers of fixed-width and variable-length numbers, and the keys a table's index uses to
separate its blocks.
-/

namespace Elsm

open List

/-! ## Numbers -/

/-- `EncodeFixed32`: four bytes, least significant first. -/
def encodeFixed32 (n : Nat) : Bytes := (range 4).map fun i => UInt8.ofNat (n / 256 ^ i)

/-- `EncodeVarint32`; a byte keeps the low eight bits of what is stored in it. -/
def encodeVarint32 (v : Nat) : Bytes :=
  let more (n : Nat) : UInt8 := UInt8.ofNat (n ||| 128)
  if v < 128 then [UInt8.ofNat v]
  else if v < 16384 then [more v, UInt8.ofNat (v / 128)]
  else if v < 2097152 then [more v, more (v / 128), UInt8.ofNat (v / 16384)]
  else if v < 268435456 then [more v, more (v / 128), more (v / 16384), UInt8.ofNat (v / 2097152)]
  else [more v, more (v / 128), more (v / 16384), more (v / 2097152), UInt8.ofNat (v / 268435456)]

/-- The loop of `EncodeVarint64`, with the bytes that may still carry a continuation bit. -/
def encodeVarint64Loop : Nat → Nat → Bytes
  | 0, v => [UInt8.ofNat v]
  | remaining + 1, v =>
    if 128 ≤ v then UInt8.ofNat (v % 128 ||| 128) :: encodeVarint64Loop remaining (v / 128)
    else [UInt8.ofNat v]

def encodeVarint64 (v : Nat) : Bytes := encodeVarint64Loop 9 v

/-- `VarintLength` -/
def varintLength (v : Nat) : Nat := if 128 ≤ v then varintLength (v / 128) + 1 else 1
termination_by v
decreasing_by omega

/-- The number whose bytes are given, least significant first. -/
def littleEndian (bytes : Bytes) : Nat := bytes.foldr (fun byte n => byte.toNat + 256 * n) 0

theorem littleEndian_lt (bytes : Bytes) : littleEndian bytes < 256 ^ bytes.length := by
  induction bytes with
  | nil => decide
  | cons byte bytes ih =>
    have small := byte.toNat_lt
    rw [littleEndian, foldr_cons, ← littleEndian, length_cons, Nat.pow_succ]
    omega

def decodeFixed32 (bytes : Bytes) : Nat := littleEndian (bytes.take 4)

def decodeFixed64 (bytes : Bytes) : Nat := littleEndian (bytes.take 8)

/-- The loop of `GetVarint32Ptr` and `GetVarint64Ptr`, with the bytes it may still read.  The result
has `width` bits, and so has what is shifted into it. -/
def getVarintLoop (width : Nat) : Nat → Nat → Nat → Bytes → Option (Nat × Bytes)
  | 0, _, _, _ => none
  | _ + 1, _, _, [] => none
  | remaining + 1, shift, result, byte :: rest =>
    if byte.toNat &&& 128 ≠ 0 then
      getVarintLoop width remaining (shift + 7) (result ||| ((byte.toNat &&& 127) <<< shift) % 2 ^ width) rest
    else some (result ||| (byte.toNat <<< shift) % 2 ^ width, rest)

def getVarint32PtrFallback (input : Bytes) : Option (Nat × Bytes) := getVarintLoop 32 5 0 0 input

/-- `GetVarint32Ptr`: a number of one byte is read without the loop. -/
def getVarint32Ptr (input : Bytes) : Option (Nat × Bytes) :=
  match input with
  | byte :: rest => if byte.toNat &&& 128 = 0 then some (byte.toNat, rest) else getVarint32PtrFallback input
  | [] => getVarint32PtrFallback input

/-- `GetVarint32`: the number and the rest of the input. -/
def getVarint32 (input : Bytes) : Option (Nat × Bytes) := getVarintLoop 32 5 0 0 input

def getVarint64 (input : Bytes) : Option (Nat × Bytes) := getVarintLoop 64 10 0 0 input

def getLengthPrefixedSlice (input : Bytes) : Option (Bytes × Bytes) :=
  match getVarint32 input with
  | some (len, rest) => if len ≤ rest.length then some (rest.take len, rest.drop len) else none
  | none => none

def putLengthPrefixedSlice (value : Bytes) : Bytes := encodeVarint32 value.length ++ value

theorem decodeFixed32_encodeFixed32 {n : Nat} (fits : n < 4294967296) (rest : Bytes) :
    decodeFixed32 (encodeFixed32 n ++ rest) = n := by
  simp only [encodeFixed32, range, range.loop, map_cons, map_nil, cons_append,
    nil_append, decodeFixed32, littleEndian, take_succ_cons, take_zero, foldr_cons,
    foldr_nil, UInt8.toNat_ofNat']
  omega

theorem varintByte : ∀ low < 128, low &&& 128 = 0 ∧ (low + 128) &&& 128 ≠ 0 ∧ (low + 128) &&& 127 = low := by
  decide +kernel

/-- The continuation bit is set, and what is above it is cut off. -/
theorem moreByte_toNat (n : Nat) : (UInt8.ofNat (n ||| 128)).toNat = n % 128 + 128 := by
  have bits : (n ||| 128) % 2 ^ 8 = 2 ^ 7 * 1 ||| n % 2 ^ 7 := by
    apply Nat.eq_of_testBit_eq
    intro i
    rw [show 128 = 2 ^ 7 from rfl]
    simp only [Nat.testBit_mod_two_pow, Nat.testBit_or, Nat.testBit_two_pow, Nat.mul_one]
    grind
  have below : n % 2 ^ 7 < 2 ^ 7 := Nat.mod_lt _ (by decide)
  rw [UInt8.toNat_ofNat', bits, ← Nat.two_pow_add_eq_or_of_lt below, Nat.add_comm]
  rfl

theorem lastByte_toNat {n : Nat} (small : n < 128) : (UInt8.ofNat n).toNat = n := by
  rw [UInt8.toNat_ofNat']
  omega

theorem getVarintLoop_encode {width rem v shift res : Nat} (rest : Bytes)
    (short : v < 2 ^ (7 * (rem + 1))) (pre : res < 2 ^ shift) (fits : v <<< shift < 2 ^ width) :
    getVarintLoop width (rem + 1) shift res (encodeVarint64Loop rem v ++ rest) = some (res + v <<< shift, rest) := by
  have join : ∀ {shift res : Nat}, res < 2 ^ shift → ∀ n, res ||| n <<< shift = res + n <<< shift := by
    intro shift res pre n
    rw [Nat.or_comm, ← Nat.shiftLeft_add_eq_or_of_lt pre, Nat.add_comm]
  have last : ∀ {rem v shift res : Nat}, v < 128 → res < 2 ^ shift → v <<< shift < 2 ^ width →
      getVarintLoop width (rem + 1) shift res (UInt8.ofNat v :: rest) = some (res + v <<< shift, rest) := by
    intro rem v shift res small pre fits
    have noMore := (varintByte v small).1
    simp only [getVarintLoop, lastByte_toNat small, noMore, ne_eq, not_true_eq_false, if_false,
      Nat.mod_eq_of_lt fits, join pre]
  induction rem generalizing v shift res with
  | zero => exact last short pre fits
  | succ rem ih =>
    rw [encodeVarint64Loop]
    split
    case isFalse small => exact last (Nat.lt_of_not_le small) pre fits
    case isTrue =>
      obtain ⟨-, isMore, low⟩ := varintByte (v % 128) (Nat.mod_lt _ (by decide))
      have whole : v = v / 128 * 128 + v % 128 := (Nat.div_add_mod' v 128).symm
      have parts : v <<< shift = (v % 128) <<< shift + (v / 128) <<< (shift + 7) := by
        rw [Nat.shiftLeft_eq, Nat.shiftLeft_eq, Nat.shiftLeft_eq, Nat.pow_add]
        nth_rewrite 1 [whole]
        rw [Nat.add_mul, Nat.mul_assoc, Nat.mul_comm (2 ^ shift), Nat.add_comm]
      rw [parts] at fits
      have lowFits : (v % 128) <<< shift < 2 ^ width := (Nat.le_add_right _ _).trans_lt fits
      have highFits : (v / 128) <<< (shift + 7) < 2 ^ width := (Nat.le_add_left _ _).trans_lt fits
      have lowShort : res + (v % 128) <<< shift < 2 ^ (shift + 7) := by
        have small : v % 128 + 1 ≤ 128 := Nat.mod_lt _ (by decide)
        rw [Nat.shiftLeft_eq, Nat.pow_add, Nat.mul_comm (2 ^ shift)]
        calc res + v % 128 * 2 ^ shift < (v % 128 + 1) * 2 ^ shift := by rw [Nat.succ_mul]; omega
          _ ≤ 2 ^ 7 * 2 ^ shift := Nat.mul_le_mul_right _ small
      have shorter : v / 128 < 2 ^ (7 * (rem + 1)) := by
        rw [Nat.div_lt_iff_lt_mul (by decide)]
        rwa [Nat.mul_succ 7 (rem + 1), Nat.pow_add] at short
      have later := ih shorter lowShort highFits
      rw [cons_append, getVarintLoop, moreByte_toNat, Nat.mod_mod, if_pos isMore, low, Nat.mod_eq_of_lt lowFits,
        join pre, later, parts, Nat.add_assoc]

theorem getVarint64_encodeVarint64 {v : Nat} (fits : v < 2 ^ 64) (rest : Bytes) :
    getVarint64 (encodeVarint64 v ++ rest) = some (v, rest) := by
  have read := @getVarintLoop_encode 64 9 v 0 0 rest (by omega) (by decide) (by simpa using fits)
  rwa [Nat.shiftLeft_zero, Nat.zero_add] at read

/-- The unrolled writer of 32-bit numbers writes the same bytes as the loop. -/
theorem encodeVarint32_eq (v : Nat) : encodeVarint32 v = encodeVarint64Loop 4 v := by
  have eq : ∀ n, UInt8.ofNat (n % 128 ||| 128) = UInt8.ofNat (n ||| 128) := by
    intro n
    apply UInt8.toNat_inj.mp
    rw [moreByte_toNat, moreByte_toNat, Nat.mod_mod]
  have divs : v / 128 / 128 = v / 16384 ∧ v / 16384 / 128 = v / 2097152 ∧ v / 2097152 / 128 = v / 268435456 := by
    omega
  simp only [encodeVarint32, encodeVarint64Loop, eq, divs]
  grind

theorem encodeVarint32_length_pos (v : Nat) : 1 ≤ (encodeVarint32 v).length := by
  rw [encodeVarint32_eq, encodeVarint64Loop]
  split <;> simp

theorem getVarint32_encodeVarint32 {v : Nat} (fits : v < 2 ^ 32) (rest : Bytes) :
    getVarint32 (encodeVarint32 v ++ rest) = some (v, rest) := by
  have read := @getVarintLoop_encode 32 4 v 0 0 rest (by omega) (by decide) (by simpa using fits)
  rw [encodeVarint32_eq]
  rwa [Nat.shiftLeft_zero, Nat.zero_add] at read

theorem getLengthPrefixedSlice_put {val : Bytes} (fits : val.length < 2 ^ 32) (rest : Bytes) :
    getLengthPrefixedSlice (putLengthPrefixedSlice val ++ rest) = some (val, rest) := by
  rw [getLengthPrefixedSlice, putLengthPrefixedSlice, append_assoc, getVarint32_encodeVarint32 fits]
  simp

theorem decodeFixed64_encodeFixed64 {n : Nat} (fits : n < 2 ^ 64) : decodeFixed64 (encodeFixed64 n) = n := by
  simp only [encodeFixed64, range, range.loop, map_cons, map_nil, decodeFixed64, littleEndian,
    take_succ_cons, take_zero, foldr_cons, foldr_nil, UInt8.toNat_ofNat']
  omega

/-! ## What a reader of varints takes -/

theorem getVarintLoop_local (width rem shift res : Nat) : Reading.Local (getVarintLoop width rem shift res) := by
  induction rem generalizing shift res with
  | zero => exact fun _ _ _ => nofun
  | succ rem ih =>
    intro input val rest read
    cases input with
    | nil => cases read
    | cons byte input =>
      rw [getVarintLoop] at read
      split at read
      case isTrue more =>
        obtain ⟨used, rfl, reads⟩ := ih _ _ _ _ _ read
        refine ⟨byte :: used, rfl, fun rest => ?_⟩
        rw [cons_append, getVarintLoop, if_pos more, reads]
      case isFalse last =>
        cases read
        refine ⟨[byte], rfl, fun rest => ?_⟩
        rw [singleton_append, getVarintLoop, if_neg last]

theorem getVarintLoop_lt {width rem shift res val : Nat} {input rest : Bytes} (pre : res < 2 ^ width)
    (read : getVarintLoop width rem shift res input = some (val, rest)) : val < 2 ^ width := by
  have join : ∀ n, res ||| n % 2 ^ width < 2 ^ width := fun n =>
    Nat.or_lt_two_pow pre (Nat.mod_lt _ (Nat.two_pow_pos _))
  induction rem generalizing shift res input with
  | zero => cases read
  | succ rem ih =>
    cases input with
    | nil => cases read
    | cons byte input =>
      rw [getVarintLoop] at read
      split at read
      case isTrue => exact ih (join _) read fun n => Nat.or_lt_two_pow (join _) (Nat.mod_lt _ (Nat.two_pow_pos _))
      case isFalse =>
        cases read
        exact join _

section

variable {input rest : Bytes} {val : Nat} (read : getVarint32 input = some (val, rest))

include read

theorem getVarint32_lt :
    val < 2 ^ 32 := getVarintLoop_lt (by decide) read

theorem getVarint32_shorter : rest.length < input.length := by
  obtain ⟨used, rfl, reads⟩ := getVarintLoop_local _ _ _ _ _ _ _ read
  cases used with
  | nil => cases reads []
  | cons byte used => rw [length_append, length_cons]; omega

end

/-- A successful reader has taken something, and has looked at nothing else. -/
def Consumes {α : Type*} (read : Reading.Reader UInt8 α) : Prop :=
  ∀ input a rest, read input = some (a, rest) → ∃ used, used ≠ [] ∧ input = used ++ rest ∧ Reading.Reads read used a

theorem encodeVarint64Loop_length {rem v : Nat} (short : v < 128 ^ (rem + 1)) :
    (encodeVarint64Loop rem v).length = varintLength v := by
  induction rem generalizing v with
  | zero => rw [varintLength, if_neg (by omega)]; rfl
  | succ rem ih =>
    rw [encodeVarint64Loop, varintLength]
    split
    · rw [length_cons, ih]
      rw [Nat.div_lt_iff_lt_mul (by decide)]
      rwa [Nat.pow_succ] at short
    · rfl

theorem getVarint32Ptr_eq (input : Bytes) : getVarint32Ptr input = getVarint32PtrFallback input := by
  unfold getVarint32Ptr
  split
  case h_2 => rfl
  case h_1 byte rest =>
    split
    case isFalse => rfl
    case isTrue last =>
      simp [getVarint32PtrFallback, getVarintLoop, last]

theorem getVarintLoop_consumes (width rem : Nat) : Consumes (getVarintLoop width rem 0 0) := by
  intro input val rest read
  obtain ⟨used, whole, reads⟩ := getVarintLoop_local _ _ _ _ _ _ _ read
  refine ⟨used, ?_, whole, reads⟩
  rintro rfl
  cases rem <;> cases reads []

theorem getLengthPrefixedSlice_consumes : Consumes getLengthPrefixedSlice := by
  intro input val rest read
  rw [getLengthPrefixedSlice] at read
  split at read
  case h_2 => cases read
  case h_1 len behind found =>
    split at read
    case isFalse => cases read
    case isTrue fits =>
      cases read
      obtain ⟨used, ne, rfl, reads⟩ := getVarintLoop_consumes _ _ _ _ _ found
      refine ⟨used ++ behind.take len, by simp [ne], by simp, fun other => ?_⟩
      have found' : getVarint32 (used ++ (behind.take len ++ other)) = _ := reads _
      have enough : len ≤ (behind.take len ++ other).length := by
        rw [length_append, length_take, Nat.min_eq_left fits]
        exact Nat.le_add_right _ _
      have exact' : (behind.take len).length = len := by rw [length_take, Nat.min_eq_left fits]
      rw [append_assoc, getLengthPrefixedSlice, found']
      simp only [enough, if_true]
      rw [take_left' exact', drop_left' exact']

/-- Numbers and slices are read back as they were written, in as many bytes as `VarintLength` says, and a reader takes
at least one byte and stays within its input. -/
theorem varint_coding :
    (∀ v < 2 ^ 32, (encodeVarint32 v).length = varintLength v ∧
      ∀ rest, getVarint32 (encodeVarint32 v ++ rest) = some (v, rest)) ∧
    (∀ v < 2 ^ 64, (encodeVarint64 v).length = varintLength v ∧
      ∀ rest, getVarint64 (encodeVarint64 v ++ rest) = some (v, rest)) ∧
    (∀ value : Bytes, value.length < 2 ^ 32 →
      (putLengthPrefixedSlice value).length = varintLength value.length + value.length ∧
        ∀ rest, getLengthPrefixedSlice (putLengthPrefixedSlice value ++ rest) = some (value, rest)) ∧
    (∀ input, getVarint32 input = getVarint32Ptr input ∧ getVarint32Ptr input = getVarint32PtrFallback input) ∧
    Consumes getVarint32 ∧ Consumes getVarint64 ∧ Consumes getLengthPrefixedSlice := by
  have length32 : ∀ v < 2 ^ 32, (encodeVarint32 v).length = varintLength v := by
    intro v fits
    rw [encodeVarint32_eq, encodeVarint64Loop_length (fits.trans (by decide))]
  refine ⟨fun v fits => ⟨length32 v fits, getVarint32_encodeVarint32 fits⟩, fun v fits => ?_, fun value fits => ?_,
    fun input => ⟨(getVarint32Ptr_eq input).symm, getVarint32Ptr_eq input⟩, getVarintLoop_consumes _ _,
    getVarintLoop_consumes _ _, getLengthPrefixedSlice_consumes⟩
  · exact ⟨encodeVarint64Loop_length (fits.trans (by decide)), getVarint64_encodeVarint64 fits⟩
  · refine ⟨?_, getLengthPrefixedSlice_put fits⟩
    rw [putLengthPrefixedSlice, length_append, length32 _ fits]

/-! ## Separators -/

/-- The length of the common part two byte strings start with. -/
def commonLength : Bytes → Bytes → Nat
  | x :: a, y :: b => if x = y then commonLength a b + 1 else 0
  | _, _ => 0

def bytewiseSeparator (start limit : Bytes) : Bytes :=
  let diffIndex := commonLength start limit
  match start[diffIndex]?, limit[diffIndex]? with
  | some diffByte, some limitByte =>
    if diffByte < 255 ∧ diffByte.toNat + 1 < limitByte.toNat then start.take diffIndex ++ [diffByte + 1]
    else start
  | _, _ => start

def bytewiseSuccessor : Bytes → Bytes
  | [] => []
  | byte :: rest => if byte ≠ 255 then [byte + 1] else byte :: bytewiseSuccessor rest

/-- The shortened user key with the earliest possible tag, when it is shorter and larger. -/
def shortenTo (key : InternalKey Bytes) (shorter : Bytes) : InternalKey Bytes :=
  if shorter.length < key.userKey.length ∧ key.userKey < shorter then
    .make shorter kMaxSequenceNumber kValueTypeForSeek
  else key

def findShortestSeparator (start limit : InternalKey Bytes) : InternalKey Bytes :=
  shortenTo start (bytewiseSeparator start.userKey limit.userKey)

def findShortSuccessor (key : InternalKey Bytes) : InternalKey Bytes :=
  shortenTo key (bytewiseSuccessor key.userKey)

theorem bytewiseSeparator_cons (x : UInt8) (a b : Bytes) :
    bytewiseSeparator (x :: a) (x :: b) = x :: bytewiseSeparator a b := by
  simp only [bytewiseSeparator, commonLength, if_true, getElem?_cons_succ, take_succ_cons]
  cases a[commonLength a b]? with
  | none => rfl
  | some diffByte =>
    cases b[commonLength a b]? with
    | none => rfl
    | some limitByte => by_cases room : diffByte < 255 ∧ diffByte.toNat + 1 < limitByte.toNat <;> simp [room]

theorem bytewiseSeparator_cases (start limit : Bytes) :
    bytewiseSeparator start limit = start ∨ bytewiseSeparator start limit < limit := by
  induction start, limit using commonLength.induct with
  | case1 x a b ih =>
    rw [bytewiseSeparator_cons]
    obtain eq | lt := ih
    · exact .inl (congrArg _ eq)
    · exact .inr (cons_lt_cons_iff.mpr (.inr ⟨rfl, lt⟩))
  | case2 x a y b ne =>
    simp only [bytewiseSeparator, commonLength, ne, if_false, getElem?_cons_zero, take_zero, nil_append]
    split
    case isTrue room =>
      have lt : x + 1 < y := by
        have small : x.toNat < 255 := UInt8.lt_iff_toNat_lt.mp room.1
        have isNext : (x + 1).toNat = x.toNat + 1 := by
          rw [UInt8.toNat_add]
          exact Nat.mod_eq_of_lt (Nat.succ_lt_succ small)
        rw [UInt8.lt_iff_toNat_lt, isNext]
        exact room.2
      exact .inr (cons_lt_cons_iff.mpr (.inl lt))
    case isFalse => exact .inl rfl
  | case3 a b notBoth =>
    left
    cases a with
    | nil => rfl
    | cons x a =>
      cases b with
      | nil => rfl
      | cons y b => exact (notBoth x a y b rfl rfl).elim

theorem le_shortenTo (key : InternalKey Bytes) (shorter : Bytes) : key ≤ shortenTo key shorter := by
  rw [shortenTo]
  split
  case isTrue shortens => exact (InternalKey.lt_of_userKey_lt shortens.2).le
  case isFalse => exact le_rfl

/-- A separator that is not the key itself has a user key between those of the key and the limit. -/
theorem findShortestSeparator_cases (start limit : InternalKey Bytes) : findShortestSeparator start limit = start ∨
    start.userKey < (findShortestSeparator start limit).userKey ∧
      (findShortestSeparator start limit).userKey < limit.userKey := by
  rw [findShortestSeparator, shortenTo]
  split
  case isTrue shortens =>
    obtain eq | lt := bytewiseSeparator_cases start.userKey limit.userKey
    · rw [eq] at shortens
      exact (lt_irrefl _ shortens.2).elim
    · exact .inr ⟨shortens.2, lt⟩
  case isFalse => exact .inl rfl

/-! ### With the assertions -/

/-- `BytewiseComparatorImpl::FindShortestSeparator`, with the assertion on a key that was changed. -/
def bytewiseSeparatorAsserted (start limit : Bytes) : Option Bytes :=
  let tmp := bytewiseSeparator start limit
  if tmp = start ∨ sliceCompare tmp limit = .lt then some tmp else none

/-- `InternalKeyComparator::FindShortestSeparator`, with its assertions. -/
def findShortestSeparatorAsserted (start limit : InternalKey Bytes) : Option (InternalKey Bytes) := do
  let tmp ← bytewiseSeparatorAsserted start.userKey limit.userKey
  if tmp.length < start.userKey.length ∧ start.userKey < tmp then
    let tmp := InternalKey.make tmp kMaxSequenceNumber kValueTypeForSeek
    if start < tmp ∧ tmp < limit then return tmp else none
  else return start

/-- `InternalKeyComparator::FindShortSuccessor`, with its assertion. -/
def findShortSuccessorAsserted (key : InternalKey Bytes) : Option (InternalKey Bytes) :=
  let tmp := bytewiseSuccessor key.userKey
  if tmp.length < key.userKey.length ∧ key.userKey < tmp then
    let tmp := InternalKey.make tmp kMaxSequenceNumber kValueTypeForSeek
    if key < tmp then some tmp else none
  else some key

theorem findShortestSeparatorAsserted_eq (start limit : InternalKey Bytes) :
    findShortestSeparatorAsserted start limit = some (findShortestSeparator start limit) := by
  have changed := bytewiseSeparator_cases start.userKey limit.userKey
  have holds : bytewiseSeparatorAsserted start.userKey limit.userKey =
      some (bytewiseSeparator start.userKey limit.userKey) :=
    if_pos (changed.imp_right (sliceCompare_eq_lt _ _).mpr)
  rw [findShortestSeparatorAsserted, holds, findShortestSeparator, shortenTo, Option.bind_eq_bind, Option.bind_some]
  split
  case isTrue shortens =>
    obtain same | less := changed
    · exact absurd shortens.2 (by rw [same]; exact lt_irrefl _)
    · exact if_pos ⟨InternalKey.lt_of_userKey_lt shortens.2, InternalKey.lt_of_userKey_lt less⟩
  case isFalse => rfl

theorem findShortSuccessorAsserted_eq (key : InternalKey Bytes) :
    findShortSuccessorAsserted key = some (findShortSuccessor key) := by
  rw [findShortSuccessorAsserted, findShortSuccessor, shortenTo]
  dsimp only
  split
  case isTrue shortens => exact if_pos (InternalKey.lt_of_userKey_lt shortens.2)
  case isFalse => rfl

end Elsm
