import Mathlib.Logic.Function.Iterate
import Elsm.Table.BlockRoundTrip

/-!
# Filter blocks (`table/filter_block.cpp`, `InternalFilterPolicy`)

There is a filter for every two kilobytes of data blocks: the keys of the blocks that start in them.  The block is
the filters, an array of their offsets, the offset of the array and the logarithm of the two kilobytes.
`keyMayMatch_finish` says which filter a lookup ends in.
-/

namespace Elsm

open List

/-! ## Policies -/

structure FilterPolicy where
  name : Bytes
  /-- What `CreateFilter` appends. -/
  createFilter : List Bytes → Bytes
  keyMayMatch : Bytes → Bytes → Bool

/-- A filter matches every key that it was made for. -/
def FilterPolicy.NoFalseNegatives (policy : FilterPolicy) : Prop :=
  ∀ keys, ∀ key ∈ keys, policy.keyMayMatch key (policy.createFilter keys) = true

def extractUserKey (internalKey : Bytes) : Bytes := internalKey.take (internalKey.length - 8)

/-- `InternalFilterPolicy`: the policy of the user on user keys. -/
def internalFilterPolicy (userPolicy : FilterPolicy) : FilterPolicy where
  name := userPolicy.name
  createFilter keys := userPolicy.createFilter (keys.map extractUserKey)
  keyMayMatch key f := userPolicy.keyMayMatch (extractUserKey key) f

/-! ## Building -/

def kFilterBaseLg : Nat := 11

def kFilterBase : Nat := 2 ^ kFilterBaseLg

structure FilterBlockBuilder where
  /-- The strings in `keys_`, which `start_` separates. -/
  keys : List Bytes
  result : Bytes
  filterOffsets : List Nat

namespace FilterBlockBuilder

def empty : FilterBlockBuilder := ⟨[], [], []⟩

def generateFilter (policy : FilterPolicy) (fb : FilterBlockBuilder) : FilterBlockBuilder :=
  let filterOffsets := fb.filterOffsets ++ [fb.result.length]
  if fb.keys = [] then { fb with filterOffsets }
  else ⟨[], fb.result ++ policy.createFilter fb.keys, filterOffsets⟩

/-- `StartBlock`.  Every turn of its loop adds an offset, so that their number tells the turns. -/
def startBlock (policy : FilterPolicy) (blockOffset : Nat) (fb : FilterBlockBuilder) : FilterBlockBuilder :=
  let filterIndex := blockOffset / kFilterBase
  (generateFilter policy)^[filterIndex - fb.filterOffsets.length] fb

def addKey (key : Bytes) (fb : FilterBlockBuilder) : FilterBlockBuilder := { fb with keys := fb.keys ++ [key] }

def finish (policy : FilterPolicy) (fb : FilterBlockBuilder) : Bytes :=
  let fb := if fb.keys = [] then fb else fb.generateFilter policy
  let arrayOffset := fb.result.length
  fb.result ++ fb.filterOffsets.flatMap encodeFixed32 ++ encodeFixed32 arrayOffset ++ [UInt8.ofNat kFilterBaseLg]

end FilterBlockBuilder

/-! ## Reading -/

structure FilterBlockReader where
  data : Bytes
  /-- Where the array of offsets starts. -/
  offset : Nat
  num : Nat
  baseLg : Nat

namespace FilterBlockReader

/-- `FilterBlockReader`.  Nothing matches by mistake when the contents are not those of a filter block. -/
def new (contents : Bytes) : FilterBlockReader :=
  let n := contents.length
  if n < 5 then ⟨[], 0, 0, 0⟩
  else
    let baseLg := (contents.getD (n - 1) 0).toNat
    let lastWord := decodeFixed32 (contents.drop (n - 5))
    if n - 5 < lastWord then ⟨[], 0, 0, baseLg⟩ else ⟨contents, lastWord, (n - 5 - lastWord) / 4, baseLg⟩

def keyMayMatch (policy : FilterPolicy) (reader : FilterBlockReader) (blockOffset : Nat) (key : Bytes) : Bool :=
  let index := blockOffset >>> reader.baseLg
  if index < reader.num then
    let start := decodeFixed32 (reader.data.drop (reader.offset + index * 4))
    let limit := decodeFixed32 (reader.data.drop (reader.offset + index * 4 + 4))
    if start ≤ limit ∧ limit ≤ reader.offset then policy.keyMayMatch key ((reader.data.drop start).take (limit - start))
    else start != limit
  else true

end FilterBlockReader

/-! ## The filters of a builder -/

namespace FilterBlockBuilder

variable (policy : FilterPolicy)

def encodeFilter (keys : List Bytes) : Bytes := if keys = [] then [] else policy.createFilter keys

def boundary (filters : List (List Bytes)) (i : Nat) : Nat := ((filters.take i).flatMap (encodeFilter policy)).length

def ofFilters (filters : List (List Bytes)) (pending : List Bytes) : FilterBlockBuilder where
  keys := pending
  result := filters.flatMap (encodeFilter policy)
  filterOffsets := (range filters.length).map (boundary policy filters)

variable {policy} {filters : List (List Bytes)} {pending : List Bytes}

@[simp] theorem ofFilters_offsets_length : (ofFilters policy filters pending).filterOffsets.length =
    filters.length := by
  simp [ofFilters]

theorem generateFilter_ofFilters :
    (ofFilters policy filters pending).generateFilter policy = ofFilters policy (filters ++ [pending]) [] := by
  have offsets : (range (filters ++ [pending]).length).map (boundary policy (filters ++ [pending])) =
      (ofFilters policy filters pending).filterOffsets ++ [(filters.flatMap (encodeFilter policy)).length] := by
    rw [length_append, length_singleton, range_succ, map_append, map_singleton, boundary, take_left]
    congr 1
    apply map_congr_left
    intro i ins
    rw [boundary, take_append_of_le_length (mem_range.mp ins).le, boundary]
  have isResult : (filters ++ [pending]).flatMap (encodeFilter policy) =
      filters.flatMap (encodeFilter policy) ++ encodeFilter policy pending := by simp
  rw [generateFilter, show ofFilters policy (filters ++ [pending]) [] = ⟨[], _, _⟩ from rfl, offsets, isResult]
  by_cases noKeys : pending = []
  · simp [ofFilters, encodeFilter, noKeys]
  · simp [ofFilters, encodeFilter, noKeys]

def extend (filters : List (List Bytes)) (pending : List Bytes) (turns : Nat) : List (List Bytes) × List Bytes :=
  match turns with
  | 0 => (filters, pending)
  | turns + 1 => (filters ++ pending :: replicate turns [], [])

theorem iterate_generateFilter (turns : Nat) : (generateFilter policy)^[turns] (ofFilters policy filters pending) =
    ofFilters policy (extend filters pending turns).1 (extend filters pending turns).2 := by
  induction turns with
  | zero => rfl
  | succ turns ih =>
    rw [Function.iterate_succ_apply', ih, generateFilter_ofFilters]
    cases turns with
    | zero => rfl
    | succ turns => simp [extend, replicate_succ']

/-! ## Lookups -/

def allFilters (filters : List (List Bytes)) (pending : List Bytes) : List (List Bytes) :=
  if pending = [] then filters else filters ++ [pending]

theorem finish_ofFilters : (ofFilters policy filters pending).finish policy =
    (allFilters filters pending).flatMap (encodeFilter policy) ++
      (((range ((allFilters filters pending).length + 1)).map (boundary policy
        (allFilters filters pending))).flatMap
        encodeFixed32 ++ [11]) := by
  have isAll : (if (ofFilters policy filters pending).keys = [] then ofFilters policy filters pending
      else (ofFilters policy filters pending).generateFilter policy) =
        ofFilters policy (allFilters filters pending) [] := by
    rw [generateFilter_ofFilters, allFilters]
    by_cases noKeys : pending = []
    · simp [ofFilters, noKeys]
    · simp [ofFilters, noKeys]
  rw [finish, isAll]
  generalize allFilters filters pending = all
  have isEnd : boundary policy all all.length = (all.flatMap (encodeFilter policy)).length := by
    rw [boundary, take_length]
  rw [range_succ, map_append, flatMap_append, map_singleton, isEnd, flatMap_singleton]
  simp only [ofFilters, append_assoc]
  rfl

theorem boundary_le (all : List (List Bytes)) (i : Nat) :
    boundary policy all i ≤ (all.flatMap (encodeFilter policy)).length := by
  conv_rhs => rw [← take_append_drop i all, flatMap_append, length_append]
  exact Nat.le_add_right ..

theorem take_boundary (all : List (List Bytes)) {i : Nat} (h : i < all.length) (rest : Bytes) :
    boundary policy all i ≤ boundary policy all (i + 1) ∧
    ((all.flatMap (encodeFilter policy) ++ rest).drop (boundary policy all i)).take
      (boundary policy all (i + 1) - boundary policy all i) = encodeFilter policy all[i] := by
  have isNext : boundary policy all (i + 1) = boundary policy all i + (encodeFilter policy all[i]).length := by
    rw [boundary, take_succ_eq_append_getElem h, flatMap_append, length_append, boundary]
    simp
  have split : all.flatMap (encodeFilter policy) ++ rest = (all.take i).flatMap (encodeFilter policy) ++
      (encodeFilter policy all[i] ++ ((all.drop (i + 1)).flatMap (encodeFilter policy) ++ rest)) := by
    conv_lhs => rw [← take_append_drop i all, drop_eq_getElem_cons h, flatMap_append, flatMap_cons]
    simp only [append_assoc]
  refine ⟨by omega, ?_⟩
  rw [isNext, Nat.add_sub_cancel_left, split, boundary, drop_left, take_left]

theorem decodeFixed32_array {res rest : Bytes} {ns : List Nat} {j : Nat} (h : j < ns.length) (fits : ns[j] < 2 ^ 32) :
    decodeFixed32 ((res ++ (ns.flatMap encodeFixed32 ++ rest)).drop (res.length + j * 4)) = ns[j] := by
  obtain ⟨tail, isTail⟩ := flatMap_fixed32_drop ns h
  have ins : j * 4 ≤ (ns.flatMap encodeFixed32).length := by
    rw [flatMap_fixed32_length]
    omega
  rw [drop_append, drop_of_length_le (Nat.le_add_right ..), nil_append, Nat.add_sub_cancel_left,
    drop_append_of_le_length ins, isTail, append_assoc, decodeFixed32_encodeFixed32 fits]

theorem new_layout {contents : Bytes} {o num : Nat} (len : contents.length = o + num * 4 + 5)
    (isOffset : decodeFixed32 (contents.drop (o + num * 4)) = o) (isBase : contents.getD (o + num * 4 + 4) 0 = 11) :
    FilterBlockReader.new contents = ⟨contents, o, num, 11⟩ := by
  rw [FilterBlockReader.new, len, if_neg (by omega), Nat.add_sub_cancel, isOffset]
  simp only [Nat.add_sub_cancel_left, Nat.mul_div_cancel _ (by decide : 0 < 4)]
  rw [if_neg (by omega), show o + num * 4 + 5 - 1 = o + num * 4 + 4 from rfl, isBase]
  rfl

theorem keyMayMatch_finish {blockOffset : Nat}
    (short : ((ofFilters policy filters pending).finish policy).length < 2 ^ 32)
    (h : blockOffset / kFilterBase < (allFilters filters pending).length) (key : Bytes) :
    (FilterBlockReader.new ((ofFilters policy filters pending).finish policy)).keyMayMatch policy blockOffset key =
      policy.keyMayMatch key (encodeFilter policy (allFilters filters pending)[blockOffset / kFilterBase]) := by
  rw [finish_ofFilters] at short ⊢
  generalize allFilters filters pending = all at short h ⊢
  have isFilter := @take_boundary policy all _ h
    (((range (all.length + 1)).map (boundary policy all)).flatMap encodeFixed32 ++ [11])
  have isEnd : boundary policy all all.length = (all.flatMap (encodeFilter policy)).length := by
    rw [boundary, take_length]
  have le := @boundary_le policy all (blockOffset / kFilterBase + 1)
  have count : (((range (all.length + 1)).map (boundary policy all)).flatMap encodeFixed32).length =
      all.length * 4 + 4 := by
    rw [flatMap_fixed32_length, length_map, length_range]
    omega
  have n : ∀ j ≤ all.length, decodeFixed32 ((all.flatMap (encodeFilter policy) ++
      (((range (all.length + 1)).map (boundary policy all)).flatMap encodeFixed32 ++ [11])).drop
        ((all.flatMap (encodeFilter policy)).length + j * 4)) = boundary policy all j := by
    intro j ins
    have inArray : j < ((range (all.length + 1)).map (boundary policy all)).length := by simp; omega
    have isBoundary : ((range (all.length + 1)).map (boundary policy all))[j] = boundary policy all j := by simp
    have le := @boundary_le policy all j
    rw [length_append] at short
    have found := @decodeFixed32_array (all.flatMap (encodeFilter policy)) [11] _ j inArray (by rw [isBoundary]; omega)
    rwa [isBoundary] at found
  generalize ((range (all.length + 1)).map (boundary policy all)).flatMap encodeFixed32 = array at *
  generalize all.flatMap (encodeFilter policy) = result at *
  have len : (result ++ (array ++ [11])).length = result.length + all.length * 4 + 5 := by
    rw [length_append, length_append, count, length_singleton]
    omega
  have isBase : (result ++ (array ++ [11])).getD (result.length + all.length * 4 + 4) 0 = 11 := by
    rw [← append_assoc, show result.length + all.length * 4 + 4 = (result ++ array).length by
      rw [length_append, count, Nat.add_assoc]]
    simp
  have isIndex : blockOffset >>> 11 = blockOffset / kFilterBase := Nat.shiftRight_eq_div_pow ..
  rw [new_layout len (by rw [n _ le_rfl, isEnd]) isBase, FilterBlockReader.keyMayMatch]
  simp only [isIndex, if_pos h]
  rw [n _ h.le, Nat.add_assoc, ← Nat.succ_mul, n _ h, if_pos ⟨isFilter.1, le⟩, isFilter.2]

end FilterBlockBuilder

end Elsm
