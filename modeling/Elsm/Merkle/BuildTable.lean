import Elsm.Format.InternalKey
import Elsm.Lib.FlatTree

/-! # The Merkle tree of a table file (`db/builder.cpp`)

`BuildTable` hashes the records of a memtable into the leaves of one flat array,
fills the inner levels with a running `previous`/`stride` pair, and stores every
record as its first `VSIZE` value bytes followed by the `TREE_HEIGHT` siblings met
by the recurrence `index = index / 2 + FILE_RECORDS`.

The array is `new char[FILE_RECORDS*2*16]`, addressed only in multiples of sixteen,
so the model indexes it by node.  Its cells start with whatever the heap held.
`Merkle.touched` records every index the code reads or writes.
-/

namespace Elsm.Merkle

def KSIZE : Nat := 8
def VSIZE : Nat := 112
def FILE_RECORDS : Nat := 32768
def TREE_HEIGHT : Nat := 15

def Digest : Type := { bytes : Bytes // bytes.length = 16 }

instance : DecidableEq Digest := inferInstanceAs (DecidableEq { bytes : Bytes // bytes.length = 16 })

def zeroDigest : Digest := ⟨List.replicate 16 0, rfl⟩

/-- `sgx_rijndael128_cmac_msg` under the fixed `cur_key`. -/
abbrev Mac := Bytes → Digest

/-- The tag of two adjacent nodes, read as one message of 32 bytes. -/
def combine (mac : Mac) (left right : Digest) : Digest := mac (left.1 ++ right.1)

/-- A record of a memtable or a table: internal key and value. -/
abbrev Record := InternalKey Bytes × Bytes

structure Tree where
  node : Nat → Digest
  touched : List Nat

namespace Tree

/-- `memcpy(merkle+16*i, &cmac, 16)`. -/
def write (t : Tree) (i : Nat) (d : Digest) : Tree :=
  { node := Function.update t.node i d, touched := i :: t.touched }

/-- `sgx_rijndael128_cmac_msg(.., merkle+i*16, 32, ..)` stored at node `mp`. -/
def hashPair (mac : Mac) (t : Tree) (i mp : Nat) : Tree :=
  { node := Function.update t.node mp (combine mac (t.node i) (t.node (i + 1)))
    touched := mp :: (i + 1) :: i :: t.touched }

end Tree

/-- The leaf loop.  `none` is a copy that leaves `char record[KSIZE+VSIZE+16]`. -/
def leafLoop (mac : Mac) : List Record → (mp thr : Nat) → Tree → Option Tree
  | [], _, _, t => some t
  | (key, value) :: rest, mp, thr, t =>
    if thr < FILE_RECORDS then
      if key.encode.length + value.length ≤ KSIZE + VSIZE + 16 then
        leafLoop mac rest (mp + 1) (thr + 1) (t.write mp (mac (key.encode ++ value)))
      else none
    else some t

/-- `for (j = 0; j < stride; j = j+2)`, returning the advanced `mp`. -/
def pairLoop (mac : Mac) (previous stride : Nat) (j mp : Nat) (t : Tree) : Nat × Tree :=
  if j < stride then pairLoop mac previous stride (j + 2) (mp + 1) (t.hashPair mac (previous + j) mp)
  else (mp, t)
termination_by stride - j

/-- `for (i = 0; i < TREE_HEIGHT; i++)` over the remaining number of levels. -/
def levelLoop (mac : Mac) : Nat → (previous stride mp : Nat) → Tree → Tree
  | 0, _, _, _, t => t
  | levels + 1, previous, stride, mp, t =>
    let next := pairLoop mac previous stride 0 mp t
    levelLoop mac levels (previous + stride) (stride / 2) next.1 next.2

/-- The sibling digests of one record, read in the proof loop, and the tree with the reads logged. -/
def proofLoop : Nat → (index : Nat) → Tree → List Digest × Tree
  | 0, _, t => ([], t)
  | levels + 1, index, t =>
    let pointer := if index % 2 ≠ 0 then index - 1 else index + 1
    let rest := proofLoop levels (index / 2 + FILE_RECORDS) { t with touched := pointer :: t.touched }
    (t.node pointer :: rest.1, rest.2)

/-- `memcpy` of `n` bytes out of a slice; past its end the bytes are whatever memory holds there. -/
def copyBytes (n : Nat) (src : Bytes) (beyond : Nat → UInt8) : Bytes :=
  (List.range n).map fun i => src.getD i (beyond i)

def flatten (proof : List Digest) : Bytes := proof.flatMap Subtype.val

/-- The loop that adds every record to the table with its proof, from position `ppos` on. -/
def addLoop (beyond : Nat → Nat → UInt8) : List Record → (ppos : Nat) → Tree → List Record × Tree
  | [], _, t => ([], t)
  | (key, value) :: rest, ppos, t =>
    let proof := proofLoop TREE_HEIGHT ppos t
    let tail := addLoop beyond rest (ppos + 1) proof.2
    ((key, copyBytes VSIZE value (beyond ppos) ++ flatten proof.1) :: tail.1, tail.2)

/-- The file a run of `BuildTable` leaves behind: its records and `meta->rh`. -/
structure TableImage where
  records : List Record
  rh : Digest
  touched : List Nat

/-- `overrun` is a copy that leaves its buffer; `noFile` is the empty iterator, for which
`meta->file_size` stays zero and no file is kept. -/
inductive BuildResult where
  | overrun
  | noFile
  | file (image : TableImage)

/-- `BuildTable` with no I/O error.  `heap` is the content of the merkle array when it is
allocated, `beyond p` the memory after the value of record `p`. -/
def buildTable (mac : Mac) (heap : Nat → Digest) (beyond : Nat → Nat → UInt8) (entries : List Record) : BuildResult :=
  match leafLoop mac entries 0 0 ⟨heap, []⟩ with
  | none => .overrun
  | some leaves =>
    let tree := levelLoop mac TREE_HEIGHT 0 FILE_RECORDS FILE_RECORDS leaves
    match entries with
    | [] => .noFile
    | _ :: _ =>
      let added := addLoop beyond entries 0 tree
      let root := 2 * FILE_RECORDS - 2
      .file ⟨added.1, added.2.node root, root :: added.2.touched⟩

end Elsm.Merkle
