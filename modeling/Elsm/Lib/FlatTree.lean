import Mathlib.Data.Nat.Bitwise
import Mathlib.Tactic.Ring

/-! # Complete binary trees laid out level by level in one array

The `2 ^ height` leaves occupy the indices below `2 ^ height`; each further level
follows the one below it, so the parent of index `i` is `i / 2 + 2 ^ height` at
every level and the root sits at `2 ^ (height + 1) - 2`.

* `IsTree` — every inner node combines its two children.
* `siblings` / `climb` — the siblings met on the way up, and the fold of a node
  over them, both driven by the index recurrence.
* `climb_siblings` — climbing a tree over its own siblings arrives at the
  ancestor; `ancestor_eq` and `ancestor_parity` relate the index recurrence to
  the bits of the leaf's position.
-/

namespace Elsm.FlatTree

variable {Node : Type*}

def parent (leaves i : Nat) : Nat := i / 2 + leaves

def sibling (i : Nat) : Nat := if i % 2 ≠ 0 then i - 1 else i + 1

def ancestor (leaves : Nat) : Nat → Nat → Nat
  | 0, i => i
  | count + 1, i => ancestor leaves count (parent leaves i)

/-- Every inner node is the combination of its two children. -/
def IsTree (combine : Node → Node → Node) (leaves : Nat) (node : Nat → Node) : Prop :=
  ∀ q, q + 1 < leaves → node (leaves + q) = combine (node (2 * q)) (node (2 * q + 1))

def siblings (leaves : Nat) (node : Nat → Node) : Nat → Nat → List Node
  | 0, _ => []
  | count + 1, i => node (sibling i) :: siblings leaves node count (parent leaves i)

/-- Fold `start`, standing at index `i`, over a list of siblings. -/
def climb (combine : Node → Node → Node) (leaves : Nat) : Nat → Node → List Node → Node
  | _, start, [] => start
  | i, start, s :: rest =>
    climb combine leaves (parent leaves i) (if i % 2 ≠ 0 then combine s start else combine start s) rest

/-- Fold `start` over a list of siblings, the side at level `i` given by bit `i` of `position`. -/
def climbBits (combine : Node → Node → Node) (position : Nat) : Nat → Node → List Node → Node
  | _, start, [] => start
  | i, start, s :: rest =>
    climbBits combine position (i + 1) (if position.testBit i then combine s start else combine start s) rest

theorem siblings_length (leaves : Nat) (node : Nat → Node) (count i : Nat) :
    (siblings leaves node count i).length = count := by
  induction count generalizing i with
  | zero => rfl
  | succ count ih => simp [siblings, ih]

variable {combine : Node → Node → Node} {node : Nat → Node} {leaves : Nat}

theorem IsTree.combine_sibling (tree : IsTree combine leaves node) {i : Nat} (bound : i / 2 + 1 < leaves) :
    (if i % 2 ≠ 0 then combine (node (sibling i)) (node i)
      else combine (node i) (node (sibling i))) = node (parent leaves i) := by
  have above := tree (i / 2) bound
  rw [parent, Nat.add_comm, above]
  rcases Nat.mod_two_eq_zero_or_one i with even | odd
  · have left : 2 * (i / 2) = i := by omega
    simp [sibling, even, left]
  have right : 2 * (i / 2) + 1 = i := by omega
  have left : 2 * (i / 2) = i - 1 := by omega
  rw [right, left]
  simp [sibling, odd]

/-- Climbing a tree from a node over the tree's own siblings arrives at the ancestor. -/
theorem climb_siblings (tree : IsTree combine leaves node) (count i : Nat)
    (bound : ∀ below < count, ancestor leaves below i / 2 + 1 < leaves) :
    climb combine leaves i (node i) (siblings leaves node count i) = node (ancestor leaves count i) := by
  induction count generalizing i with
  | zero => rfl
  | succ count ih =>
    simp only [siblings, climb, ancestor]
    have here : i / 2 + 1 < leaves := bound 0 (Nat.succ_pos _)
    rw [tree.combine_sibling here]
    apply ih
    intro below lt
    exact bound (below + 1) (by omega)

/-- `ancestor` unfolds at the leaf end; this is the same step at the root end. -/
theorem ancestor_succ (leaves count i : Nat) :
    ancestor leaves (count + 1) i = parent leaves (ancestor leaves count i) := by
  induction count generalizing i with
  | zero => rfl
  | succ count ih => exact ih (parent leaves i)

/-- The index recurrence in closed form: level `count` starts at
`2 ^ (height + 1) - 2 ^ (height + 1 - count)`. -/
theorem ancestor_eq (height count position : Nat) (l : count ≤ height) : ancestor (2 ^ height) count position =
      2 ^ (height + 1) - 2 ^ (height + 1 - count) + position / 2 ^ count := by
  induction count with
  | zero => simp [ancestor]
  | succ count ih =>
    rw [ancestor_succ, ih (by omega), parent]
    have split : 2 ^ (height + 1 - count) = 2 * 2 ^ (height + 1 - (count + 1)) := by
      rw [← pow_succ', show height + 1 - (count + 1) + 1 = height + 1 - count by omega]
    have whole : 2 ^ (height + 1) = 2 * 2 ^ height := pow_succ' 2 height
    have small : 2 ^ (height + 1 - (count + 1)) ≤ 2 ^ height := Nat.pow_le_pow_right (by decide) (by omega)
    have halves : position / 2 ^ (count + 1) = position / 2 ^ count / 2 := by
      rw [pow_succ, Nat.div_div_eq_div_mul]
    rw [split, whole, halves]
    omega

/-- Below the root, the side a node sits on is the bit of the leaf's position. -/
theorem ancestor_parity (height count position : Nat) (below : count ≤ height) :
    (ancestor (2 ^ height) count position % 2 ≠ 0) = (position.testBit count = true) := by
  rw [ancestor_eq height count position below, Nat.testBit_eq_decide_div_mod_eq, decide_eq_true_eq]
  have even : 2 ^ (height + 1 - count) = 2 * 2 ^ (height - count) := by
    rw [← pow_succ', show height - count + 1 = height + 1 - count by omega]
  have whole : 2 ^ (height + 1) = 2 * 2 ^ height := pow_succ' 2 height
  rw [even, whole, eq_iff_iff]
  omega

theorem ancestor_lt (height count position : Nat) (l : count < height) (leaf : position < 2 ^ height) :
    ancestor (2 ^ height) count position / 2 + 1 < 2 ^ height := by
  rw [ancestor_eq height count position l.le]
  have split : 2 ^ (height + 1 - count) = 4 * 2 ^ (height - 1 - count) := by
    rw [show height + 1 - count = height - 1 - count + 2 by omega, pow_add]
    ring
  have whole : 2 ^ (height + 1) = 2 * 2 ^ height := pow_succ' 2 height
  have small : 2 ^ (height - 1 - count) * 2 ≤ 2 ^ height := by
    rw [← pow_succ]
    exact Nat.pow_le_pow_right (by decide) (by omega)
  have pos : 0 < 2 ^ (height - 1 - count) := Nat.two_pow_pos _
  have quotient : position / 2 ^ count < 2 * 2 ^ (height - 1 - count) := by
    rw [Nat.div_lt_iff_lt_mul (Nat.two_pow_pos _), ← pow_succ', ← pow_add]
    rw [show height - 1 - count + 1 + count = height by omega]
    exact leaf
  rw [split, whole]
  omega

/-- The two climbs agree on a proof no longer than the tree is high. -/
theorem climb_eq_climbBits (combine : Node → Node → Node) (height position : Nat)
    (start : Node) (proof : List Node) (count : Nat) (len : count + proof.length ≤ height) :
    climb combine (2 ^ height) (ancestor (2 ^ height) count position) start proof =
      climbBits combine position count start proof := by
  induction proof generalizing start count with
  | nil => rfl
  | cons s rest ih =>
    simp only [List.length_cons] at len
    simp only [climb, climbBits]
    rw [← ancestor_succ, ih _ (count + 1) (by omega)]
    simp only [ancestor_parity height count position (by omega)]

/-! ## The root as a function of the leaves -/

/-- The `i`-th node of level `height` over the given leaves. -/
def subtreeRoot (combine : Node → Node → Node) (leaf : Nat → Node) : Nat → Nat → Node
  | 0, i => leaf i
  | height + 1, i =>
    combine (subtreeRoot combine leaf height (2 * i)) (subtreeRoot combine leaf height (2 * i + 1))

theorem IsTree.node_eq_subtreeRoot {height : Nat} {leaf : Nat → Node}
    (tree : IsTree combine (2 ^ height) node) (leaves : ∀ p < 2 ^ height, node p = leaf p) :
    ∀ count rest i, count + rest = height → i < 2 ^ rest →
      node (2 ^ (height + 1) - 2 ^ (rest + 1) + i) = subtreeRoot combine leaf count i := by
  intro count
  induction count with
  | zero =>
    intro rest i l bound
    rw [Nat.zero_add] at l
    subst l
    rw [Nat.sub_self, Nat.zero_add]
    exact leaves i bound
  | succ count ih =>
    intro rest i l bound
    have below := fun j small => ih (rest + 1) j (by omega) small
    have wider : 2 ^ (rest + 1) = 2 * 2 ^ rest := by ring
    have widest : 2 ^ (rest + 1 + 1) = 2 * 2 ^ (rest + 1) := by ring
    have top : 2 ^ (height + 1) = 2 * 2 ^ height := by ring
    have fits : 2 ^ (rest + 1) ≤ 2 ^ height := Nat.pow_le_pow_right (by omega) (by omega)
    have index : 2 ^ (height + 1) - 2 ^ (rest + 1) + i = 2 ^ height + (2 ^ height - 2 ^ (rest + 1) + i) := by
      omega
    rw [index, tree _ (by omega), subtreeRoot, ← below (2 * i) (by omega), ← below (2 * i + 1) (by omega)]
    have left : 2 * (2 ^ height - 2 ^ (rest + 1) + i) = 2 ^ (height + 1) - 2 ^ (rest + 1 + 1) + 2 * i := by
      omega
    rw [left]
    rfl

theorem IsTree.root_eq {height : Nat} {node leaf : Nat → Node}
    (tree : IsTree combine (2 ^ height) node) (leaves : ∀ p < 2 ^ height, node p = leaf p) :
    node (2 * 2 ^ height - 2) = subtreeRoot combine leaf height 0 := by
  have top := tree.node_eq_subtreeRoot leaves height 0 0 (by omega) (by omega)
  have width : 2 ^ (height + 1) = 2 * 2 ^ height := by ring
  rw [← top, width]
  rfl

/-! ## The leaves decide the tree, and the root the leaves -/

variable {other : Nat → Node}

/-- Two trees with the same leaves agree up to the root. -/
theorem IsTree.node_congr (tree : IsTree combine leaves node) (otherTree : IsTree combine leaves other)
    (eq : ∀ p < leaves, node p = other p) (i : Nat) (bound : i + 1 < 2 * leaves) : node i = other i := by
  induction i using Nat.strongRecOn with
  | ind i ih =>
    by_cases leaf : i < leaves
    · exact eq i leaf
    obtain ⟨q, rfl⟩ := Nat.exists_eq_add_of_le (Nat.le_of_not_lt leaf)
    have inner : q + 1 < leaves := by omega
    rw [tree q inner, otherTree q inner, ih (2 * q) (by omega) (by omega),
      ih (2 * q + 1) (by omega) (by omega)]

theorem siblings_congr (eq : ∀ i, i + 1 < 2 * leaves → node i = other i) (count i : Nat)
    (bound : ∀ below < count, ancestor leaves below i / 2 + 1 < leaves) :
    siblings leaves node count i = siblings leaves other count i := by
  induction count generalizing i with
  | zero => rfl
  | succ count ih =>
    have here : i / 2 + 1 < leaves := bound 0 (Nat.succ_pos _)
    have inTree : sibling i + 1 < 2 * leaves := by
      rw [sibling]
      split <;> omega
    have above : ∀ below < count, ancestor leaves below (parent leaves i) / 2 + 1 < leaves :=
      fun below lt => bound (below + 1) (by omega)
    rw [siblings, siblings, eq _ inTree, ih _ above]

/-- When no pair that is combined can be confused with the pair at its place in the other tree,
equal roots come from equal leaves. -/
theorem leaf_eq_of_subtreeRoot_eq {leaf : Nat → Node} (height : Nat)
    (binds : ∀ l rest i, l + rest + 1 = height → i < 2 ^ rest →
      subtreeRoot combine leaf (l + 1) i = subtreeRoot combine other (l + 1) i →
      subtreeRoot combine leaf l (2 * i) = subtreeRoot combine other l (2 * i) ∧
        subtreeRoot combine leaf l (2 * i + 1) = subtreeRoot combine other l (2 * i + 1))
    (eq : subtreeRoot combine leaf height 0 = subtreeRoot combine other height 0) :
    ∀ p < 2 ^ height, leaf p = other p := by
  have levels : ∀ rest l, l + rest = height → ∀ i < 2 ^ rest,
      subtreeRoot combine leaf l i = subtreeRoot combine other l i := by
    intro rest
    induction rest with
    | zero =>
      intro l isTop i bound
      obtain rfl : l = height := by omega
      obtain rfl : i = 0 := by simpa using bound
      exact eq
    | succ rest ih =>
      intro l isLevel i bound
      have wider : 2 ^ (rest + 1) = 2 * 2 ^ rest := by ring
      have inner : i / 2 < 2 ^ rest := by omega
      have pair := binds l rest (i / 2) (by omega) inner (ih (l + 1) (by omega) (i / 2) inner)
      rcases Nat.mod_two_eq_zero_or_one i with even | odd
      · rw [show i = 2 * (i / 2) by omega]
        exact pair.1
      · rw [show i = 2 * (i / 2) + 1 by omega]
        exact pair.2
  exact fun p bound => levels height 0 (by omega) p bound

end Elsm.FlatTree
