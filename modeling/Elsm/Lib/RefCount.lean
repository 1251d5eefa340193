import Mathlib.Data.List.Perm.Basic
import Mathlib.Logic.Function.Basic

/-!
# Reference counts

Objects that are kept in a list as long as somebody refers to them.  `Counts` relates the table of
counts to the list of all references: an object is in the list exactly when it has one.
-/

namespace Elsm.RefCount

open List Function

variable {ι : Type*} [DecidableEq ι]

structure Table (ι : Type*) where
  refs : ι → Nat
  linked : List ι

namespace Table

def ref (t : Table ι) (v : ι) : Table ι := { t with refs := update t.refs v (t.refs v + 1) }

/-- A reference is given up.  With the last one the object goes. -/
def unref (t : Table ι) (v : ι) : Table ι where
  refs := update t.refs v (t.refs v - 1)
  linked := if t.refs v - 1 = 0 then t.linked.erase v else t.linked

def link (t : Table ι) (v : ι) : Table ι where
  refs := update t.refs v 1
  linked := t.linked ++ [v]

end Table

structure Counts (t : Table ι) (holders : List ι) : Prop where
  count : ∀ v, t.refs v = holders.count v
  linked : ∀ v, v ∈ t.linked ↔ v ∈ holders
  nodup : t.linked.Nodup

variable {t : Table ι} {holders : List ι}

theorem Counts.perm {others : List ι} (counts : Counts t holders) (eq : holders.Perm others) : Counts t others where
  count v := by rw [counts.count, eq.count_eq]
  linked v := (counts.linked v).trans eq.mem_iff
  nodup := counts.nodup

theorem Counts.ref (counts : Counts t holders) {v : ι} (held : v ∈ holders) : Counts (t.ref v) (v :: holders) where
  count w := by
    by_cases eq : w = v
    · subst eq
      simp only [Table.ref, update_self, counts.count, count_cons_self]
    · simp only [Table.ref, update_of_ne eq, counts.count, count_cons_of_ne (Ne.symm eq)]
  linked w := by
    rw [mem_cons, or_iff_right_of_imp fun eq => eq ▸ held]
    exact counts.linked w
  nodup := counts.nodup

theorem Counts.unref {v : ι} (counts : Counts t (v :: holders)) : Counts (t.unref v) holders := by
  have pre : t.refs v = holders.count v + 1 := by rw [counts.count, count_cons_self]
  have left : t.refs v - 1 = holders.count v := by omega
  refine ⟨fun w => ?_, fun w => ?_, ?_⟩
  · by_cases eq : w = v
    · subst eq
      simp only [Table.unref, update_self, left]
    · simp only [Table.unref, update_of_ne eq, counts.count, count_cons_of_ne (Ne.symm eq)]
  · simp only [Table.unref, left]
    have known := counts.linked w
    rw [mem_cons] at known
    split
    case isTrue gone =>
      rw [count_eq_zero] at gone
      rw [counts.nodup.mem_erase_iff, known]
      constructor
      · rintro ⟨ne, eq | held⟩
        · exact absurd eq ne
        · exact held
      · intro held
        exact ⟨fun eq => gone (eq ▸ held), .inr held⟩
    case isFalse stays =>
      rw [known]
      exact or_iff_right_of_imp fun eq => eq ▸ count_pos_iff.mp (Nat.pos_of_ne_zero stays)
  · simp only [Table.unref]
    split
    · exact counts.nodup.erase v
    · exact counts.nodup

theorem Counts.link (counts : Counts t holders) {v : ι} (fresh : v ∉ holders) : Counts (t.link v) (v :: holders) where
  count w := by
    by_cases same : w = v
    · subst same
      simp only [Table.link, update_self, count_cons_self, count_eq_zero_of_not_mem fresh]
    · simp only [Table.link, update_of_ne same, counts.count, count_cons_of_ne (Ne.symm same)]
  linked w := by
    have appended : w ∈ t.linked ++ [v] ↔ w ∈ t.linked ∨ w = v := by simp
    rw [mem_cons, ← counts.linked]
    exact appended.trans or_comm
  nodup := by
    have apart : v ∉ t.linked := fun old => fresh ((counts.linked v).mp old)
    exact (perm_append_singleton v t.linked).nodup_iff.mpr (nodup_cons.mpr ⟨apart, counts.nodup⟩)

end Elsm.RefCount
