import Mathlib.Logic.Function.Basic

/-!
# Keys under watch

A store of keys with a count for each of the times it was written.  A client that watches a key
remembers the count; its transaction goes through only while the count is still that one.  All that
changes a store is `write`, of a value or of nothing, and a key's count moves at every write of it,
so a count that has not moved says that the key was left alone.
-/

namespace Hesape.Redis

structure Keys (K V : Type) where
  entries : K → Option V := fun _ => none
  versions : K → Nat := fun _ => 0

namespace Keys

variable {K V : Type} [DecidableEq K]

/-- A value is put under a key, or the key is removed. -/
def write (st : Keys K V) (k : K) (v : Option V) : Keys K V where
  entries := Function.update st.entries k v
  versions := Function.update st.versions k (st.versions k + 1)

variable {st : Keys K V} {k k' : K} {v : Option V}

@[simp] theorem entries_write_self : (st.write k v).entries k = v := Function.update_self ..

@[simp] theorem versions_write_self : (st.write k v).versions k = st.versions k + 1 :=
  Function.update_self ..

theorem entries_write_of_ne (h : k' ≠ k) : (st.write k v).entries k' = st.entries k' :=
  Function.update_of_ne h ..

theorem versions_write_of_ne (h : k' ≠ k) : (st.write k v).versions k' = st.versions k' :=
  Function.update_of_ne h ..

theorem versions_le_write : st.versions k' ≤ (st.write k v).versions k' := by
  by_cases h : k' = k
  · subst h
    rw [versions_write_self]
    exact Nat.le_succ _
  · exact Nat.le_of_eq (versions_write_of_ne h).symm

end Keys

end Hesape.Redis
