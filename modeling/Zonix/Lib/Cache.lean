import Mathlib.Data.Set.Basic
import Mathlib.Logic.Function.Basic

/-!
# Caches of a table that is edited

A table gives the values of every key. A cache of it loads values whenever it likes, and keeps
them when the table is edited. What it may hold for a key are thus all the values that the table
has given since the key was last dropped. An edit of one key followed by a drop of that key keeps
the cache coherent, and so does an edit that only adds values.
-/

namespace Zonix.Lib

/-- Every value that may be there for a key: of a table, or of a cache. -/
abbrev Cache (κ β : Type*) := κ → Set β

namespace Cache

variable {κ β : Type*} {cache table table' : Cache κ β} {k key : κ} {v : β}

/-- The cache when the table has become `table`. -/
def load (cache table : Cache κ β) : Cache κ β := fun k => cache k ∪ table k

/-- The cache is coherent: it holds nothing that the table does not give. -/
def Coherent (cache table : Cache κ β) : Prop := ∀ k, cache k ⊆ table k

/-- It is, at all keys but one. -/
def CoherentOff (cache table : Cache κ β) (key : κ) : Prop := ∀ k, k ≠ key → cache k ⊆ table k

theorem subset_load (cache table : Cache κ β) (k : κ) : table k ⊆ cache.load table k :=
  Set.subset_union_right

theorem Coherent.refl (table : Cache κ β) : table.Coherent table := fun _ => subset_rfl

/-- An edit that only adds values. -/
theorem Coherent.load (h : cache.Coherent table) (hadd : ∀ k, table k ⊆ table' k) :
    (cache.load table').Coherent table' := by
  intro k
  apply Set.union_subset _ subset_rfl
  exact (h k).trans (hadd k)

/-- An edit of the values of one key. -/
theorem Coherent.edit (h : cache.Coherent table) (hoff : ∀ k, k ≠ key → table k ⊆ table' k) :
    (cache.load table').CoherentOff table' key := by
  intro k hk
  apply Set.union_subset _ subset_rfl
  exact (h k).trans (hoff k hk)

/-- Where the table gives nothing, a coherent cache holds nothing. -/
theorem Coherent.eq_empty (h : cache.Coherent table) (hno : table k = ∅) : cache k = ∅ :=
  Set.subset_empty_iff.mp (hno ▸ h k)

section Drop
variable [DecidableEq κ]

/-- The cache when a key has been dropped. What the table gives for it may be loaded at once. -/
def drop (cache table : Cache κ β) (key : κ) : Cache κ β :=
  Function.update cache key (table key)

theorem drop_of_ne (hk : k ≠ key) : cache.drop table key k = cache k :=
  Function.update_of_ne hk ..

theorem subset_drop (h : ∀ k, table k ⊆ cache k) (k : κ) : table k ⊆ cache.drop table key k := by
  by_cases hk : k = key
  · subst hk
    rw [drop, Function.update_self]
  · rw [drop_of_ne hk]
    exact h k

/-- Dropping the key that was edited. -/
theorem CoherentOff.drop (h : cache.CoherentOff table key) :
    (cache.drop table key).Coherent table := by
  intro k
  by_cases hk : k = key
  · subst hk
    rw [Cache.drop, Function.update_self]
  · rw [drop_of_ne hk]
    exact h k hk

end Drop

end Cache
end Zonix.Lib
