import Mathlib

/-!
# Hash maps

A hash map from keys to values of one type is an association list with distinct keys. The order of
the list is not part of the meaning of a map; iteration over a map is over some permutation of it.
-/

namespace Vuma.Lib

abbrev HashMap (K V : Type) := AList fun _ : K => V

/-- The order in which the keys of a hash map or the elements of a hash set are gone through. -/
structure KeyOrder (K : Type) where
  order : List K → List K
  perm : ∀ l, (order l).Perm l

/-- The keys are gone through as they are stored. -/
def KeyOrder.id {K : Type} : KeyOrder K := ⟨fun l => l, fun _ => .rfl⟩

section First

variable {K : Type} [DecidableEq K]

/-- The order in which a key comes first, and the others as in another order. -/
def KeyOrder.first (o : KeyOrder K) (k : K) : KeyOrder K where
  order l := if k ∈ o.order l then k :: (o.order l).erase k else o.order l
  perm l := by
    split_ifs with h
    · exact (List.perm_cons_erase h).symm.trans (o.perm l)
    · exact o.perm l

theorem KeyOrder.first_order {k : K} {o : KeyOrder K} {l : List K} (h : k ∈ l) :
    (o.first k).order l = k :: (o.order l).erase k :=
  if_pos ((o.perm l).mem_iff.2 h)

end First

namespace HashMap

variable {K V : Type} [DecidableEq K]

theorem lookup_insert_ite (m : HashMap K V) (k k' : K) (v : V) :
    (m.insert k v).lookup k' = if k' = k then some v else m.lookup k' := by
  split_ifs with h
  · subst h
    exact AList.lookup_insert m
  · exact AList.lookup_insert_ne h

theorem lookup_erase_ite (m : HashMap K V) (k k' : K) :
    (m.erase k).lookup k' = if k' = k then none else m.lookup k' := by
  split_ifs with h
  · subst h
    exact AList.lookup_erase _ m
  · exact AList.lookup_erase_ne h

theorem lookup_insert_eq_update (m : HashMap K V) (k : K) (v : V) :
    (fun k' => (m.insert k v).lookup k') = Function.update (fun k' => m.lookup k') k (some v) := by
  funext k'
  rw [lookup_insert_ite, Function.update_apply]

theorem lookup_erase_eq_update (m : HashMap K V) (k : K) :
    (fun k' => (m.erase k).lookup k') = Function.update (fun k' => m.lookup k') k none := by
  funext k'
  rw [lookup_erase_ite, Function.update_apply]

/-- Removing a key that is not there changes nothing. -/
theorem erase_of_lookup_eq_none {m : HashMap K V} {k : K} (h : m.lookup k = none) :
    m.erase k = m :=
  AList.ext (List.kerase_of_notMem_keys (AList.lookup_eq_none.1 h))

theorem mem_keys_iff {m : HashMap K V} {k : K} : k ∈ m.keys ↔ (m.lookup k).isSome :=
  AList.mem_keys.symm.trans AList.lookup_isSome.symm

end HashMap

end Vuma.Lib
