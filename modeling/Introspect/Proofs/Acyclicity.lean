import Introspect.Schema.Members
import Introspect.Schema.Hierarchy
import Mathlib.Data.List.Perm.Subperm
import Mathlib.Logic.Relation

/-! Hierarchies without cycles. No path of links is longer than the list of types, so that a walk that
is given as many steps as there are types goes all the way. -/
namespace Introspect.Schema

/-- A direct supertype, by a superclass or an interface link. -/
def Supertype (s : Schema) (sub super : TypeId) : Prop := super ∈ s.supertypes sub

def Acyclic (s : Schema) : Prop := ∀ id, ¬ Relation.TransGen s.Supertype id id

/-- Every path of links from the type has at most so many links. -/
def HeightAtMost (s : Schema) : Nat → TypeId → Prop
  | 0, id => s.supertypes id = []
  | n + 1, id => ∀ super ∈ s.supertypes id, s.HeightAtMost n super

variable {s : Schema}

/-- What holds where nothing is known holds everywhere, if it holds of the listed types. -/
theorem describe_of_listed {P : Description → Prop}
    (hplaceholder : ∀ name category, P (.placeholder name category))
    (h : ∀ id ∈ s.types.keys, P (s.describe id)) (id : TypeId) : P (s.describe id) := by
  by_cases hid : id ∈ s.types.keys
  · exact h id hid
  · rw [describe_eq_placeholder hid]
    exact hplaceholder _ _

theorem mem_keys_of_supertype {sub super : TypeId} (h : s.Supertype sub super) :
    sub ∈ s.types.keys := by
  by_contra hn
  rw [Supertype, supertypes_eq_nil_of_notMem_keys hn] at h
  exact nomatch h

/-- It is enough to look at the listed types. -/
theorem acyclic_of_rank (rank : TypeId → Nat)
    (h : ∀ id ∈ s.types.keys, ∀ super ∈ s.supertypes id, rank super < rank id) : s.Acyclic := by
  have hstep {sub super : TypeId} (hs : s.Supertype sub super) : rank super < rank sub :=
    h sub (mem_keys_of_supertype hs) super hs
  have hpath {sub super : TypeId} (hp : Relation.TransGen s.Supertype sub super) :
      rank super < rank sub := by
    induction hp with
    | single hs => exact hstep hs
    | tail _ hs ih => exact Nat.lt_trans (hstep hs) ih
  exact fun id hp => Nat.lt_irrefl _ (hpath hp)

/-- As many different listed types as there are listed types are all of them. -/
theorem keys_subset_of_passed {passed : List TypeId} (hnodup : passed.Nodup)
    (hlisted : ∀ p ∈ passed, p ∈ s.types.keys) (hsize : passed.length = s.size) :
    s.types.keys ⊆ passed := by
  have hperm := (List.subperm_of_subset hnodup hlisted).perm_of_length_le
    (by simp only [Table.keys, List.length_map, Schema.size, Table.size] at *; omega)
  exact hperm.symm.subset

/-- The types passed so far are all different, so there are never more of them than types are listed. -/
private theorem heightAtMost_of_passed (h : s.Acyclic) (n : Nat) (id : TypeId) (passed : List TypeId)
    (hnodup : passed.Nodup) (hlisted : ∀ p ∈ passed, p ∈ s.types.keys)
    (hpath : ∀ p ∈ passed, Relation.TransGen s.Supertype p id) (hsize : passed.length + n = s.size) :
    s.HeightAtMost n id := by
  induction n generalizing id passed with
  | zero =>
    by_contra hne
    obtain ⟨super, hs⟩ := List.exists_mem_of_ne_nil _ hne
    have hall := keys_subset_of_passed hnodup hlisted hsize
    exact h id (hpath id (hall (mem_keys_of_supertype hs)))
  | succ n ih =>
    intro super hs
    have hnew : id ∉ passed := fun hm => h id (hpath id hm)
    refine ih super (id :: passed) (List.nodup_cons.2 ⟨hnew, hnodup⟩) ?_ ?_ ?_
    · intro p hp
      rcases List.mem_cons.1 hp with rfl | hp
      · exact mem_keys_of_supertype hs
      · exact hlisted p hp
    · intro p hp
      rcases List.mem_cons.1 hp with rfl | hp
      · exact .single hs
      · exact (hpath p hp).tail hs
    · simp only [List.length_cons]
      omega

theorem Acyclic.heightAtMost (h : s.Acyclic) (id : TypeId) : s.HeightAtMost s.size id :=
  heightAtMost_of_passed h s.size id [] List.nodup_nil (by simp) (by simp) (by simp)

/-- What holds of a type as soon as it holds of all its supertypes holds of every type. -/
theorem Acyclic.induction {P : TypeId → Prop} (h : s.Acyclic)
    (step : ∀ id, (∀ super ∈ s.supertypes id, P super) → P id) (id : TypeId) : P id := by
  have hn (n : Nat) : ∀ id, s.HeightAtMost n id → P id := by
    induction n with
    | zero =>
      intro id h0
      refine step id fun super hs => ?_
      have hempty : s.supertypes id = [] := h0
      simp [hempty] at hs
    | succ n ih => exact fun id hid => step id fun super hs => ih super (hid super hs)
  exact hn s.size id (h.heightAtMost id)

end Introspect.Schema
