import Introspect.Proofs.Assignability
import Introspect.Proofs.Confinement
import Introspect.Schema.Search

/-! Supertypes looked for one after the other. A search that looks at no type twice comes to an end also
where links run in circles, and finds just what the ancestors hold, so that one type holds another by rules
about ranks and paths of links alone. -/
namespace Introspect.Schema

open Relation

variable {s : Schema} {target : TypeId} {visited pending : List TypeId}

/-- All supertypes of the types looked at have been looked at or are pending. -/
def Closed (s : Schema) (visited pending : List TypeId) : Prop :=
  ∀ id ∈ visited, ∀ super ∈ s.supertypes id, super ∈ visited ∨ super ∈ pending

namespace Closed

theorem skip {id : TypeId} (hid : id ∈ visited) (h : s.Closed visited (id :: pending)) :
    s.Closed visited pending := by
  intro sub hsub super hs
  rcases h sub hsub super hs with hvisited | hpending
  · exact Or.inl hvisited
  · rcases List.mem_cons.1 hpending with rfl | hpending
    · exact Or.inl hid
    · exact Or.inr hpending

theorem visit {id : TypeId} (h : s.Closed visited (id :: pending)) :
    s.Closed (id :: visited) ((s.supertypes id).reverse ++ pending) := by
  intro sub hsub super hs
  rcases List.mem_cons.1 hsub with rfl | hsub
  · exact Or.inr (by simp [hs])
  · rcases h sub hsub super hs with hvisited | hpending
    · exact Or.inl (List.mem_cons_of_mem _ hvisited)
    · rcases List.mem_cons.1 hpending with rfl | hpending
      · exact Or.inl List.mem_cons_self
      · exact Or.inr (List.mem_append_right _ hpending)

/-- What is reached from a type that has been looked at is reached from one that is still pending. -/
theorem exists_pending (h : s.Closed visited pending) (hnew : target ∉ visited) {id : TypeId}
    (hid : id ∈ visited) (hpath : ReflTransGen s.Supertype id target) :
    ∃ next ∈ pending, ReflTransGen s.Supertype next target := by
  induction hpath using ReflTransGen.head_induction_on with
  | refl => exact absurd hid hnew
  | @head id super hs hpath ih =>
    rcases h id hid super hs with hvisited | hpending
    · exact ih hvisited
    · exact ⟨super, hpending, hpath⟩

end Closed

/-- The search finds what is reached from the types pending, though it looks at no type twice. -/
theorem finds_iff (hclosed : s.Closed visited pending) (hnew : target ∉ visited) :
    s.finds target visited pending ↔ ∃ id ∈ pending, ReflTransGen s.Supertype id target := by
  fun_induction s.finds target visited pending with
  | case1 => simp
  | case2 visited id pending hvisited ih =>
    have hskip := hclosed.skip hvisited
    rw [ih hskip hnew]
    constructor
    · intro h
      obtain ⟨next, hnext, hpath⟩ := h
      exact ⟨next, List.mem_cons_of_mem id hnext, hpath⟩
    · intro h
      obtain ⟨next, hnext, hpath⟩ := h
      rcases List.mem_cons.1 hnext with rfl | hnext
      · exact hskip.exists_pending hnew hvisited hpath
      · exact ⟨next, hnext, hpath⟩
  | case3 visited pending hvisited => exact iff_of_true rfl ⟨target, List.mem_cons_self, .refl⟩
  | case4 visited id pending hvisited hne ih =>
    have hvisit := hclosed.visit
    have hnew' : target ∉ id :: visited := by simp [hnew, Ne.symm hne]
    rw [ih hvisit hnew']
    constructor
    · intro h
      obtain ⟨next, hnext, hpath⟩ := h
      rcases List.mem_append.1 hnext with hs | hnext
      · exact ⟨id, List.mem_cons_self, .head (List.mem_reverse.1 hs) hpath⟩
      · exact ⟨next, List.mem_cons_of_mem id hnext, hpath⟩
    · intro h
      obtain ⟨next, hnext, hpath⟩ := h
      rcases List.mem_cons.1 hnext with rfl | hnext
      · exact hvisit.exists_pending hnew' List.mem_cons_self hpath
      · exact ⟨next, List.mem_append_right _ hnext, hpath⟩

theorem finds_eq_reaches (s : Schema) (sub super : TypeId) :
    s.finds super [] [sub] = s.reaches sub super := by
  have hclosed : s.Closed [] [sub] := fun _ hid => absurd hid List.not_mem_nil
  rw [Bool.eq_iff_iff, finds_iff hclosed List.not_mem_nil, reaches_iff]
  simp

/-- The rules by which a type holds another, in terms of ranks and of paths of links. -/
def Admits (s : Schema) (t u : RuntimeType) : Prop :=
  t = u ∨
  (t.isObject ∧ ¬ s.isVoid u) ∨
  (∃ a b rank depth, t = ⟨some a, rank⟩ ∧ u = ⟨some b, depth⟩ ∧ 0 < rank ∧
    ¬ s.isPrimitive (.of a) ∧ ¬ s.isPrimitive (.of b) ∧
    (depth = rank ∧ s.accepts (.of a) (.of b) ∨ rank < depth ∧ a = .object)) ∨
  ∃ a b, t = .of a ∧ u = .of b ∧ ¬ s.isPrimitive t ∧ ¬ s.isPrimitive u ∧
    ReflTransGen s.Supertype b a

variable {t u : RuntimeType}

namespace Assignable

theorem admits (h : s.Assignable t u) : s.Admits t u := by
  cases h with
  | same => exact Or.inl rfl
  | root hvoid => exact Or.inr (Or.inl ⟨rfl, hvoid⟩)
  | @reached super sub rank hobject hsuper hsub hreach =>
    by_cases hrank : rank = 0
    · subst hrank
      exact Or.inr (Or.inr (Or.inr ⟨super, sub, rfl, rfl, hsuper, hsub, hreach⟩))
    · have helement : s.Assignable (.of super) (.of sub) := .reached hobject hsuper hsub hreach
      exact Or.inr (Or.inr (Or.inl ⟨super, sub, rank, rank, rfl, rfl, UInt32.pos_iff_ne_zero.2 hrank,
        hsuper, hsub, Or.inl ⟨rfl, helement.accepts⟩⟩))
  | @rootArray id rank hrank hobject hid hvoid =>
    exact Or.inr (Or.inr (Or.inl ⟨.object, id, rank, rank, rfl, rfl, hrank, hobject, hid,
      Or.inl ⟨rfl, (Assignable.root hvoid).accepts⟩⟩))
  | @deeper id rank depth hrank hdepth hobject hid =>
    exact Or.inr (Or.inr (Or.inl ⟨.object, id, rank, depth, rfl, rfl, hrank, hobject, hid,
      Or.inr ⟨hdepth, rfl⟩⟩))

/-- The root holds no void. -/
theorem eq_of_isVoid (h : s.Assignable t u) (ht : t.isObject) (hu : s.isVoid u) : t = u := by
  cases h with
  | same => rfl
  | root hvoid => exact absurd hu hvoid
  | reached hobject => exact absurd (isObject_mk.1 ht).1 hobject
  | rootArray hrank => exact absurd hrank ((isObject_mk.1 ht).2 ▸ UInt32.lt_irrefl 0)
  | deeper hrank => exact absurd hrank ((isObject_mk.1 ht).2 ▸ UInt32.lt_irrefl 0)

end Assignable

/-- No other rule lets the root hold a void. -/
theorem Admits.assignable (h : s.Admits t u) (ht : t.isValid) (hu : u.isValid)
    (hvoid : t.isObject → s.isVoid u → t = u) : s.Assignable t u := by
  rcases h with rfl | ⟨hroot, hvalue⟩ | ⟨a, b, rank, depth, rfl, rfl, hrank, ha, hb, hrest⟩ |
    ⟨a, b, rfl, rfl, ha, hb, hpath⟩
  · exact .refl ht
  · obtain ⟨id, hid⟩ := Option.isSome_iff_exists.1 hu
    obtain ⟨element, rank⟩ := u
    cases hid
    rw [of_decide_eq_true hroot]
    exact .root hvalue
  · rcases hrest with ⟨rfl, helement⟩ | ⟨hdepth, rfl⟩
    · exact .of_elements hrank ha hb (assignable_of_accepts helement)
    · exact .deeper hrank hdepth ha hb
  · by_cases hroot : a = .object
    · subst hroot
      by_cases hb' : s.isVoid (.of b)
      · exact hvoid rfl hb' ▸ .refl ht
      · exact .root hb'
    · exact .reached hroot ha hb hpath

theorem accepts_iff_admits :
    s.accepts t u ↔ t.isValid ∧ u.isValid ∧ s.Admits t u ∧ (t.isObject → s.isVoid u → t = u) := by
  rw [accepts_iff]
  constructor
  · intro h
    exact ⟨h.isValid_target, h.isValid_source, h.admits, h.eq_of_isVoid⟩
  · intro h
    obtain ⟨ht, hu, hadmits, hvoid⟩ := h
    exact hadmits.assignable ht hu hvoid

/-- Where no void type has a supertype, the root holds no void by any rule. -/
theorem Admits.eq_of_isVoid (htop : ∀ id, s.isVoid (.of id) → s.supertypes id = [])
    (h : s.Admits t u) (ht : t.isObject) (hu : s.isVoid u) : t = u := by
  rcases h with rfl | ⟨_, hvalue⟩ | ⟨a, b, rank, depth, rfl, rfl, hrank, _⟩ |
    ⟨a, b, rfl, rfl, _, _, hpath⟩
  · rfl
  · exact absurd hu hvalue
  · exact absurd hrank ((isObject_mk.1 ht).2 ▸ UInt32.lt_irrefl 0)
  · rw [eq_of_reaches_top (htop b hu) hpath]

/-- Where nothing is declared of void, it has no supertypes, and no other type is void. -/
theorem supertypes_of_isVoid_run {operations : List Operation}
    (h : ∀ o ∈ operations, o.owner? ≠ some (.builtIn .void)) (id : TypeId)
    (hid : (run operations).isVoid (.of id)) : (run operations).supertypes id = [] := by
  rw [eq_void_of_run hid]
  exact supertypes_run_eq_nil h

/-- Whatever the links, circles included, the search finds the ancestors and no others, and one type holds
another just by the rules, save that the root refuses void even if links lead there. Where void declares no
supertype, no links do. -/
theorem accepts_exact (s : Schema) :
    (∀ sub super, s.finds super [] [sub] = s.reaches sub super) ∧
    (∀ t u, s.accepts t u ↔
      t.isValid ∧ u.isValid ∧ s.Admits t u ∧ (t.isObject → s.isVoid u → t = u)) ∧
    ((∀ id, s.isVoid (.of id) → s.supertypes id = []) →
      ∀ t u, s.accepts t u ↔ t.isValid ∧ u.isValid ∧ s.Admits t u) := by
  refine ⟨s.finds_eq_reaches, fun t u => accepts_iff_admits, fun htop t u => ?_⟩
  rw [accepts_iff_admits]
  constructor
  · intro h
    exact ⟨h.1, h.2.1, h.2.2.1⟩
  · intro h
    exact ⟨h.1, h.2.1, h.2.2, h.2.2.eq_of_isVoid htop⟩

/-- Void, made to extend the root. -/
def rooting : List Operation := [.declare (.builtIn .void) (.superclass { base := some .object })]

/-- The root refuses void before any link is followed. As void is no primitive, its arrays are held as those of
a class are. -/
theorem root_refuses_linked_void :
    let s := run rooting
    ReflTransGen s.Supertype (.builtIn .void) .object ∧
      ¬ s.isPrimitive .object ∧ ¬ s.isPrimitive (.of (.builtIn .void)) ∧
      s.Admits .object (.of (.builtIn .void)) ∧ ¬ s.accepts .object (.of (.builtIn .void)) ∧
      s.accepts RuntimeType.object.array (RuntimeType.of (.builtIn .void)).array.array := by
  intro s
  have hlink : s.Supertype (.builtIn .void) .object := (by decide : .object ∈ s.supertypes (.builtIn .void))
  have hpath : ReflTransGen s.Supertype (.builtIn .void) .object := .single hlink
  exact ⟨hpath, by decide, by decide,
    Or.inr (Or.inr (Or.inr ⟨.object, .builtIn .void, rfl, rfl, by decide, by decide, hpath⟩)),
    by decide, by decide⟩

/-- Two classes that extend each other, and an interface of one of them. -/
def circling : List Operation := [
  .reopen storeClass {} "Store",
  .reopen baseClass {} "Base",
  .reopen derivedClass {} "Derived",
  .declare baseClass (.superclass { base := some derivedClass }),
  .declare derivedClass (.superclass { base := some baseClass }),
  .declare derivedClass (.interface { base := none }),
  .declare derivedClass (.interface { base := some storeClass })]

theorem accepts_exact_circling :
    let s := run circling
    ¬ s.Acyclic ∧ (∀ id, s.isVoid (.of id) → s.supertypes id = []) ∧
      s.finds storeClass [] [baseClass] ∧ ¬ s.finds baseClass [] [storeClass] ∧
      s.accepts (RuntimeType.of storeClass).array (RuntimeType.of baseClass).array ∧
      ¬ s.accepts (.of baseClass) (.of storeClass) := by
  intro s
  have hup : s.Supertype baseClass derivedClass :=
    (by decide : derivedClass ∈ s.supertypes baseClass)
  have hdown : s.Supertype derivedClass baseClass :=
    (by decide : baseClass ∈ s.supertypes derivedClass)
  have hstore : s.Supertype derivedClass storeClass :=
    (by decide : storeClass ∈ s.supertypes derivedClass)
  have hvoid : ∀ id, s.isVoid (.of id) → s.supertypes id = [] := supertypes_of_isVoid_run (by decide)
  obtain ⟨hfinds, _, hexact⟩ := accepts_exact s
  have hpath : ReflTransGen s.Supertype baseClass storeClass := .head hup (.single hstore)
  have helement : s.accepts (.of storeClass) (.of baseClass) := (hexact hvoid _ _).2
    ⟨rfl, rfl, Or.inr (Or.inr (Or.inr ⟨storeClass, baseClass, rfl, rfl, by decide, by decide, hpath⟩))⟩
  refine ⟨fun h => h baseClass (.tail (.single hup) hdown), hvoid, ?_, ?_, ?_, ?_⟩
  · rw [hfinds]
    exact reaches_iff.2 hpath
  · rw [hfinds]
    decide
  · exact (hexact hvoid _ _).2 ⟨rfl, rfl, Or.inr (Or.inr (Or.inl ⟨storeClass, baseClass, 1, 1, rfl, rfl,
      by decide, by decide, by decide, Or.inl ⟨rfl, helement⟩⟩))⟩
  · decide

end Introspect.Schema
