import Introspect.Proofs.Reachability
import Introspect.Proofs.Runs

/-! Assignability as a relation, rule by rule. Where the root and void stand at the top it is a preorder,
and a partial order if links do not run in circles. -/
namespace Introspect.Schema

open Relation

variable {s : Schema} {t u v : RuntimeType}

/-- The rules of assignability: a type holds itself, the root holds every value, a class or interface
holds what reaches it, with as many brackets on both sides, and an array of the root holds arrays of
values and deeper arrays. -/
inductive Assignable (s : Schema) : RuntimeType → RuntimeType → Prop
  | same (id : TypeId) (rank : UInt32) : Assignable s ⟨some id, rank⟩ ⟨some id, rank⟩
  | root {id : TypeId} {rank : UInt32} (hvoid : ¬ s.isVoid ⟨some id, rank⟩) :
      Assignable s ⟨some .object, 0⟩ ⟨some id, rank⟩
  | reached {super sub : TypeId} {rank : UInt32} (hobject : super ≠ .object)
      (hsuper : ¬ s.isPrimitive (.of super)) (hsub : ¬ s.isPrimitive (.of sub))
      (hreach : ReflTransGen s.Supertype sub super) :
      Assignable s ⟨some super, rank⟩ ⟨some sub, rank⟩
  | rootArray {id : TypeId} {rank : UInt32} (hrank : 0 < rank)
      (hobject : ¬ s.isPrimitive .object) (hid : ¬ s.isPrimitive (.of id))
      (hvoid : ¬ s.isVoid (.of id)) : Assignable s ⟨some .object, rank⟩ ⟨some id, rank⟩
  | deeper {id : TypeId} {rank depth : UInt32} (hrank : 0 < rank) (hdepth : rank < depth)
      (hobject : ¬ s.isPrimitive .object) (hid : ¬ s.isPrimitive (.of id)) :
      Assignable s ⟨some .object, rank⟩ ⟨some id, depth⟩

theorem acceptsElement_iff {super sub : TypeId} :
    s.acceptsElement super sub ↔ super = sub ∨ (super = .object ∧ ¬ s.isVoid (.of sub)) ∨
      super ≠ .object ∧ ¬ s.isPrimitive (.of super) ∧ ¬ s.isPrimitive (.of sub) ∧
        ReflTransGen s.Supertype sub super := by
  unfold acceptsElement
  split_ifs with hsame hobject
  · simp [hsame]
  · subst hobject
    simp [hsame]
  · simp [hsame, hobject, reaches_iff, and_assoc]

theorem isObject_mk {id : TypeId} {rank : UInt32} :
    RuntimeType.isObject ⟨some id, rank⟩ ↔ id = .object ∧ rank = 0 := by
  simp [RuntimeType.isObject, RuntimeType.object, RuntimeType.of]

theorem isArray_mk {id : TypeId} {rank : UInt32} :
    RuntimeType.isArray ⟨some id, rank⟩ ↔ 0 < rank := by
  simp [RuntimeType.isArray]

theorem isVoid_mk {id : TypeId} {rank : UInt32} :
    s.isVoid ⟨some id, rank⟩ ↔ rank = 0 ∧ s.isVoid (.of id) := by
  simp [isVoid, hasCategory, RuntimeType.of]

theorem Assignable.accepts (h : s.Assignable t u) : s.accepts t u := by
  cases h with
  | same id rank => simp [Schema.accepts]
  | root hvoid => simp [Schema.accepts, isObject_mk, hvoid]
  | @reached super sub rank hobject hsuper hsub hreach =>
    have helement := acceptsElement_iff.2 (Or.inr (Or.inr ⟨hobject, hsuper, hsub, hreach⟩))
    have hroot : ¬ RuntimeType.isObject ⟨some super, rank⟩ := fun h => hobject (isObject_mk.1 h).1
    simp only [Schema.accepts]
    split_ifs <;> simp_all [RuntimeType.isArray]
  | @rootArray id rank hrank hobject hid hvoid =>
    have helement : s.acceptsElement .object id := acceptsElement_iff.2 (Or.inr (Or.inl ⟨rfl, hvoid⟩))
    have hroot : ¬ RuntimeType.isObject ⟨some .object, rank⟩ := by
      simpa [isObject_mk, UInt32.pos_iff_ne_zero] using hrank
    simp only [Schema.accepts]
    split_ifs <;> simp_all [RuntimeType.isArray, RuntimeType.object]
  | @deeper id rank depth hrank hdepth hobject hid =>
    have hroot : ¬ RuntimeType.isObject ⟨some .object, rank⟩ := by
      simpa [isObject_mk, UInt32.pos_iff_ne_zero] using hrank
    simp only [Schema.accepts]
    split_ifs <;> simp_all [RuntimeType.isArray, RuntimeType.object]

theorem assignable_of_accepts (h : s.accepts t u) : s.Assignable t u := by
  obtain ⟨_ | a, r⟩ := t
  · simp [Schema.accepts] at h
  obtain ⟨_ | b, q⟩ := u
  · simp [Schema.accepts] at h
  simp only [Schema.accepts] at h
  split_ifs at h with hsame hroot harray hrank
  · cases hsame
    exact .same a r
  · obtain ⟨rfl, rfl⟩ := isObject_mk.1 hroot
    exact .root (by simpa using h)
  · subst hrank
    simp only [Bool.and_eq_true, Bool.not_eq_true', acceptsElement_iff] at h
    obtain ⟨⟨ha, hb⟩, rfl | ⟨rfl, hvoid⟩ | ⟨hobject, hsuper, hsub, hreach⟩⟩ := h
    · exact .same a q
    · exact .rootArray (isArray_mk.1 harray) (by simp [RuntimeType.object, ha]) (by simp [hb]) hvoid
    · exact .reached hobject hsuper hsub hreach
  · simp only [Bool.and_eq_true, Bool.not_eq_true', decide_eq_true_eq] at h
    obtain ⟨⟨ha, hb⟩, hdepth, rfl⟩ := h
    exact .deeper (isArray_mk.1 harray) hdepth (by simp [RuntimeType.object, ha]) (by simp [hb])
  · simp only [Bool.and_eq_true, Bool.not_eq_true', acceptsElement_iff] at h
    have hr : r = 0 := by simpa [isArray_mk, UInt32.pos_iff_ne_zero] using harray
    have hq : q = 0 := by simpa [RuntimeType.isArray, UInt32.pos_iff_ne_zero] using h.1
    subst hr hq
    obtain ⟨_, rfl | ⟨rfl, _⟩ | ⟨hobject, hsuper, hsub, hreach⟩⟩ := h
    · exact .same a 0
    · exact absurd (isObject_mk.2 ⟨rfl, rfl⟩) hroot
    · exact .reached hobject hsuper hsub hreach

theorem accepts_iff : s.accepts t u ↔ s.Assignable t u :=
  ⟨assignable_of_accepts, Assignable.accepts⟩

/-- Neither the root nor a void type declares a supertype. -/
structure Topped (s : Schema) : Prop where
  object : s.supertypes .object = []
  void : ∀ id, s.isVoid (.of id) → s.supertypes id = []

/-- The root reaches only itself. -/
theorem Topped.eq_root (htop : s.Topped) {super : TypeId}
    (h : ReflTransGen s.Supertype .object super) : super = .object :=
  eq_of_reaches_top htop.object h

namespace Assignable

theorem refl (h : t.isValid) : s.Assignable t t := by
  obtain ⟨id, hid⟩ := Option.isSome_iff_exists.1 h
  obtain ⟨element, rank⟩ := t
  cases hid
  exact .same id rank

theorem isValid_target (h : s.Assignable t u) : t.isValid := by
  cases h <;> rfl

theorem isValid_source (h : s.Assignable t u) : u.isValid := by
  cases h <;> rfl

/-- Arrays of one rank hold each other as their elements do. -/
theorem of_elements {a b : TypeId} {rank : UInt32} (hrank : 0 < rank) (ha : ¬ s.isPrimitive (.of a))
    (hb : ¬ s.isPrimitive (.of b)) (h : s.Assignable (.of a) (.of b)) :
    s.Assignable ⟨some a, rank⟩ ⟨some b, rank⟩ := by
  cases h with
  | same => exact .same a rank
  | root hvoid => exact .rootArray hrank ha hb hvoid
  | reached hobject _ _ hreach => exact .reached hobject ha hb hreach
  | rootArray hzero => exact absurd hzero (UInt32.lt_irrefl 0)
  | deeper hzero => exact absurd hzero (UInt32.lt_irrefl 0)

/-- A void type reaches no other, so that nothing but itself holds it. -/
theorem not_isVoid (h : s.Assignable t u) (htop : s.Topped) (ht : ¬ s.isVoid t) : ¬ s.isVoid u := by
  intro hu
  cases h with
  | same => exact ht hu
  | root hvoid => exact hvoid hu
  | reached _ _ _ hreach =>
    rw [eq_of_reaches_top (htop.void _ (isVoid_mk.1 hu).2) hreach] at ht
    exact ht hu
  | rootArray _ _ _ hvoid => exact hvoid (isVoid_mk.1 hu).2
  | deeper _ hdepth =>
    rw [(isVoid_mk.1 hu).1] at hdepth
    exact absurd hdepth UInt32.not_lt_zero

theorem trans (htop : s.Topped) (htu : s.Assignable t u) (huv : s.Assignable u v) :
    s.Assignable t v := by
  cases htu with
  | same => exact huv
  | root hvoid =>
    have hv := huv.not_isVoid htop hvoid
    cases huv <;> exact .root hv
  | reached hobject hsuper hsub hreach =>
    cases huv with
    | same => exact .reached hobject hsuper hsub hreach
    | root => exact absurd (htop.eq_root hreach) hobject
    | reached _ _ hsub' hreach' => exact .reached hobject hsuper hsub' (hreach'.trans hreach)
    | rootArray => exact absurd (htop.eq_root hreach) hobject
    | deeper => exact absurd (htop.eq_root hreach) hobject
  | rootArray hrank hroot hid hvoid =>
    cases huv with
    | same => exact .rootArray hrank hroot hid hvoid
    | root => exact absurd hrank (UInt32.lt_irrefl 0)
    | reached hobject hsuper hsub hreach =>
      refine .rootArray hrank hroot hsub fun hv => ?_
      rw [eq_of_reaches_top (htop.void _ hv) hreach] at hvoid
      exact hvoid hv
    | rootArray _ _ hid' hvoid' => exact .rootArray hrank hroot hid' hvoid'
    | deeper _ hdepth _ hid' => exact .deeper hrank hdepth hroot hid'
  | deeper hrank hdepth hroot hid =>
    cases huv with
    | same => exact .deeper hrank hdepth hroot hid
    | root => exact absurd hdepth UInt32.not_lt_zero
    | reached _ _ hsub => exact .deeper hrank hdepth hroot hsub
    | rootArray _ _ hid' => exact .deeper hrank hdepth hroot hid'
    | deeper _ hdepth' _ hid' => exact .deeper hrank (UInt32.lt_trans hdepth hdepth') hroot hid'

theorem antisymm (htop : s.Topped) (hacyclic : s.Acyclic) (htu : s.Assignable t u)
    (hut : s.Assignable u t) : t = u := by
  cases htu with
  | same => rfl
  | root hvoid =>
    cases hut with
    | same => rfl
    | root => rfl
    | reached hobject _ _ hreach => rw [htop.eq_root hreach]
    | rootArray => rfl
    | deeper _ hdepth => exact absurd hdepth UInt32.not_lt_zero
  | reached hobject hsuper hsub hreach =>
    cases hut with
    | same => rfl
    | reached _ _ _ hreach' => rw [hacyclic.eq_of_reaches hreach hreach']
    | root => exact absurd (htop.eq_root hreach) hobject
    | rootArray => exact absurd (htop.eq_root hreach) hobject
    | deeper => exact absurd (htop.eq_root hreach) hobject
  | rootArray hrank hroot hid hvoid =>
    cases hut with
    | same => rfl
    | root => rfl
    | reached _ _ _ hreach => rw [htop.eq_root hreach]
    | rootArray => rfl
    | deeper _ hdepth => exact absurd hdepth (UInt32.lt_irrefl _)
  | deeper hrank hdepth hroot hid =>
    cases hut with
    | same => rfl
    | root => exact absurd hdepth UInt32.not_lt_zero
    | reached => exact absurd hdepth (UInt32.lt_irrefl _)
    | rootArray => exact absurd hdepth (UInt32.lt_irrefl _)
    | deeper _ hdepth' => exact absurd (UInt32.lt_trans hdepth hdepth') (UInt32.lt_irrefl _)

end Assignable

theorem eq_void_of_run {operations : List Operation} {id : TypeId}
    (h : (run operations).isVoid (.of id)) : id = .builtIn .void := by
  have hcategory : ((run operations).describe id).category = .void := by
    simpa [isVoid, hasCategory, RuntimeType.of] using h
  rcases category_lasting.run operations id with hc | hc | hc
  · simp [hcategory] at hc
  · simp [hcategory] at hc
  · rw [hcategory] at hc
    cases id with
    | builtIn type =>
      cases type with
      | void => rfl
      | _ => cases hc
    | enumeration | record | described => cases hc

/-- However a schema came about, it is enough that the root and void itself stand at the top. -/
theorem topped_run {operations : List Operation} (hobject : (run operations).supertypes .object = [])
    (hvoid : (run operations).supertypes (.builtIn .void) = []) : (run operations).Topped :=
  ⟨hobject, fun _ h => eq_void_of_run h ▸ hvoid⟩

/-- Assignability is a preorder on the valid types, and a partial order where links do not run in
circles. -/
theorem accepts_order (s : Schema) (htop : s.Topped) :
    (∀ t : RuntimeType, t.isValid → s.accepts t t) ∧
      (∀ t u v, s.accepts t u → s.accepts u v → s.accepts t v) ∧
      (s.Acyclic → ∀ t u, s.accepts t u → s.accepts u t → t = u) := by
  simp only [accepts_iff]
  exact ⟨fun t ht => .refl ht, fun t u v htu huv => htu.trans htop huv,
    fun hacyclic t u htu hut => htu.antisymm htop hacyclic hut⟩

theorem accepts_order_shadowed :
    shadowed.Topped ∧ shadowed.Acyclic ∧
      shadowed.accepts RuntimeType.object.array (RuntimeType.of derivedClass).array.array ∧
      ¬ shadowed.accepts (.of derivedClass) (.of baseClass) := by
  have htop : shadowed.Topped := topped_run (by decide) (by decide)
  obtain ⟨_, htrans, hantisymm⟩ := accepts_order shadowed htop
  refine ⟨htop, shadowed_acyclic,
    htrans _ (RuntimeType.of baseClass).array.array _ (by decide) (by decide), fun h => ?_⟩
  have heq := hantisymm shadowed_acyclic _ _ h (by decide)
  exact absurd heq (by decide)

end Introspect.Schema
