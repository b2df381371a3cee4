import Introspect.Proofs.Acyclicity

/-! The ancestors of a type are the types that chains of supertypes lead to, also where links run in
circles. -/
namespace Introspect.Schema

open Relation

variable {s : Schema}

/-- A path to `c` need not come back to `a` once it has left it for the last time. -/
private theorem reflTransGen_avoiding {α : Type} {r : α → α → Prop} (a : α) {x c : α}
    (h : ReflTransGen r x c) :
    ReflTransGen (fun x y => r x y ∧ x ≠ a) x c ∨
      a = c ∨ ∃ b, r a b ∧ ReflTransGen (fun x y => r x y ∧ x ≠ a) b c := by
  induction h using ReflTransGen.head_induction_on with
  | refl => exact Or.inl .refl
  | @head x y hxy _ ih =>
    rcases ih with hpath | hleft
    · by_cases hx : x = a
      · exact Or.inr (Or.inr ⟨y, hx ▸ hxy, hpath⟩)
      · exact Or.inl (.head ⟨hxy, hx⟩ hpath)
    · exact Or.inr hleft

theorem mem_widen_iff {found : List TypeId} {id : TypeId} :
    id ∈ s.widen found ↔ id ∈ found ∨ ∃ sub ∈ found, s.Supertype sub id := by
  have hinsert (new found : List TypeId) :
      id ∈ new.foldl (fun found id => found.insert id) found ↔ id ∈ found ∨ id ∈ new := by
    induction new generalizing found with
    | nil => simp
    | cons next rest ih =>
      rw [List.foldl_cons, ih, List.mem_insert_iff, List.mem_cons]
      tauto
  rw [widen, hinsert, List.mem_flatMap]
  rfl

/-- What a supertype finds in so many steps, the type finds in one more. -/
private theorem mem_repeat_widen_of_supertype {sub super id : TypeId} (hs : s.Supertype sub super)
    (n : Nat) (h : id ∈ n.repeat s.widen [super]) : id ∈ (n + 1).repeat s.widen [sub] := by
  induction n generalizing id with
  | zero =>
    have hid : id = super := List.mem_singleton.1 h
    exact mem_widen_iff.2 (Or.inr ⟨sub, List.mem_singleton.2 rfl, hid ▸ hs⟩)
  | succ n ih =>
    rcases mem_widen_iff.1 h with hfound | ⟨t, ht, hsuper⟩
    · exact mem_widen_iff.2 (Or.inl (ih hfound))
    · exact mem_widen_iff.2 (Or.inr ⟨t, ih ht, hsuper⟩)

private theorem mem_repeat_widen_self (n : Nat) (id : TypeId) : id ∈ n.repeat s.widen [id] := by
  induction n with
  | zero => exact List.mem_singleton.2 rfl
  | succ n ih => exact mem_widen_iff.2 (Or.inl ih)

/-- A path that avoids the types passed so far has as many steps left as there are other types. -/
private theorem mem_repeat_widen_of_path {target : TypeId} (n : Nat) (id : TypeId)
    (passed : List TypeId) (hnodup : passed.Nodup) (hlisted : ∀ p ∈ passed, p ∈ s.types.keys)
    (hsize : passed.length + n = s.size)
    (h : ReflTransGen (fun sub super => s.Supertype sub super ∧ sub ∉ passed) id target) :
    target ∈ n.repeat s.widen [id] := by
  induction n generalizing id passed with
  | zero =>
    have hall := keys_subset_of_passed hnodup hlisted hsize
    rcases h.cases_head with rfl | ⟨super, hs, _⟩
    · exact List.mem_singleton.2 rfl
    · exact absurd (hall (mem_keys_of_supertype hs.1)) hs.2
  | succ n ih =>
    have hleave : id = target ∨ ∃ super, (s.Supertype id super ∧ id ∉ passed) ∧
        ReflTransGen (fun sub super => (s.Supertype sub super ∧ sub ∉ passed) ∧ sub ≠ id)
          super target := by
      rcases reflTransGen_avoiding id h with hpath | hleft
      · rcases hpath.cases_head with heq | ⟨super, hs, _⟩
        · exact Or.inl heq
        · exact absurd rfl hs.2
      · exact hleft
    rcases hleave with rfl | ⟨super, ⟨hs, hnew⟩, hpath⟩
    · exact mem_repeat_widen_self _ _
    · refine mem_repeat_widen_of_supertype hs n (ih super (id :: passed) ?_ ?_ ?_ ?_)
      · exact List.nodup_cons.2 ⟨hnew, hnodup⟩
      · exact List.forall_mem_cons.2 ⟨mem_keys_of_supertype hs, hlisted⟩
      · simp only [List.length_cons]
        omega
      · refine ReflTransGen.mono (fun sub super hstep => ⟨hstep.1.1, ?_⟩) _ _ hpath
        exact fun hm => (List.mem_cons.1 hm).elim hstep.2 hstep.1.2

/-- One type reaches another just where a chain of supertypes leads there. -/
theorem reaches_iff {sub super : TypeId} :
    s.reaches sub super ↔ ReflTransGen s.Supertype sub super := by
  rw [reaches, decide_eq_true_eq, ancestors]
  constructor
  · intro h
    generalize s.size = n at h
    induction n generalizing super with
    | zero => rw [List.mem_singleton.1 h]
    | succ n ih =>
      rcases mem_widen_iff.1 h with hfound | ⟨t, ht, hs⟩
      · exact ih hfound
      · exact (ih ht).tail hs
  · intro h
    refine mem_repeat_widen_of_path s.size sub [] List.nodup_nil (by simp) (by simp) ?_
    exact ReflTransGen.mono (fun _ _ hs => ⟨hs, List.not_mem_nil⟩) _ _ h

/-- A type without supertypes reaches only itself. -/
theorem eq_of_reaches_top {top super : TypeId} (htop : s.supertypes top = [])
    (h : ReflTransGen s.Supertype top super) : super = top := by
  rcases h.cases_head with heq | ⟨next, hs, _⟩
  · exact heq.symm
  · simp [Supertype, htop] at hs

/-- Without cycles two types that reach each other are one. -/
theorem Acyclic.eq_of_reaches (h : s.Acyclic) {a b : TypeId}
    (hab : ReflTransGen s.Supertype a b) (hba : ReflTransGen s.Supertype b a) : a = b := by
  rcases reflTransGen_iff_eq_or_transGen.1 hab with heq | hpath
  · exact heq.symm
  · exact absurd (hpath.trans_left hba) (h a)

end Introspect.Schema
