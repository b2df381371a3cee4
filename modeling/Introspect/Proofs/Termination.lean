import Introspect.Proofs.Erasure

/-! Erasure without a limit on the bounds that are followed. Where no bound leads back to its own parameter,
erasure ends for every expression, and no more bounds are followed than there are parameters. -/
namespace Introspect.Description

open Relation

/-- The bound that a variable is erased to. There is none for a variable that the type does not declare, for an
empty bound, and for a parameter that is its own bound. -/
def boundOf? (d : Description) (name : String) : Option TypeExpr :=
  (d.typeParameter? name).bind fun p =>
    match p.bound with
    | .var bound => if bound = name then none else some (.var bound)
    | bound => if bound.isEmpty then none else some bound

/-- Erases in finitely many steps. -/
inductive Erases (d : Description) : TypeExpr → RuntimeType → Prop
  | plain {t : RuntimeType} (h : t.isValid) : Erases d (.plain t) t
  | empty {t : RuntimeType} (h : ¬ t.isValid) : Erases d (.plain t) .object
  | applied (raw : RuntimeType) (args : List TypeExpr) : Erases d (.applied raw args) raw
  | array {component : TypeExpr} {t : RuntimeType} (h : Erases d component t) :
    Erases d (.array component) t.array
  | unbounded {name : String} (hb : d.boundOf? name = none) : Erases d (.var name) .object
  | bounded {name : String} {bound : TypeExpr} {t : RuntimeType} (hb : d.boundOf? name = some bound)
    (h : Erases d bound t) : Erases d (.var name) t

/-- To erase the one variable, the other has to be erased. -/
def LeadsTo (d : Description) (name next : String) : Prop :=
  (d.boundOf? name).bind (·.elementVar?) = some next

instance (d : Description) (name next : String) : Decidable (d.LeadsTo name next) :=
  inferInstanceAs (Decidable (_ = _))

/-- No parameter is led back to, unless it is its own bound. -/
def BoundsAcyclic (d : Description) : Prop := ∀ name, ¬ TransGen d.LeadsTo name name

variable {d : Description} {name next : String} {e : TypeExpr} {t u : RuntimeType}

theorem eraseVar_succ (d : Description) (depth : Nat) (name : String) :
    d.eraseVar (depth + 1) name = match d.boundOf? name with
      | none => .object
      | some bound => bound.eraseWith (d.eraseVar depth) := by
  unfold eraseVar boundOf?
  cases d.typeParameter? name with
  | none => rfl
  | some p =>
    cases hbound : p.bound with
    | plain t =>
      by_cases ht : t.isValid
      · simp [hbound, TypeExpr.isEmpty, ht]
      · simp [hbound, TypeExpr.isEmpty, TypeExpr.eraseWith, ht]
    | var bound =>
      by_cases hself : bound = name
      · simp [hbound, hself]
      · simp [hbound, hself, TypeExpr.eraseWith]
    | applied raw args | array component => simp [hbound, TypeExpr.isEmpty]

/-- An expression erases if the variable does that decides about it. -/
theorem erases_eraseWith {onVar : String → RuntimeType} :
    (e : TypeExpr) → (∀ x, e.elementVar? = some x → d.Erases (.var x) (onVar x)) →
      d.Erases e (e.eraseWith onVar)
  | .plain t, _ => by
    unfold TypeExpr.eraseWith
    split_ifs with ht
    · exact .plain ht
    · exact .empty ht
  | .var x, h => h x rfl
  | .applied raw args, _ => .applied raw args
  | .array component, h => .array (erases_eraseWith component h)

theorem mem_names_of_boundOf? {bound : TypeExpr} (h : d.boundOf? name = some bound) :
    name ∈ d.typeParameters.map (·.name) := by
  obtain ⟨p, hp, _⟩ := Option.bind_eq_some_iff.1 h
  have hname : p.name = name := by simpa using List.find?_some hp
  exact List.mem_map.2 ⟨p, List.mem_of_find?_eq_some hp, hname⟩

/-- The variables passed so far are different parameters, so that there are never more of them than parameters. -/
private theorem erases_eraseVar_of_passed (h : d.BoundsAcyclic) (depth : Nat) (name : String)
    (passed : List String) (hnodup : passed.Nodup)
    (hdeclared : ∀ p ∈ passed, p ∈ d.typeParameters.map (·.name))
    (hpath : ∀ p ∈ passed, TransGen d.LeadsTo p name)
    (hsize : passed.length + depth = d.typeParameters.length) :
    d.Erases (.var name) (d.eraseVar depth name) := by
  induction depth generalizing name passed with
  | zero =>
    -- all parameters are passed, so that the variable can only be one that is not declared
    cases hb : d.boundOf? name with
    | none => exact .unbounded hb
    | some bound =>
      have hnew : name ∉ passed := fun hm => h name (hpath name hm)
      have hsubset : name :: passed ⊆ d.typeParameters.map (·.name) :=
        List.cons_subset.2 ⟨mem_names_of_boundOf? hb, hdeclared⟩
      have hle := (List.subperm_of_subset (List.nodup_cons.2 ⟨hnew, hnodup⟩) hsubset).length_le
      simp only [List.length_cons, List.length_map] at hle
      omega
  | succ depth ih =>
    rw [eraseVar_succ]
    cases hb : d.boundOf? name with
    | none => exact .unbounded hb
    | some bound =>
      refine .bounded hb (erases_eraseWith bound fun x hx => ?_)
      have hnext : d.LeadsTo name x := by rw [LeadsTo, hb, Option.bind_some, hx]
      have hnew : name ∉ passed := fun hm => h name (hpath name hm)
      refine ih x (name :: passed) (List.nodup_cons.2 ⟨hnew, hnodup⟩) ?_ ?_ ?_
      · exact List.forall_mem_cons.2 ⟨mem_names_of_boundOf? hb, hdeclared⟩
      · exact List.forall_mem_cons.2 ⟨.single hnext, fun p hp => (hpath p hp).tail hnext⟩
      · rw [List.length_cons]
        omega

/-- To follow as many bounds as there are parameters is to follow them to the end. -/
theorem BoundsAcyclic.erases (h : d.BoundsAcyclic) (e : TypeExpr) : d.Erases e (d.erase e) :=
  erases_eraseWith e fun x _ =>
    erases_eraseVar_of_passed h _ x [] List.nodup_nil (by simp) (by simp) (by simp)

/-- Each form of an expression is erased in one way. -/
theorem Erases.unique (h : d.Erases e t) (h' : d.Erases e u) : t = u := by
  induction h generalizing u with
  | plain ht =>
    cases h' with
    | plain => rfl
    | empty ht' => exact absurd ht ht'
  | empty ht =>
    cases h' with
    | plain ht' => exact absurd ht' ht
    | empty => rfl
  | applied => cases h' with | applied => rfl
  | array _ ih => cases h' with | array h' => rw [ih h']
  | unbounded hb =>
    cases h' with
    | unbounded => rfl
    | bounded hb' => rw [hb] at hb'; cases hb'
  | bounded hb _ ih =>
    cases h' with
    | unbounded hb' => rw [hb] at hb'; cases hb'
    | bounded hb' h' =>
      rw [hb] at hb'
      cases hb'
      exact ih h'

/-- What is erased does not lead round in a circle. -/
theorem Erases.acc (h : d.Erases e t) {x : String} (hx : e.elementVar? = some x) :
    Acc (fun next name => d.LeadsTo name next) x := by
  induction h generalizing x with
  | plain | empty | applied => cases hx
  | array _ ih => exact ih hx
  | @unbounded name hb =>
    cases hx
    refine ⟨_, fun next hnext => ?_⟩
    rw [LeadsTo, hb] at hnext
    cases hnext
  | @bounded name bound t hb _ ih =>
    cases hx
    refine ⟨_, fun next hnext => ih ?_⟩
    rwa [LeadsTo, hb, Option.bind_some] at hnext

/-- Erasure ends for every expression just if no bound leads back to its parameter. -/
theorem boundsAcyclic_iff : d.BoundsAcyclic ↔ ∀ e, ∃ t, d.Erases e t := by
  constructor
  · exact fun h e => ⟨_, h.erases e⟩
  · intro h name hcycle
    obtain ⟨t, ht⟩ := h (.var name)
    have hacc := (ht.acc rfl).transGen
    have hback : TransGen (fun next name => d.LeadsTo name next) name name := transGen_swap.2 hcycle
    clear ht hcycle
    induction hacc with
    | intro name _ ih => exact ih name hback hback

/-- It is enough that the parameters can be ranked so that bounds lead downwards. -/
theorem boundsAcyclic_of_rank (rank : String → Nat)
    (h : ∀ p ∈ d.typeParameters, ∀ next ∈ (d.boundOf? p.name).bind (·.elementVar?),
      rank next < rank p.name) : d.BoundsAcyclic := by
  have hstep {name next : String} (hnext : d.LeadsTo name next) : rank next < rank name := by
    obtain ⟨bound, hb, _⟩ := Option.bind_eq_some_iff.1 hnext
    obtain ⟨p, hp, rfl⟩ := List.mem_map.1 (mem_names_of_boundOf? hb)
    exact h p hp next hnext
  have hpath {name next : String} (hp : TransGen d.LeadsTo name next) : rank next < rank name := by
    induction hp with
    | single hnext => exact hstep hnext
    | tail _ hnext ih => exact Nat.lt_trans (hstep hnext) ih
  exact fun name hcycle => Nat.lt_irrefl _ (hpath hcycle)

end Introspect.Description
