import Introspect.Proofs.Reachability
import Introspect.Proofs.Runs
import Introspect.Proofs.Substitution
import Mathlib.Data.List.Pairwise

/-! A declared type can be carried to a subtype in one go or in two. Where at most one route of links
leads from one type to another, both give the same. -/
namespace Introspect.Schema

variable {s : Schema}

/-- No type leads to another along two routes. -/
def SingleRouted (s : Schema) : Prop :=
  ∀ a b route route', a ≠ b → s.Route a route b → s.Route a route' b → route = route'

/-- A type sees what it declares itself as it is. -/
theorem resolve_self (s : Schema) (e : TypeExpr) (id : TypeId) : s.resolve e id id = e := by
  have hroute : s.route? id id = some [] := by
    unfold route?
    cases s.size <;> simp [routeWithin]
  exact resolve_eq_of_route? hroute e

/-- What a type in the middle sees, seen from the subtype, is what the subtype sees. -/
theorem resolve_resolve (s : Schema) (hacyclic : s.Acyclic) (hsingle : s.SingleRouted)
    {declaring middle subject : TypeId} (hsubject : s.reaches subject middle)
    (hmiddle : s.reaches middle declaring) (e : TypeExpr) :
    s.resolve e declaring subject = s.resolve (s.resolve e declaring middle) middle subject ∧
      s.resolve e declaring declaring = e := by
  refine ⟨?_, s.resolve_self e declaring⟩
  obtain ⟨lower, hlower?⟩ := hacyclic.exists_route?_of_reaches (reaches_iff.1 hsubject)
  obtain ⟨upper, hupper?⟩ := hacyclic.exists_route?_of_reaches (reaches_iff.1 hmiddle)
  have hboth := (route_of_route? hlower?).append (route_of_route? hupper?)
  obtain ⟨whole, hwhole?⟩ := hacyclic.exists_route? hboth
  have hwhole : whole = lower ++ upper := by
    by_cases hsame : subject = declaring
    · subst hsame
      rw [hacyclic.route_self hboth, hacyclic.route_self (route_of_route? hwhole?)]
    · exact hsingle _ _ _ _ hsame (route_of_route? hwhole?) hboth
  calc
    s.resolve e declaring subject
      = s.substituteAlong lower (s.substituteAlong upper e) := by
        rw [resolve_eq_of_route? hwhole?, hwhole, substituteAlong_append]
    _ = s.resolve (s.resolve e declaring middle) middle subject := by
        rw [resolve_eq_of_route? hlower?, resolve_eq_of_route? hupper?]

/-- All types that a link leads to. -/
def beyond (s : Schema) (l : Link) : List TypeId := l.target.toList.flatMap s.ancestors

theorem mem_beyond {l : Link} {next top : TypeId} {route : List Link} (ht : l.target = some next)
    (hr : s.Route next route top) : top ∈ s.beyond l := by
  have hreach := reaches_iff.2 hr.reaches
  rw [reaches, decide_eq_true_eq] at hreach
  simpa [beyond, ht] using hreach

/-- It is enough that no two links of a type lead to one type. -/
theorem singleRouted_of_disjoint (hacyclic : s.Acyclic)
    (h : ∀ id ∈ s.types.keys, (s.describe id).links.Pairwise fun l l' =>
      ∀ top ∈ s.beyond l, top ∉ s.beyond l') : s.SingleRouted := by
  have hdisjoint (id : TypeId) {l l' : Link} (hl : l ∈ (s.describe id).links)
      (hl' : l' ∈ (s.describe id).links) (hne : l ≠ l') (top : TypeId) :
      top ∈ s.beyond l → top ∉ s.beyond l' := by
    have hpairwise : (s.describe id).links.Pairwise fun l l' =>
        ∀ top ∈ s.beyond l, top ∉ s.beyond l' :=
      describe_of_listed (P := fun d => d.links.Pairwise _) (fun _ _ => .nil) h id
    have : Std.Symm fun l l' : Link => ∀ top ∈ s.beyond l, top ∉ s.beyond l' :=
      ⟨fun _ _ hd top ht ht' => hd top ht' ht⟩
    exact hpairwise.forall hl hl' hne top
  rintro a b route route' - hr hr'
  induction hr generalizing route' with
  | here id => exact (hacyclic.route_self hr').symm
  | @step id next top l route hl ht hr ih =>
    cases hr' with
    | here => exact hacyclic.route_self (.step hl ht hr)
    | @step _ next' _ l' route' hl' ht' hr' =>
      by_cases hsame : l = l'
      · subst hsame
        rw [ht] at ht'
        cases ht'
        rw [ih route' hr']
      · exact absurd (mem_beyond ht' hr') (hdisjoint id hl hl' hsame top (mem_beyond ht hr))

/-- An array is handed on to one of two parameters, and below it a list to the only one. -/
def forwarding : List Operation := [
  .reopen storeClass {} "Store",
  .declare storeClass (.typeParameter { name := "K" }),
  .declare storeClass (.typeParameter { name := "V", bound := .plain (.of (.builtIn .string)) }),
  .reopen baseClass {} "Base",
  .declare baseClass (.typeParameter { name := "T" }),
  .declare baseClass (.interface { base := some storeClass, args := [.array (.var "T")] }),
  .reopen derivedClass {} "Derived",
  .declare derivedClass (.typeParameter { name := "E" }),
  .declare derivedClass (.interface { base := some (.builtIn .list) }),
  .declare derivedClass (.superclass
    { base := some baseClass, args := [.applied (.of (.builtIn .list)) [.var "E"]] })]

def forwarded : Schema := run forwarding

theorem forwarded_acyclic : forwarded.Acyclic := acyclic_of_rank classRank (by decide)

/-- Of the parameters the first is handed on, the second is left with its bound, and a variable of no
one's stands for the parameter of that name further down. -/
theorem resolve_resolve_forwarded :
    forwarded.Acyclic ∧ forwarded.SingleRouted ∧
      forwarded.resolve
          (forwarded.resolve (.applied (.of (.builtIn .list)) [.var "K", .var "V", .var "T"])
            storeClass baseClass) baseClass derivedClass =
        .applied (.of (.builtIn .list))
          [.array (.applied (.of (.builtIn .list)) [.var "E"]), .plain (.of (.builtIn .string)),
            .applied (.of (.builtIn .list)) [.var "E"]] := by
  have hsingle := singleRouted_of_disjoint forwarded_acyclic (by decide)
  have hlower : forwarded.reaches derivedClass baseClass := by decide
  have hupper : forwarded.reaches baseClass storeClass := by decide
  have hboth := (resolve_resolve forwarded forwarded_acyclic hsingle hlower hupper
    (.applied (.of (.builtIn .list)) [.var "K", .var "V", .var "T"])).1
  exact ⟨forwarded_acyclic, hsingle, hboth.symm.trans rfl⟩

end Introspect.Schema
