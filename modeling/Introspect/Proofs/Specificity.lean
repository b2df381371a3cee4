import Introspect.Proofs.Reachability
import Introspect.Proofs.Traversal

/-! How specific the methods shown are. Of one signature the method that is met first is shown, and no
method of a subtype, unless an interface is met before that subtype on another way. -/
namespace Introspect.Schema

open Relation

variable {s : Schema} {id subject : TypeId} {place place' beyond : List Nat} {f g : Found Method}

/-- Two ways part at one type, and the first goes on through a link that is met earlier. -/
def Branches (place place' : List Nat) : Prop :=
  ∃ common n n' beyond beyond', place = common ++ n :: beyond ∧ place' = common ++ n' :: beyond' ∧ n < n'

/-- Of two places in order, one lies beyond the other or the ways to them part. -/
theorem NotAfter.beyond_or_branches (h : NotAfter place place') :
    (∃ beyond, place' = place ++ beyond) ∨ Branches place place' := by
  induction place generalizing place' with
  | nil => exact Or.inl ⟨place', rfl⟩
  | cons n rest ih =>
    cases place' with
    | nil => exact h.elim
    | cons n' rest' =>
      rcases h with hlt | ⟨rfl, h⟩
      · exact Or.inr ⟨[], n, n', rest, rest', rfl, rfl, hlt⟩
      · rcases ih h with ⟨beyond, rfl⟩ | ⟨common, m, m', beyond, beyond', rfl, rfl, hlt⟩
        · exact Or.inl ⟨beyond, rfl⟩
        · exact Or.inr ⟨n :: common, m, m', beyond, beyond', rfl, rfl, hlt⟩

theorem Offers.reaches {links : List Link} (h : s.Offers links place f)
    (hlinks : ∀ l ∈ links, l ∈ (s.describe id).links) : ReflTransGen s.Supertype id f.owner := by
  induction h generalizing id with
  | own hl ht hf =>
    rw [Found.owner_through, owner_of_mem_interfaceMethods hf]
    exact .single (supertype_iff.2 ⟨_, hlinks _ (List.mem_of_getElem? hl), ht⟩)
  | super hl ht _ ih =>
    exact .head (supertype_iff.2 ⟨_, hlinks _ (List.mem_of_getElem? hl), ht⟩)
      (ih fun _ => List.mem_append_right _)

theorem Offers.reaches_beyond {links : List Link} (h : s.Offers links place f)
    (h' : s.Offers links (place ++ beyond) g) : ReflTransGen s.Supertype f.owner g.owner := by
  induction h generalizing g with
  | own hl ht hf =>
    rw [Found.owner_through, owner_of_mem_interfaceMethods hf]
    cases h' with
    | own hl' ht' hg =>
      cases hl.symm.trans hl'
      cases ht.symm.trans ht'
      rw [Found.owner_through, owner_of_mem_interfaceMethods hg]
    | super hl' ht' hg =>
      cases hl.symm.trans hl'
      cases ht.symm.trans ht'
      exact hg.reaches fun _ => List.mem_append_right _
  | super hl ht hf ih =>
    obtain ⟨_, _, rfl⟩ := List.exists_cons_of_ne_nil (ne_nil_of_offers hf)
    cases h' with
    | super hl' ht' hg =>
      cases hl.symm.trans hl'
      cases ht.symm.trans ht'
      rw [Found.owner_through, Found.owner_through]
      exact ih hg

namespace Eligible

theorem reaches (h : s.Eligible id place f) : ReflTransGen s.Supertype id f.owner := by
  induction h with
  | own _ hf => rw [owner_of_mem_classMethods hf]
  | interface _ h => exact h.reaches fun _ => List.mem_append_right _
  | superclass _ hs _ ih =>
    obtain ⟨hl, ht⟩ := superclass?_eq_some_iff.1 hs
    exact .head (supertype_of_superclass hl ht) ih

/-- A class leads to all that is met from it, and to all that is met from its superclasses. -/
theorem reaches_above {n n' : Nat} (h : s.Eligible id [n] f) (h' : s.Eligible id (n' :: beyond) g)
    (hn : n ≤ n') : ReflTransGen s.Supertype f.owner g.owner := by
  induction n generalizing id n' f g with
  | zero =>
    cases h with
    | own _ hf =>
      rw [owner_of_mem_classMethods hf]
      exact h'.reaches
    | interface _ h => exact absurd h not_offers_nil
  | succ n ih =>
    cases h with
    | superclass _ hs h =>
      cases h' with
      | own | interface => exact absurd hn (Nat.not_succ_le_zero n)
      | superclass _ hs' h' =>
        cases hs.symm.trans hs'
        rw [Found.owner_through, Found.owner_through]
        exact ih h h' (Nat.le_of_succ_le_succ hn)

/-- A type leads to all that is met beyond it. -/
theorem reaches_beyond (h : s.Eligible id place f) (h' : s.Eligible id (place ++ beyond) g) :
    ReflTransGen s.Supertype f.owner g.owner := by
  induction h generalizing g with
  | own _ hf =>
    rw [owner_of_mem_classMethods hf]
    exact h'.reaches
  | interface _ h =>
    obtain ⟨_, _, rfl⟩ := List.exists_cons_of_ne_nil (ne_nil_of_offers h)
    cases h' with
    | interface _ h' => exact h.reaches_beyond h'
  | superclass _ hs _ ih =>
    cases h' with
    | superclass _ hs' h' =>
      cases hs.symm.trans hs'
      rw [Found.owner_through, Found.owner_through]
      exact ih h'

end Eligible

/-- Of all eligible methods of its signature, the one shown is met first. No other is that of a proper subtype,
unless the one shown is met at an interface, and the subtype only behind it on a way that parts from the way
there: at a class further up, or through a later interface link. -/
theorem shown_most_specific (h : s.Acyclic) (hf : f ∈ s.shownMethods subject) :
    ∃ place, s.Eligible subject place f ∧ ∀ place' g, s.Eligible subject place' g →
      s.signature g.member = s.signature f.member → NotAfter place place' ∧
        (TransGen s.Supertype g.owner f.owner → 1 < place.length ∧ Branches place place') := by
  rw [shownMethods_eq] at hf
  obtain ⟨place, hplace, hfirst⟩ :=
    (h.walk_visits subject).inOrder.first (fun f => s.signature f.member) hf
  refine ⟨place, hplace, fun place' g hg hsame => ?_⟩
  have hle := hfirst place' g hg hsame
  refine ⟨hle, fun hsub => ⟨?_, ?_⟩⟩
  · by_contra hshort
    match place, place', hplace, hg, hle with
    | [], _, hplace, _, _ => exact not_eligible_nil hplace
    | [n], [], _, hg, _ => exact not_eligible_nil hg
    | [n], n' :: beyond, hplace, hg, hle =>
      have hn : n ≤ n' := hle.elim Nat.le_of_lt fun heq => Nat.le_of_eq heq.1
      exact h g.owner (hsub.trans_left (hplace.reaches_above hg hn))
    | _ :: _ :: _, _, _, _, _ => simp at hshort
  · rcases hle.beyond_or_branches with ⟨beyond, rfl⟩ | hbranches
    · exact absurd (hsub.trans_left (hplace.reaches_beyond hg)) (h g.owner)
    · exact hbranches

private theorem shown_of_diamond (name : String) (h : name ∈ ["string#getKey", "string#getName"]) :
    ∃ f ∈ (run diamond).shownMethods derivedClass,
      f.owner = storeClass ∧ (run diamond).signature f.member = name := by
  have hshown : ((run diamond).shownMethods derivedClass).map
      (fun f => (f.owner, (run diamond).signature f.member)) =
        [(storeClass, "string#getKey"), (storeClass, "string#getName")] := by decide +kernel
  have hmem : (storeClass, name) ∈ [(storeClass, "string#getKey"), (storeClass, "string#getName")] := by
    simpa using h
  obtain ⟨f, hf, heq⟩ := List.mem_map.1 (hshown.symm ▸ hmem)
  exact ⟨f, hf, congrArg Prod.fst heq, congrArg Prod.snd heq⟩

private theorem eligible_at_base :
    ∃ g, (run diamond).Eligible derivedClass [1] g ∧
      (run diamond).signature g.member = "string#getKey" ∧ g.owner = baseClass := by
  have hlisted : "string#getKey" ∈ ((run diamond).classMethods baseClass).map
      fun g => (run diamond).signature g.member := by decide +kernel
  obtain ⟨g, hg, hsig⟩ := List.mem_map.1 hlisted
  have hsuper : ((run diamond).superclass? derivedClass).map Prod.snd = some baseClass := by decide +kernel
  obtain ⟨⟨_, _⟩, hs, rfl⟩ := Option.map_eq_some_iff.1 hsuper
  have hplace : (run diamond).Eligible baseClass [0] g := .own (by decide) hg
  have howner := owner_of_mem_classMethods hg
  exact ⟨_, .superclass (by decide) hs hplace, hsig, howner⟩

private theorem eligible_at_ledger :
    ∃ g, (run diamond).Eligible derivedClass [0, 2] g ∧
      (run diamond).signature g.member = "string#getName" ∧ g.owner = ledgerClass := by
  have hlisted : "string#getName" ∈ ((run diamond).interfaceMethods ledgerClass).map
      fun g => (run diamond).signature g.member := by decide +kernel
  obtain ⟨g, hg, hsig⟩ := List.mem_map.1 hlisted
  have hlink : ((run diamond).describe derivedClass).interfaces[2]?.map Link.target =
      some (some ledgerClass) := by decide +kernel
  obtain ⟨_, hl, ht⟩ := Option.map_eq_some_iff.1 hlink
  have howner := owner_of_mem_interfaceMethods hg
  exact ⟨_, .interface (by decide) (.own hl ht hg), hsig, howner⟩

private theorem supertype_of_diamond {id : TypeId} (h : id ∈ [baseClass, ledgerClass]) :
    (run diamond).Supertype id storeClass := by
  have hall : ∀ id ∈ [baseClass, ledgerClass], storeClass ∈ (run diamond).supertypes id := by decide +kernel
  exact hall id h

/-- Interfaces come before the superclass, and the interface listed first comes before another one that extends
it. So what it declares is shown, and not what its subtypes declare. -/
theorem interface_shown_before_subtypes :
    let s := run diamond
    s.Acyclic ∧
      (∃ f ∈ s.shownMethods derivedClass, ∃ g, s.Eligible derivedClass [1] g ∧
        s.signature g.member = s.signature f.member ∧ TransGen s.Supertype g.owner f.owner) ∧
      ∃ f ∈ s.shownMethods derivedClass, ∃ g, s.Eligible derivedClass [0, 2] g ∧
        s.signature g.member = s.signature f.member ∧ TransGen s.Supertype g.owner f.owner := by
  intro s
  obtain ⟨key, hkey, hkeyOwner, hkeySig⟩ := shown_of_diamond "string#getKey" (by decide)
  obtain ⟨name, hname, hnameOwner, hnameSig⟩ := shown_of_diamond "string#getName" (by decide)
  obtain ⟨g, hg, hgSig, hgOwner⟩ := eligible_at_base
  obtain ⟨g', hg', hgSig', hgOwner'⟩ := eligible_at_ledger
  refine ⟨diamond_acyclic, ⟨key, hkey, g, hg, hgSig.trans hkeySig.symm, ?_⟩,
    name, hname, g', hg', hgSig'.trans hnameSig.symm, ?_⟩
  · exact .single (hgOwner ▸ hkeyOwner ▸ supertype_of_diamond (by decide))
  · exact .single (hgOwner' ▸ hnameOwner ▸ supertype_of_diamond (by decide))

/-- The way to the superclass parts from the way to the interface at the class itself. -/
theorem shown_most_specific_diamond :
    let s := run diamond
    s.Acyclic ∧ ∃ f ∈ s.shownMethods derivedClass, ∃ g, s.Eligible derivedClass [1] g ∧
      s.signature g.member = s.signature f.member ∧ TransGen s.Supertype g.owner f.owner ∧
        ∃ place, s.Eligible derivedClass place f ∧ NotAfter place [1] ∧ 1 < place.length ∧
          Branches place [1] := by
  intro s
  obtain ⟨f, hf, howner, hsig⟩ := shown_of_diamond "string#getKey" (by decide)
  obtain ⟨g, hg, hsig', howner'⟩ := eligible_at_base
  have hsame := hsig'.trans hsig.symm
  have hsub : TransGen s.Supertype g.owner f.owner :=
    .single (howner' ▸ howner ▸ supertype_of_diamond (by decide))
  obtain ⟨place, hplace, hall⟩ := shown_most_specific diamond_acyclic hf
  obtain ⟨hle, hbehind⟩ := hall [1] g hg hsame
  obtain ⟨hlong, hbranches⟩ := hbehind hsub
  exact ⟨diamond_acyclic, f, hf, g, hg, hsame, hsub, place, hplace, hle, hlong, hbranches⟩

end Introspect.Schema
