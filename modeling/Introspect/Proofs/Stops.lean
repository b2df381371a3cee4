import Introspect.Proofs.Congruence
import Introspect.Proofs.Sifting

/-! Where the scan for methods stops. Only the methods that are listed at each stop depend on more than the
links between types, so that schemas with the same links are scanned alike. -/
namespace Introspect

/-- A type whose methods are looked at, all of them or only the public ones. -/
structure Stop where
  publicOnly : Bool
  owner : TypeId
  route : List Link

namespace Schema

variable {s t : Schema}

def listing (s : Schema) (stop : Stop) : List (Found Method) :=
  s.ownMethods stop.publicOnly stop.owner stop.route

def interfaceStops (s : Schema) : (depth : Nat) → (route : List Link) → Link → List Stop
  | 0, _, _ => []
  | depth + 1, route, l =>
    match l.target with
    | none => []
    | some id =>
      ⟨true, id, route ++ [l]⟩ ::
        (s.describe id).interfaces.flatMap (s.interfaceStops depth (route ++ [l]))

def classStops (s : Schema) (step : TypeId × List Link) : List Stop :=
  ⟨false, step.1, step.2⟩ :: (s.describe step.1).interfaces.flatMap (s.interfaceStops s.size step.2)

def stops (s : Schema) (subject : TypeId) : List Stop :=
  ((s.lineage subject).takeWhile (·.1 ≠ .object)).flatMap s.classStops

private theorem interfaceVisits_eq (depth : Nat) (route : List Link) (l : Link) :
    s.interfaceVisits depth route l = (s.interfaceStops depth route l).flatMap s.listing := by
  induction depth generalizing route l with
  | zero => rfl
  | succ depth ih =>
    unfold interfaceVisits interfaceStops
    cases l.target with
    | none => rfl
    | some id =>
      dsimp only
      rw [List.flatMap_cons, List.flatMap_assoc]
      congr 2
      funext l'
      exact ih _ l'

/-- The methods met are those listed at the stops. -/
theorem visits_eq_flatMap (s : Schema) (subject : TypeId) :
    s.visits subject = (s.stops subject).flatMap s.listing := by
  unfold visits stops
  rw [List.flatMap_assoc]
  congr 1
  funext step
  unfold classVisits classStops
  rw [List.flatMap_cons, List.flatMap_assoc]
  congr 2
  funext l
  exact interfaceVisits_eq s.size step.2 l

private theorem supertype_of_interface {id next : TypeId} {l : Link}
    (hl : l ∈ (s.describe id).interfaces) (ht : l.target = some next) : s.Supertype id next :=
  supertype_iff.2 ⟨l, List.mem_append_right _ hl, ht⟩

private theorem interfaceStops_of_no_target {l : Link} (ht : l.target = none) (depth : Nat)
    (route : List Link) : s.interfaceStops depth route l = [] := by
  cases depth with
  | zero => rfl
  | succ depth => rw [interfaceStops, ht]

/-- More steps than the type has links above it lead to no other stops. -/
private theorem superStops_eq {n d e : Nat} {id : TypeId} (h : s.HeightAtMost n id) (hd : n ≤ d)
    (he : n ≤ e) (route : List Link) :
    (s.describe id).interfaces.flatMap (s.interfaceStops d route) =
      (s.describe id).interfaces.flatMap (s.interfaceStops e route) := by
  induction n generalizing d e id route with
  | zero =>
    refine List.flatMap_congr fun l hl => ?_
    have htarget : l.target = none := by
      by_contra hne
      obtain ⟨next, ht⟩ := Option.ne_none_iff_exists'.1 hne
      have hempty : s.supertypes id = [] := h
      have hsuper := supertype_of_interface hl ht
      simp [Supertype, hempty] at hsuper
    rw [interfaceStops_of_no_target htarget, interfaceStops_of_no_target htarget]
  | succ n ih =>
    refine List.flatMap_congr fun l hl => ?_
    cases ht : l.target with
    | none => rw [interfaceStops_of_no_target ht, interfaceStops_of_no_target ht]
    | some next =>
      obtain ⟨d, rfl⟩ := Nat.exists_eq_add_of_lt hd
      obtain ⟨e, rfl⟩ := Nat.exists_eq_add_of_lt he
      unfold interfaceStops
      rw [ht]
      exact congrArg _ (ih (h next (supertype_of_interface hl ht)) (by omega) (by omega) _)

/-- Methods of a kind that share their signatures with each other only are sifted by themselves. -/
theorem shownMethods_filter {subject : TypeId} {p : Method → Bool}
    (hs : ∀ f ∈ s.visits subject, ∀ g ∈ s.visits subject,
      s.signature f.member = s.signature g.member → p f.member = p g.member) :
    (s.shownMethods subject).filter (p ·.member) =
      ((s.visits subject).filter (p ·.member)).eraseDupsBy s.SameSignature := by
  rw [shownMethods_eq]
  exact eraseDupsBy_filter fun f hf g hg heq => hs g hg f hf (of_decide_eq_true heq)

namespace Congruent

variable (h : s.Congruent t)
include h

private theorem interfaceStops_eq (depth : Nat) : s.interfaceStops depth = t.interfaceStops depth := by
  induction depth with
  | zero => rfl
  | succ depth ih =>
    funext route l
    unfold interfaceStops
    cases l.target with
    | none => rfl
    | some id =>
      dsimp only
      rw [ih, h.interfaces]

theorem stops_eq : s.stops = t.stops := by
  have hclass : s.classStops = t.classStops := by
    funext step
    unfold classStops
    rw [← h.interfaces, ← h.interfaceStops_eq]
    congr 1
    rcases h.size_eq_or_heightAtMost with hsize | hheight
    · rw [hsize]
    · exact superStops_eq (hheight step.1) (Nat.min_le_left ..) (Nat.min_le_right ..) step.2
  funext subject
  unfold stops
  rw [h.lineage_eq, hclass]

theorem sameSignature_eq : s.SameSignature = t.SameSignature := by
  funext f g
  unfold SameSignature
  rw [h.signature_eq]

variable {subject : TypeId}

theorem visits_subset (hm : ∀ id, (s.describe id).methods ⊆ (t.describe id).methods) :
    s.visits subject ⊆ t.visits subject := by
  rw [visits_eq_flatMap, visits_eq_flatMap, h.stops_eq]
  intro f hf
  obtain ⟨stop, hstop, hf⟩ := List.mem_flatMap.1 hf
  obtain ⟨m, hmethod, rfl⟩ := List.mem_map.1 hf
  obtain ⟨hlisted, hvisible⟩ := List.mem_filter.1 hmethod
  exact List.mem_flatMap.2
    ⟨stop, hstop, List.mem_map.2 ⟨m, List.mem_filter.2 ⟨hm stop.owner hlisted, hvisible⟩, rfl⟩⟩

theorem shownMethods_congr (hm : ∀ id, (s.describe id).methods = (t.describe id).methods) :
    s.shownMethods = t.shownMethods := by
  have hlisting : s.listing = t.listing := by
    funext stop
    unfold listing ownMethods
    rw [hm]
  funext subject
  rw [shownMethods_eq, shownMethods_eq, visits_eq_flatMap, visits_eq_flatMap, h.stops_eq, hlisting,
    h.sameSignature_eq]

theorem shownFields_congr (hf : ∀ id, (s.describe id).fields = (t.describe id).fields) :
    s.shownFields = t.shownFields := by
  funext subject
  unfold shownFields
  simp only [h.lineage_eq, hf]

variable {p : Method → Bool}
  (hp : ∀ id, (s.describe id).methods.filter p = (t.describe id).methods.filter p)
include hp

/-- Where the types have the same methods of a kind, the same methods of that kind are met. -/
theorem visits_filter_eq :
    (s.visits subject).filter (p ·.member) = (t.visits subject).filter (p ·.member) := by
  rw [visits_eq_flatMap, visits_eq_flatMap, h.stops_eq, List.filter_flatMap, List.filter_flatMap]
  congr 1
  funext stop
  simp only [listing, ownMethods, List.filter_map]
  refine congrArg (List.map _) ?_
  exact (List.filter_comm ..).trans ((congrArg _ (hp stop.owner)).trans (List.filter_comm ..))

/-- And the same methods of that kind are shown, if no other methods share their signatures. -/
theorem shownMethods_filter_eq
    (hs : ∀ f ∈ s.visits subject, ∀ g ∈ s.visits subject,
      s.signature f.member = s.signature g.member → p f.member = p g.member)
    (ht : ∀ f ∈ t.visits subject, ∀ g ∈ t.visits subject,
      t.signature f.member = t.signature g.member → p f.member = p g.member) :
    (s.shownMethods subject).filter (p ·.member) = (t.shownMethods subject).filter (p ·.member) := by
  rw [shownMethods_filter hs, shownMethods_filter ht, h.visits_filter_eq hp, h.sameSignature_eq]

omit hp

theorem shownFields_filter_eq {q : Field → Bool}
    (hq : ∀ id, (s.describe id).fields.filter q = (t.describe id).fields.filter q) :
    (s.shownFields subject).filter (q ·.member) = (t.shownFields subject).filter (q ·.member) := by
  unfold shownFields
  rw [h.lineage_eq, List.filter_flatMap, List.filter_flatMap]
  congr 1
  funext step
  simp only [List.filter_map]
  exact congrArg (List.map _) (hq step.1)

end Congruent

end Schema
end Introspect
