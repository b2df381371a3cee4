import Introspect.Proofs.Lineage
import Introspect.Schema.Resolution

/-! Routes of links from a type to its supertypes. Where links do not run in circles, the route that is
found is the first one, superclasses before interfaces and interfaces in their order. -/
namespace Introspect.Schema

open Relation

variable {s : Schema} {a b c : TypeId} {route route' : List Link}

/-- A chain of links, each held by the target of the one before. -/
inductive Route (s : Schema) : TypeId → List Link → TypeId → Prop
  | here (id : TypeId) : Route s id [] id
  | step {id next top : TypeId} {l : Link} {route : List Link} (hl : l ∈ (s.describe id).links)
      (ht : l.target = some next) (h : Route s next route top) : Route s id (l :: route) top

/-- The first link that differs comes earlier in its type. -/
inductive Precedes (s : Schema) : TypeId → List Link → List Link → Prop
  | fork {id : TypeId} {l l' : Link} {route route' earlier later : List Link}
      (hlinks : (s.describe id).links = earlier ++ l :: later) (hl' : l' ∉ earlier) (hne : l' ≠ l) :
      Precedes s id (l :: route) (l' :: route')
  | follow {id next : TypeId} {l : Link} {route route' : List Link} (ht : l.target = some next)
      (h : Precedes s next route route') : Precedes s id (l :: route) (l :: route')

theorem supertype_iff {sub super : TypeId} :
    s.Supertype sub super ↔ ∃ l ∈ (s.describe sub).links, l.target = some super :=
  List.mem_filterMap

namespace Route

theorem append (h : s.Route a route b) (h' : s.Route b route' c) : s.Route a (route ++ route') c := by
  induction h with
  | here => exact h'
  | step hl ht _ ih => exact .step hl ht (ih h')

theorem reaches (h : s.Route a route b) : ReflTransGen s.Supertype a b := by
  induction h with
  | here => exact .refl
  | step hl ht _ ih => exact .head (supertype_iff.2 ⟨_, hl, ht⟩) ih

theorem of_outward (h : s.Outward a route b) : s.Route a route b := by
  induction h with
  | here => exact .here _
  | step hl ht _ ih => exact .step (by simp [Description.links, hl]) ht ih

end Route

theorem exists_route (h : ReflTransGen s.Supertype a b) : ∃ route, s.Route a route b := by
  induction h using ReflTransGen.head_induction_on with
  | refl => exact ⟨[], .here b⟩
  | head hs _ ih =>
    obtain ⟨route, hroute⟩ := ih
    obtain ⟨l, hl, ht⟩ := supertype_iff.1 hs
    exact ⟨l :: route, .step hl ht hroute⟩

theorem Acyclic.route_self (h : s.Acyclic) (hr : s.Route a route a) : route = [] := by
  cases hr with
  | here => rfl
  | step hl ht hr => exact absurd (.head' (supertype_iff.2 ⟨_, hl, ht⟩) hr.reaches) (h a)

/-- The first link from whose target a route is found, and that route. -/
def onward? (s : Schema) (find : TypeId → Option (List Link)) (source : TypeId) :
    Option (List Link) :=
  (s.describe source).links.findSome? fun l => l.target.bind fun next => (find next).map (l :: ·)

private theorem findSome?_congr {α β : Type} {f g : α → Option β} {l : List α}
    (h : ∀ a ∈ l, f a = g a) : l.findSome? f = l.findSome? g := by
  induction l with
  | nil => rfl
  | cons a rest ih =>
    rw [List.findSome?_cons, List.findSome?_cons, h a List.mem_cons_self,
      ih fun b hb => h b (List.mem_cons_of_mem a hb)]

/-- Only what is found from the supertypes matters. -/
theorem onward?_congr {find find' : TypeId → Option (List Link)} {source : TypeId}
    (h : ∀ super, s.Supertype source super → find super = find' super) :
    s.onward? find source = s.onward? find' source := by
  refine findSome?_congr fun l hl => ?_
  cases ht : l.target with
  | none => rfl
  | some next => simp only [Option.bind_some, h next (supertype_iff.2 ⟨l, hl, ht⟩)]

theorem onward?_eq_some {find : TypeId → Option (List Link)} {source : TypeId}
    (h : s.onward? find source = some route) :
    ∃ earlier l later next rest, (s.describe source).links = earlier ++ l :: later ∧
      l.target = some next ∧ find next = some rest ∧ route = l :: rest ∧
      ∀ l' ∈ earlier, ∀ super, l'.target = some super → find super = none := by
  obtain ⟨earlier, l, later, hlinks, hl, hearlier⟩ := List.findSome?_eq_some_iff.1 h
  obtain ⟨next, ht, hfound⟩ := Option.bind_eq_some_iff.1 hl
  obtain ⟨rest, hrest, rfl⟩ := Option.map_eq_some_iff.1 hfound
  refine ⟨earlier, l, later, next, rest, hlinks, ht, hrest, rfl, fun l' hl' super ht' => ?_⟩
  simpa [ht'] using hearlier l' hl'

theorem routeWithin_succ (target : TypeId) (depth : Nat) (source : TypeId) :
    s.routeWithin target (depth + 1) source =
      if source = target then some [] else s.onward? (s.routeWithin target depth) source := by
  unfold onward?
  rw [routeWithin]
  refine ite_congr rfl (fun _ => rfl) fun _ => ?_
  congr 1
  funext l
  cases l.target <;> rfl

/-- More steps than the type has links above it find nothing else. -/
theorem routeWithin_eq (target : TypeId) {n d e : Nat} {source : TypeId}
    (h : s.HeightAtMost n source) (hd : n ≤ d) (he : n ≤ e) :
    s.routeWithin target d source = s.routeWithin target e source := by
  induction n generalizing d e source with
  | zero =>
    have hempty : s.supertypes source = [] := h
    have htop (k : Nat) : s.routeWithin target k source = if source = target then some [] else none := by
      cases k with
      | zero => rfl
      | succ k =>
        have hnone : s.onward? (s.routeWithin target k) source = none := by
          by_contra hsome
          obtain ⟨route, hroute⟩ := Option.ne_none_iff_exists'.1 hsome
          obtain ⟨_, l, _, next, _, hlinks, ht, _⟩ := onward?_eq_some hroute
          have hs : s.Supertype source next := supertype_iff.2 ⟨l, by simp [hlinks], ht⟩
          simp [Supertype, hempty] at hs
        rw [routeWithin_succ, hnone]
    rw [htop, htop]
  | succ n ih =>
    obtain ⟨d, rfl⟩ := Nat.exists_eq_add_of_lt hd
    obtain ⟨e, rfl⟩ := Nat.exists_eq_add_of_lt he
    rw [routeWithin_succ, routeWithin_succ]
    congr 1
    exact onward?_congr fun super hs => ih (h super hs) (by omega) (by omega)

/-- The search, without a bound on its depth. -/
theorem Acyclic.route?_eq (h : s.Acyclic) (source target : TypeId) :
    s.route? source target =
      if source = target then some [] else s.onward? (s.route? · target) source := by
  have hmore : s.route? source target = s.routeWithin target (s.size + 1) source :=
    routeWithin_eq target (h.heightAtMost source) (Nat.le_refl _) (Nat.le_succ _)
  rw [hmore, routeWithin_succ]
  rfl

theorem route_of_route? (h : s.route? a b = some route) : s.Route a route b := by
  unfold route? at h
  generalize s.size = depth at h
  induction depth generalizing a route with
  | zero =>
    unfold routeWithin at h
    split_ifs at h with hab
    cases h
    exact hab ▸ .here a
  | succ depth ih =>
    rw [routeWithin_succ] at h
    split_ifs at h with hab
    · cases h
      exact hab ▸ .here a
    · obtain ⟨_, l, _, next, rest, hlinks, ht, hrest, rfl, _⟩ := onward?_eq_some h
      exact .step (by simp [hlinks]) ht (ih hrest)

namespace Acyclic

/-- Where there is a route, one is found. -/
theorem exists_route? (h : s.Acyclic) (hr : s.Route a route b) : ∃ first, s.route? a b = some first := by
  induction hr with
  | here id => exact ⟨[], by rw [h.route?_eq, if_pos rfl]⟩
  | @step id next top l route hl ht _ ih =>
    obtain ⟨rest, hrest⟩ := ih
    rw [h.route?_eq]
    split_ifs
    · exact ⟨[], rfl⟩
    · refine Option.isSome_iff_exists.1 (List.findSome?_isSome_iff.2 ⟨l, hl, ?_⟩)
      simp [ht, hrest]

theorem exists_route?_of_reaches (h : s.Acyclic) (hreach : ReflTransGen s.Supertype a b) :
    ∃ first, s.route? a b = some first := by
  obtain ⟨_, hr⟩ := exists_route hreach
  exact h.exists_route? hr

/-- The route that is found precedes all others. -/
theorem route?_first (h : s.Acyclic) {first : List Link} (hfirst : s.route? a b = some first)
    (hr : s.Route a route b) : first = route ∨ s.Precedes a first route := by
  induction hr generalizing first with
  | here id =>
    rw [h.route?_eq, if_pos rfl, Option.some.injEq] at hfirst
    exact Or.inl hfirst.symm
  | @step id next top l route hl ht hr ih =>
    have hne : id ≠ top := by
      rintro rfl
      exact absurd (h.route_self (.step hl ht hr)) (List.cons_ne_nil l route)
    rw [h.route?_eq, if_neg hne] at hfirst
    obtain ⟨earlier, l₀, later, next₀, rest, hlinks, ht₀, hrest, rfl, hearlier⟩ :=
      onward?_eq_some hfirst
    -- The route itself goes on from its first link, so the search came to no later one.
    have hl' : l ∉ earlier := by
      intro hm
      obtain ⟨rest', hrest'⟩ := h.exists_route? hr
      simp [hearlier l hm next ht] at hrest'
    by_cases hsame : l = l₀
    · subst hsame
      rw [ht] at ht₀
      cases ht₀
      rcases ih hrest with rfl | hprecedes
      · exact Or.inl rfl
      · exact Or.inr (.follow ht hprecedes)
    · exact Or.inr (.fork hlinks hl' hsame)

end Acyclic

/-- Of two routes at most one precedes the other. -/
theorem Precedes.asymm (h : s.Precedes a route route') : ¬ s.Precedes a route' route := by
  induction h with
  | @fork id l l' _ _ earlier later hlinks hl' hne =>
    intro h'
    cases h' with
    | @fork _ _ _ _ _ earlier' later' hlinks' hl _ =>
      rw [hlinks'] at hlinks
      -- One of the two links is the first to be met, and so stands before the other.
      obtain ⟨between, hfront, hrest⟩ | ⟨between, hfront, hrest⟩ :=
        List.append_eq_append_iff.1 hlinks
      · cases between with
        | nil => exact hne (List.cons.inj hrest).1
        | cons m _ => exact hl' (by simp [hfront, (List.cons.inj hrest).1])
      · cases between with
        | nil => exact hne (List.cons.inj hrest).1.symm
        | cons m _ => exact hl (by simp [hfront, (List.cons.inj hrest).1])
    | follow => exact hne rfl
  | follow ht _ ih =>
    intro h'
    cases h' with
    | fork _ _ hne => exact hne rfl
    | follow ht' h' =>
      rw [ht] at ht'
      cases ht'
      exact ih h'

/-- The route that comes before all others. -/
def First (s : Schema) (source : TypeId) (route : List Link) (target : TypeId) : Prop :=
  s.Route source route target ∧
    ∀ other, s.Route source other target → route = other ∨ s.Precedes source route other

theorem First.unique (h : s.First a route b) (h' : s.First a route' b) : route = route' := by
  rcases h.2 route' h'.1 with heq | hprecedes
  · exact heq
  · exact (h'.2 route h.1).elim Eq.symm fun hp => absurd hp hprecedes.asymm

/-- The search finds the first route. -/
theorem Acyclic.route?_eq_some_iff (h : s.Acyclic) : s.route? a b = some route ↔ s.First a route b := by
  have hfound {first : List Link} (hfirst : s.route? a b = some first) : s.First a first b :=
    ⟨route_of_route? hfirst, fun _ hr => h.route?_first hfirst hr⟩
  refine ⟨hfound, fun hroute => ?_⟩
  obtain ⟨first, hfirst⟩ := h.exists_route? hroute.1
  rw [hfirst, (hfound hfirst).unique hroute]

/-- Nothing precedes a route of superclass links. -/
theorem not_precedes_of_outward (h : s.Outward a route b) : ¬ s.Precedes a route' route := by
  induction h generalizing route' with
  | here => exact fun hp => nomatch hp
  | @step id super top l route hl ht _ ih =>
    intro hp
    cases hp with
    | @fork _ l' _ _ _ earlier later hlinks hl' hne =>
      simp only [Description.links, hl, Option.toList_some, List.singleton_append] at hlinks
      cases earlier with
      | nil =>
        rw [List.nil_append, List.cons.injEq] at hlinks
        exact hne hlinks.1
      | cons l₀ earlier =>
        rw [List.cons_append, List.cons.injEq] at hlinks
        exact hl' (hlinks.1 ▸ List.mem_cons_self)
    | follow ht' hp =>
      rw [ht] at ht'
      cases ht'
      exact ih hp

theorem Acyclic.first_of_outward (h : s.Acyclic) (hout : s.Outward a route b) : s.First a route b := by
  have hroute := Route.of_outward hout
  obtain ⟨first, hfirst⟩ := h.exists_route? hroute
  rcases h.route?_first hfirst hroute with rfl | hprecedes
  · exact h.route?_eq_some_iff.1 hfirst
  · exact absurd hprecedes (not_precedes_of_outward hout)

end Introspect.Schema
