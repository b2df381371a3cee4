import Introspect.Proofs.Visits
import Mathlib.Data.List.Nodup

/-! The methods that a type shows: of the methods it meets, the first of each signature. -/
namespace Introspect

section EraseDups

variable {α β : Type} {r : α → α → Bool}

/-- What is left of a list is its head, and what is left of all the rest that does not repeat the head. -/
private theorem eraseDupsBy_induction (r : α → α → Bool) {P : List α → Prop} (nil : P [])
    (cons : ∀ a l, P (l.filter fun b => r b a = false) → P (a :: l)) : (l : List α) → P l
  | [] => nil
  | a :: l => cons a l (eraseDupsBy_induction r nil cons _)
termination_by l => l.length
decreasing_by exact Nat.lt_succ_of_le (List.length_filter_le ..)

private theorem mem_of_mem_eraseDupsBy {l : List α} {a : α} (h : a ∈ l.eraseDupsBy r) : a ∈ l := by
  induction l using eraseDupsBy_induction r with
  | nil => simp at h
  | cons b l ih =>
    rw [List.eraseDupsBy_cons] at h
    rcases List.mem_cons.1 h with rfl | h
    · exact List.mem_cons_self
    · exact List.mem_cons_of_mem b (List.mem_filter.1 (ih h)).1

private theorem pairwise_eraseDupsBy (l : List α) :
    (l.eraseDupsBy r).Pairwise fun a b => r b a = false := by
  induction l using eraseDupsBy_induction r with
  | nil => simp
  | cons a l ih =>
    rw [List.eraseDupsBy_cons, List.pairwise_cons]
    refine ⟨fun b hb => ?_, ih⟩
    exact of_decide_eq_true (List.mem_filter.1 (mem_of_mem_eraseDupsBy hb)).2

private theorem exists_mem_eraseDupsBy (hrefl : ∀ a, r a a) {l : List α} {a : α} (h : a ∈ l) :
    ∃ b ∈ l.eraseDupsBy r, r a b := by
  induction l using eraseDupsBy_induction r with
  | nil => simp at h
  | cons b l ih =>
    rw [List.eraseDupsBy_cons]
    rcases List.mem_cons.1 h with rfl | h
    · exact ⟨a, List.mem_cons_self, hrefl a⟩
    · cases hr : r a b with
      | true => exact ⟨b, List.mem_cons_self, hr⟩
      | false =>
        obtain ⟨c, hc, hac⟩ := ih (List.mem_filter.2 ⟨h, decide_eq_true hr⟩)
        exact ⟨c, List.mem_cons_of_mem b hc, hac⟩

/-- An entry is kept where no entry before it has its key. -/
theorem exists_first_of_mem_eraseDupsBy {κ : Type} [DecidableEq κ] {key : α → κ} {l : List α} {a : α}
    (h : a ∈ l.eraseDupsBy fun b c => key b = key c) :
    ∃ before after, l = before ++ a :: after ∧ ∀ b ∈ before, key b ≠ key a := by
  induction l using eraseDupsBy_induction fun b c => key b = key c with
  | nil => simp at h
  | cons b l ih =>
    rw [List.eraseDupsBy_cons] at h
    rcases List.mem_cons.1 h with rfl | h
    · exact ⟨[], l, rfl, nofun⟩
    · obtain ⟨before, after, hl, hbefore⟩ := ih h
      -- What the filter takes out between the entries that it leaves has the key of `b`.
      obtain ⟨l₁, l₂, rfl, rfl, hl₂⟩ := List.filter_eq_append_iff.1 hl
      obtain ⟨l₃, l₄, rfl, hl₃, ha, -⟩ := List.filter_eq_cons_iff.1 hl₂
      have hab : key a ≠ key b := by simpa using ha
      refine ⟨b :: (l₁ ++ l₃), l₄, by simp, List.forall_mem_cons.2 ⟨hab.symm, fun c hc => ?_⟩⟩
      by_cases hcb : key c = key b
      · exact fun hca => hab (hca.symm.trans hcb)
      · rcases List.mem_append.1 hc with hc | hc
        · exact hbefore c (List.mem_filter.2 ⟨hc, by simpa using hcb⟩)
        · exact absurd (by simpa using hl₃ c hc) hcb

theorem eraseDupsBy_map {f : β → α} {r' : β → β → Bool} (hr : ∀ a b, r (f a) (f b) = r' a b)
    (l : List β) : (l.map f).eraseDupsBy r = (l.eraseDupsBy r').map f := by
  induction l using eraseDupsBy_induction r' with
  | nil => simp
  | cons b l ih =>
    have hfilter : (l.map f).filter (fun a => r a (f b) = false) =
        (l.filter fun a => r' a b = false).map f := by
      simp only [List.filter_map, Function.comp_def, hr]
    rw [List.map_cons, List.eraseDupsBy_cons, List.eraseDupsBy_cons, hfilter, ih, List.map_cons]

/-- Where nothing is repeated, all is kept. -/
theorem eraseDupsBy_of_pairwise {l : List α} (h : l.Pairwise fun a b => r b a = false) :
    l.eraseDupsBy r = l := by
  induction l with
  | nil => simp
  | cons a l ih =>
    obtain ⟨ha, hl⟩ := List.pairwise_cons.1 h
    have hnew : l.filter (fun b => r b a = false) = l :=
      List.filter_eq_self.2 fun b hb => decide_eq_true (ha b hb)
    rw [List.eraseDupsBy_cons, hnew, ih hl]

theorem eraseDupsBy_eraseDupsBy (l : List α) : (l.eraseDupsBy r).eraseDupsBy r = l.eraseDupsBy r :=
  eraseDupsBy_of_pairwise (pairwise_eraseDupsBy l)

/-- What is kept of a part of the list is that part of what is kept, if nothing outside repeats what is
in it. -/
theorem eraseDupsBy_filter {p : α → Bool} {l : List α}
    (hp : ∀ a ∈ l, ∀ b ∈ l, r b a → p b = p a) :
    (l.eraseDupsBy r).filter p = (l.filter p).eraseDupsBy r := by
  induction l using eraseDupsBy_induction r with
  | nil => simp
  | cons a l ih =>
    have hrest := ih fun b hb c hc =>
      hp b (List.mem_cons_of_mem a (List.mem_filter.1 hb).1) c
        (List.mem_cons_of_mem a (List.mem_filter.1 hc).1)
    rw [List.eraseDupsBy_cons]
    by_cases ha : p a
    · rw [List.filter_cons_of_pos ha, List.filter_cons_of_pos ha, List.eraseDupsBy_cons, hrest,
        List.filter_comm]
    · have hnew : (l.filter fun b => r b a = false).filter p = l.filter p := by
        rw [List.filter_filter]
        refine List.filter_congr fun b hb => ?_
        have hrepeats := hp a List.mem_cons_self b (List.mem_cons_of_mem a hb)
        cases hr : r b a <;> simp_all
      rw [List.filter_cons_of_neg ha, List.filter_cons_of_neg ha, hrest, hnew]

end EraseDups

namespace Schema

variable {s : Schema} {subject : TypeId}

def SameSignature (s : Schema) (f g : Found Method) : Bool :=
  s.signature f.member = s.signature g.member

private theorem siftInterface_eq (depth : Nat) (route : List Link) (sieve : Sieve) (l : Link) :
    s.siftInterface depth route sieve l =
      (s.interfaceVisits depth route l).foldl (Sieve.add s.signature) sieve := by
  induction depth generalizing route sieve l with
  | zero => rfl
  | succ depth ih =>
    unfold siftInterface interfaceVisits
    cases l.target with
    | none => rfl
    | some id =>
      dsimp only
      rw [List.foldl_append, List.foldl_flatMap]
      congr 1
      funext sieve l
      exact ih _ sieve l

private theorem siftClass_eq (sieve : Sieve) (step : TypeId × List Link) :
    s.siftClass sieve step = (s.classVisits step).foldl (Sieve.add s.signature) sieve := by
  unfold siftClass classVisits
  rw [List.foldl_append, List.foldl_flatMap]
  congr 1
  funext sieve l
  exact siftInterface_eq _ _ sieve l

/-- Of what is new to the sieve, the first of each signature is kept. -/
private theorem kept_foldl_add (found : List (Found Method)) (sieve : Sieve) :
    (found.foldl (Sieve.add s.signature) sieve).kept =
      sieve.kept ++ (found.filter (s.signature ·.member ∉ sieve.seen)).eraseDupsBy s.SameSignature := by
  induction found generalizing sieve with
  | nil => simp
  | cons f rest ih =>
    rw [List.foldl_cons, ih, List.filter_cons]
    by_cases hseen : s.signature f.member ∈ sieve.seen
    · simp [Sieve.add, hseen]
    · have hadd : sieve.add s.signature f =
          { seen := s.signature f.member :: sieve.seen, kept := sieve.kept ++ [f] } := if_neg hseen
      have hfilter : rest.filter (s.signature ·.member ∉ s.signature f.member :: sieve.seen) =
          (rest.filter (s.signature ·.member ∉ sieve.seen)).filter
            fun g => s.SameSignature g f = false := by
        rw [List.filter_filter]
        refine List.filter_congr fun g _ => ?_
        simp [SameSignature]
      rw [hadd, if_pos (by simpa using hseen), List.eraseDupsBy_cons, hfilter]
      simp

/-- Of the methods met, the first of each signature is shown. -/
theorem shownMethods_eq (s : Schema) (subject : TypeId) :
    s.shownMethods subject = (s.visits subject).eraseDupsBy s.SameSignature := by
  have hsift : s.siftClass = fun sieve step =>
      (s.classVisits step).foldl (Sieve.add s.signature) sieve := by
    funext sieve step
    exact siftClass_eq sieve step
  unfold shownMethods visits
  rw [hsift, ← List.foldl_flatMap, kept_foldl_add]
  simp

theorem mem_visits_of_shown {f : Found Method} (h : f ∈ s.shownMethods subject) :
    f ∈ s.visits subject :=
  mem_of_mem_eraseDupsBy (s.shownMethods_eq subject ▸ h)

/-- Each method shown is listed by a type at the end of its route. -/
theorem shownMethods_listed (subject : TypeId) : ∀ f ∈ s.shownMethods subject,
    s.Approach subject f.route f.owner ∧ f.member ∈ (s.describe f.owner).methods := by
  intro f hf
  exact visits_listed subject f (mem_visits_of_shown hf)

/-- For each method met, one of its signature is shown. -/
theorem exists_shown_of_mem_visits {v : Found Method} (h : v ∈ s.visits subject) :
    ∃ f ∈ s.shownMethods subject, s.signature f.member = s.signature v.member := by
  obtain ⟨f, hf, hsame⟩ := exists_mem_eraseDupsBy (r := s.SameSignature) (by simp [SameSignature]) h
  refine ⟨f, s.shownMethods_eq subject ▸ hf, ?_⟩
  exact (of_decide_eq_true hsame).symm

theorem shownMethods_signatures_nodup (subject : TypeId) :
    ((s.shownMethods subject).map fun f => s.signature f.member).Nodup := by
  rw [shownMethods_eq, List.Nodup, List.pairwise_map]
  refine (pairwise_eraseDupsBy _).imp fun {f g} hne heq => ?_
  exact of_decide_eq_false hne heq.symm

theorem shownMethods_nodup (subject : TypeId) : (s.shownMethods subject).Nodup :=
  List.Nodup.of_map _ (shownMethods_signatures_nodup subject)

end Schema
end Introspect
