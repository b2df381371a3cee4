import Introspect.Proofs.Runs
import Introspect.Proofs.Sifting
import Mathlib.Data.List.Forall2

/-! What the signature of a method tells of the method: its name, and the names and ranks of its erased
types. Types that share a name cannot be told apart. -/
namespace Introspect

/-- A type name that can be told from what stands around it in a signature. -/
structure LegibleName (name : String) : Prop where
  hash : '#' ∉ name.toList
  comma : ',' ∉ name.toList
  bracket : name.toList.getLast? ≠ some ']'
  valid : name ≠ "<invalid>"

/-- Letters, digits and underscores. -/
def isIdentifier (name : String) : Bool := name.toList.all fun c => c.isAlphanum || c == '_'

theorem notMem_of_isIdentifier {name : String} (h : isIdentifier name) {c : Char}
    (hc : ¬ (c.isAlphanum || c == '_')) : c ∉ name.toList :=
  fun hm => hc (List.all_eq_true.1 h c hm)

theorem legibleName_of_isIdentifier {name : String} (h : isIdentifier name) : LegibleName name where
  hash := notMem_of_isIdentifier h (by decide)
  comma := notMem_of_isIdentifier h (by decide)
  bracket hlast := notMem_of_isIdentifier h (by decide) (List.mem_of_getLast? hlast)
  valid := by
    rintro rfl
    exact absurd h (by decide)

/-- So many pairs of brackets. -/
private def brackets (rank : Nat) : List Char := (List.replicate rank ['[', ']']).flatten

private theorem brackets_succ (rank : Nat) : brackets (rank + 1) = brackets rank ++ ['[', ']'] := by
  simp [brackets, List.replicate_succ']

/-- A name that ends in no bracket ends where the brackets begin. -/
private theorem append_brackets_inj {name name' : List Char} (hname : name.getLast? ≠ some ']')
    (hname' : name'.getLast? ≠ some ']') {rank rank' : Nat}
    (h : name ++ brackets rank = name' ++ brackets rank') : name = name' ∧ rank = rank' := by
  induction rank generalizing rank' with
  | zero =>
    cases rank' with
    | zero => simpa [brackets] using h
    | succ rank' =>
      rw [brackets_succ] at h
      have hlast := congrArg List.getLast? h
      simp [brackets, hname] at hlast
  | succ rank ih =>
    cases rank' with
    | zero =>
      rw [brackets_succ] at h
      have hlast := congrArg List.getLast? h.symm
      simp [brackets, hname'] at hlast
    | succ rank' =>
      rw [brackets_succ, brackets_succ, ← List.append_assoc, ← List.append_assoc] at h
      obtain ⟨rfl, rfl⟩ := ih (List.append_cancel_right h)
      exact ⟨rfl, rfl⟩

/-- What stands before a character is known if the character is not in it. -/
private theorem append_cons_inj {α : Type} {a : α} {l l' rest rest' : List α} (hl : a ∉ l)
    (hl' : a ∉ l') (h : l ++ a :: rest = l' ++ a :: rest') : l = l' ∧ rest = rest' := by
  induction l generalizing l' with
  | nil =>
    cases l' with
    | nil => exact ⟨rfl, (List.cons.inj h).2⟩
    | cons b l' => exact absurd (List.cons.inj h).1 (List.ne_of_not_mem_cons hl')
  | cons b l ih =>
    cases l' with
    | nil => exact absurd (List.cons.inj h).1.symm (List.ne_of_not_mem_cons hl)
    | cons b' l' =>
      obtain ⟨rfl, htail⟩ := List.cons.inj h
      obtain ⟨rfl, hrest⟩ :=
        ih (List.not_mem_of_not_mem_cons hl) (List.not_mem_of_not_mem_cons hl') htail
      exact ⟨rfl, hrest⟩

/-- The types of a signature, the result first. -/
def Method.erased (m : Method) : List RuntimeType := m.returns :: m.params

namespace Schema

variable {s : Schema}

/-- Types that are written in one way: of one rank, with elements of one name, or both invalid. -/
inductive Alike (s : Schema) : RuntimeType → RuntimeType → Prop
  | named {a b : TypeId} (h : s.nameOf a = s.nameOf b) (rank : UInt32) :
      Alike s ⟨some a, rank⟩ ⟨some b, rank⟩
  | invalid (rank rank' : UInt32) : Alike s ⟨none, rank⟩ ⟨none, rank'⟩

/-- An element of a type in the signature of some method. -/
def Signed (s : Schema) (a : TypeId) : Prop :=
  ∃ id, ∃ m ∈ (s.describe id).methods, ∃ t ∈ m.erased, t.element = some a

/-- Signatures can be read back. -/
structure Legible (s : Schema) : Prop where
  methods : ∀ id, ∀ m ∈ (s.describe id).methods, ':' ∉ m.name.toList
  types : ∀ a, s.Signed a → LegibleName (s.nameOf a)

private theorem toList_typeName {a : TypeId} (rank : UInt32) :
    (s.typeName ⟨some a, rank⟩).toList = (s.nameOf a).toList ++ brackets rank.toNat := by
  simp [typeName, brackets, String.toList_join, List.flatMap_def]

private theorem typeName_ne_invalid {a : TypeId} (h : LegibleName (s.nameOf a)) (rank : UInt32) :
    s.typeName ⟨some a, rank⟩ ≠ "<invalid>" := by
  intro heq
  have hlist := congrArg String.toList heq
  rw [toList_typeName] at hlist
  cases hrank : rank.toNat with
  | zero =>
    rw [hrank, brackets] at hlist
    exact h.valid (String.toList_injective (by simpa using hlist))
  | succ n =>
    rw [hrank, brackets_succ] at hlist
    have hlast := congrArg List.getLast? hlist
    simp at hlast

/-- What is written in one way is alike. -/
theorem alike_of_typeName_eq {t u : RuntimeType} (ht : ∀ a ∈ t.element, LegibleName (s.nameOf a))
    (hu : ∀ a ∈ u.element, LegibleName (s.nameOf a)) (h : s.typeName t = s.typeName u) :
    s.Alike t u := by
  obtain ⟨_ | a, rank⟩ := t
  · obtain ⟨_ | b, rank'⟩ := u
    · exact .invalid rank rank'
    · exact absurd h.symm (typeName_ne_invalid (hu b rfl) rank')
  · obtain ⟨_ | b, rank'⟩ := u
    · exact absurd h (typeName_ne_invalid (ht a rfl) rank)
    · have hlist := congrArg String.toList h
      rw [toList_typeName, toList_typeName] at hlist
      obtain ⟨hname, hrank⟩ := append_brackets_inj (ht a rfl).bracket (hu b rfl).bracket hlist
      obtain rfl := UInt32.toNat_inj.1 hrank
      exact .named (String.toList_injective hname) rank

/-- The list of parameter types as it is written. -/
private def paramsText (s : Schema) (params : List RuntimeType) : List Char :=
  if params.isEmpty then [] else
    ':' :: [','].intercalate (params.map fun t => (s.typeName t).toList)

private theorem toList_signature (m : Method) :
    (s.signature m).toList =
      (s.typeName m.returns).toList ++ '#' :: (m.name.toList ++ s.paramsText m.params) := by
  unfold signature paramsText
  cases m.params with
  | nil => simp
  | cons t rest => simp [String.toList_intercalate, Function.comp_def]

private theorem notMem_typeName {c : Char} (hc : c ∉ "<invalid>[]".toList) {t : RuntimeType}
    (h : ∀ a ∈ t.element, c ∉ (s.nameOf a).toList) : c ∉ (s.typeName t).toList := by
  obtain ⟨_ | a, rank⟩ := t
  · have hinvalid : "<invalid>".toList ⊆ "<invalid>[]".toList := by decide
    exact fun hm => hc (hinvalid hm)
  · rw [toList_typeName]
    have := h a rfl
    simp_all [brackets]

/-- A method name ends where the parameters begin. -/
private theorem append_paramsText_inj {name name' : List Char} (hname : ':' ∉ name)
    (hname' : ':' ∉ name') {ts us : List RuntimeType}
    (h : name ++ s.paramsText ts = name' ++ s.paramsText us) :
    name = name' ∧ s.paramsText ts = s.paramsText us := by
  unfold paramsText at h ⊢
  cases ts with
  | nil =>
    cases us with
    | nil => simpa using h
    | cons u us =>
      obtain ⟨rest, rfl⟩ : ∃ rest, name = name' ++ ':' :: rest := ⟨_, by simpa using h⟩
      simp at hname
  | cons t ts =>
    cases us with
    | nil =>
      obtain ⟨rest, rfl⟩ : ∃ rest, name' = name ++ ':' :: rest := ⟨_, by simpa using h.symm⟩
      simp at hname'
    | cons u us => exact (append_cons_inj hname hname' h).imp_right (congrArg (':' :: ·))

/-- Parameter types written in one way are alike, one by one. -/
private theorem alike_of_paramsText_eq {ts us : List RuntimeType}
    (ht : ∀ t ∈ ts, ∀ a ∈ t.element, LegibleName (s.nameOf a))
    (hu : ∀ u ∈ us, ∀ a ∈ u.element, LegibleName (s.nameOf a))
    (h : s.paramsText ts = s.paramsText us) : List.Forall₂ s.Alike ts us := by
  have hcomma {types : List RuntimeType}
      (htypes : ∀ t ∈ types, ∀ a ∈ t.element, LegibleName (s.nameOf a)) :
      ∀ text ∈ types.map (fun t => (s.typeName t).toList), ',' ∉ text := by
    intro text htext
    obtain ⟨t, hm, rfl⟩ := List.mem_map.1 htext
    exact notMem_typeName (by decide) fun a ha => (htypes t hm a ha).comma
  have htexts : ts.map (fun t => (s.typeName t).toList) = us.map fun t => (s.typeName t).toList := by
    unfold paramsText at h
    cases ts with
    | nil =>
      cases us with
      | nil => rfl
      | cons u us => simp at h
    | cons t ts =>
      cases us with
      | nil => simp at h
      | cons u us =>
        have hsplit := congrArg (List.splitOn ',') (List.cons_inj_right _ |>.1 h)
        rwa [List.splitOn_intercalate _ (hcomma ht) (by simp),
          List.splitOn_intercalate _ (hcomma hu) (by simp)] at hsplit
  have hsame : List.Forall₂ (fun t u => (s.typeName t).toList = (s.typeName u).toList) ts us := by
    rw [← List.forall₂_eq_eq_eq, List.forall₂_map_left_iff, List.forall₂_map_right_iff] at htexts
    exact htexts
  obtain ⟨hlength, hzip⟩ := List.forall₂_iff_zip.1 hsame
  refine List.forall₂_iff_zip.2 ⟨hlength, fun {t u} hm => ?_⟩
  have hmem := List.of_mem_zip hm
  exact alike_of_typeName_eq (ht t hmem.1) (hu u hmem.2) (String.toList_injective (hzip hm))

/-- Two methods whose names agree and whose erased types are alike. -/
structure AlikeMethods (s : Schema) (m m' : Method) : Prop where
  name : m.name = m'.name
  returns : s.Alike m.returns m'.returns
  params : List.Forall₂ s.Alike m.params m'.params

/-- Methods of one signature are alike. -/
theorem Legible.alike_of_signature_eq (h : s.Legible) {id id' : TypeId} {m m' : Method}
    (hm : m ∈ (s.describe id).methods) (hm' : m' ∈ (s.describe id').methods)
    (heq : s.signature m = s.signature m') : s.AlikeMethods m m' := by
  have htypes {id : TypeId} {m : Method} (hm : m ∈ (s.describe id).methods) {t : RuntimeType}
      (ht : t ∈ m.erased) : ∀ a ∈ t.element, LegibleName (s.nameOf a) :=
    fun a ha => h.types a ⟨id, m, hm, t, ht, ha⟩
  have hhash {id : TypeId} {m : Method} (hm : m ∈ (s.describe id).methods) :
      '#' ∉ (s.typeName m.returns).toList :=
    notMem_typeName (by decide) fun a ha => (htypes hm List.mem_cons_self a ha).hash
  -- Read from the left: the result ends at the first `#`, and the name where the parameters begin.
  have hlist := congrArg String.toList heq
  rw [toList_signature, toList_signature] at hlist
  obtain ⟨hreturns, hrest⟩ := append_cons_inj (hhash hm) (hhash hm') hlist
  obtain ⟨hname, hparams⟩ := append_paramsText_inj (h.methods id m hm) (h.methods id' m' hm') hrest
  refine ⟨String.toList_injective hname, ?_, ?_⟩
  · exact alike_of_typeName_eq (htypes hm List.mem_cons_self) (htypes hm' List.mem_cons_self)
      (String.toList_injective hreturns)
  · exact alike_of_paramsText_eq (fun t ht => htypes hm (List.mem_cons_of_mem _ ht))
      (fun t ht => htypes hm' (List.mem_cons_of_mem _ ht)) hparams

/-- Identifiers can be read back. It is enough to look at the listed types. -/
theorem legible_of_identifiers (h : ∀ id ∈ s.types.keys, ∀ m ∈ (s.describe id).methods,
    isIdentifier m.name ∧ ∀ t ∈ m.erased, ∀ a ∈ t.element, isIdentifier (s.nameOf a)) :
    s.Legible := by
  have hmethod := describe_of_listed (P := fun d => ∀ m ∈ d.methods,
    isIdentifier m.name ∧ ∀ t ∈ m.erased, ∀ a ∈ t.element, isIdentifier (s.nameOf a))
    (fun _ _ _ hm => absurd hm List.not_mem_nil) h
  constructor
  · exact fun id m hm => notMem_of_isIdentifier (hmethod id m hm).1 (by decide)
  · rintro a ⟨id, m, hm, t, ht, ha⟩
    exact legibleName_of_isIdentifier ((hmethod id m hm).2 t ht a ha)

/-- For each method met, just one of its signature is shown, and the two methods are alike. -/
theorem Legible.shown_alike (h : s.Legible) (subject : TypeId) {v : Found Method}
    (hv : v ∈ s.visits subject) :
    ∃ f ∈ s.shownMethods subject, s.signature f.member = s.signature v.member ∧
      s.AlikeMethods f.member v.member ∧
      ∀ g ∈ s.shownMethods subject, s.signature g.member = s.signature v.member → g = f := by
  obtain ⟨f, hf, hsame⟩ := exists_shown_of_mem_visits hv
  have hlisted := (shownMethods_listed subject f hf).2
  refine ⟨f, hf, hsame, h.alike_of_signature_eq hlisted (visits_listed subject v hv).2 hsame, ?_⟩
  intro g hg hg'
  exact List.inj_on_of_nodup_map (shownMethods_signatures_nodup subject) hg hf (hg'.trans hsame.symm)

/-- A class under the name that a record has too, methods that take the one or the other, and methods that
take types without element. -/
def clashing : List Operation := [
  .reopen baseClass {} "Ref",
  .reopen storeClass {} "Store",
  .declare storeClass (.method { name := "setItem", params := [.record .ref], body := .nothing }),
  .declare storeClass (.method
    { name := "setItem", params := [.object], declaredParams := [.plain (.of baseClass)],
      body := .nothing }),
  .declare storeClass (.method
    { name := "setNone", params := [.object], declaredParams := [.applied .invalid []],
      body := .nothing }),
  .declare storeClass (.method
    { name := "setNone", params := [.object], declaredParams := [.array (.applied .invalid [])],
      body := .nothing })]

theorem clashing_legible : (run clashing).Legible := legible_of_identifiers (by decide)

/-- A method that takes the class is dropped for one that takes the record. -/
theorem shown_alike_clashing :
    let s := run clashing
    s.Legible ∧ ∃ v ∈ s.visits storeClass, ∃ f ∈ s.shownMethods storeClass,
      v.member.params = [.of baseClass] ∧ f.member.params = [.of (.record "Ref")] ∧
        s.AlikeMethods f.member v.member := by
  intro s
  obtain ⟨v, f, hv, hf, hclass, hrecord, hsame⟩ : ∃ v f, (s.visits storeClass)[1]? = some v ∧
      (s.shownMethods storeClass)[0]? = some f ∧ v.member.params = [.of baseClass] ∧
      f.member.params = [.of (.record "Ref")] ∧ s.signature f.member = s.signature v.member :=
    ⟨_, _, rfl, rfl, rfl, rfl, by decide⟩
  have hshown := List.mem_of_getElem? hf
  have hmet := List.mem_of_getElem? hv
  obtain ⟨g, _, _, halike, hunique⟩ := clashing_legible.shown_alike storeClass hmet
  obtain rfl := hunique f hshown hsame
  exact ⟨clashing_legible, v, hmet, f, hshown, hclass, hrecord, halike⟩

/-- Two classes, and one whose name reads like a list of both. -/
def merging : List Operation := clashing ++ [
  .reopen (.described "First" 3) {} "A",
  .reopen (.described "Second" 4) {} "B",
  .reopen derivedClass {} "Derived",
  .declare derivedClass (.superclass { base := some (.described "A,B" 5) }),
  .declare storeClass (.method
    { name := "put", params := [.object], declaredParams := [.plain (.of (.described "A,B" 5))],
      body := .nothing }),
  .declare storeClass (.method
    { name := "put", params := [.int, .int],
      declaredParams := [.plain (.of (.described "First" 3)), .plain (.of (.described "Second" 4))],
      body := .nothing })]

/-- A method of the name is dropped for one that takes other types. -/
def DropsOther (s : Schema) (subject : TypeId) (name : String) : Prop :=
  ∃ f ∈ s.shownMethods subject, ∃ v ∈ s.visits subject, f.member.name = name ∧ v.member.name = name ∧
    s.signature f.member = s.signature v.member ∧ f.member.params ≠ v.member.params

theorem DropsOther.of_getElem? {s : Schema} {subject : TypeId} {name : String} (i j : Nat)
    (h : ∃ f v, (s.shownMethods subject)[i]? = some f ∧ (s.visits subject)[j]? = some v ∧
      f.member.name = name ∧ v.member.name = name ∧ s.signature f.member = s.signature v.member ∧
      f.member.params ≠ v.member.params) : s.DropsOther subject name := by
  obtain ⟨f, v, hf, hv, hdiffer⟩ := h
  exact ⟨f, List.mem_of_getElem? hf, v, List.mem_of_getElem? hv, hdiffer⟩

/-- Types that share a name, types without element, and a name with a comma in it. -/
theorem merging_drops_other :
    (run merging).DropsOther storeClass "setItem" ∧ (run merging).DropsOther storeClass "setNone" ∧
      (run merging).DropsOther storeClass "put" := by
  refine ⟨.of_getElem? 0 1 ?_, .of_getElem? 1 3 ?_, .of_getElem? 2 5 ?_⟩
  · exact ⟨_, _, rfl, rfl, rfl, rfl, by decide, by decide⟩
  · exact ⟨_, _, rfl, rfl, rfl, rfl, by decide, by decide⟩
  · exact ⟨_, _, rfl, rfl, rfl, rfl, by decide, by decide⟩

end Schema
end Introspect
