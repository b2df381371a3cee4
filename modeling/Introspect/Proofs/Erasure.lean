import Introspect.Proofs.Runs
import Introspect.Schema.Resolution

/-! A declared type without variables is the same from everywhere. The erased parameters of a method are
erasures of the declared ones, so that without variables both say the same. -/
namespace Introspect

namespace TypeExpr

/-- The variable under the brackets of arrays. It alone decides about the erased type. -/
def elementVar? : TypeExpr → Option String
  | plain _ => none
  | var name => some name
  | applied _ _ => none
  | array component => component.elementVar?

theorem elementVar?_mem_vars {name : String} : (e : TypeExpr) → e.elementVar? = some name → name ∈ e.vars
  | var _, h => List.mem_singleton.2 (Option.some.inj h).symm
  | array component, h => elementVar?_mem_vars component h

theorem eraseWith_congr {f g : String → RuntimeType} :
    (e : TypeExpr) → (∀ name, e.elementVar? = some name → f name = g name) → e.eraseWith f = e.eraseWith g
  | plain _, _ => rfl
  | var name, h => h name rfl
  | applied _ _, _ => rfl
  | array component, h => congrArg RuntimeType.array (eraseWith_congr component h)

theorem eraseWith_of_vars_eq_nil (f g : String → RuntimeType) (e : TypeExpr) (h : e.vars = []) :
    e.eraseWith f = e.eraseWith g := by
  refine e.eraseWith_congr fun name hname => ?_
  have hmem := e.elementVar?_mem_vars hname
  rw [h] at hmem
  exact absurd hmem List.not_mem_nil

mutual

theorem bind_of_vars_eq_nil (f : String → TypeExpr) : (e : TypeExpr) → e.vars = [] → e.bind f = e
  | plain _, _ => rfl
  | var _, h => nomatch h
  | applied raw args, h => congrArg (applied raw) (bindAll_of_varsOf_eq_nil f args h)
  | array component, h => congrArg array (bind_of_vars_eq_nil f component h)

theorem bindAll_of_varsOf_eq_nil (f : String → TypeExpr) :
    (es : List TypeExpr) → varsOf es = [] → bindAll f es = es
  | [], _ => rfl
  | e :: rest, h => by
    obtain ⟨he, hrest⟩ := List.append_eq_nil_iff.1 h
    rw [bindAll, bind_of_vars_eq_nil f e he, bindAll_of_varsOf_eq_nil f rest hrest]

end

end TypeExpr

theorem HostType.eraseWith_expr (f : String → RuntimeType) (t : HostType) :
    t.expr.eraseWith f = t.erased := by
  induction t with
  | sequence shape element ih =>
    cases shape with
    | array => exact congrArg RuntimeType.array ih
    | list | deque => rfl
  | _ => rfl

namespace Method

/-- Each erased parameter is an erasure of the declared one beside it. -/
def Erased (m : Method) : Prop :=
  ∀ e t, (e, t) ∈ m.declaredParams.zip m.params → ∃ onVar, t = e.eraseWith onVar

/-- No variable in the declared parameters. -/
def Ground (m : Method) : Prop := ∀ e ∈ m.declaredParams, e.vars = []

end Method

private theorem mem_zip_map {α β γ : Type} {l : List α} {f : α → β} {g : α → γ} {b : β} {c : γ}
    (h : (b, c) ∈ (l.map f).zip (l.map g)) : ∃ a ∈ l, f a = b ∧ g a = c := by
  rw [List.zip_map'] at h
  obtain ⟨a, ha, heq⟩ := List.mem_map.1 h
  exact ⟨a, ha, (Prod.mk.injEq ..).mp heq⟩

theorem MethodDeclaration.method_erased (m : MethodDeclaration) (id : TypeId) (scope : Description) :
    (m.method id scope).Erased := by
  intro e t h
  cases hempty : m.declaredParams.isEmpty with
  | true =>
    simp only [method, hempty, if_true] at h
    obtain ⟨p, _, rfl, rfl⟩ := mem_zip_map h
    exact ⟨fun _ => .object, (p.eraseWith_expr _).symm⟩
  | false =>
    simp only [method, hempty, Bool.false_eq_true, if_false] at h
    rw [← List.map_id m.declaredParams, List.map_map] at h
    obtain ⟨e, _, rfl, rfl⟩ := mem_zip_map h
    exact ⟨_, rfl⟩

theorem Amendment.method_erased (a : Amendment) (m : Method) (h : m.Erased) : (a.method m).Erased := by
  intro e t het
  cases hdrop : a.dropDeclared with
  | true => simp [method, hdrop] at het
  | false => exact h e t (by simpa [method, hdrop] using het)

theorem erased_lasting : Schema.Lasting fun _ d => ∀ m ∈ d.methods, m.Erased :=
  .of_methods (fun m id scope _ => m.method_erased id scope) Amendment.method_erased

namespace Schema

theorem resolveErased_of_vars_eq_nil (s : Schema) {e : TypeExpr} (h : e.vars = [])
    (declaring subject : TypeId) (f : String → RuntimeType) :
    s.resolveErased e declaring subject = e.eraseWith f := by
  unfold resolveErased resolve Description.erase
  rw [e.bind_of_vars_eq_nil _ h]
  exact e.eraseWith_of_vars_eq_nil _ f h

/-- The parameters of a method without variables are the same wherever they are seen from. -/
theorem paramsAt_of_ground (s : Schema) {m : Method} (he : m.Erased) (hg : m.Ground) (subject : TypeId) :
    s.paramsAt m subject = m.params := by
  unfold paramsAt
  cases m.declaring with
  | none => rfl
  | some id =>
    dsimp only
    split_ifs with hlength
    · have hpair : ∀ p ∈ m.declaredParams.zip m.params, s.resolveErased p.1 id subject = p.2 := by
        intro p hp
        obtain ⟨e, t⟩ := p
        obtain ⟨onVar, rfl⟩ := he e t hp
        exact s.resolveErased_of_vars_eq_nil (hg e (List.of_mem_zip hp).1) id subject onVar
      have hzip : (m.declaredParams.zip m.params).map (fun p => s.resolveErased p.1 id subject) =
          (m.declaredParams.zip m.params).map Prod.snd := List.map_congr_left hpair
      calc
        m.declaredParams.map (s.resolveErased · id subject)
          = ((m.declaredParams.zip m.params).map Prod.fst).map (s.resolveErased · id subject) := by
            rw [List.map_fst_zip (Nat.le_of_eq hlength)]
        _ = (m.declaredParams.zip m.params).map Prod.snd := by
            rw [List.map_map]
            exact hzip
        _ = m.params := List.map_snd_zip (Nat.le_of_eq hlength.symm)
    · rfl

end Schema
end Introspect
