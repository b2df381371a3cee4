import Introspect.Schema.Basic

/-! Later changes to a member that is already described. -/
namespace Introspect

/-- Detaching forgets the declaring type. The declared types and the host code can be dropped too. -/
structure Amendment where
  detach : Bool := false
  dropDeclared : Bool := false
  dropCode : Bool := false

inductive MemberKind
  | method
  | field
  | constructor
  deriving DecidableEq, Repr

namespace Amendment

def method (a : Amendment) (m : Method) : Method :=
  { m with
    declaring := if a.detach then none else m.declaring
    declaredReturns := if a.dropDeclared then .empty else m.declaredReturns
    declaredParams := if a.dropDeclared then [] else m.declaredParams
    callable := if a.dropCode then none else m.callable }

def field (a : Amendment) (f : Field) : Field :=
  { f with
    declaring := if a.detach then none else f.declaring
    declaredType := if a.dropDeclared then .empty else f.declaredType
    reader := if a.dropCode then none else f.reader
    writer := if a.dropCode then none else f.writer }

/-- A constructor has no declared types beside its erased ones. -/
def constructor (a : Amendment) (c : Constructor) : Constructor :=
  { c with
    declaring := if a.detach then none else c.declaring
    factory := if a.dropCode then none else c.factory }

def apply (a : Amendment) (kind : MemberKind) (index : Nat) (d : Description) : Description :=
  match kind with
  | .method => { d with methods := d.methods.modify index a.method }
  | .field => { d with fields := d.fields.modify index a.field }
  | .constructor => { d with constructors := d.constructors.modify index a.constructor }

end Amendment

def Schema.amend (s : Schema) (id : TypeId) (kind : MemberKind) (index : Nat) (a : Amendment) : Schema :=
  s.update id (a.apply kind index)

end Introspect
