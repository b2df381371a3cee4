import Introspect.Naming
import Introspect.Schema.Hierarchy
import Introspect.Schema.Members

/-! Choice among the accessor methods of one property. Two candidates of which neither type accepts
the other conflict. -/
namespace Introspect

/-- A candidate is a method as it was found from the subject. -/
abbrev Candidate := Found Method

namespace Candidate

def returns (c : Candidate) : RuntimeType := c.member.returns

/-- The type a setter takes. -/
def parameter (c : Candidate) : RuntimeType := c.member.params.headD .invalid

/-- Whether the method reads a property. In strict naming an `is` method has to return `bool`. -/
def isGetter (strict : Bool) (c : Candidate) : Bool :=
  c.member.arity = 0 && Naming.isGetter c.member.name &&
    (!strict || !Naming.isPredicate c.member.name || c.returns.isBool)

def isSetter (c : Candidate) : Bool := c.member.arity = 1 && Naming.isSetter c.member.name

end Candidate

/-- The candidates of one property, in the order in which they were found. -/
structure CandidateGroup where
  first : Candidate
  rest : List Candidate := []

namespace CandidateGroup

def toList (g : CandidateGroup) : List Candidate := g.first :: g.rest

def add (g : CandidateGroup) (c : Candidate) : CandidateGroup := { g with rest := g.rest ++ [c] }

/-- Files a candidate under its property. A property name kept for internal use is passed over. -/
def file (t : Table String CandidateGroup) (c : Candidate) :
    Except Failure (Table String CandidateGroup) :=
  match Naming.propertyOf? c.member.name with
  | none => .error (.notAccessor c.member.name)
  | some property =>
    if Naming.isPropertyName property then
      .ok (t.insert property (((t.get? property).map (·.add c)).getD { first := c }))
    else .ok t

/-- The properties stand in the order in which they were first met. -/
def byProperty (candidates : List Candidate) : Except Failure (Table String CandidateGroup) :=
  candidates.foldlM file ∅

end CandidateGroup

inductive Selection
  | chosen (winner : Candidate)
  | conflict (first second : Candidate)

namespace Selection

/-- The candidate that gives the type. Of two in conflict it is the first. -/
def best : Selection → Candidate
  | chosen winner => winner
  | conflict first _ => first

/-- The most specific return type wins. Of candidates that return `bool` a later one wins if its name
starts with `is`; two candidates of any other one type conflict, and a conflict is final. -/
def getter (s : Schema) (best : Candidate) : List Candidate → Selection
  | [] => .chosen best
  | c :: rest =>
    if c.returns = best.returns then
      if !c.returns.isBool then .conflict best c
      else if Naming.isPredicate c.member.name then getter s c rest
      else getter s best rest
    else if s.accepts c.returns best.returns then getter s best rest
    else if s.accepts best.returns c.returns then getter s c rest
    else .conflict best c

/-- The more specific parameter wins, and the later setter if both are equal. A conflict stays. -/
def weigh (s : Schema) (selection : Selection) (c : Candidate) : Selection :=
  match selection with
  | .conflict first second => .conflict first second
  | .chosen best =>
    if s.accepts best.parameter c.parameter then .chosen c
    else if s.accepts c.parameter best.parameter then .chosen best
    else .conflict best c

end Selection
end Introspect
