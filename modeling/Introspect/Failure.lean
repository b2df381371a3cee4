import Introspect.Visibility

/-! Everything that can go wrong, as causes. A failure of host code reached through a member is
kept beneath the failure of the member. -/
namespace Introspect

/-- The two ways to use a property. -/
inductive Side
  | getter
  | setter
  deriving DecidableEq, Repr

def Side.name : Side → String
  | .getter => "getter"
  | .setter => "setter"

/-- The member that was to be used, with the name of the type that declares it. -/
inductive Site
  | method (name declaring : String)
  | read (field declaring : String)
  | write (field declaring : String)
  | construction (type : String)
  deriving DecidableEq, Repr

/-- Why a member was not tried. -/
inductive Refusal
  | inaccessible (visibility : Visibility)
  | argumentCount (expected given : Nat)
  | nullInstance
  | readOnly
  | noFactory
  deriving DecidableEq, Repr

/-- A property whose candidates conflict; `a` and `b` are the types of two that do. -/
structure Ambiguity where
  model : String
  property : String
  message : String
  a : String
  b : String
  declaring : String
  deriving DecidableEq, Repr

inductive Failure
  | badCast
  | missingCallable
  | runtime (message : String)
  | logic (message : String)
  | number (n : Int32)
  | text (s : String)
  | nestingTooDeep
  | notRegistered (type : String)
  | nameTaken (name : String)
  | signatureLength (method type : String)
  | notAccessor (name : String)
  | reflection (message : String)
  | propertyNotFound (type property : String) (side : Side)
  | ambiguous (ambiguity : Ambiguity)
  | noDefaultConstructor (type : String)
  | refused (site : Site) (reason : Refusal)
  | failed (site : Site) (cause : Failure)
  deriving DecidableEq, Repr

namespace Site

/-- The name under which a failure of the member is reported. -/
def member : Site → String
  | method name _ => name
  | read field _ => field
  | write field _ => field
  | construction type => type

def text : Site → String
  | method name declaring => s!"method '{name}' of '{declaring}'"
  | read field declaring => s!"field '{field}' of '{declaring}'"
  | write field declaring => s!"field '{field}' of '{declaring}'"
  | construction type => s!"constructor of '{type}'"

/-- What is said when an argument has the wrong type. A read takes no argument. -/
def mismatch? : Site → Option String
  | method name declaring => some s!"Argument type mismatch calling method '{name}' of '{declaring}'"
  | read _ _ => none
  | write field declaring => some s!"Value type mismatch assigning field '{field}' of '{declaring}'"
  | construction type => some s!"Argument type mismatch constructing '{type}'"

def error : Site → String
  | method name declaring => s!"Error invoking method '{name}' of '{declaring}'"
  | read field declaring => s!"Error reading field '{field}' of '{declaring}'"
  | write field declaring => s!"Error assigning field '{field}' of '{declaring}'"
  | construction type => s!"Error constructing '{type}'"

def refusal (s : Site) : Refusal → String
  | .inaccessible visibility => s!"Cannot access {visibility.name} {s.text}"
  | .argumentCount expected given =>
    s!"Wrong number of arguments for {s.text}: expected {expected}, got {given}"
  | .nullInstance => match s with
    | method _ _ => s!"Cannot invoke {s.text} on a null instance"
    | _ => s!"Cannot access {s.text} on a null instance"
  | .readOnly => s!"Cannot assign read-only {s.text}"
  | .noFactory => s!"Constructor of '{s.member}' has no factory"

end Site

namespace Failure

/-- A bare number or text that was thrown says nothing about the failure. -/
def isBare : Failure → Bool
  | number _ => true
  | text _ => true
  | _ => false

/-- What stands before the first NUL. -/
def untilNul (s : String) : String := String.ofList (s.toList.takeWhile (· ≠ Char.ofNat 0))

/-- The text of a failure. A text that describes a failure ends at its first NUL, and a text that was
thrown as such is whole. -/
def message : Failure → String
  | badCast => "bad any_cast"
  | missingCallable => "bad_function_call"
  | runtime message => untilNul message
  | logic message => untilNul message
  | number n => toString n.toInt
  | text s => s
  | nestingTooDeep => "accessor calls are nested too deeply"
  | notRegistered type => untilNul s!"Type '{type}' is not registered"
  | nameTaken name => untilNul s!"Type name '{name}' is already used by another type"
  | signatureLength method type =>
    untilNul s!"Generic signature of method '{method}' in type '{type}' does not match its parameter count"
  | notAccessor name =>
    untilNul s!"Error parsing property name '{name}'.  Didn't start with 'is', 'get' or 'set'."
  | reflection message => untilNul message
  | propertyNotFound type property side =>
    untilNul s!"There is no {side.name} for property named '{property}' in '{type}'"
  | ambiguous ambiguity => untilNul ambiguity.message
  | noDefaultConstructor type => untilNul s!"There is no default constructor for {type}"
  | refused site reason => untilNul (site.refusal reason)
  | failed site cause =>
    match cause, site.mismatch? with
    | badCast, some mismatch => untilNul mismatch
    | _, _ => untilNul (if cause.isBare then site.error else s!"{site.error}: {cause.message}")

end Failure
end Introspect
