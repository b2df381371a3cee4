/-! How far a member may be reached. -/
namespace Introspect

inductive Visibility
  | publicAccess
  | protectedAccess
  | packageAccess
  | privateAccess
  deriving DecidableEq, Repr

namespace Visibility

def name : Visibility → String
  | publicAccess => "public"
  | protectedAccess => "protected"
  | packageAccess => "package"
  | privateAccess => "private"

def ofCode? (code : Int32) : Option Visibility :=
  if code = 0 then some publicAccess
  else if code = 1 then some protectedAccess
  else if code = 2 then some packageAccess
  else if code = 3 then some privateAccess
  else none

/-- A code that stands for no visibility is still given a name. -/
def nameOfCode (code : Int32) : String := ((ofCode? code).map name).getD "unknown"

end Visibility
end Introspect
