import LiftedPlanning.Json.Basic

/-!
# Objects and parameters

An object is a named constant of a declared type. A parameter is a variable of such a type: the
parameter of an action or a fluent, or a quantified variable.
-/

namespace LiftedPlanning

structure Parameter where
  name : String
  type : String
deriving DecidableEq

structure Object where
  name : String
  type : String
deriving DecidableEq

def typedNameJson (name type : String) : Json :=
  .ofFields [("name", .ofString name), ("ty", .ofString type)]

namespace Parameter

/-- A variable is marked by a question mark. -/
def text (p : Parameter) : String := "?" ++ p.name ++ " - " ++ p.type

def json (p : Parameter) : Json := typedNameJson p.name p.type

def binds (params : List Parameter) (x : String) : Bool := params.any fun p => p.name = x

end Parameter

namespace Object

def text (o : Object) : String := o.name ++ " - " ++ o.type

def json (o : Object) : Json := typedNameJson o.name o.type

end Object

end LiftedPlanning
