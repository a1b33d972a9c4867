import LiftedPlanning.Fluent

/-!
# Model errors

What can be wrong with a declaration, an expression or its evaluation. Errors carry their cause;
`ModelError.message` words it.
-/

namespace LiftedPlanning

inductive ModelError where
  | unknownType (name : String)
  | duplicateType (name : String)
  | duplicateObject (name : String)
  | unknownObject (name : String)
  | duplicateFluent (name : String)
  | unknownFluent (name : String)
  | duplicateAction (name : String)
  | unknownAction (name : String)
  | arityMismatch (item : String) (expected found : Nat)
  | typeMismatch (item arg expected found : String)
  | unboundVariable (name : String)
  | undefinedValue (i : FluentInstance)
  | notBoolean (e : Expr)
  | notNumeric (e : Expr)
  | notObject (e : Expr)
  | divisionByZero (e : Expr)
deriving DecidableEq

namespace ModelError

def message : ModelError → String
  | unknownType t => "unknown type " ++ t
  | duplicateType t => "type " ++ t ++ " is already declared"
  | duplicateObject o => "object " ++ o ++ " is already declared"
  | unknownObject o => "unknown object " ++ o
  | duplicateFluent f => "fluent " ++ f ++ " is already declared"
  | unknownFluent f => "unknown fluent " ++ f
  | duplicateAction a => "action " ++ a ++ " is already declared"
  | unknownAction a => "unknown action " ++ a
  | arityMismatch item expected found =>
    item ++ " expects " ++ toString expected ++ " arguments, found " ++ toString found
  | typeMismatch item arg expected found =>
    "argument " ++ arg ++ " of " ++ item ++ " has type " ++ found ++ ", expected " ++ expected
  | unboundVariable x => "variable ?" ++ x ++ " is not bound"
  | undefinedValue i => "value of " ++ i.text ++ " is undefined"
  | notBoolean e => "expression " ++ e.text ++ " is not boolean"
  | notNumeric e => "expression " ++ e.text ++ " is not numeric"
  | notObject e => "expression " ++ e.text ++ " does not denote an object"
  | divisionByZero e => "division by zero in " ++ e.text

/-- A value that a fluent does not accept, where `item` wants one. -/
def wrongValue (item arg : String) (expected : ValueType) (found : Value) : ModelError :=
  typeMismatch item arg expected.name found.text

end ModelError

end LiftedPlanning
