import LiftedPlanning.Expr.Basic

/-!
# Fluents

A fluent is a symbol whose value may change from state to state: a predicate or a numeric
function with typed parameters. Applied to objects it becomes a fluent instance, which is what
states give values to.
-/

namespace LiftedPlanning

inductive ValueType where
  | bool
  | numeric
deriving DecidableEq

namespace ValueType

def name : ValueType → String
  | bool => "Bool"
  | numeric => "Numeric"

def admits : ValueType → Value → Bool
  | bool, .bool _ => true
  | numeric, .number _ => true
  | _, _ => false

end ValueType

/-- A predicate or a numeric function with its signature. -/
structure Fluent where
  name : String
  valueType : ValueType
  signature : List Parameter
  default : Option Value
deriving DecidableEq

namespace Fluent

def predicate (name : String) (signature : List Parameter) : Fluent :=
  ⟨name, .bool, signature, none⟩

def numeric (name : String) (signature : List Parameter) (default : Option Value) : Fluent :=
  ⟨name, .numeric, signature, default⟩

def arity (f : Fluent) : Nat := f.signature.length

/-- The value of an instance to which nothing gave one: the default, and false for a predicate
without a default. A numeric function without a default has none. -/
def implicitValue (f : Fluent) : Option Value :=
  match f.default, f.valueType with
  | some v, _ => some v
  | none, .bool => some (.bool false)
  | none, .numeric => none

def accepts (f : Fluent) (v : Value) : Bool := f.valueType.admits v

def json (f : Fluent) : Json :=
  .ofFields [("name", .ofString f.name), ("value_type", .ofString f.valueType.name),
    ("signature", .array (f.signature.map Parameter.json)),
    ("default", .ofOption Value.json f.default)]

end Fluent

structure FluentInstance where
  fluent : String
  args : List String
deriving DecidableEq

namespace FluentInstance

def text (i : FluentInstance) : String := Expr.list i.fluent i.args

def json (i : FluentInstance) : Json :=
  .ofFields [("fluent", .ofString i.fluent), ("args", .ofStrings i.args)]

/-! ## Order -/

/-- By fluent name, then by arguments from the left, a list before its continuations. -/
def order (a b : FluentInstance) : Ordering :=
  (compare a.fluent b.fluent).then (compare a.args b.args)

instance : Ord FluentInstance := ⟨order⟩

instance : Std.LawfulEqOrd FluentInstance where
  compare_self := Ordering.then_eq_eq.mpr ⟨Std.ReflCmp.compare_self, Std.ReflCmp.compare_self⟩
  eq_of_compare {a b} h := by
    obtain ⟨f, as⟩ := a
    obtain ⟨g, bs⟩ := b
    obtain ⟨h₁, h₂⟩ := Ordering.then_eq_eq.mp h
    exact congr (congrArg mk (Std.LawfulEqCmp.eq_of_compare h₁)) (Std.LawfulEqCmp.eq_of_compare h₂)

instance : Std.TransOrd FluentInstance :=
  inferInstanceAs (Std.TransCmp
    (compareLex (compareOn FluentInstance.fluent) (compareOn FluentInstance.args)))

end FluentInstance

end LiftedPlanning
