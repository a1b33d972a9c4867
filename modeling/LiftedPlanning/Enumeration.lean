import LiftedPlanning.Tuples
import LiftedPlanning.Vocabulary

/-!
# Enumeration

The finite domains that parameters range over, and the argument lists that fit a parameter list.
Grounding, quantifier expansion and direct evaluation of quantifiers all draw their arguments from
here, so they agree on which there are and in which order.
-/

namespace LiftedPlanning.Vocabulary

/-- The objects of a type or one of its subtypes, in order of declaration. -/
def objectsOf (V : Vocabulary) (type : String) : Except ModelError (List Object) :=
  if V.types.contains type then .ok (V.objects.filter fun o => V.types.isCompatible o.type type)
  else .error (.unknownType type)

def domain (V : Vocabulary) (p : Parameter) : Except ModelError (List String) :=
  return (← V.objectsOf p.type).map Object.name

def domains (V : Vocabulary) (params : List Parameter) : Except ModelError (List (List String)) :=
  params.mapM V.domain

/-- Every list of arguments that fits the parameters, in lexicographic order of the positions at
which the objects were declared. -/
def bindings (V : Vocabulary) (params : List Parameter) :
    Except ModelError (List (List String)) :=
  return listTuples (← V.domains params)

/-- The largest count there is, 2⁶⁴ - 1; larger numbers are counted as this one. -/
def countLimit : Nat := 18446744073709551615

def countStep (V : Vocabulary) (n : Nat) (p : Parameter) : Except ModelError Nat :=
  return min (n * (← V.domain p).length) countLimit

/-- How many argument lists fit the parameters, counting no further than `countLimit`. -/
def countBindings (V : Vocabulary) (params : List Parameter) : Except ModelError Nat :=
  params.foldlM V.countStep 1

/-! ## Quantifier expansion -/

/-- The junction of the instances of a body that has no quantifier; a truth value if there are no
instances. -/
def expandBody (V : Vocabulary) (q : Quantifier) (vars : List Parameter) (body : Expr) :
    Except ModelError Expr := do
  match ← V.bindings vars with
  | [] => return .bool q.junction.neutral
  | args => return .junction q.junction (args.map fun os => body.substitute (.ofArgs vars os))

mutual

/-- Replaces every quantifier by the junction of the instances of its body. -/
def expand (V : Vocabulary) : Expr → Except ModelError Expr
  | .const v => .ok (.const v)
  | .var x => .ok (.var x)
  | .fluent f args => return .fluent f (← V.expandAll args)
  | .not e => return .not (← V.expand e)
  | .junction op es => return .junction op (← V.expandAll es)
  | .series op es => return .series op (← V.expandAll es)
  | .binary op a b => return .binary op (← V.expand a) (← V.expand b)
  | .quantified q vars body => do
    let body ← V.expand body
    V.expandBody q vars body

def expandAll (V : Vocabulary) : List Expr → Except ModelError (List Expr)
  | [] => .ok []
  | e :: es => return (← V.expand e) :: (← V.expandAll es)

end

theorem expandAll_eq (V : Vocabulary) (es : List Expr) : V.expandAll es = es.mapM V.expand := by
  induction es with
  | nil => rfl
  | cons e es ih => simp [expandAll, ih]

end LiftedPlanning.Vocabulary
